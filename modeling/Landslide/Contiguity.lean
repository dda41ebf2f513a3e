import Landslide.Branches

/-!
# The versions of a stream

Versions are promised to be contiguous: the records of a stream are those of the
versions 0 to its tail.  An append at the tail keeps this.  An append at a version of its
own choice starts where it is told, so one past the next version leaves a hole, and the
tail is then past versions that have no record (`appendAt_leaves_hole`).

The states of a log have contiguous versions exactly when every append that chose its
version joined on to the versions before (`versions_contiguous_iff`).
-/

namespace Landslide

open TxnKv Std

section

variable {D S : Type}

/-- The records of a stream are those of the versions up to its tail. -/
def Contiguous (σ : Db D S) (stream : String) : Prop :=
  ∀ v, (σ.get (.record stream v)).isSome = true ↔ v < nextVersion σ stream

/-- An append to the stream at a version of its own choice leaves no version out. -/
def Call.Joins (σ : Db D S) (stream : String) : Call D S → Prop
  | .appendAt s fromVersion _ _ _ => s = stream → fromVersion ≤ nextVersion σ stream
  | _ => True

/-- The call does not make the stream a fork and does not purge it. -/
def Call.KeepsRoot (stream : String) : Call D S → Prop
  | .fork _ _ child => child ≠ stream
  | .purgeBelow s _ => s ≠ stream
  | _ => True

/-! ## One call -/

variable {σ σ' : Db D S} {stream : String}

theorem Contiguous.congr (h : Contiguous σ stream)
    (hrec : ∀ v, σ'.get (.record stream v) = σ.get (.record stream v))
    (htail : σ'.get (.tail stream) = σ.get (.tail stream)) : Contiguous σ' stream := by
  intro v
  rw [hrec, nextVersion_congr htail]
  exact h v

theorem contiguous_congr (hrec : ∀ v, σ'.get (.record stream v) = σ.get (.record stream v))
    (htail : σ'.get (.tail stream) = σ.get (.tail stream)) :
    Contiguous σ' stream ↔ Contiguous σ stream :=
  ⟨fun h => h.congr (fun v => (hrec v).symm) htail.symm, fun h => h.congr hrec htail⟩

theorem Appended.nextVersion_max {req : AppendReq D} {seq : Nat} {info : CommitInfo}
    (happ : Appended req seq σ info σ') :
    nextVersion σ' req.stream = max (nextVersion σ req.stream) (info.lastVersion + 1) := by
  rw [nextVersion, happ.tail, nextVersion]
  cases tailVersion σ req.stream with
  | none => simp
  | some v =>
      simp only [Option.elim_some]
      omega

/-- An append keeps versions contiguous exactly when it starts at one that has a record,
or at the next one. -/
theorem Appended.contiguous_iff {req : AppendReq D} {seq : Nat} {info : CommitInfo}
    (happ : Appended req seq σ info σ') (h : Contiguous σ req.stream) :
    Contiguous σ' req.stream ↔ info.firstVersion ≤ nextVersion σ req.stream := by
  have hlast := happ.last
  have hpos := happ.nonempty
  have hnext := happ.nextVersion_max
  have hin : ∀ v, info.firstVersion ≤ v → v ≤ info.lastVersion →
      (σ'.get (.record req.stream v)).isSome = true := by
    intro v hlo hhi
    have hi : v - info.firstVersion < req.events.length := by omega
    obtain ⟨env, henv, -⟩ := happ.records _ _ (List.getElem?_eq_getElem hi)
    rw [Nat.add_sub_cancel' hlo] at henv
    rw [henv]
    rfl
  have hout : ∀ v, v < info.firstVersion ∨ info.lastVersion < v →
      σ'.get (.record req.stream v) = σ.get (.record req.stream v) :=
    fun v hv => happ.get_record fun _ => hv
  constructor
  · intro h'
    by_contra hgap
    -- the next version before is below the batch, and stays without a record
    have hold := hout (nextVersion σ req.stream) (.inl (by omega))
    have hsome := (h' (nextVersion σ req.stream)).mpr (by omega)
    rw [hold] at hsome
    exact absurd ((h _).mp hsome) (Nat.lt_irrefl _)
  · intro hjoin v
    rw [hnext]
    by_cases hv : info.firstVersion ≤ v ∧ v ≤ info.lastVersion
    · refine ⟨fun _ => by omega, fun _ => hin v hv.1 hv.2⟩
    · rw [hout v (by omega), h v]
      omega

/-- The appends of requests without a version of their own keep versions contiguous. -/
theorem Replayed.contiguous {reqs : List (Req D)} {seq seq' : Nat} {infos : List CommitInfo}
    (hr : Replayed reqs seq σ infos seq' σ') (hat : AtTail reqs) (h : Contiguous σ stream) :
    Contiguous σ' stream := by
  induction hr with
  | nil => exact h
  | @append req reqs _ _ σ₀ σ₁ _ info _ happ _ ih =>
      refine ih (fun r hmem => hat r (List.mem_cons_of_mem _ hmem)) ?_
      by_cases hs : req.stream = stream
      · subst hs
        refine (happ.contiguous_iff h).mpr ?_
        rw [(happ.nextVersion_eq (hat _ List.mem_cons_self)).1]
      · exact h.congr (fun v => happ.get_record fun heq => absurd heq.symm hs)
          (happ.frame _ (by simp [Ne.symm hs]) (by simp) (by simp))
  | fence _ ih =>
      exact ih (fun r hmem => hat r (List.mem_cons_of_mem _ hmem))
        (h.congr (fun _ => get_fenced_of_ne _ _ _ (by simp)) (get_fenced_of_ne _ _ _ (by simp)))

/-- A call keeps the versions of a stream contiguous exactly when it joins on to them. -/
theorem Call.Effect.contiguous_iff {call : Call D S} {infos : List CommitInfo}
    (he : call.Effect σ infos σ') (hroot : call.KeepsRoot stream) (h : Contiguous σ stream) :
    Contiguous σ' stream ↔ call.Joins σ stream := by
  have keeps : (∀ v, σ'.get (.record stream v) = σ.get (.record stream v)) →
      σ'.get (.tail stream) = σ.get (.tail stream) → (Contiguous σ' stream ↔ True) :=
    fun hrec htail => (contiguous_congr hrec htail).trans (iff_true_intro h)
  have stamped : call.KeepsRecords → Stamped call.reqs σ infos σ' → Contiguous σ' stream := by
    rintro hcall ⟨seq', σ₁, hr, rfl⟩
    exact (hr.contiguous hcall.atTail h).congr (fun _ => Store.get_put_of_ne _ _ (by simp))
      (Store.get_put_of_ne _ _ (by simp))
  cases call with
  | append | appendWithToken | commit => exact iff_of_true (stamped trivial he) trivial
  | appendAt s fromVersion expected events stamps =>
      obtain ⟨seq', σ₁, hr, rfl⟩ := he
      cases hr with
      | append happ hnil =>
          cases hnil
          rw [contiguous_congr (fun _ => Store.get_put_of_ne _ _ (by simp))
            (Store.get_put_of_ne _ _ (by simp))]
          by_cases hs : s = stream
          · subst hs
            rw [happ.contiguous_iff h, happ.first]
            exact ⟨fun hle _ => hle, fun hle => hle rfl⟩
          · exact iff_of_true (h.congr (fun v => happ.get_record fun heq => absurd heq.symm hs)
              (happ.frame _ (by simp [Ne.symm hs]) (by simp) (by simp))) fun heq => absurd heq hs
  | fence =>
      cases he
      exact keeps (fun _ => get_fenced_of_ne _ _ _ (by simp)) (get_fenced_of_ne _ _ _ (by simp))
  | fork parent atVersion child =>
      obtain ⟨parentTail, -, -, -, rfl⟩ := he
      have hne : stream ≠ child := Ne.symm hroot
      exact keeps (fun _ => get_forked_of_ne (by simp) (by simp) (by simp))
        (get_forked_of_ne (by simp) (by simp [hne]) (by simp))
  | trim | trimBelow =>
      cases he
      exact keeps (fun _ => Store.get_put_of_ne _ _ (by simp)) (Store.get_put_of_ne _ _ (by simp))
  | purgeBelow s =>
      obtain ⟨versions, rfl⟩ := he
      have hne : stream ≠ s := Ne.symm hroot
      exact keeps (fun _ => get_purged_of_ne _ _ (by simp [hne])) (get_purged_of_ne _ _ (by simp))
  | deleteStream =>
      obtain ⟨-, rfl⟩ := he
      exact keeps (fun _ => Store.get_put_of_ne _ _ (by simp)) (Store.get_put_of_ne _ _ (by simp))
  | publishSnapshot =>
      cases he
      exact keeps (fun _ => get_published_of_ne (by simp) (by simp) (by simp))
        (get_published_of_ne (by simp) (by simp) (by simp))
  | compact =>
      obtain ⟨record, state, rfl⟩ := he
      exact keeps (fun _ => get_published_of_ne (by simp) (by simp) (by simp))
        (get_published_of_ne (by simp) (by simp) (by simp))

/-! ## Runs -/

theorem Call.Joins.congr {call : Call D S} (h : call.Joins σ stream)
    (htail : σ'.get (.tail stream) = σ.get (.tail stream)) : call.Joins σ' stream := by
  cases call with
  | appendAt =>
      intro hs
      rw [nextVersion_congr htail]
      exact h hs
  | append | appendWithToken | commit | fence | fork | trim | trimBelow | purgeBelow | deleteStream
  | publishSnapshot | compact => trivial

theorem contiguous_empty (stream : String) : Contiguous (∅ : Db D S) stream := by
  intro v
  simp [nextVersion, tailVersion]

/-- One entry of a log keeps versions contiguous exactly when its call joins on. -/
theorem contiguous_succ_iff [Payload D] (acts : Schedule D S) {n : Nat} {c : Entry D S}
    (hc : (reach acts).log[n]? = some c) (hroot : c.call.KeepsRoot stream)
    (h : Contiguous (stateOf (reach acts).log n) stream) :
    Contiguous (stateOf (reach acts).log (n + 1)) stream ↔
      c.call.Joins (stateOf (reach acts).log n) stream := by
  obtain ⟨σ', heff, hsucc, -⟩ := effect_reach acts hc
  have hview : ∀ k, k ≠ .seq → (viewOf (reach acts).log n c).get k =
      (stateOf (reach acts).log n).get k := fun k hk => get_viewOf hk
  rw [contiguous_congr (fun _ => hsucc _ (by simp)) (hsucc _ (by simp)),
    heff.contiguous_iff hroot (h.congr (fun _ => hview _ (by simp)) (hview _ (by simp)))]
  exact ⟨fun hj => hj.congr (hview _ (by simp)).symm, fun hj => hj.congr (hview _ (by simp))⟩

/-- The versions of a stream that is no fork and is never purged are contiguous in every
state, exactly when every append at a version of its own choice joined on. -/
theorem versions_contiguous_iff [Payload D] (acts : Schedule D S) (stream : String)
    (hacts : ∀ client call, .invoke client call ∈ acts → call.KeepsRoot stream) :
    (∀ n ≤ (reach acts).log.length, Contiguous (stateOf (reach acts).log n) stream) ↔
      ∀ (n : Nat) (c : Entry D S), (reach acts).log[n]? = some c →
        c.call.Joins (stateOf (reach acts).log n) stream := by
  constructor
  · intro h n c hc
    obtain ⟨hn, -⟩ := List.getElem?_eq_some_iff.mp hc
    exact (contiguous_succ_iff acts hc (call_reach hacts hc) (h n hn.le)).mp (h (n + 1) hn)
  · intro h n
    induction n with
    | zero => exact fun _ => contiguous_empty stream
    | succ n ih =>
        intro hn
        have hc := List.getElem?_eq_getElem hn
        exact (contiguous_succ_iff acts hc (call_reach hacts hc) (ih (Nat.le_of_succ_le hn))).mpr
          (h n _ hc)

/-- An append, and one at a version of its own choice. -/
def appendedAt (fromVersion : Nat) : Schedule Bytes Unit :=
  [.invoke 0 (.append "s" .any (one "x") fives)] ++ List.replicate 10 (.step 0) ++
    [.invoke 0 (.appendAt "s" fromVersion .any (one "y") fives)] ++ List.replicate 10 (.step 0)

theorem mem_appendedAt {fromVersion client : Nat} {call : Call Bytes Unit}
    (h : .invoke client call ∈ appendedAt fromVersion) :
    call = .append "s" .any (one "x") fives ∨
      call = .appendAt "s" fromVersion .any (one "y") fives := by
  simp only [appendedAt, List.mem_append, List.mem_singleton, List.mem_replicate,
    Action.invoke.injEq, reduceCtorEq, and_false, or_false] at h
  exact h.imp And.right And.right

/-- The second append replaces the record of the first. -/
theorem versions_contiguous_replaced :
    nextVersion (reach (appendedAt 0)).store "s" = 1 ∧
      ∀ n ≤ (reach (appendedAt 0)).log.length,
        Contiguous (stateOf (reach (appendedAt 0)).log n) "s" := by
  refine ⟨by decide +kernel, ?_⟩
  refine (versions_contiguous_iff (appendedAt 0) "s" fun client call h => ?_).mpr fun n c hc => ?_
  · rcases mem_appendedAt h with rfl | rfl
    · trivial
    · trivial
  · have hcall : c.call = .append "s" .any (one "x") fives ∨
        c.call = .appendAt "s" 0 .any (one "y") fives :=
      call_reach (fun _ _ h => mem_appendedAt h) hc
    rcases hcall with hcall | hcall
    · rw [hcall]
      trivial
    · rw [hcall]
      exact fun _ => Nat.zero_le _

/-- An append at version 5 of a stream with one event leaves versions 1 to 4 out. -/
theorem appendAt_leaves_hole : ¬ Contiguous (reach (appendedAt 5)).store "s" := by
  intro h
  have hnone : (reach (appendedAt 5)).store.get (.record "s" 1) = none := by decide +kernel
  have hnext : nextVersion (reach (appendedAt 5)).store "s" = 6 := by decide +kernel
  have hsome := (h 1).mpr (by rw [hnext]; decide)
  rw [hnone] at hsome
  cases hsome

end

end Landslide
