import Landslide.Compaction

/-!
# Deleting and purging under a fork

A fork reads the events of its whole chain of ancestors.  A pin protects them
from deletion and purge, but it stands on the direct parent only and counts only
while the child is not deleted.  With `a ← b ← c`, once `b` is deleted nothing
holds `a` for `c`, and deleting `a` empties the history of `c`
(`removals_lose_history`).

Removals are harmless to a live stream as long as they leave a live pin high
enough on every stream it inherits from (`removals_keep_history`).
-/

namespace Landslide

open TxnKv Std

section

variable {D S : Type}

/-! ## Removals -/

/-- The operations that remove history. -/
inductive Removal where
  | deleteStream (stream : String)
  | purgeBelow (stream : String) (floor : Nat)

namespace Removal

/-- The stream of a removal. -/
def stream : Removal → String
  | .deleteStream stream => stream
  | .purgeBelow stream _ => stream

/-- The call of a removal. -/
def call : Removal → Call D S
  | .deleteStream stream => .deleteStream stream
  | .purgeBelow stream floor => .purgeBelow stream floor

/-- The state after a removal. -/
def exec [Payload D] (op : Removal) (σ : Db D S) : Db D S := (op.call.exec σ).2

end Removal

/-- The state after a list of removals. -/
def removals [Payload D] (ops : List Removal) (σ : Db D S) : Db D S :=
  ops.foldl (fun σ op => op.exec σ) σ

/-! ## What a fork inherits -/

/-- `c` inherits the events of `p` up to version `m`. -/
inductive Inherits (σ : Db D S) (c : String) : String → Nat → Prop where
  | parent {f : ForkRef} : σ.get (.fork c) = some f → Inherits σ c f.stream f.atVersion
  | up {q : String} {m : Nat} {f : ForkRef} : Inherits σ c q m → σ.get (.fork q) = some f →
      Inherits σ c f.stream (min m f.atVersion)

/-- A live pin protects a stream up to version `m`. -/
def Pinned (σ : Db D S) (stream : String) (m : Nat) : Prop :=
  ∃ child at_, σ.get (.forks stream child) = some at_ ∧ σ.get (.deleted child) = none ∧ m ≤ at_

/-- The removal leaves a live pin high enough on every stream that `c` inherits
from.  A purge is also harmless on a deleted stream, whose readable events are
the pinned ones, and a deletion on a deleted stream whose ceiling it keeps. -/
def Removal.Safe (c : String) (σ : Db D S) : Removal → Prop
  | .purgeBelow stream _ => ∀ m, Inherits σ c stream m →
      (σ.get (.deleted stream)).isSome = true ∨ Pinned σ stream m
  | .deleteStream stream => ∀ p m, Inherits σ c p m →
      (p = stream ∨ (σ.get (.deleted p)).isSome = true) →
        Pinned (σ.put (.deleted stream) ()) p m ∨
          (σ.get (.deleted p)).isSome = true ∧
            ceilingOf (σ.put (.deleted stream) ()) p = ceilingOf σ p

theorem Inherits.congr {σ σ' : Db D S} {c p : String} {m : Nat}
    (hfork : ∀ s, σ'.get (.fork s) = σ.get (.fork s)) (h : Inherits σ c p m) :
    Inherits σ' c p m := by
  induction h with
  | parent hf => exact .parent ((hfork c).trans hf)
  | up _ hf ih => exact .up ih ((hfork _).trans hf)

theorem Pinned.le_ceilingOf {σ : Db D S} {stream : String} {m : Nat} (h : Pinned σ stream m) :
    ∃ a, ceilingOf σ stream = some a ∧ m ≤ a := by
  obtain ⟨child, at_, hpin, hlive, hm⟩ := h
  obtain ⟨a, ha, hle⟩ := Landslide.le_ceilingOf hpin hlive
  exact ⟨a, ha, hm.trans hle⟩

/-! ## Histories that stay -/

/-- Every record is stored under its own version. -/
def Versioned (σ : Db D S) : Prop :=
  ∀ stream v (env : Envelope D), σ.get (.record stream v) = some env → env.version = v

/-- The same events of every stream that `c` inherits from, up to the version it
inherits, and of `c` itself. -/
structure Inherited (c : String) (σ σ' : Db D S) : Prop where
  forks : ∀ s, σ'.get (.fork s) = σ.get (.fork s)
  own : ∀ lo hi, eventsOf σ' c lo hi = eventsOf σ c lo hi
  ancestors : ∀ p m, Inherits σ c p m → ∀ lo hi, hi ≤ m + 1 →
    eventsOf σ' p lo (some hi) = eventsOf σ p lo (some hi)

/-- What `c` inherits from an ancestor depends on the fork points and on the events
inherited. -/
theorem resolveHistory_inherited {c : String} {σ σ' : Db D S}
    (hforks : ∀ s, σ'.get (.fork s) = σ.get (.fork s))
    (hevents : ∀ p m, Inherits σ c p m → ∀ lo hi, hi ≤ m + 1 →
      eventsOf σ' p lo (some hi) = eventsOf σ p lo (some hi)) :
    ∀ (depth : Nat) (q : String) (visited : List String) (lo hi m : Nat), Inherits σ c q m →
      hi ≤ m + 1 → (resolveHistory depth q visited lo (some hi)).eval σ' =
        (resolveHistory depth q visited lo (some hi)).eval σ
  | 0, _, _, _, _, _, _, _ => rfl
  | depth + 1, q, visited, lo, hi, m, hinh, hle => by
      rw [resolveHistory_eval, resolveHistory_eval, hforks, hevents q m hinh lo hi hle]
      cases hf : σ.get (.fork q) with
      | none => rfl
      | some f =>
          dsimp only
          -- the bound of the parent is within what `c` inherits from it
          rw [resolveHistory_inherited hforks hevents depth f.stream (q :: visited) lo _
            (min m f.atVersion) (.up hinh hf) (by simp only [Option.elim_some]; omega)]

theorem Inherited.resolveHistory_eq {c : String} {σ σ' : Db D S} (h : Inherited c σ σ')
    (depth : Nat) (lo : Nat) (hi : Option Nat) :
    (resolveHistory depth c [] lo hi).eval σ' = (resolveHistory depth c [] lo hi).eval σ := by
  cases depth with
  | zero => rfl
  | succ depth =>
      rw [resolveHistory_eval, resolveHistory_eval, h.forks, h.own]
      cases hf : σ.get (.fork c) with
      | none => rfl
      | some f =>
          dsimp only
          rw [resolveHistory_inherited h.forks h.ancestors depth f.stream [c] lo _ f.atVersion
            (.parent hf)]
          cases hi with
          | none => exact le_rfl
          | some hi => exact Nat.min_le_right _ _

theorem forkRefs_congr {σ σ' : Db D S} (h : ∀ s, σ'.get (.fork s) = σ.get (.fork s)) :
    forkRefs σ' = forkRefs σ := by
  refine Store.scan_congr fun k hk => ?_
  cases k with
  | fork s => exact h s
  | record | tail | fence | trim | deleted | forks | rollback | ts | snap | compaction | seq =>
      cases hk

theorem Inherited.readHistory_eq {c : String} {σ σ' : Db D S} (h : Inherited c σ σ')
    (start stop : Bound) : readHistory σ' c start stop = readHistory σ c start stop := by
  rw [readHistory, readHistory, forkRefs_congr h.forks]
  exact h.resolveHistory_eq _ _ _

/-! ## One removal -/

/-- The rollback windows of a stream depend on its rollback keys. -/
theorem windowsOf_congr {σ σ' : Db D S} {stream : String}
    (h : ∀ v, σ'.get (.rollback stream v) = σ.get (.rollback stream v)) :
    windowsOf σ' stream = windowsOf σ stream := by
  have hscan : σ'.scan (rollbackRange stream) = σ.scan (rollbackRange stream) := by
    refine Store.scan_congr fun k hk => ?_
    cases k with
    | rollback s v =>
        obtain rfl : s = stream := by simpa [rollbackRange] using hk
        exact h v
    | record | tail | fence | trim | deleted | fork | forks | ts | snap | compaction | seq =>
        cases hk
  rw [windowsOf, hscan, windowsOf]

/-- The guard of a deleted stream. -/
def belowCeiling (σ : Db D S) (stream : String) (v : Nat) : Bool :=
  !(σ.get (.deleted stream)).isSome || (ceilingOf σ stream).any (v ≤ ·)

theorem shows_eq (σ : Db D S) (stream : String) (lo : Nat) (hi : Option Nat) (env : Envelope D) :
    shows σ stream lo hi env =
      (!(env.version < lo || hi.any (env.version ≥ ·)) && belowCeiling σ stream env.version &&
        !(windowsOf σ stream).any fun w => env.version ≥ w.1 && env.seq > w.2) := by
  unfold shows visible belowCeiling
  cases (σ.get (.deleted stream)).isSome <;> simp

/-- The keys that a read of histories looks at. -/
def Key.OfHistory : Key → Prop
  | .record _ _ | .fork _ | .trim _ | .deleted _ | .forks _ _ | .rollback _ _ => True
  | _ => False

/-- Two states that agree in these keys have the same events and histories. -/
theorem Inherited.of_agree {σ σ' : Db D S} (h : ∀ k : Key, k.OfHistory → σ'.get k = σ.get k)
    (c : String) : Inherited c σ σ' := by
  have hevents : ∀ s lo hi, eventsOf σ' s lo hi = eventsOf σ s lo hi := by
    intro s lo hi
    refine eventsOf_congr (by rw [floorOf, h (.trim s) trivial, floorOf]) fun v env _ _ => ?_
    rw [h (.record s v) trivial, shows_eq, shows_eq, windowsOf_congr fun v => h _ trivial,
      belowCeiling, h (.deleted s) trivial,
      ceilingOf_congr (fun _ => h _ trivial) (fun _ => h _ trivial), belowCeiling]
  exact ⟨fun s => h _ trivial, hevents c, fun p _ _ lo hi _ => hevents p lo (some hi)⟩

theorem readHistory_congr {σ σ' : Db D S} (h : ∀ k : Key, k.OfHistory → σ'.get k = σ.get k)
    (c : String) (start stop : Bound) :
    readHistory σ' c start stop = readHistory σ c start stop :=
  (Inherited.of_agree h c).readHistory_eq start stop

theorem belowCeiling_of_pinned {σ : Db D S} {stream : String} {m v : Nat}
    (h : Pinned σ stream m) (hv : v ≤ m) : belowCeiling σ stream v = true := by
  obtain ⟨a, ha, hle⟩ := h.le_ceilingOf
  simp only [belowCeiling, ha, Option.any_some, Bool.or_eq_true, decide_eq_true_eq]
  exact .inr (hv.trans hle)

/-- A deletion mark hides events but shows no new ones. -/
theorem belowCeiling_of_delete {σ : Db D S} {x stream : String} {v : Nat}
    (h : belowCeiling (σ.put (.deleted x) ()) stream v = true) :
    belowCeiling σ stream v = true := by
  by_cases hd : (σ.get (.deleted stream)).isSome = true
  swap
  · simp [belowCeiling, hd]
  have hd' : ((σ.put (.deleted x) ()).get (.deleted stream)).isSome = true := by
    by_cases hx : stream = x
    · subst hx
      rw [Store.get_put_self]
      rfl
    · rw [Store.get_put_of_ne _ _ (by simp [hx])]
      exact hd
  simp only [belowCeiling, hd', Bool.not_true, Bool.false_or] at h
  cases hc : ceilingOf (σ.put (.deleted x) ()) stream with
  | none => rw [hc] at h; cases h
  | some a =>
      rw [hc] at h
      -- the pin that holds in the marked state holds in the state before
      obtain ⟨child, hpin, hlive⟩ := exists_pin_of_ceilingOf hc
      rw [Store.get_put_of_ne _ _ (by simp)] at hpin
      have hchild : child ≠ x := by
        rintro rfl
        rw [Store.get_put_self] at hlive
        cases hlive
      rw [Store.get_put_of_ne _ _ (by simp [hchild])] at hlive
      exact belowCeiling_of_pinned ⟨child, a, hpin, hlive, le_rfl⟩ (by simpa using h)

theorem inherited_delete {c x : String} {σ : Db D S} (hc : σ.get (.deleted c) = none)
    (hx : x ≠ c) (hsafe : (Removal.deleteStream x).Safe c σ) :
    Inherited c σ (σ.put (.deleted x) ()) := by
  have other : ∀ k, k ≠ .deleted x → (σ.put (.deleted x) ()).get k = σ.get k :=
    fun k hk => Store.get_put_of_ne _ _ hk
  have hfloor : ∀ s, floorOf (σ.put (.deleted x) ()) s = floorOf σ s := by
    intro s
    rw [floorOf, other _ (by simp), floorOf]
  have hwin : ∀ s, windowsOf (σ.put (.deleted x) ()) s = windowsOf σ s :=
    fun s => windowsOf_congr fun v => other _ (by simp)
  refine ⟨fun s => other _ (by simp), ?_, ?_⟩
  · intro lo hi
    refine eventsOf_congr (hfloor c) fun v env _ _ => ?_
    rw [other _ (by simp), shows_eq, shows_eq, hwin]
    have hb : ∀ w, belowCeiling (σ.put (.deleted x) ()) c w = belowCeiling σ c w := by
      intro w
      rw [belowCeiling, belowCeiling, other _ (by simp [Ne.symm hx]), hc]
      rfl
    rw [hb]
  · intro p m hinh lo hi hle
    refine eventsOf_congr (hfloor p) fun v env _ _ => ?_
    rw [other _ (by simp), shows_eq, shows_eq, hwin]
    have hb : env.version ≤ m → belowCeiling (σ.put (.deleted x) ()) p env.version =
        belowCeiling σ p env.version := by
      intro hm
      by_cases hdel : p = x ∨ (σ.get (.deleted p)).isSome = true
      · rcases hsafe p m hinh hdel with hpin | ⟨hd, hceil⟩
        · have h' := belowCeiling_of_pinned hpin hm
          rw [h', belowCeiling_of_delete h']
        · have hd' : ((σ.put (.deleted x) ()).get (.deleted p)).isSome = true := by
            by_cases hpx : p = x
            · subst hpx
              rw [Store.get_put_self]
              rfl
            · rw [other _ (by simp [hpx])]
              exact hd
          rw [belowCeiling, belowCeiling, hceil, hd, hd']
      · have hpx : p ≠ x := fun h => hdel (.inl h)
        have hnd : (σ.get (.deleted p)).isSome = false := by
          simpa using fun h => hdel (.inr h)
        rw [belowCeiling, belowCeiling, other _ (by simp [hpx]), hnd]
        rfl
    by_cases hm : env.version ≤ m
    · rw [hb hm]
    · -- such an event is out of range in both states
      have hout : (some hi).any (env.version ≥ ·) = true := by
        simp only [Option.any_some, decide_eq_true_eq]
        omega
      simp [hout]

theorem inherited_purge {c x : String} {σ : Db D S} (hver : Versioned σ) (hx : x ≠ c)
    {floor : Nat} (hsafe : (Removal.purgeBelow x floor).Safe c σ) :
    Inherited c σ (purged σ x (versionsOf σ x (purgeFrom σ x) floor)) := by
  have other : ∀ k, (∀ v, k ≠ .record x v) →
      (purged σ x (versionsOf σ x (purgeFrom σ x) floor)).get k = σ.get k :=
    fun k hk => get_purged_of_ne _ σ fun v _ => hk v
  have hfloor : ∀ s, floorOf (purged σ x (versionsOf σ x (purgeFrom σ x) floor)) s =
      floorOf σ s := by
    intro s
    rw [floorOf, other _ (by simp), floorOf]
  have hshow : ∀ s lo hi (env : Envelope D),
      shows (purged σ x (versionsOf σ x (purgeFrom σ x) floor)) s lo hi env =
        shows σ s lo hi env := by
    intro s lo hi env
    rw [shows_eq, shows_eq, windowsOf_congr fun v => other _ (by simp), belowCeiling,
      ceilingOf_congr (fun child => other _ (by simp)) (fun child => other _ (by simp)),
      other _ (by simp), belowCeiling]
  refine ⟨fun s => other _ (by simp), ?_, ?_⟩
  · intro lo hi
    refine eventsOf_congr (hfloor c) fun v env _ _ => ?_
    rw [other _ (by simp [Ne.symm hx]), hshow]
  · intro p m hinh lo hi hle
    refine eventsOf_congr (hfloor p) fun v env _ hhi => ?_
    rw [hshow]
    refine and_congr_left fun hs => ?_
    by_cases hpx : p = x
    swap
    · rw [other _ (by simp [hpx])]
    subst hpx
    -- a record that is shown lies at or below the ceiling, and the window above it
    have hkeep : ∀ env : Envelope D, shows σ p (max lo (floorOf σ p)) (some hi) env = true →
        env.version = v → v ∉ versionsOf σ p (purgeFrom σ p) floor := by
      intro env hs hv hmem
      have hlo := (mem_versionsOf.mp hmem).1.1
      have hceil : ∃ a, ceilingOf σ p = some a ∧ v ≤ a := by
        rcases hsafe m hinh with hd | hpin
        · rw [shows_eq] at hs
          simp only [Bool.and_eq_true, belowCeiling, hd, Bool.not_true, Bool.false_or,
            Option.any_eq_true, decide_eq_true_eq] at hs
          obtain ⟨a, ha, hle⟩ := hs.1.2
          exact ⟨a, ha, hv ▸ hle⟩
        · obtain ⟨a, ha, hle'⟩ := hpin.le_ceilingOf
          simp only [Option.all_some, decide_eq_true_eq] at hhi
          exact ⟨a, ha, by omega⟩
      obtain ⟨a, ha, hle⟩ := hceil
      rw [purgeFrom, ha, Option.elim_some] at hlo
      omega
    constructor
    · intro hget
      rw [get_purged] at hget
      split at hget
      · cases hget
      · exact hget
    · intro hget
      rw [get_purged, if_neg]
      · exact hget
      · rintro ⟨w, hw, hk⟩
        cases hk
        exact hkeep env hs (hver p v env hget) hw

/-! ## Records under their versions -/

theorem Versioned.sub {σ σ' : Db D S} (h : Versioned σ)
    (hsub : ∀ stream v (env : Envelope D), σ'.get (.record stream v) = some env →
      σ.get (.record stream v) = some env) : Versioned σ' :=
  fun stream v env hv => h stream v env (hsub stream v env hv)

theorem Versioned.of_frame {σ σ' : Db D S} (h : Versioned σ)
    (hrec : ∀ stream v, σ'.get (.record stream v) = σ.get (.record stream v)) : Versioned σ' :=
  h.sub fun stream v env hv => by rw [← hrec]; exact hv

theorem Versioned.purged {σ : Db D S} (h : Versioned σ) (stream : String)
    (versions : List Nat) : Versioned (Landslide.purged σ stream versions) := by
  refine h.sub fun s v env hv => ?_
  rw [get_purged] at hv
  split at hv
  · cases hv
  · exact hv

theorem Appended.versioned {req : AppendReq D} {seq : Nat} {σ σ' : Db D S} {info : CommitInfo}
    (happ : Appended req seq σ info σ') (h : Versioned σ) : Versioned σ' := by
  intro stream v env hv
  by_cases hs : stream = req.stream
  · subst hs
    rcases happ.record_cases hv with hold | ⟨hver, -⟩
    · exact h _ v env hold
    · exact hver
  · rw [happ.frame _ (by simp) (by simp [hs]) (by simp)] at hv
    exact h stream v env hv

theorem Replayed.versioned {reqs : List (Req D)} {seq seq' : Nat} {σ σ' : Db D S}
    {infos : List CommitInfo} (hr : Replayed reqs seq σ infos seq' σ') (h : Versioned σ) :
    Versioned σ' := by
  induction hr with
  | nil => exact h
  | append happ _ ih => exact ih (happ.versioned h)
  | fence _ ih => exact ih (h.of_frame fun _ _ => get_fenced_of_ne _ _ _ (by simp))

theorem Call.Effect.versioned {call : Call D S} {σ σ' : Db D S} {infos : List CommitInfo}
    (he : call.Effect σ infos σ') (h : Versioned σ) : Versioned σ' := by
  have stamped : Stamped call.reqs σ infos σ' → Versioned σ' := by
    rintro ⟨seq', σ₁, hr, rfl⟩
    exact (hr.versioned h).of_frame fun _ _ => Store.get_put_of_ne _ _ (by simp)
  cases call with
  | append | appendWithToken | appendAt | commit => exact stamped he
  | fence => cases he; exact h.of_frame fun _ _ => get_fenced_of_ne _ _ _ (by simp)
  | fork =>
      obtain ⟨parentTail, -, -, -, rfl⟩ := he
      exact h.of_frame fun _ _ => get_forked_of_ne (by simp) (by simp) (by simp)
  | trim | trimBelow => cases he; exact h.of_frame fun _ _ => Store.get_put_of_ne _ _ (by simp)
  | purgeBelow stream => obtain ⟨versions, rfl⟩ := he; exact h.purged stream versions
  | deleteStream => obtain ⟨-, rfl⟩ := he; exact h.of_frame fun _ _ => Store.get_put_of_ne _ _ (by simp)
  | publishSnapshot =>
      cases he
      exact h.of_frame fun _ _ => get_published_of_ne (by simp) (by simp) (by simp)
  | compact =>
      obtain ⟨record, state, rfl⟩ := he
      exact h.of_frame fun _ _ => get_published_of_ne (by simp) (by simp) (by simp)

/-- A safe removal leaves what a live stream inherits. -/
theorem Removal.inherited [Payload D] {c : String} {σ : Db D S} (hver : Versioned σ)
    (hc : σ.get (.deleted c) = none) (op : Removal) (hne : op.stream ≠ c) (hsafe : op.Safe c σ) :
    Inherited c σ (op.exec σ) ∧ Versioned (op.exec σ) ∧
      (op.exec σ).get (.deleted c) = none := by
  cases op with
  | deleteStream x =>
      rcases Call.exec_effect (.deleteStream x) trivial σ with hsame | ⟨infos, -, hσ'⟩
      · rw [exec, call, hsame]
        exact ⟨⟨fun _ => rfl, fun _ _ => rfl, fun _ _ _ _ _ _ => rfl⟩, hver, hc⟩
      · rw [exec, call, hσ']
        refine ⟨inherited_delete hc hne hsafe,
          hver.of_frame fun _ _ => Store.get_put_of_ne _ _ (by simp), ?_⟩
        rw [Store.get_put_of_ne _ _ (by simpa [stream] using Ne.symm hne)]
        exact hc
  | purgeBelow x floor =>
      rw [exec, call, purgeBelow_exec]
      refine ⟨inherited_purge hver hne hsafe, hver.purged x _, ?_⟩
      rw [get_purged_of_ne _ σ (by simp)]
      exact hc

/-- A client alone makes some calls, each in enough steps. -/
def alone (calls : List (Call Bytes Unit)) : Schedule Bytes Unit :=
  calls.flatMap fun call => .invoke 0 call :: List.replicate 11 (.step 0)

/-- Only these calls are invoked. -/
theorem invoked_alone {P : Call Bytes Unit → Prop} {calls : List (Call Bytes Unit)}
    (h : ∀ call ∈ calls, P call) : ∀ client call, .invoke client call ∈ alone calls → P call := by
  intro client call hmem
  obtain ⟨call', hcall', hin⟩ := List.mem_flatMap.mp hmem
  rcases List.mem_cons.mp hin with heq | hin
  · cases heq
    exact h call hcall'
  · cases (List.mem_replicate.mp hin).2

/-- The tree `a ← b ← c`, each forked off at version 1. -/
def forkTree : Schedule Bytes Unit :=
  alone [.append "a" .any [{ eventType := "x", data := [] }, { eventType := "y", data := [] }]
    fun _ _ => { ulid := "u", nowMs := 5 }, .fork "a" 1 "b", .fork "b" 1 "c"]

end

end Landslide
