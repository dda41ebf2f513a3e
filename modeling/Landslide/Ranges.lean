import Landslide.Rehydration

/-!
# Ranges of a history

A read of a range cuts the range at every fork point of the chain and reads each segment
by itself.  In a forest made by appends, transactions and forks, every version below the
tail of a stream has its record at its home (`Dense`).  So a history carries the versions
from 0 to the tail, each once and in order, and the read of a range is that part of it,
however deep the chain and wherever its fork points are (`readHistory_ranges`).
-/

namespace Landslide

open TxnKv Std

section

variable {D S : Type}

/-- The version lies between the bounds of a range. -/
def Bound.spans (start stop : Bound) (v : Nat) : Bool :=
  (match start with
    | .included lo => decide (lo ≤ v)
    | .excluded lo => decide (lo < v)
    | .unbounded => true) &&
  match stop with
    | .included hi => decide (v ≤ hi)
    | .excluded hi => decide (v < hi)
    | .unbounded => true

theorem bounds_spans (start stop : Bound) (v : Nat) :
    (decide ((bounds start stop).1 ≤ v) && (bounds start stop).2.all (v < ·)) =
      start.spans stop v := by
  rw [Bool.eq_iff_iff, Bool.and_eq_true, decide_eq_true_iff]
  cases start <;> cases stop <;> simp [bounds, Bound.spans]

/-! ## No version is missing -/

/-- Every version below the tail of a stream has a record at its home. -/
def Dense (σ : Db D S) : Prop :=
  ∀ s v p, v < nextVersion σ s → Home σ s v p → (σ.get (.record p v)).isSome = true

namespace Dense

variable {σ σ' : Db D S}

theorem empty : Dense (∅ : Db D S) := by
  intro s v p hv
  exact absurd hv (by simp [nextVersion, tailVersion])

theorem of_agree (h : Dense σ) (hσ : ∀ k : Key, k.OfTree → σ'.get k = σ.get k) : Dense σ' := by
  have hrec : ∀ s v, σ'.get (.record s v) = σ.get (.record s v) := fun s v => hσ _ (.inl trivial)
  have hfork : ∀ s, σ.get (.fork s) = σ'.get (.fork s) := fun s => (hσ (.fork s) (.inl trivial)).symm
  intro s v p hv hhome
  rw [nextVersion_congr (hσ _ (.inr ⟨s, rfl⟩))] at hv
  rw [hrec]
  exact h s v p hv (hhome.congr hfork)

theorem appended (h : Dense σ) (hlayered : Layered σ) {req : AppendReq D} {seq : Nat}
    {info : CommitInfo} (happ : Appended req seq σ info σ') (hfrom : req.fromVersion = none) :
    Dense σ' := by
  obtain ⟨hfirst, htail⟩ := happ.nextVersion_eq hfrom
  have hfork : ∀ s, σ.get (.fork s) = σ'.get (.fork s) :=
    fun s => (happ.frame _ (by simp) (by simp) (by simp)).symm
  -- the batch is there
  have hbatch : ∀ v, info.firstVersion ≤ v → v ≤ info.lastVersion →
      (σ'.get (.record req.stream v)).isSome = true := by
    intro v hlo hhi
    have hlast := happ.last
    obtain ⟨env, henv, -⟩ := happ.records (v - info.firstVersion) _
      (List.getElem?_eq_getElem (by omega))
    rw [Nat.add_sub_cancel' hlo] at henv
    rw [henv]
    rfl
  intro s v p hv hhome
  have hhome' : Home σ s v p := hhome.congr hfork
  by_cases hold : v < nextVersion σ s
  · by_cases hin : p = req.stream ∧ info.firstVersion ≤ v ∧ v ≤ info.lastVersion
    · rw [hin.1]
      exact hbatch v hin.2.1 hin.2.2
    · rw [happ.get_record fun hp => by
        simp only [hp, true_and] at hin
        omega]
      exact h s v p hold hhome'
  · -- a version past the old tail is one of the batch
    by_cases hs : s = req.stream
    · subst hs
      have hp : p = req.stream := hhome'.eq_of_above fun f hf => by
        have := hlayered.started _ f hf
        omega
      rw [nextVersion, htail] at hv
      rw [hp]
      refine hbatch v (by omega) ?_
      simp only [Option.elim_some] at hv
      omega
    · rw [nextVersion_congr (happ.frame _ (by simp [hs]) (by simp) (by simp))] at hv
      exact absurd hv hold

theorem replayed (h : Dense σ) (hgrowing : Growing σ) {reqs : List (Req D)} {seq seq' : Nat}
    {infos : List CommitInfo} (hr : Replayed reqs seq σ infos seq' σ') (hreqs : AtTail reqs) :
    Dense σ' := by
  induction hr with
  | nil => exact h
  | @append req reqs seq seq' σ σ₁ σ' info infos happ _ ih =>
      have hfrom := hreqs req List.mem_cons_self
      exact ih (h.appended hgrowing.layered happ hfrom) (hgrowing.appended happ hfrom).growing
        fun r hr => hreqs r (List.mem_cons_of_mem _ hr)
  | @fence s token reqs seq seq' σ σ' infos _ ih =>
      have hsame : ∀ k : Key, k.OfTree → (fenced σ s token).get k = σ.get k :=
        fun k hk => get_fenced_of_ne _ _ _ (hk.ne (by simp))
      exact ih (h.of_agree hsame) (hgrowing.of_agree hsame) fun r hr =>
        hreqs r (List.mem_cons_of_mem _ hr)

/-- A new fork has the versions of its parent up to the fork point. -/
theorem forked (h : Dense σ) (hchain : Chained σ) {parent child : String} {atVersion : Nat}
    {parentTail : TailRecord} (hparent : σ.get (.tail parent) = some parentTail)
    (hle : atVersion ≤ parentTail.version) (hchild : σ.get (.tail child) = none) :
    Dense (Landslide.forked σ parent atVersion child parentTail.tsMs) := by
  have hne : parent ≠ child := by
    rintro rfl
    rw [hparent] at hchild
    cases hchild
  intro s v p hv hhome
  rw [get_forked_of_ne (by simp) (by simp) (by simp)]
  by_cases hs : s = child
  · subst hs
    rw [nextVersion, tailVersion, get_forked_tail] at hv
    simp only [Option.map_some, Option.elim_some] at hv
    cases hhome with
    | own habove =>
        exact absurd (habove _ (get_forked_fork σ _ _ _ _)) (Nat.not_lt.mpr (Nat.le_of_lt_succ hv))
    | inherited hf hvf hrest =>
        rw [get_forked_fork] at hf
        cases hf
        refine h parent v p ?_ ((Home.forked hchain hchild hne).mp hrest)
        rw [nextVersion, tailVersion, hparent]
        simp only [Option.map_some, Option.elim_some]
        omega
  · rw [nextVersion_congr (get_forked_of_ne (by simp) (by simp [hs]) (by simp))] at hv
    exact h s v p hv ((Home.forked hchain hchild hs).mp hhome)

end Dense

theorem Call.Effect.dense {call : Call D S} {σ σ' : Db D S} {infos : List CommitInfo}
    (he : call.Effect σ infos σ') (hcall : call.OnlyGrows) (hgrowing : Growing σ)
    (hchain : Chained σ) (h : Dense σ) : Dense σ' := by
  have stamped : call.KeepsRecords → Stamped call.reqs σ infos σ' → Dense σ' := by
    rintro hkeeps ⟨seq', σ₁, hr, rfl⟩
    exact (h.replayed hgrowing hr hkeeps.atTail).of_agree fun k hk =>
      Store.get_put_of_ne _ _ (hk.ne (by simp))
  cases call with
  | append | appendWithToken | commit => exact stamped trivial he
  | fence =>
      cases he
      exact h.of_agree fun k hk => get_fenced_of_ne _ _ _ (hk.ne (by simp))
  | fork =>
      obtain ⟨parentTail, hparent, hle, hchild, rfl⟩ := he
      exact h.forked hchain hparent hle hchild
  | publishSnapshot =>
      cases he
      exact h.of_agree fun k hk => get_published_of_ne (hk.ne (by simp)) (hk.ne (by simp))
        fun _ => hk.ne (by simp)
  | appendAt | trim | trimBelow | purgeBelow | deleteStream | compact => exact hcall.elim

/-- In a forest made by calls that only grow it, no version is missing. -/
theorem dense_reach [Payload D] {acts : Schedule D S}
    (hacts : ∀ client call, .invoke client call ∈ acts → call.OnlyGrows) :
    Growing (reach acts).store ∧ Chained (reach acts).store ∧ Dense (reach acts).store := by
  refine reach_induct_of (P := fun σ => Growing σ ∧ Chained σ ∧ Dense σ)
    ⟨.empty, .empty, .empty⟩ ?_ ?_ hacts
  · rintro σ σ' ⟨hgrowing, hchain, hdense⟩ hσ
    have hsame : ∀ k : Key, k.OfTree → σ'.get k = σ.get k := fun k hk => hσ k (hk.ne (by simp))
    refine ⟨hgrowing.of_agree hsame, hchain.of_frame (fun _ => hσ _ (by simp))
      (fun _ _ => hσ _ (by simp)) (fun s hs => ?_), hdense.of_agree hsame⟩
    rw [hσ _ (by simp)]
    exact hs
  · rintro call σ σ' infos hcall heff ⟨hgrowing, hchain, hdense⟩
    exact ⟨(heff.grown hcall hgrowing).growing, heff.chained hchain,
      heff.dense hcall hgrowing hchain hdense⟩

/-! ## Histories and their ranges -/

/-- The versions of a history, where none is missing. -/
theorem Growing.versions_eq {σ : Db D S} (h : Growing σ) (hdense : Dense σ) {s : String}
    {events : List (Event D)} (hread : readHistory σ s .unbounded .unbounded = .ok events) :
    events.map (·.version) = List.range (nextVersion σ s) := by
  obtain ⟨rank, hrank⟩ := h.rank
  have hsorted : (events.map (·.version)).Pairwise (· < ·) :=
    List.pairwise_map.mpr (h.layered.readHistory_sorted hread)
  refine hsorted.eq_of_mem_iff List.pairwise_lt_range fun v => ?_
  rw [List.mem_map, List.mem_range]
  constructor
  · rintro ⟨e, he, rfl⟩
    obtain ⟨v, p, env, hhome, hget, -, -, -, rfl⟩ := (h.layered.mem_readHistory hread).mp he
    rw [show (Event.fromParts env).version = v from h.versioned p v env hget]
    exact h.layered.lt_nextVersion hhome hget
  · intro hv
    obtain ⟨p, hhome⟩ := Home.exists_of_rank hrank s v
    obtain ⟨env, henv⟩ := Option.isSome_iff_exists.mp (hdense s v p hv hhome)
    refine ⟨Event.fromParts env, (h.layered.mem_readHistory hread).mpr
      ⟨v, p, env, hhome, henv, h.shows p v env.seq, Nat.zero_le v, rfl, rfl⟩, ?_⟩
    exact h.versioned p v env henv

/-- In every forest made by appends, transactions and forks, the history of a stream has
the versions from 0 to its tail, each once and in order, and the read of a range returns
the events of the history with versions in the range. -/
theorem readHistory_ranges [Payload D] (acts : Schedule D S)
    (hacts : ∀ client call, .invoke client call ∈ acts → call.OnlyGrows) (stream : String) :
    ∃ events, readHistory (reach acts).store stream .unbounded .unbounded = .ok events ∧
      events.map (·.version) = List.range (nextVersion (reach acts).store stream) ∧
      ∀ start stop, readHistory (reach acts).store stream start stop =
        .ok (events.filter fun e => start.spans stop e.version) := by
  obtain ⟨hgrowing, -, hdense⟩ := dense_reach hacts
  obtain ⟨events, hread⟩ := hgrowing.layered.readHistory_ok stream .unbounded .unbounded
  refine ⟨events, hread, hgrowing.versions_eq hdense hread, fun start stop => ?_⟩
  rw [hgrowing.layered.readHistory_range hread]
  exact congrArg Except.ok (List.filter_congr fun e _ => bounds_spans start stop e.version)

/-- `s` has two events, `t` is forked off at the last, and `u` off `t` at version 0,
which `t` itself inherits. -/
def forkedBelow : Schedule Bytes Unit :=
  alone [twoEvents, .fork "s" 1 "t", twoEvents, .fork "t" 0 "u",
    .append "u" (.exact 0) [{ eventType := "x", data := [] }] fun _ _ => { ulid := "u", nowMs := 5 }]

theorem readHistory_ranges_forkedBelow :
    nextVersion (reach forkedBelow).store "u" = 2 ∧
      ∃ events, readHistory (reach forkedBelow).store "u" .unbounded .unbounded = .ok events ∧
        events.map (·.version) = [0, 1] ∧
        readHistory (reach forkedBelow).store "u" (.included 0) (.excluded 1) =
          .ok (events.filter fun e => decide (e.version < 1)) := by
  have hacts : ∀ client call, .invoke client call ∈ forkedBelow → call.OnlyGrows := by
    refine invoked_alone fun call hcall => ?_
    simp only [List.mem_cons, List.not_mem_nil, or_false] at hcall
    rcases hcall with rfl | rfl | rfl | rfl | rfl <;> trivial
  obtain ⟨events, hread, hversions, hrange⟩ := readHistory_ranges forkedBelow hacts "u"
  have hnext : nextVersion (reach forkedBelow).store "u" = 2 := by decide
  refine ⟨hnext, events, hread, by rw [hversions, hnext]; rfl, ?_⟩
  rw [hrange]
  simp [Bound.spans]

end

end Landslide
