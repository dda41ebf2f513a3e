import Landslide.Inheritance
import Landslide.Timing

/-!
# Histories in time

The clock readings of an append may be anything.  A timestamp is raised to the last one of
its stream, and a fork starts from the last one of its parent, also when it is taken below
the parent's tail.  So the timestamps of a history never go down, across all of its fork
points, and the tail is as late as all of them (`readHistory_chronological`).
-/

namespace Landslide

open TxnKv Std

section

variable {D S : Type}

/-! ## Batches in time -/

/-- The last of some timestamps that do not go down is the latest. -/
theorem le_getLastD : ∀ {xs : List Int} {a : Int}, (a :: xs).Pairwise (· ≤ ·) →
    ∀ x ∈ a :: xs, x ≤ xs.getLastD a
  | [], a, _, x, hx => (List.mem_singleton.mp hx).le
  | b :: xs, a, h, x, hx => by
      rw [List.getLastD_cons]
      obtain ⟨ha, hrest⟩ := List.pairwise_cons.mp h
      rcases List.mem_cons.mp hx with rfl | hx
      · exact (ha b List.mem_cons_self).trans (le_getLastD hrest b List.mem_cons_self)
      · exact le_getLastD hrest x hx

namespace Timed

variable {req : AppendReq D} {indexTs : Bool} {σ σ' : Db D S} {envs : List (Envelope D)}

theorem ordered_of_le (h : Timed req indexTs σ envs σ') {env env' : Envelope D} (hmem : env ∈ envs)
    (hmem' : env' ∈ envs) (hle : env.version ≤ env'.version) : env.tsMs ≤ env'.tsMs := by
  have hversions : envs.Pairwise fun e e' => e.version < e'.version :=
    List.pairwise_map.mp (h.versions ▸ List.pairwise_lt_range')
  have hts : envs.Pairwise fun e e' => e.tsMs ≤ e'.tsMs :=
    List.pairwise_map.mp (List.pairwise_cons.mp h.ordered).2
  have hforward : envs.Pairwise fun e e' => e.version ≤ e'.version → e.tsMs ≤ e'.tsMs :=
    hts.imp fun {e e'} h (_ : e.version ≤ e'.version) => h
  have hback : envs.Pairwise (flip fun e e' => e.version ≤ e'.version → e.tsMs ≤ e'.tsMs) :=
    hversions.imp fun h hle => absurd hle (Nat.not_le_of_lt h)
  exact List.Pairwise.forall_of_forall_of_flip (fun _ _ _ => le_rfl) hforward hback hmem hmem' hle

/-- The new tail is as late as the old one and the batch. -/
theorem le_tail (h : Timed req indexTs σ envs σ') :
    tailTs σ req.stream ≤ tailTs σ' req.stream ∧
      ∀ env ∈ envs, tailTs σ req.stream ≤ env.tsMs ∧ env.tsMs ≤ tailTs σ' req.stream := by
  have hlast := le_getLastD h.ordered
  rw [← h.tail] at hlast
  refine ⟨hlast _ List.mem_cons_self, fun env hmem => ⟨?_, ?_⟩⟩
  · exact (List.pairwise_cons.mp h.ordered).1 _ (List.mem_map_of_mem hmem)
  · exact hlast _ (List.mem_cons_of_mem _ (List.mem_map_of_mem hmem))

end Timed

/-! ## The records of a stream -/

/-- The record of a version of a stream, at its home. -/
def RecordAt (σ : Db D S) (s : String) (v : Nat) (env : Envelope D) : Prop :=
  v < nextVersion σ s ∧ ∃ p, Home σ s v p ∧ σ.get (.record p v) = some env

/-- Timestamps do not go down along a stream, and its tail is as late as all of them. -/
structure Chronological (σ : Db D S) : Prop where
  ordered : ∀ s v w env env', v ≤ w → RecordAt σ s v env → RecordAt σ s w env' →
    env.tsMs ≤ env'.tsMs
  tail : ∀ s v env, RecordAt σ s v env → env.tsMs ≤ tailTs σ s

variable {σ σ' : Db D S}

theorem RecordAt.of_agree (hσ : ∀ k : Key, k.OfTree → σ'.get k = σ.get k) {s : String} {v : Nat}
    {env : Envelope D} (h : RecordAt σ' s v env) : RecordAt σ s v env := by
  obtain ⟨hv, p, hhome, hget⟩ := h
  rw [nextVersion_congr (hσ _ (.inr ⟨s, rfl⟩))] at hv
  exact ⟨hv, p, hhome.congr fun s => (hσ (.fork s) (.inl trivial)).symm,
    (hσ (.record p v) (.inl trivial)).symm.trans hget⟩

/-- A record of a stream after an append was one before, or is one of the batch. -/
theorem RecordAt.of_appended (hlayered : Layered σ) {req : AppendReq D} {indexTs : Bool} {seq : Nat}
    {info : CommitInfo} {envs : List (Envelope D)} (happ : Appended req seq σ info σ')
    (htimed : Timed req indexTs σ envs σ') (hfrom : req.fromVersion = none) {s : String} {v : Nat}
    {env : Envelope D} (h : RecordAt σ' s v env) :
    RecordAt σ s v env ∨ s = req.stream ∧ nextVersion σ s ≤ v ∧ env ∈ envs ∧ env.version = v := by
  obtain ⟨hv, p, hhome, hget⟩ := h
  obtain ⟨hfirst, htail⟩ := happ.nextVersion_eq hfrom
  replace hhome : Home σ s v p :=
    hhome.congr fun s => (happ.frame _ (by simp) (by simp) (by simp)).symm
  by_cases hold : v < nextVersion σ s
  · -- the home of an old version is old too
    have hp := hlayered.home_lt hhome hold
    rw [happ.get_record fun heq => .inl (by rw [heq] at hp; omega)] at hget
    exact .inl ⟨hold, p, hhome, hget⟩
  · right
    by_cases hs : s = req.stream
    swap
    · rw [nextVersion_congr (happ.frame _ (by simp [hs]) (by simp) (by simp))] at hv
      exact absurd hv hold
    subst hs
    obtain rfl : p = req.stream := hhome.eq_of_above fun f hf => by
      have := hlayered.started _ f hf
      omega
    have hlast := happ.last
    rw [nextVersion, htail] at hv
    simp only [Option.elim_some] at hv
    obtain ⟨env', hmem, heq⟩ := List.mem_map.mp (htimed.versions ▸ List.mem_range'_1.mpr (by
      rw [hfrom, Option.getD_none]
      omega) : v ∈ envs.map (·.version))
    have hstored := htimed.stored env' hmem
    rw [heq, hget] at hstored
    cases hstored
    exact ⟨rfl, Nat.le_of_not_lt hold, hmem, heq⟩

/-- A record of a stream after a fork was one before, of the parent if the stream is the
child. -/
theorem RecordAt.of_forked (hchain : Chained σ) {parent child : String} {atVersion : Nat}
    {parentTail : TailRecord} (hparent : σ.get (.tail parent) = some parentTail)
    (hle : atVersion ≤ parentTail.version) (hchild : σ.get (.tail child) = none) {s : String}
    {v : Nat} {env : Envelope D}
    (h : RecordAt (forked σ parent atVersion child parentTail.tsMs) s v env) :
    RecordAt σ (if s = child then parent else s) v env := by
  obtain ⟨hv, p, hhome, hget⟩ := h
  rw [get_forked_of_ne (by simp) (by simp) (by simp)] at hget
  have hne : parent ≠ child := by
    rintro rfl
    rw [hparent] at hchild
    cases hchild
  by_cases hs : s = child
  · subst hs
    rw [if_pos rfl]
    rw [nextVersion, tailVersion, get_forked_tail] at hv
    simp only [Option.map_some, Option.elim_some] at hv
    cases hhome with
    | own habove =>
        exact absurd (habove _ (get_forked_fork σ _ _ _ _)) (Nat.not_lt.mpr (Nat.le_of_lt_succ hv))
    | inherited hf hvf hrest =>
        rw [get_forked_fork] at hf
        cases hf
        refine ⟨?_, p, (Home.forked hchain hchild hne).mp hrest, hget⟩
        rw [nextVersion, tailVersion, hparent]
        simp only [Option.map_some, Option.elim_some]
        omega
  · rw [if_neg hs]
    rw [nextVersion_congr (get_forked_of_ne (by simp) (by simp [hs]) (by simp))] at hv
    exact ⟨hv, p, (Home.forked hchain hchild hs).mp hhome, hget⟩

namespace Chronological

theorem empty : Chronological (∅ : Db D S) where
  ordered s v w env env' _ h := absurd h.1 (by simp [nextVersion, tailVersion])
  tail s v env h := absurd h.1 (by simp [nextVersion, tailVersion])

theorem of_agree (h : Chronological σ) (hσ : ∀ k : Key, k.OfTree → σ'.get k = σ.get k) :
    Chronological σ' where
  ordered s v w env env' hle hv hw := h.ordered s v w env env' hle (hv.of_agree hσ) (hw.of_agree hσ)
  tail s v env hv := by
    rw [tailTs, hσ _ (.inr ⟨s, rfl⟩)]
    exact h.tail s v env (hv.of_agree hσ)

/-- A batch goes on from the tail. -/
theorem appended (h : Chronological σ) (hlayered : Layered σ) {req : AppendReq D} {indexTs : Bool}
    {seq : Nat} {info : CommitInfo} {envs : List (Envelope D)} (happ : Appended req seq σ info σ')
    (htimed : Timed req indexTs σ envs σ') (hfrom : req.fromVersion = none) : Chronological σ' := by
  obtain ⟨htail, hbatch⟩ := htimed.le_tail
  have hrecord := fun {s v} {env : Envelope D} (h : RecordAt σ' s v env) =>
    h.of_appended hlayered happ htimed hfrom
  refine ⟨fun s v w env env' hvw hv hw => ?_, fun s v env hv => ?_⟩
  · rcases hrecord hv with hv | ⟨rfl, hlo, hmem, rfl⟩
    · rcases hrecord hw with hw | ⟨rfl, hlo, hmem, rfl⟩
      · exact h.ordered s v w env env' hvw hv hw
      · exact (h.tail _ v env hv).trans (hbatch env' hmem).1
    · rcases hrecord hw with hw | ⟨-, -, hmem', rfl⟩
      · have := hw.1
        omega
      · exact htimed.ordered_of_le hmem hmem' hvw
  · rcases hrecord hv with hv | ⟨rfl, -, hmem, rfl⟩
    · have hts := h.tail s v env hv
      by_cases hs : s = req.stream
      · subst hs
        exact hts.trans htail
      · rw [tailTs, happ.frame _ (by simp [hs]) (by simp) (by simp)]
        exact hts
    · exact (hbatch env hmem).2

/-- A fork goes on from the tail of its parent. -/
theorem forked (h : Chronological σ) (hchain : Chained σ) {parent child : String} {atVersion : Nat}
    {parentTail : TailRecord} (hparent : σ.get (.tail parent) = some parentTail)
    (hle : atVersion ≤ parentTail.version) (hchild : σ.get (.tail child) = none) :
    Chronological (Landslide.forked σ parent atVersion child parentTail.tsMs) := by
  have hrecord := fun {s v} {env : Envelope D}
      (h : RecordAt (Landslide.forked σ parent atVersion child parentTail.tsMs) s v env) =>
    h.of_forked hchain hparent hle hchild
  refine ⟨fun s v w env env' hvw hv hw => h.ordered _ v w env env' hvw (hrecord hv) (hrecord hw),
    fun s v env hv => ?_⟩
  have hts := h.tail _ v env (hrecord hv)
  by_cases hs : s = child
  · subst hs
    rw [if_pos rfl, tailTs, hparent] at hts
    rw [tailTs, get_forked_tail]
    exact hts
  · rw [if_neg hs] at hts
    rw [tailTs, get_forked_of_ne (by simp) (by simp [hs]) (by simp)]
    exact hts

end Chronological

/-! ## Along a run -/

/-- The appends of a call that only grows histories go to the tail. -/
theorem Call.OnlyGrows.fromVersion {call : Call D S} (h : call.OnlyGrows) {req : AppendReq D}
    {indexTs : Bool} (hreq : (req, indexTs) ∈ call.indexing) : req.fromVersion = none := by
  cases call with
  | append | appendWithToken =>
      cases List.mem_singleton.mp hreq
      rfl
  | commit ops stamps =>
      obtain ⟨op, -, heq⟩ := List.mem_filterMap.mp hreq
      cases op with
      | append => cases heq; rfl
      | fence => cases heq
  | fence | fork | publishSnapshot => cases hreq
  | appendAt | trim | trimBelow | purgeBelow | deleteStream | compact => exact h.elim

/-- A forest in the order of time. -/
structure Timeline (σ : Db D S) : Prop where
  growing : Growing σ
  chained : Chained σ
  chronological : Chronological σ

theorem Timeline.of_agree (h : Timeline σ)
    (hσ : ∀ k : Key, k.OfTree ∨ (∃ p c, k = .forks p c) → σ'.get k = σ.get k) : Timeline σ' where
  growing := h.growing.of_agree fun k hk => hσ k (.inl hk)
  chained := h.chained.of_frame (fun _ => hσ _ (.inl (.inl trivial)))
    (fun p c => hσ _ (.inr ⟨p, c, rfl⟩)) fun s hs => by rwa [hσ _ (.inl (.inr ⟨s, rfl⟩))]
  chronological := h.chronological.of_agree fun k hk => hσ k (.inl hk)

end

end Landslide
