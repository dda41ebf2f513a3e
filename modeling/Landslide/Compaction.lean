import Landslide.Stream

/-!
# Rehydration and compaction

`rehydrate` folds a stream from its latest snapshot on.  `compact` folds the
history from version 0 on and publishes the result as the new latest snapshot.
The two agree as long as compaction still finds every event that the snapshot
covers.  After a purge or a trim of covered events it does not: the new
snapshot lacks them and replaces the one that had them
(`compact_loses_purged_state`).

The states considered are those reached by appends, compactions, purges and
trims of any streams, with floors that stay within what the latest snapshot
covers.  `Upheld` relates such a state to the full history of a stream, which
the store itself may no longer hold.
-/

namespace Landslide

open TxnKv Std

section

variable {D S A : Type}

/-! ## Aggregates -/

/-- A state machine rebuilt by folding the events of a stream. -/
structure Aggregate (D S A : Type) where
  default : A
  apply : A → Event D → A
  snapshot : A → Except Error S
  restore : S → Except Error A

namespace Aggregate

/-- Restoring inverts taking a snapshot. -/
def Lawful (agg : Aggregate D S A) : Prop :=
  ∀ a state, agg.snapshot a = .ok state → agg.restore state = .ok a

/-- The fold of a list of events. -/
def folded (agg : Aggregate D S A) (events : List (Event D)) : A :=
  events.foldl agg.apply agg.default

/-- What `compact` publishes for a history. -/
def build (agg : Aggregate D S A) (events : List (Event D)) : Except Error S :=
  agg.snapshot (agg.folded events)

end Aggregate

/-- Folds a stream from its latest snapshot on. -/
def rehydrate (agg : Aggregate D S A) (σ : Db D S) (stream : String) :
    Except Error (A × Option Nat) :=
  match (latestSnapshot stream : KvM D S Error _).eval σ with
  | .error e => .error e
  | .ok none => fold σ stream (.included 0) .unbounded agg.default agg.apply
  | .ok (some s) =>
      match agg.restore s.state with
      | .error e => .error e
      | .ok a =>
          (fold σ stream (.included (s.throughVersion + 1)) .unbounded a agg.apply).map
            fun r => (r.1, r.2.or (some s.throughVersion))

/-! ## Upkeep of streams -/

/-- The operations that keep a stream up. -/
inductive Upkeep (D : Type) where
  | append (stream : String) (expected : ExpectedVersion) (events : List (NewEvent D))
      (stamps : Nat → Nat → Stamp)
  | compact (stream : String) (nowMs : Int) (ulid : String)
  | purgeBelow (stream : String) (floor : Nat)
  | trimBelow (stream : String) (floor : Nat)

namespace Upkeep

/-- The call of an operation. -/
def call (agg : Aggregate D S A) (σ : Db D S) : Upkeep D → Call D S
  | .append stream expected events stamps => .append stream expected events stamps
  | .compact stream nowMs ulid =>
      .compact ((forkRefs σ).length + 1) stream none agg.build nowMs ulid
  | .purgeBelow stream floor => .purgeBelow stream floor
  | .trimBelow stream floor => .trimBelow stream floor

/-- The result of an operation and the state after it. -/
def exec [Payload D] (agg : Aggregate D S A) (op : Upkeep D) (σ : Db D S) : Result × Db D S :=
  (op.call agg σ).exec σ

end Upkeep

/-- The floor of a purge or a trim is within what the latest snapshot covers. -/
def Upkeep.Covered (σ : Db D S) : Upkeep D → Prop
  | .purgeBelow stream floor => floor ≤ covered σ stream
  | .trimBelow stream floor => floor ≤ covered σ stream
  | _ => True

/-- No event that the latest snapshot of a stream covers was purged or trimmed. -/
def Intact (σ : Db D S) (stream : String) : Prop :=
  ∀ v, v < covered σ stream →
    floorOf σ stream ≤ v ∧ (σ.get (.record stream v)).isSome = true

/-- A compaction finds every event that the latest snapshot covers, or no event
at all and then refuses. -/
def Upkeep.Sound (σ : Db D S) : Upkeep D → Prop
  | .compact stream _ _ => Intact σ stream ∨ eventsOf σ stream 0 none = []
  | _ => True

/-- The states reached by operations that each meet `P` where they run. -/
inductive Reached [Payload D] (agg : Aggregate D S A) (P : Db D S → Upkeep D → Prop) :
    Db D S → Prop where
  | empty : Reached agg P ∅
  | step {σ : Db D S} (op : Upkeep D) : Reached agg P σ → P σ op →
      Reached agg P (op.exec agg σ).2

/-- The states reached within the floors, with sound compactions. -/
def Maintained [Payload D] (agg : Aggregate D S A) : Db D S → Prop :=
  Reached agg fun σ op => op.Covered σ ∧ op.Sound σ

/-! ## The full history of a stream -/

/-- The state holds of the full history of a stream what the latest snapshot does
not cover, and that snapshot holds the rest. -/
structure Upheld (agg : Aggregate D S A) (σ : Db D S) (stream : String)
    (hist : Nat → Option (Event D)) (n : Nat) : Prop extends Retains σ stream hist n where
  snapshot : ∀ s, snapshotAt σ stream = some s →
    agg.restore s.state = .ok (agg.folded (between hist 0 (s.throughVersion + 1)))

/-- Every stream has a full history, and snapshots are numbered by the counter. -/
structure Sound (agg : Aggregate D S A) (σ : Db D S) : Prop where
  streams : ∀ stream, ∃ hist n, Upheld agg σ stream hist n
  snaps : ∀ stream, Numbered σ stream

namespace Upheld

variable {agg : Aggregate D S A} {σ σ' : Db D S} {stream : String}
variable {hist : Nat → Option (Event D)} {n : Nat}

/-- Rehydration returns the fold of the full history. -/
theorem rehydrate_eq (h : Upheld agg σ stream hist n) :
    rehydrate agg σ stream =
      .ok (agg.folded (between hist 0 n), if 0 < n then some (n - 1) else none) := by
  unfold rehydrate
  rw [latestSnapshot_eval]
  have hfloor := h.floor
  have hle := h.covered_le
  have hpresent := h.present
  unfold covered at hfloor hle hpresent
  cases hs : snapshotAt σ stream with
  | none =>
      simp only [hs, Option.elim_none] at hfloor hpresent
      dsimp only
      rw [fold, readHistory_of_not_fork h.fork, h.eventsOf_eq_between hfloor hpresent]
      simp only [Except.map, h.getLast?_between]
      rfl
  | some s =>
      simp only [hs, Option.elim_some] at hfloor hle hpresent
      dsimp only
      rw [h.snapshot s hs]
      dsimp only
      rw [fold, readHistory_of_not_fork h.fork, h.eventsOf_eq_between hfloor hpresent]
      simp only [Except.map, h.getLast?_between]
      rw [Aggregate.folded, ← List.foldl_append, between_append hist (Nat.zero_le _) hle,
        if_pos (show 0 < n by omega)]
      split
      · rfl
      · next hge =>
        rw [show n - 1 = s.throughVersion by omega]
        rfl

end Upheld

/-! ## The steps -/

namespace Upheld

variable {agg : Aggregate D S A} {σ σ' : Db D S} {stream : String}
variable {hist : Nat → Option (Event D)} {n : Nat}

/-- A state that retains the history and has the same snapshots. -/
theorem of_retains (h : Upheld agg σ stream hist n) (hr : Retains σ' stream hist n)
    (hsnap : ∀ m, σ'.get (.snap stream m) = σ.get (.snap stream m)) :
    Upheld agg σ' stream hist n where
  toRetains := hr
  snapshot s hs := h.snapshot s (snapshotAt_congr hsnap ▸ hs)

/-- A state with the same keys of the stream. -/
theorem congr (h : Upheld agg σ stream hist n)
    (hσ : ∀ k, OfStream stream k → σ'.get k = σ.get k) : Upheld agg σ' stream hist n :=
  h.of_retains (h.toRetains.congr hσ) fun m => hσ (.snap stream m) rfl

/-- Removing records that the latest snapshot covers. -/
theorem purge (h : Upheld agg σ stream hist n) {versions : List Nat}
    (hv : ∀ v ∈ versions, v < covered σ stream) :
    Upheld agg (purged σ stream versions) stream hist n :=
  h.of_retains (h.toRetains.purge hv) fun _ => get_purged_of_ne versions σ (by simp)

/-- Raising the floor within what the latest snapshot covers. -/
theorem trim (h : Upheld agg σ stream hist n) {floor : Nat} (hf : floor ≤ covered σ stream) :
    Upheld agg (σ.put (.trim stream) floor) stream hist n :=
  h.of_retains (h.toRetains.trim hf) fun _ => Store.get_put_of_ne _ _ (by simp)

/-- An append extends the history by its records. -/
theorem append (h : Upheld agg σ stream hist n) {req : AppendReq D} {seq : Nat}
    {info : CommitInfo} (happ : Appended req seq σ info σ') (hs : req.stream = stream)
    (hfrom : req.fromVersion = none) : ∃ hist' n', Upheld agg σ' stream hist' n' := by
  obtain ⟨hist', hr, hold, -⟩ := h.toRetains.append happ hs hfrom
  refine ⟨hist', _, hr, ?_⟩
  intro s hsnap
  rw [snapshotAt_congr fun m => happ.frame _ (by simp) (by simp) (by simp)] at hsnap
  rw [h.snapshot s hsnap]
  have hle := h.covered_le
  rw [covered, hsnap, Option.elim_some] at hle
  congr 2
  exact between_congr fun v _ hv => (hold v (by omega)).symm

/-- A compaction that finds every covered event finds the full history. -/
theorem readHistory_eq (h : Upheld agg σ stream hist n) (hi : Intact σ stream) :
    readHistory σ stream (.included 0) .unbounded = .ok (between hist 0 n) := by
  rw [readHistory_of_not_fork h.fork, h.eventsOf_eq_between]
  · -- the floor is 0, as it hides nothing that is covered and is covered itself
    by_contra hpos
    have hf := h.floor
    have := (hi 0 (by omega)).1
    omega
  · intro v _ hn
    by_cases hc : v < covered σ stream
    · exact (hi v hc).2
    · exact h.present v (by omega) hn

/-- Publishing the fold of the full history. -/
theorem publish (h : Upheld agg σ stream hist n) (hlaw : agg.Lawful) (hnum : Numbered σ stream)
    {record : CompactionRecord} {state : S} {ulid : String}
    (hbuild : agg.build (between hist 0 n) = .ok state)
    (hthrough : record.throughVersion + 1 = n) :
    Upheld agg (published σ stream record state ulid) stream hist n where
  toRetains := h.toRetains.publish hnum state ulid hthrough
  snapshot := by
    intro s hs
    rw [snapshotAt_published record state ulid hnum] at hs
    cases hs
    dsimp only
    rw [hthrough]
    exact hlaw _ _ hbuild

end Upheld

/-- What a compaction that finds every covered event does. -/
theorem compact_exec_of_intact [Payload D] {agg : Aggregate D S A} {σ : Db D S}
    {stream : String} {hist : Nat → Option (Event D)} {n : Nat} (h : Upheld agg σ stream hist n)
    (hi : Intact σ stream) (nowMs : Int) (ulid : String) :
    (∃ e, (Upkeep.compact stream nowMs ulid).exec agg σ = (.error e, σ)) ∨
      ∃ record state, record.throughVersion + 1 = n ∧
        agg.build (between hist 0 n) = .ok state ∧
        (Upkeep.compact stream nowMs ulid).exec agg σ =
          (.ok (.compacted record), published σ stream record state ulid) := by
  rw [Upkeep.exec, Upkeep.call, compact_exec, h.readHistory_eq hi]
  dsimp only
  cases hb : agg.build (between hist 0 n) with
  | error e => exact .inl ⟨e, rfl⟩
  | ok state =>
      dsimp only
      have hlast := h.getLast?_between 0
      cases hl : (between hist 0 n).getLast? with
      | none => exact .inl ⟨_, rfl⟩
      | some last =>
          rw [hl] at hlast
          split at hlast
          · next hpos =>
            refine .inr ⟨_, state, ?_, rfl, rfl⟩
            have hv : last.version = n - 1 := Option.some.inj hlast
            dsimp only
            omega
          · cases hlast

/-- A compaction that finds no event is refused. -/
theorem compact_exec_of_empty [Payload D] (agg : Aggregate D S A) {σ : Db D S}
    {stream : String} (hfork : σ.get (.fork stream) = none)
    (hempty : eventsOf σ stream 0 none = []) (nowMs : Int) (ulid : String) :
    ∃ e, (Upkeep.compact stream nowMs ulid).exec agg σ = (.error e, σ) := by
  rw [Upkeep.exec, Upkeep.call, compact_exec, readHistory_of_not_fork hfork, hempty]
  dsimp only
  cases agg.build [] with
  | error e => exact ⟨e, rfl⟩
  | ok state => exact ⟨_, rfl⟩

/-- A transaction on one stream leaves the others, and every snapshot it adds is
numbered by the counter. -/
theorem Sound.other {agg : Aggregate D S A} {σ σ' : Db D S} (h : Sound agg σ) {stream : String}
    (hself : ∃ hist n, Upheld agg σ' stream hist n)
    (hother : ∀ s k, s ≠ stream → OfStream s k → σ'.get k = σ.get k)
    (hsnaps : ∀ s, Numbered σ' s) : Sound agg σ' where
  streams := by
    intro s
    by_cases hs : s = stream
    · subst hs
      exact hself
    · obtain ⟨hist, n, hu⟩ := h.streams s
      exact ⟨hist, n, hu.congr fun k hk => hother s k hs hk⟩
  snaps := hsnaps

theorem Sound.empty {agg : Aggregate D S A} : Sound agg (∅ : Db D S) where
  streams stream := ⟨fun _ => none, 0, .empty stream, fun s hs => by cases hs⟩
  snaps := .empty

/-- Every operation within the floors, with sound compactions, keeps the
histories. -/
theorem Sound.step [Payload D] {agg : Aggregate D S A} (hlaw : agg.Lawful) {σ : Db D S}
    (h : Sound agg σ) (op : Upkeep D) (hc : op.Covered σ) (hs : op.Sound σ) :
    Sound agg (op.exec agg σ).2 := by
  cases op with
  | append stream expected events stamps =>
      rcases Call.exec_effect (.append stream expected events stamps) trivial σ with
        hsame | ⟨infos, seq', σ₁, hr, hσ'⟩
      · rw [Upkeep.exec, Upkeep.call, hsame]
        exact h
      rw [Upkeep.exec, Upkeep.call, hσ']
      obtain ⟨hist, n, hu⟩ := h.streams stream
      cases hr with
      | append happ hrest =>
          cases hrest
          obtain ⟨hist', n', hu'⟩ := hu.append happ rfl rfl
          refine h.other ⟨hist', n', hu'.congr fun k hk => ?_⟩ ?_ ?_
          · exact Store.get_put_of_ne _ _ (by rintro rfl; exact hk)
          · intro s k hs hk
            rw [Store.get_put_of_ne _ _ (by rintro rfl; exact hk)]
            refine happ.frame k ?_ ?_ ?_
            · rintro rfl
              exact hs hk.symm
            · rintro v - - rfl
              exact hs hk.symm
            · rintro t v rfl
              exact hk
          · refine fun s => (h.snaps s).congr (fun m => ?_) ?_
            · rw [Store.get_put_of_ne _ _ (by simp), happ.frame _ (by simp) (by simp) (by simp)]
            · rw [seqOf, seqOf, Store.get_put_self]
              exact Nat.le_add_right _ _
  | compact stream nowMs ulid =>
      obtain ⟨hist, n, hu⟩ := h.streams stream
      rcases hs with hi | hempty
      · rcases compact_exec_of_intact hu hi nowMs ulid with
          ⟨e, he⟩ | ⟨record, state, hthrough, hbuild, he⟩
        · rw [he]
          exact h
        · rw [he]
          refine h.other ⟨hist, n, hu.publish hlaw (h.snaps stream) hbuild hthrough⟩ ?_ ?_
          · intro s k hs hk
            refine get_published_of_ne ?_ ?_ ?_
            · rintro rfl
              exact hk
            · rintro rfl
              exact hk
            · rintro m rfl
              exact hs hk.symm
          · exact fun s => (h.snaps s).publish stream record state ulid
      · obtain ⟨e, he⟩ := compact_exec_of_empty agg hu.fork hempty nowMs ulid
        rw [he]
        exact h
  | purgeBelow stream floor =>
      obtain ⟨hist, n, hu⟩ := h.streams stream
      rw [Upkeep.exec, Upkeep.call, purgeBelow_exec]
      refine h.other ⟨hist, n, hu.purge fun v hv => ?_⟩ ?_ ?_
      · exact (mem_versionsOf.mp hv).1.2.trans_le hc
      · rintro s k hs hk
        refine get_purged_of_ne _ σ ?_
        rintro v - rfl
        exact hs hk.symm
      · refine fun s => (h.snaps s).congr (fun m => get_purged_of_ne _ σ (by simp)) ?_
        rw [seqOf, seqOf, get_purged_of_ne _ σ (by simp)]
  | trimBelow stream floor =>
      obtain ⟨hist, n, hu⟩ := h.streams stream
      rcases Call.exec_effect (.trimBelow stream floor) trivial σ with
        hsame | ⟨infos, hσ'⟩
      · rw [Upkeep.exec, Upkeep.call, hsame]
        exact h
      rw [Upkeep.exec, Upkeep.call, hσ']
      refine h.other ⟨hist, n, hu.trim ?_⟩ ?_ ?_
      · have hf := hu.floor
        have hfl : floor ≤ covered σ stream := hc
        refine Nat.max_le.mpr ⟨?_, hf⟩
        cases tailVersion σ stream with
        | none => exact hfl
        | some v => exact (Nat.min_le_left _ _).trans hfl
      · rintro s k hs hk
        refine Store.get_put_of_ne _ _ ?_
        rintro rfl
        exact hs hk.symm
      · refine fun s => (h.snaps s).congr (fun m => Store.get_put_of_ne _ _ (by simp)) ?_
        rw [seqOf, seqOf, Store.get_put_of_ne _ _ (by simp)]

theorem Maintained.sound [Payload D] {agg : Aggregate D S A} (hlaw : agg.Lawful) {σ : Db D S}
    (h : Maintained agg σ) : Sound agg σ := by
  induction h with
  | empty => exact .empty
  | step op _ hop ih => exact ih.step hlaw op hop.1 hop.2

/-! ## Compaction and rehydration -/

/-- In every state reached with sound compactions, one more sound compaction
leaves what rehydration returns. -/
theorem compact_keeps_rehydrate [Payload D] (agg : Aggregate D S A) (hlaw : agg.Lawful)
    {σ : Db D S} (h : Maintained agg σ) (stream : String) (nowMs : Int) (ulid : String)
    (hs : (Upkeep.compact stream nowMs ulid : Upkeep D).Sound σ) :
    rehydrate agg ((Upkeep.compact stream nowMs ulid).exec agg σ).2 stream =
      rehydrate agg σ stream := by
  obtain ⟨hist, n, hu⟩ := (h.sound hlaw).streams stream
  rcases hs with hi | hempty
  · rcases compact_exec_of_intact hu hi nowMs ulid with
      ⟨e, he⟩ | ⟨record, state, hthrough, hbuild, he⟩
    · rw [he]
    · rw [he, hu.rehydrate_eq,
        (hu.publish hlaw ((h.sound hlaw).snaps stream) hbuild hthrough).rehydrate_eq]
  · obtain ⟨e, he⟩ := compact_exec_of_empty agg hu.fork hempty nowMs ulid
    rw [he]

/-- Counts the events. -/
def counter : Aggregate Bytes Nat Nat where
  default := 0
  apply n _ := n + 1
  snapshot n := .ok n
  restore n := .ok n

theorem counter_lawful : counter.Lawful := by
  rintro a state ⟨⟩
  rfl

/-- An append of `n` events. -/
def appendSome (n : Nat) : Upkeep Bytes :=
  .append "s" .any (List.replicate n { eventType := "x", data := [] })
    fun _ _ => { ulid := "u", nowMs := 5 }

/-- The state after some operations. -/
def upkept (ops : List (Upkeep Bytes)) : Db Bytes Nat :=
  ops.foldl (fun σ op => (op.exec counter σ).2) ∅

theorem compact_keeps_rehydrate_twice :
    rehydrate counter (upkept [appendSome 2, .compact "s" 5 "u", appendSome 1,
        .compact "s" 5 "v"]) "s" =
      rehydrate counter (upkept [appendSome 2, .compact "s" 5 "u", appendSome 1]) "s" := by
  have h : Maintained counter (upkept [appendSome 2, .compact "s" 5 "u", appendSome 1]) := by
    refine .step (appendSome 1) (.step (.compact "s" 5 "u") (.step (appendSome 2) .empty ?_) ?_) ?_
    · exact ⟨trivial, trivial⟩
    · have hc : covered ((appendSome 2).exec counter ∅).2 "s" = 0 := by decide
      refine ⟨trivial, .inl fun v hv => ?_⟩
      exact absurd (hc ▸ hv) (Nat.not_lt_zero v)
    · exact ⟨trivial, trivial⟩
  refine compact_keeps_rehydrate counter counter_lawful h "s" 5 "v" (.inl fun v hv => ?_)
  have hc : covered (upkept [appendSome 2, .compact "s" 5 "u", appendSome 1]) "s" = 2 := by decide
  have hv : v < 2 := by omega
  interval_cases v <;> decide

/-- Two events are compacted and purged, and a third is appended.  The next
compaction counts one event where rehydration counted three. -/
theorem compact_loses_purged_state :
    let σ := upkept [appendSome 2, .compact "s" 5 "u", .purgeBelow "s" 2, appendSome 1]
    Reached counter (fun σ op => op.Covered σ) σ ∧
      ((Upkeep.compact "s" 5 "v").exec counter σ).1.isOk = true ∧
      (rehydrate counter σ "s").toOption = some (3, some 2) ∧
      (rehydrate counter ((Upkeep.compact "s" 5 "v").exec counter σ).2 "s").toOption =
        some (1, some 2) := by
  refine ⟨?_, by decide, by decide, by decide⟩
  refine .step (appendSome 1) (.step (.purgeBelow "s" 2) (.step (.compact "s" 5 "u")
    (.step (appendSome 2) .empty ?_) ?_) ?_) ?_
  · trivial
  · trivial
  · change 2 ≤ covered _ "s"
    decide
  · trivial

end

end Landslide
