import Landslide.Sequence

/-!
# What the reads return

Each read of `kv.rs` and `fork.rs`, on a state that does not change under it, as
a function of that state: the highest live pin (`ceilingOf`), the events of a
stream that pass its guards (`eventsOf`) and the latest snapshot
(`snapshotAt`).  A chain of forks is never longer than the number of fork
references, so the bound of `readHistory` is never reached
(`readHistory_ne_depth`).
-/

namespace Landslide

open TxnKv Std

section

variable {D S E : Type}

/-! ## Pins -/

/-- The version of a pin whose child is not deleted. -/
def livePin (σ : Db D S) (pin : String × Nat) : Option Nat :=
  if (σ.get (.deleted pin.1)).isNone then some pin.2 else none

/-- The pins of a stream that are held by children not deleted. -/
def livePins (σ : Db D S) (stream : String) : List Nat :=
  ((σ.scan (forksRange stream)).filterMap pinOf).filterMap (livePin σ)

/-- The higher of a pin and the pins seen so far. -/
def raise (acc : Option Nat) (at_ : Nat) : Option Nat := some (acc.elim at_ (max · at_))

/-- The highest pin of a stream that is held by a child not deleted. -/
def ceilingOf (σ : Db D S) (stream : String) : Option Nat :=
  (livePins σ stream).foldl raise none

theorem ceilingLoop_eval (σ : Db D S) : ∀ (acc : Option Nat) (pins : List (String × Nat)),
    (ceilingLoop acc pins : KvM D S E (Option Nat)).eval σ =
      .ok ((pins.filterMap (livePin σ)).foldl raise acc)
  | _, [] => rfl
  | acc, (child, at_) :: pins => by
      rw [ceilingLoop, Prog.eval_read_bind]
      by_cases hd : (σ.get (.deleted child)).isNone = true
      · have hp : livePin σ (child, at_) = some at_ := if_pos hd
        rw [if_pos hd, ceilingLoop_eval σ _ pins, List.filterMap_cons_some hp]
        rfl
      · have hp : livePin σ (child, at_) = none := if_neg hd
        rw [if_neg hd, ceilingLoop_eval σ _ pins, List.filterMap_cons_none hp]

@[simp] theorem ceiling_eval (σ : Db D S) (stream : String) :
    (ceiling stream : KvM D S E (Option Nat)).eval σ = .ok (ceilingOf σ stream) := by
  rw [ceiling, Prog.eval_readRange_bind]
  exact ceilingLoop_eval σ _ _

theorem foldl_raise (pins : List Nat) : ∀ acc : Option Nat,
    (∀ a, acc = some a → ∃ m, pins.foldl raise acc = some m ∧ a ≤ m) ∧
      ∀ a ∈ pins, ∃ m, pins.foldl raise acc = some m ∧ a ≤ m := by
  induction pins with
  | nil => intro acc; exact ⟨fun a ha => ⟨a, ha, le_rfl⟩, fun a ha => by cases ha⟩
  | cons p pins ih =>
      intro acc
      obtain ⟨hacc, hmem⟩ := ih (raise acc p)
      obtain ⟨m, hm, hle⟩ := hacc _ rfl
      refine ⟨fun a ha => ⟨m, hm, ?_⟩, fun a ha => ?_⟩
      · subst ha
        exact (Nat.le_max_left a p).trans hle
      · rcases List.mem_cons.mp ha with rfl | ha
        · refine ⟨m, hm, Nat.le_trans ?_ hle⟩
          cases acc with
          | none => exact le_rfl
          | some b => exact Nat.le_max_right b a
        · exact hmem a ha

/-- A pin of a live child is at most the ceiling. -/
theorem le_ceilingOf {σ : Db D S} {stream child : String} {at_ : Nat}
    (hpin : σ.get (.forks stream child) = some at_) (hlive : σ.get (.deleted child) = none) :
    ∃ m, ceilingOf σ stream = some m ∧ at_ ≤ m := by
  refine (foldl_raise (livePins σ stream) none).2 at_ ?_
  refine List.mem_filterMap.mpr ⟨(child, at_), ?_, by simp [livePin, hlive]⟩
  refine List.mem_filterMap.mpr ⟨⟨.forks stream child, at_⟩, ?_, rfl⟩
  simp [forksRange, hpin]

theorem mem_foldl_raise (pins : List Nat) : ∀ (acc : Option Nat) {m : Nat},
    pins.foldl raise acc = some m → acc = some m ∨ m ∈ pins := by
  induction pins with
  | nil => exact fun acc m h => .inl h
  | cons p pins ih =>
      intro acc m h
      rcases ih (raise acc p) h with hr | hm
      · cases acc with
        | none => exact .inr (by cases hr; exact List.mem_cons_self)
        | some a =>
            have hmax : max a p = m := Option.some.inj hr
            rcases Nat.le_total a p with hle | hle
            · rw [Nat.max_eq_right hle] at hmax
              exact .inr (hmax ▸ List.mem_cons_self)
            · rw [Nat.max_eq_left hle] at hmax
              exact .inl (congrArg some hmax)
      · exact .inr (List.mem_cons_of_mem _ hm)

/-- The ceiling is a pin of a live child. -/
theorem exists_pin_of_ceilingOf {σ : Db D S} {stream : String} {m : Nat}
    (h : ceilingOf σ stream = some m) : ∃ child, σ.get (.forks stream child) = some m ∧
      σ.get (.deleted child) = none := by
  rcases mem_foldl_raise _ none h with hm | hm
  · cases hm
  · obtain ⟨⟨child, a⟩, hpin, hlive⟩ := List.mem_filterMap.mp hm
    obtain ⟨⟨k, x⟩, hmem, hk⟩ := List.mem_filterMap.mp hpin
    rw [Store.mem_scan] at hmem
    rw [livePin] at hlive
    split at hlive
    swap
    · cases hlive
    next hnone =>
    cases hlive
    cases k with
    | forks s ch =>
        cases hk
        obtain rfl : s = stream := by simpa [forksRange] using hmem.1
        exact ⟨child, hmem.2, Option.isNone_iff_eq_none.mp hnone⟩
    | record | tail | fence | trim | deleted | fork | rollback | ts | snap | compaction | seq =>
        cases hk

/-- The ceiling depends on the pins of the stream and on the deletion marks. -/
theorem ceilingOf_congr {σ σ' : Db D S} {stream : String}
    (hpins : ∀ child, σ'.get (.forks stream child) = σ.get (.forks stream child))
    (hdel : ∀ child, σ'.get (.deleted child) = σ.get (.deleted child)) :
    ceilingOf σ' stream = ceilingOf σ stream := by
  have hscan : σ'.scan (forksRange stream) = σ.scan (forksRange stream) := by
    refine Store.scan_congr fun k hk => ?_
    cases k with
    | forks s child =>
        obtain rfl : s = stream := by simpa [forksRange] using hk
        exact hpins child
    | record | tail | fence | trim | deleted | fork | rollback | ts | snap | compaction | seq =>
        cases hk
  have hlive : livePin σ' = livePin σ := by
    funext pin
    rw [livePin, hdel, livePin]
  rw [ceilingOf, livePins, hscan, hlive, ceilingOf, livePins]

/-! ## Events -/

/-- The trim floor of a stream. -/
def floorOf (σ : Db D S) (stream : String) : Nat := (σ.get (.trim stream)).getD 0

/-- The rollback windows of a stream. -/
def windowsOf (σ : Db D S) (stream : String) : List (Nat × Nat) :=
  (σ.scan (rollbackRange stream)).filterMap rollbackOf

/-- The envelope passes the guards of the stream. -/
def shows (σ : Db D S) (stream : String) (lo : Nat) (hi : Option Nat) : Envelope D → Bool :=
  visible lo hi (σ.get (.deleted stream)).isSome
    (if (σ.get (.deleted stream)).isSome then ceilingOf σ stream else none) (windowsOf σ stream)

/-- The events of a stream in `[lo, hi)` that pass its guards. -/
def eventsOf (σ : Db D S) (stream : String) (lo : Nat) (hi : Option Nat) : List (Event D) :=
  (((σ.scan (recordRange stream (max lo (floorOf σ stream)) hi)).filterMap envelopeOf).filter
    (shows σ stream (max lo (floorOf σ stream)) hi)).map Event.fromParts

theorem mem_eventsOf {σ : Db D S} {stream : String} {lo : Nat} {hi : Option Nat} {e : Event D} :
    e ∈ eventsOf σ stream lo hi ↔ ∃ v env, σ.get (.record stream v) = some env ∧
      (max lo (floorOf σ stream) ≤ v ∧ hi.all (v < ·) = true) ∧
      shows σ stream (max lo (floorOf σ stream)) hi env = true ∧ Event.fromParts env = e := by
  simp only [eventsOf, List.mem_map, List.mem_filter, List.mem_filterMap]
  constructor
  · rintro ⟨env, ⟨⟨⟨k, x⟩, hmem, hk⟩, hshow⟩, rfl⟩
    rw [Store.mem_scan] at hmem
    cases k with
    | record s v =>
        cases hk
        obtain ⟨hrange, hget⟩ := hmem
        simp only [recordRange, Bool.and_eq_true, decide_eq_true_eq] at hrange
        obtain ⟨⟨rfl, hlo⟩, hhi⟩ := hrange
        exact ⟨v, env, hget, ⟨hlo, hhi⟩, hshow, rfl⟩
    | tail | fence | trim | deleted | fork | forks | rollback | ts | snap | compaction | seq =>
        cases hk
  · rintro ⟨v, env, hget, ⟨hlo, hhi⟩, hshow, rfl⟩
    refine ⟨env, ⟨⟨⟨.record stream v, env⟩, ?_, rfl⟩, hshow⟩, rfl⟩
    rw [Store.mem_scan]
    refine ⟨?_, hget⟩
    simp only [recordRange, decide_true, Bool.true_and, Bool.and_eq_true, decide_eq_true_eq]
    exact ⟨hlo, hhi⟩

theorem eventsOf_eq_nil {σ : Db D S} {stream : String} {lo : Nat} {hi : Option Nat}
    (h : hi.any (max lo (floorOf σ stream) ≥ ·) = true) : eventsOf σ stream lo hi = [] := by
  refine List.eq_nil_iff_forall_not_mem.mpr fun e he => ?_
  obtain ⟨v, env, -, ⟨hlo, hhi⟩, -, -⟩ := mem_eventsOf.mp he
  cases hi with
  | none => cases h
  | some hi =>
      simp only [Option.any_some, Option.all_some, decide_eq_true_eq] at h hhi
      omega

@[simp] theorem readEvents_eval (σ : Db D S) (stream : String) (lo : Nat) (hi : Option Nat) :
    (readEvents stream lo hi : KvM D S E (List (Event D))).eval σ =
      .ok (eventsOf σ stream lo hi) := by
  unfold readEvents
  rw [Prog.eval_read_bind, Prog.eval_read_bind]
  rw [Prog.eval_bind_ok (a := if (σ.get (.deleted stream)).isSome then ceilingOf σ stream else none)]
  swap
  · split
    · exact ceiling_eval σ stream
    · rfl
  rw [Prog.eval_bind_ok (a := windowsOf σ stream)]
  swap
  · rfl
  by_cases hempty : hi.any (max lo (floorOf σ stream) ≥ ·) = true
  · rw [eventsOf_eq_nil hempty]
    exact congrArg (Prog.eval · σ) (if_pos hempty)
  · exact congrArg (Prog.eval · σ) (if_neg hempty)

/-- Two states show the same events of a stream when they have the same floor and
the same records pass their guards. -/
theorem eventsOf_congr {σ σ' : Db D S} {stream : String} {lo : Nat} {hi : Option Nat}
    (hfloor : floorOf σ' stream = floorOf σ stream)
    (hrec : ∀ v (env : Envelope D), max lo (floorOf σ stream) ≤ v → hi.all (v < ·) = true →
      (σ'.get (.record stream v) = some env ∧
          shows σ' stream (max lo (floorOf σ stream)) hi env = true ↔
        σ.get (.record stream v) = some env ∧
          shows σ stream (max lo (floorOf σ stream)) hi env = true)) :
    eventsOf σ' stream lo hi = eventsOf σ stream lo hi := by
  have swap : ∀ (τ : Db D S) (l : List ((k : Key) × Val D S k)),
      ((l.filterMap envelopeOf).filter (shows τ stream (max lo (floorOf σ stream)) hi)).map
          Event.fromParts =
        (l.filter fun x => (envelopeOf x).any
          (shows τ stream (max lo (floorOf σ stream)) hi)).filterMap
            fun x => (envelopeOf x).map Event.fromParts := by
    intro τ l
    rw [List.filter_filterMap, List.map_filterMap, List.filterMap_filter]
    refine List.filterMap_congr fun x _ => ?_
    cases envelopeOf x with
    | none => rfl
    | some env =>
        by_cases hs : shows τ stream (max lo (floorOf σ stream)) hi env = true <;>
          simp [hs, Option.filter]
  unfold eventsOf
  rw [hfloor, swap σ', swap σ]
  refine congrArg _ (Store.scan_filter_congr fun k v => ?_)
  cases k with
  | record s w =>
      by_cases hs : s = stream
      · subst hs
        simp only [recordRange, decide_true, Bool.true_and, Bool.and_eq_true, decide_eq_true_eq]
        constructor
        · rintro ⟨⟨hlo, hhi⟩, hget, hshow⟩
          exact ⟨⟨hlo, hhi⟩, (hrec w v hlo hhi).mp ⟨hget, hshow⟩⟩
        · rintro ⟨⟨hlo, hhi⟩, hget, hshow⟩
          exact ⟨⟨hlo, hhi⟩, (hrec w v hlo hhi).mpr ⟨hget, hshow⟩⟩
      · simp [recordRange, hs]
  | tail | fence | trim | deleted | fork | forks | rollback | ts | snap | compaction | seq =>
      simp [recordRange]

/-- The events of a stream come in version order. -/
theorem eventsOf_sorted {σ : Db D S} {stream : String}
    (hver : ∀ v (env : Envelope D), σ.get (.record stream v) = some env → env.version = v)
    (lo : Nat) (hi : Option Nat) :
    (eventsOf σ stream lo hi).Pairwise fun e e' => e.version < e'.version := by
  unfold eventsOf
  refine List.Pairwise.map _ (fun env env' h => h) (List.Pairwise.filter _ ?_)
  refine List.pairwise_filterMap.mpr ?_
  refine (Store.scan_sorted σ _).imp_of_mem ?_
  rintro ⟨k, x⟩ ⟨k', x'⟩ hmem hmem' hlt env henv env' henv'
  rw [Store.mem_scan] at hmem hmem'
  cases k with
  | record s v =>
      cases k' with
      | record s' v' =>
          cases henv
          cases henv'
          obtain rfl : s = stream := by
            have := hmem.1
            simp only [recordRange, Bool.and_eq_true, decide_eq_true_eq] at this
            exact this.1.1
          obtain rfl : s' = s := by
            have := hmem'.1
            simp only [recordRange, Bool.and_eq_true, decide_eq_true_eq] at this
            exact this.1.1
          change env.version < env'.version
          rw [hver v env hmem.2, hver v' env' hmem'.2]
          exact Key.record_lt.mp hlt
      | tail | fence | trim | deleted | fork | forks | rollback | ts | snap | compaction | seq =>
          cases henv'
  | tail | fence | trim | deleted | fork | forks | rollback | ts | snap | compaction | seq =>
      cases henv

/-! ## Snapshots -/

/-- The snapshots of a stream, by sequence. -/
def snapshotsOf (σ : Db D S) (stream : String) : List ((k : Key) × Val D S k) :=
  σ.scan (snapRange stream)

/-- The snapshot of a stream with the highest sequence. -/
def snapshotAt (σ : Db D S) (stream : String) : Option (SnapshotRecord S) :=
  ((snapshotsOf σ stream).filterMap snapshotOf).getLast?

@[simp] theorem latestSnapshot_eval (σ : Db D S) (stream : String) :
    (latestSnapshot stream : KvM D S E _).eval σ = .ok (snapshotAt σ stream) := rfl

/-! ## Histories -/

/-- One step up the fork chain. -/
theorem resolveHistory_eval (σ : Db D S) (depth : Nat) (stream : String)
    (visited : List String) (lo : Nat) (hi : Option Nat) :
    (resolveHistory (depth + 1) stream visited lo hi).eval σ =
      if hi.any (lo ≥ ·) then .ok []
      else if stream ∈ visited then .error (.invalidInput s!"fork cycle at '{stream}'")
      else
        match σ.get (.fork stream) with
        | none => .ok (eventsOf σ stream lo hi)
        | some f =>
            let parentHi := hi.elim (f.atVersion + 1) (min · (f.atVersion + 1))
            if lo < parentHi then
              ((resolveHistory depth f.stream (stream :: visited) lo (some parentHi)).eval σ).map
                (· ++ eventsOf σ stream lo hi)
            else .ok (eventsOf σ stream lo hi) := by
  rw [resolveHistory]
  by_cases hempty : hi.any (lo ≥ ·) = true
  · rw [if_pos hempty, if_pos hempty]
    rfl
  rw [if_neg hempty, if_neg hempty]
  by_cases hvis : stream ∈ visited
  · rw [if_pos hvis, if_pos hvis]
    rfl
  rw [if_neg hvis, if_neg hvis]
  have own : ∀ inherited : List (Event D),
      (do
        let own ← readEvents stream lo hi
        return inherited ++ own : KvM D S Error (List (Event D))).eval σ =
          .ok (inherited ++ eventsOf σ stream lo hi) := by
    intro inherited
    rw [Prog.eval_bind_ok (readEvents_eval σ stream lo hi)]
    rfl
  rw [forkRef, Prog.eval_read_bind]
  cases hf : σ.get (.fork stream) with
  | none => exact own []
  | some f =>
      dsimp only
      by_cases hlo : lo < hi.elim (f.atVersion + 1) (min · (f.atVersion + 1))
      · rw [if_pos hlo, if_pos hlo, Prog.eval_bind]
        cases (resolveHistory depth f.stream (stream :: visited) lo
            (some (hi.elim (f.atVersion + 1) (min · (f.atVersion + 1))))).eval σ with
        | error e => rfl
        | ok inherited => exact own inherited
      · rw [if_neg hlo, if_neg hlo]
        exact own []

theorem mem_forkRefs {σ : Db D S} {stream : String} {f : ForkRef}
    (h : σ.get (.fork stream) = some f) : Key.fork stream ∈ (forkRefs σ).map (·.1) :=
  List.mem_map.mpr ⟨⟨.fork stream, f⟩, by simp [forkRefs, h], rfl⟩

/-- Distinct streams with a fork reference are no more than the references. -/
theorem length_le_forkRefs {σ : Db D S} {streams : List String} (hnd : streams.Nodup)
    (hfork : ∀ s ∈ streams, (σ.get (.fork s)).isSome = true) :
    streams.length ≤ (forkRefs σ).length := by
  have hnd' : (streams.map Key.fork).Nodup := hnd.map fun a b h => by cases h; rfl
  have hsub : streams.map Key.fork ⊆ (forkRefs σ).map (·.1) := by
    intro k hk
    obtain ⟨s, hs, rfl⟩ := List.mem_map.mp hk
    obtain ⟨f, hf⟩ := Option.isSome_iff_exists.mp (hfork s hs)
    exact mem_forkRefs hf
  simpa using (List.subperm_of_subset hnd' hsub).length_le

/-- The bound on the chain is not reached: the streams passed are distinct, and
each has a fork reference. -/
theorem resolveHistory_ne_depth (σ : Db D S) : ∀ (depth : Nat) (stream : String)
    (visited : List String) (lo : Nat) (hi : Option Nat), visited.Nodup →
    (∀ s ∈ visited, (σ.get (.fork s)).isSome = true) →
    (forkRefs σ).length < depth + visited.length →
      (resolveHistory depth stream visited lo hi).eval σ ≠ .error .depth
  | 0, _, visited, _, _, hnd, hfork, hlen => by
      have := length_le_forkRefs hnd hfork
      omega
  | depth + 1, stream, visited, lo, hi, hnd, hfork, hlen => by
      rw [resolveHistory_eval]
      split
      · simp
      split
      · simp
      next hvis =>
      cases hf : σ.get (.fork stream) with
      | none => simp
      | some f =>
          dsimp only
          split
          swap
          · simp
          have ih := resolveHistory_ne_depth σ depth f.stream (stream :: visited) lo
            (some (hi.elim (f.atVersion + 1) (min · (f.atVersion + 1))))
            (List.nodup_cons.mpr ⟨hvis, hnd⟩)
            (by
              intro s hs
              rcases List.mem_cons.mp hs with rfl | hs
              · simp [hf]
              · exact hfork s hs)
            (by simp only [List.length_cons]; omega)
          intro h
          cases hr : (resolveHistory depth f.stream (stream :: visited) lo
              (some (hi.elim (f.atVersion + 1) (min · (f.atVersion + 1))))).eval σ with
          | error e => rw [hr] at h; cases h; exact ih hr
          | ok inherited => rw [hr] at h; cases h

/-- A read of a history is never cut short by the bound on the chain. -/
theorem readHistory_ne_depth (σ : Db D S) (stream : String) (start stop : Bound) :
    readHistory σ stream start stop ≠ .error .depth :=
  resolveHistory_ne_depth σ _ stream [] _ _ List.nodup_nil (by simp) (by simp)

/-- A stream that is not a fork has its own events as its history. -/
theorem readHistory_of_not_fork {σ : Db D S} {stream : String}
    (hfork : σ.get (.fork stream) = none) (lo : Nat) :
    readHistory σ stream (.included lo) .unbounded = .ok (eventsOf σ stream lo none) := by
  simp only [readHistory, bounds, resolveHistory_eval, hfork]
  simp

end

end Landslide
