import Landslide.Cursor
import Landslide.Snapshots

/-!
# Following compactions

`follow_compactions` polls `j/compactions/` and sends the records whose keys are past its
cursor, taking key order for commit order.  A publish draws the ULID of its record before
it commits.  So a record can appear below a key that was already sent, and is then never
sent (`follower_misses_overtaken`).

A follower sends every record exactly once, by the end of the first poll that sees it,
if and only if the records that appear between two polls have keys above all that the
first of the two saw (`follows_once_iff`).
-/

namespace Landslide

open TxnKv Std

section

variable {D S : Type}

/-! ## The follower -/

/-- The keys of `j/compactions/`. -/
def compactionsRange : Key → Bool
  | .compaction _ => true
  | _ => false

/-- A compaction record with its key, the cursor of the follower. -/
def compactionOf : (k : Key) × Val D S k → Option (Key × CompactionRecord)
  | ⟨.compaction ulid, record⟩ => some (.compaction ulid, record)
  | _ => none

/-- The compaction records of a state, in key order. -/
def compactionsAt (σ : Db D S) : List (Key × CompactionRecord) :=
  (σ.scan compactionsRange).filterMap compactionOf

/-- What `EventStoreReader::follow_compactions` has sent after `n` polls, of which poll
`i` saw the state `states i`. -/
def followCompactions (states : Nat → Db D S) (n : Nat) : List (Key × CompactionRecord) :=
  Cursor.yielded (fun i => compactionsAt (states i)) n

/-- Every record that a poll sees has been sent exactly once by the end of that poll. -/
def FollowsOnce (states : Nat → Db D S) : Prop :=
  ∀ n ulid record, (states n).get (.compaction ulid) = some record →
    (followCompactions states (n + 1)).filter (fun row => row.1 = .compaction ulid) =
      [(.compaction ulid, record)]

theorem mem_compactionsAt {σ : Db D S} {row : Key × CompactionRecord} :
    row ∈ compactionsAt σ ↔
      ∃ ulid, row.1 = .compaction ulid ∧ σ.get (.compaction ulid) = some row.2 := by
  constructor
  · intro h
    obtain ⟨⟨k, v⟩, hmem, hrow⟩ := List.mem_filterMap.mp h
    obtain ⟨hrange, hget⟩ := Store.mem_scan.mp hmem
    cases k with
    | compaction ulid =>
        cases hrow
        exact ⟨ulid, rfl, hget⟩
    | record | tail | fence | trim | deleted | fork | forks | rollback | ts | snap | seq =>
        cases hrange
  · rintro ⟨ulid, hkey, hget⟩
    obtain ⟨k, record⟩ := row
    cases hkey
    exact List.mem_filterMap.mpr ⟨⟨.compaction ulid, record⟩, Store.mem_scan.mpr ⟨rfl, hget⟩, rfl⟩

theorem compactionsAt_ascending (σ : Db D S) : Cursor.Ascending (compactionsAt σ) := by
  refine List.Pairwise.filterMap compactionOf ?_ (Store.scan_sorted σ compactionsRange)
  rintro ⟨k, v⟩ ⟨k', v'⟩ hlt row hrow row' hrow'
  cases k with
  | compaction ulid =>
      cases k' with
      | compaction ulid' =>
          cases hrow
          cases hrow'
          exact hlt
      | record | tail | fence | trim | deleted | fork | forks | rollback | ts | snap | seq =>
          cases hrow'
  | record | tail | fence | trim | deleted | fork | forks | rollback | ts | snap | seq =>
      cases hrow

theorem followsOnce_iff_yieldsOnce (states : Nat → Db D S) :
    FollowsOnce states ↔ Cursor.YieldsOnce fun n => compactionsAt (states n) := by
  constructor
  · rintro h n ⟨k, record⟩ hrow
    obtain ⟨ulid, hkey, hget⟩ := mem_compactionsAt.mp hrow
    cases hkey
    exact h n ulid record hget
  · intro h n ulid record hget
    exact h n (.compaction ulid, record) (mem_compactionsAt.mpr ⟨ulid, rfl, hget⟩)

/-! ## The records of a log -/

/-- Entry `n` of the log publishes a compaction record at the ULID. -/
def Announces (log : List (Entry D S)) (n : Nat) (ulid : String) : Prop :=
  ∃ c, log[n]? = some c ∧ c.call.announces = some ulid

/-- No ULID is drawn twice. -/
def UniqueUlids (log : List (Entry D S)) : Prop :=
  ∀ m n ulid, Announces log m ulid → Announces log n ulid → m = n

/-- The records that are published between two successive polls, of which the first saw
`seen n` entries of the log, have keys above those of all records that it saw. -/
def DrawnInOrder (log : List (Entry D S)) (seen : Nat → Nat) : Prop :=
  ∀ n i j ulid ulid', i < seen n → seen n ≤ j → j < seen (n + 1) → Announces log i ulid →
    Announces log j ulid' → compare (Key.compaction ulid) (.compaction ulid') = .lt

variable [Payload D]

/-- An entry leaves its record. -/
theorem get_announced (acts : Schedule D S) {n : Nat} {ulid : String}
    (h : Announces (reach acts).log n ulid) :
    ((stateOf (reach acts).log (n + 1)).get (.compaction ulid)).isSome = true := by
  obtain ⟨c, hc, hann⟩ := h
  obtain ⟨σ', heff, hsucc, -⟩ := effect_reach acts hc
  rw [hsucc _ (by simp)]
  have published_record : ∀ (σ : Db D S) stream record state,
      ((published σ stream record state ulid).get (.compaction ulid)).isSome = true := by
    intro σ stream record state
    rw [published, Store.get_put_of_ne _ _ (by simp), Store.get_put_self]
    rfl
  cases hcall : c.call with
  | publishSnapshot stream record state ulid' =>
      rw [hcall] at heff hann
      cases hann
      rw [show σ' = _ from heff]
      exact published_record _ _ _ _
  | compact depth stream jobId build nowMs ulid' =>
      rw [hcall] at heff hann
      cases hann
      obtain ⟨record, state, rfl⟩ := heff
      exact published_record _ _ _ _
  | append | appendWithToken | appendAt | commit | fence | fork | trim | trimBelow | purgeBelow
  | deleteStream =>
      rw [hcall] at hann
      cases hann

/-- Any other entry leaves the record of a ULID as it is. -/
theorem get_not_announced (acts : Schedule D S) {n : Nat} {ulid : String}
    (h : ¬ Announces (reach acts).log n ulid) :
    (stateOf (reach acts).log (n + 1)).get (.compaction ulid) =
      (stateOf (reach acts).log n).get (.compaction ulid) := by
  cases hc : (reach acts).log[n]? with
  | none =>
      have hlen := List.getElem?_eq_none_iff.mp hc
      rw [stateOf, stateOf, stateAt, stateAt, List.take_of_length_le hlen,
        List.take_of_length_le (Nat.le_succ_of_le hlen)]
  | some c =>
      obtain ⟨σ', heff, hsucc, -⟩ := effect_reach acts hc
      rw [hsucc _ (by simp), ← get_viewOf (c := c) (by simp)]
      rcases heff.publish_cases with hsame | ⟨stream, record, state, ulid', rfl, hcall⟩
      · exact hsame _ rfl
      · have hne : ulid ≠ ulid' := by
          rintro rfl
          refine h ⟨c, hc, ?_⟩
          rcases hcall with hcall | ⟨depth, jobId, build, nowMs, hcall⟩
          · rw [hcall]
            rfl
          · rw [hcall]
            rfl
        exact get_published_of_ne (by simp) (by simpa using hne) (by simp)

/-- A record is there exactly after its entry. -/
theorem compaction_isSome_iff (acts : Schedule D S) (ulid : String) (n : Nat) :
    ((stateOf (reach acts).log n).get (.compaction ulid)).isSome = true ↔
      ∃ i, i < n ∧ Announces (reach acts).log i ulid := by
  induction n with
  | zero =>
      constructor
      · intro h
        rw [stateOf, stateAt_zero, Store.get_empty] at h
        cases h
      · rintro ⟨i, hi, -⟩
        exact absurd hi (Nat.not_lt_zero i)
  | succ n ih =>
      by_cases hann : Announces (reach acts).log n ulid
      · exact ⟨fun _ => ⟨n, Nat.lt_succ_self n, hann⟩, fun _ => get_announced acts hann⟩
      · rw [get_not_announced acts hann, ih]
        constructor
        · rintro ⟨i, hi, h⟩
          exact ⟨i, Nat.lt_succ_of_lt hi, h⟩
        · rintro ⟨i, hi, h⟩
          rcases Nat.lt_succ_iff_lt_or_eq.mp hi with hi | rfl
          · exact ⟨i, hi, h⟩
          · exact absurd h hann

/-- With unique ULIDs, a record stays as it was published. -/
theorem compaction_stays {acts : Schedule D S} (hunique : UniqueUlids (reach acts).log)
    {m n : Nat} (hmn : m ≤ n) {ulid : String} {record : CompactionRecord}
    (h : (stateOf (reach acts).log m).get (.compaction ulid) = some record) :
    (stateOf (reach acts).log n).get (.compaction ulid) = some record := by
  obtain ⟨i, hi, hann⟩ := (compaction_isSome_iff acts ulid m).mp (by rw [h]; rfl)
  induction n, hmn using Nat.le_induction with
  | base => exact h
  | succ n hmn ih =>
      refine (get_not_announced acts fun hn => ?_).trans ih
      have := hunique i n ulid hann hn
      omega

/-! ## Polls -/

theorem appearInOrder_iff_drawnInOrder {acts : Schedule D S}
    (hunique : UniqueUlids (reach acts).log) {seen : Nat → Nat} (hseen : Monotone seen) :
    Cursor.AppearInOrder (fun n => compactionsAt (stateOf (reach acts).log (seen n))) ↔
      DrawnInOrder (reach acts).log seen := by
  constructor
  · intro h n i j ulid ulid' hi hn hj hann hann'
    obtain ⟨record, hold⟩ := Option.isSome_iff_exists.mp
      ((compaction_isSome_iff acts ulid (seen n)).mpr ⟨i, hi, hann⟩)
    obtain ⟨record', hnew⟩ := Option.isSome_iff_exists.mp
      ((compaction_isSome_iff acts ulid' (seen (n + 1))).mpr ⟨j, hj, hann'⟩)
    refine h n (.compaction ulid', record') (mem_compactionsAt.mpr ⟨ulid', rfl, hnew⟩) ?_
      (.compaction ulid, record) (mem_compactionsAt.mpr ⟨ulid, rfl, hold⟩)
    -- the entry that published it was not seen by poll `n`
    intro hmem
    obtain ⟨_, hkey, hget⟩ := mem_compactionsAt.mp hmem
    cases hkey
    obtain ⟨i', hi', hann''⟩ := (compaction_isSome_iff acts ulid' (seen n)).mp (by rw [hget]; rfl)
    have := hunique i' j ulid' hann'' hann'
    omega
  · rintro h n ⟨k', record'⟩ hrow hnew ⟨k, record⟩ hold
    obtain ⟨ulid', hkey', hget'⟩ := mem_compactionsAt.mp hrow
    obtain ⟨ulid, hkey, hget⟩ := mem_compactionsAt.mp hold
    cases hkey
    cases hkey'
    obtain ⟨i, hi, hann⟩ := (compaction_isSome_iff acts ulid (seen n)).mp (by rw [hget]; rfl)
    obtain ⟨j, hj, hann'⟩ :=
      (compaction_isSome_iff acts ulid' (seen (n + 1))).mp (by rw [hget']; rfl)
    refine h n i j ulid ulid' hi ?_ hj hann hann'
    by_contra hlt
    obtain ⟨seenRecord, hseenRecord⟩ := Option.isSome_iff_exists.mp
      ((compaction_isSome_iff acts ulid' (seen n)).mpr ⟨j, by omega, hann'⟩)
    have hstays := compaction_stays hunique (hseen (Nat.le_succ n)) hseenRecord
    rw [hget'] at hstays
    cases hstays
    exact hnew (mem_compactionsAt.mpr ⟨ulid', rfl, hseenRecord⟩)

/-- In every schedule with unique ULIDs and for every sequence of polls, of which poll
`n` sees the first `seen n` commits, the follower sends every record that a poll sees
exactly once by the end of that poll, if and only if the records published between two
successive polls are drawn above those published before. -/
theorem follows_once_iff (acts : Schedule D S) (seen : Nat → Nat) (hseen : Monotone seen)
    (hunique : UniqueUlids (reach acts).log) :
    FollowsOnce (fun n => stateOf (reach acts).log (seen n)) ↔
      DrawnInOrder (reach acts).log seen := by
  have hgrowing : Cursor.Growing fun n => compactionsAt (stateOf (reach acts).log (seen n)) := by
    refine ⟨fun n => compactionsAt_ascending _, ?_⟩
    rintro n ⟨k, record⟩ hrow
    obtain ⟨ulid, hkey, hget⟩ := mem_compactionsAt.mp hrow
    cases hkey
    exact mem_compactionsAt.mpr
      ⟨ulid, rfl, compaction_stays hunique (hseen (Nat.le_succ n)) hget⟩
  rw [followsOnce_iff_yieldsOnce, Cursor.yields_once_iff hgrowing,
    appearInOrder_iff_drawnInOrder hunique hseen]

end

/-! ## Overlapping publishes -/

/-- A compaction of one event. -/
def announcement : CompactionRecord :=
  { stream := "s", throughVersion := 0, eventsCompacted := 1, jobId := none, tsMs := 5 }

/-- Client 0 publishes a snapshot of `s` and has drawn its ULID.  Before it commits,
client 1 draws one and publishes a snapshot of `t`. -/
def overlapping (ulid ulid' : String) : Schedule Bytes Unit :=
  .invoke 0 (.publishSnapshot "s" announcement () ulid) :: List.replicate 5 (.step 0) ++
    .invoke 1 (.publishSnapshot "t" announcement () ulid') :: List.replicate 7 (.step 1) ++
      List.replicate 2 (.step 0)

/-- The entries of a log that announces two compactions. -/
theorem announces_of_two {log : List (Entry Bytes Unit)} {first second : String}
    (hlog : log.map (fun c => c.call.announces) = [some first, some second]) {n : Nat}
    {ulid : String} (h : Announces log n ulid) :
    (n = 0 ∧ ulid = first) ∨ (n = 1 ∧ ulid = second) := by
  obtain ⟨c, hc, hann⟩ := h
  have hget : (log.map fun c => c.call.announces)[n]? = some (some ulid) := by
    rw [List.getElem?_map, hc, Option.map_some, hann]
  rw [hlog] at hget
  cases n with
  | zero =>
      cases hget
      exact .inl ⟨rfl, rfl⟩
  | succ n =>
      cases n with
      | zero =>
          cases hget
          exact .inr ⟨rfl, rfl⟩
      | succ n => cases hget

theorem uniqueUlids_of_two {log : List (Entry Bytes Unit)} {first second : String}
    (hlog : log.map (fun c => c.call.announces) = [some first, some second])
    (hne : first ≠ second) : UniqueUlids log := by
  intro m n ulid hm hn
  rcases announces_of_two hlog hm with ⟨rfl, rfl⟩ | ⟨rfl, rfl⟩
  · rcases announces_of_two hlog hn with ⟨rfl, -⟩ | ⟨-, heq⟩
    · rfl
    · exact absurd heq hne
  · rcases announces_of_two hlog hn with ⟨-, heq⟩ | ⟨rfl, -⟩
    · exact absurd heq.symm hne
    · rfl

/-- With a poll after each of two publishes that commit in the order of their keys, the
follower sends both. -/
theorem follows_once_in_order :
    (reach (overlapping "01B" "01A")).log.length = 2 ∧
      FollowsOnce fun n => stateOf (reach (overlapping "01B" "01A")).log (n + 1) := by
  have hlog : (reach (overlapping "01B" "01A")).log.map (fun c => c.call.announces) =
      [some "01A", some "01B"] := by decide
  refine ⟨by decide, (follows_once_iff _ (fun n => n + 1)
    (fun _ _ h => Nat.succ_le_succ h) (uniqueUlids_of_two hlog (by decide))).mpr ?_⟩
  intro n i j ulid ulid' hi hj _ hann hann'
  rcases announces_of_two hlog hann with ⟨rfl, rfl⟩ | ⟨rfl, rfl⟩
  · rcases announces_of_two hlog hann' with ⟨rfl, -⟩ | ⟨-, rfl⟩
    · omega
    · decide
  · rcases announces_of_two hlog hann' with ⟨rfl, -⟩ | ⟨rfl, -⟩ <;> omega

/-- With a poll after each of two publishes that commit against the order of their keys,
the follower has sent only the first, though the second poll sees both. -/
theorem follower_misses_overtaken :
    UniqueUlids (reach (overlapping "01A" "01B")).log ∧
      (stateOf (reach (overlapping "01A" "01B")).log 2).get (.compaction "01A") =
        some announcement ∧
      followCompactions (fun n => stateOf (reach (overlapping "01A" "01B")).log (n + 1)) 2 =
        [(.compaction "01B", announcement)] ∧
      ¬ FollowsOnce fun n => stateOf (reach (overlapping "01A" "01B")).log (n + 1) := by
  have hlog : (reach (overlapping "01A" "01B")).log.map (fun c => c.call.announces) =
      [some "01B", some "01A"] := by decide
  have hpresent : (stateOf (reach (overlapping "01A" "01B")).log 2).get (.compaction "01A") =
      some announcement := by decide
  have hsent : followCompactions
      (fun n => stateOf (reach (overlapping "01A" "01B")).log (n + 1)) 2 =
        [(.compaction "01B", announcement)] := by decide
  refine ⟨uniqueUlids_of_two hlog (by decide), hpresent, hsent, fun h => ?_⟩
  have honce := h 1 "01A" announcement hpresent
  rw [hsent] at honce
  cases honce

end Landslide
