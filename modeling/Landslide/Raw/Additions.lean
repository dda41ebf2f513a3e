import Landslide.Guarded
import Landslide.Raw.Purge

/-!
# Additions of versions

Versions are 64 bits wide in the source, and callers give any of them.  The calls that add
to a version are written here once more, with additions modulo `2 ^ 64` as a release build
does them (`U64`); elsewhere versions are natural numbers.

`VersionCall.sums` are the sums that a call computes, in the store that it finds, and
`VersionCall.Room` says when none of them is too large: no bound of a range and no version
that is stored and counted from is the last of the 64 bits, and the batch of an append
ends before it.  There, and only there, no addition overflows (`fits_iff`), and a run of
calls does what it does with natural numbers (`sums_fit_iff`).

A purge reads the version it goes on from off the last 16 digits of a key, so that sum is
never too large (`versionSuffix_lt`).
-/

namespace Landslide.Raw

open TxnKv Landslide.Fuse

section

variable {D S E : Type}

/-- `EventStore::read_tail` -/
def readTail (w : Wire D S) (stream : String) (n : Nat) : RawM Error (List (Event D)) := do
  let tail ← tail w stream
  match tail with
  | none => return []
  | some t => readEvents w stream (t.version + 1 - n) none

/-! ## Calls over 64 bits -/

/-- `u64::MAX` -/
def maxVersion : Nat := 2 ^ 64 - 1

namespace U64

/-- Addition in a release build. -/
def add (a b : Nat) : Nat := (a + b) % 2 ^ 64

/-- Subtraction of 1 in a release build. -/
def pred (a : Nat) : Nat := (a + maxVersion) % 2 ^ 64

theorem add_eq {a b : Nat} (h : a + b ≤ maxVersion) : add a b = a + b :=
  Nat.mod_eq_of_lt (Nat.lt_of_le_of_lt h (by decide))

theorem pred_eq {a : Nat} (hpos : 0 < a) (h : a ≤ maxVersion) : pred a = a - 1 := by
  rw [pred, maxVersion] at *
  omega

def bounds (start stop : Bound) : Nat × Option Nat :=
  let lo := match start with
    | .included v => v
    | .excluded v => add v 1
    | .unbounded => 0
  let hi := match stop with
    | .included v => some (add v 1)
    | .excluded v => some v
    | .unbounded => none
  (lo, hi)

def resolveHistory (w : Wire D S) : Nat → String → List String → Nat → Option Nat →
    RawM Error (List (Event D))
  | 0, _, _, _, _ => .throw .depth
  | depth + 1, stream, visited, lo, hi =>
      if hi.any (lo ≥ ·) then pure []
      else if stream ∈ visited then
        .throw (.invalidInput s!"fork cycle at '{stream}'")
      else do
        let f ← forkRef w stream
        let inherited ← (match f with
          | none => pure []
          | some f =>
              let parentHi := hi.elim (add f.atVersion 1) (min · (add f.atVersion 1))
              if lo < parentHi then
                resolveHistory w depth f.stream (stream :: visited) lo (some parentHi)
              else pure [] : RawM Error (List (Event D)))
        let own ← readEvents w stream lo hi
        return inherited ++ own

def readStream (w : Wire D S) (σ : RawDb) (stream : String) (start stop : Bound) :
    Except Error (List (Event D)) :=
  let (lo, hi) := bounds start stop
  (readEvents w stream lo hi).eval σ

def readHistory (w : Wire D S) (depth : Nat) (σ : RawDb) (stream : String)
    (start stop : Bound) : Except Error (List (Event D)) :=
  let (lo, hi) := bounds start stop
  (resolveHistory w depth stream [] lo hi).eval σ

def readTail (w : Wire D S) (stream : String) (n : Nat) : RawM Error (List (Event D)) := do
  let tail ← tail w stream
  match tail with
  | none => return []
  | some t => readEvents w stream (add t.version 1 - n) none

def batchEnvelope (first startSeq : Nat) (stamps : Nat → Stamp) (i : Nat) (lastTs : Int)
    (e : NewEvent D) : Envelope D :=
  { Envelope.new e (add first i) (stamps i) with
    seq := startSeq + i
    tsMs := max (stamps i).nowMs lastTs }

def putRecords (stream : String) (indexTs : Bool) (first startSeq : Nat) (stamps : Nat → Stamp) :
    Nat → Int → List (NewEvent D) → TxnM D S Int
  | _, lastTs, [] => pure lastTs
  | i, lastTs, e :: events => do
      let env := batchEnvelope first startSeq stamps i lastTs e
      .write (Key.record stream (add first i)) env
      if indexTs then .write (Key.ts stream env.tsMs (add first i)) ()
      putRecords stream indexTs first startSeq stamps (i + 1) env.tsMs events

def replayAppend (seq : Nat) (stream : String) (expected : ExpectedVersion)
    (fromVersion : Option Nat) (fenceToken : Option String) (events : List (NewEvent D))
    (indexTs : Bool) (stamps : Nat → Stamp) : TxnM D S (CommitInfo × Nat) := do
  let tail ← Landslide.tail stream
  let current := tail.map (·.version)
  checkFence stream fenceToken
  if !expected.admits current then
    .throw (.error (.versionConflict stream expected current))
  else if events.isEmpty then
    .throw (.error (.invalidInput "empty batch"))
  else
    let first := fromVersion.getD (current.elim 0 (add · 1))
    let n := events.length
    let last := pred (add first n)
    let startSeq := seq + 1
    let lastTs ← putRecords stream indexTs first startSeq stamps 0 (tail.elim 0 (·.tsMs)) events
    .write (Key.tail stream) { version := current.elim last (max · last), tsMs := lastTs }
    return ({ firstVersion := first, lastVersion := last, startSequence := startSeq },
      startSeq + n - 1)

def appendBody (stream : String) (expected : ExpectedVersion) (fromVersion : Option Nat)
    (fenceToken : Option String) (events : List (NewEvent D)) (indexTs : Bool)
    (stamps : Nat → Stamp) : TxnM D S (List CommitInfo) := do
  let seq ← seqCursor
  let r ← replayAppend seq stream expected fromVersion fenceToken events indexTs stamps
  commitSeq r.2
  return [r.1]

def commitLoop (stream : String) (expected : ExpectedVersion) (fromVersion : Option Nat)
    (fenceToken : Option String) (events : List (NewEvent D)) (indexTs : Bool)
    (stamps : Nat → Nat → Stamp) : Nat → StoreProc D S
  | 0 => .txn (appendBody stream expected fromVersion fenceToken events indexTs (stamps 0)) fun
      | .committed infos => .ret (.ok (.infos infos))
      | .aborted r => .ret r
      | .conflict => .get (Key.tail stream) fun t =>
          .ret (.error (.versionConflict stream expected (t.map (·.version))))
  | retries + 1 =>
      .txn (appendBody stream expected fromVersion fenceToken events indexTs
          (stamps (retries + 1))) fun
      | .committed infos => .ret (.ok (.infos infos))
      | .aborted r => .ret r
      | .conflict =>
          commitLoop stream expected fromVersion fenceToken events indexTs stamps retries

def commitAppends [Payload D] (stream : String) (expected : ExpectedVersion)
    (fromVersion : Option Nat) (fenceToken : Option String) (events : List (NewEvent D))
    (indexTs : Bool) (stamps : Nat → Nat → Stamp) : StoreProc D S :=
  match checkBatch events with
  | .error e => .ret (.error e)
  | .ok () =>
      commitLoop stream expected fromVersion fenceToken events indexTs stamps commitRetries

def trimBelowBody (stream : String) (floor : Nat) : TxnM D S (List CommitInfo) := do
  let tail ← Landslide.tail stream
  let old ← .read (Key.trim stream)
  let floor := max (tail.elim floor fun t => min floor (add t.version 1)) (old.getD 0)
  .write (Key.trim stream) floor
  return [tailCommitInfo tail]

def trimBelow (stream : String) (floor : Nat) : StoreProc D S :=
  once (trimBelowBody stream floor) .infos

def purgeKeys (keys : List String) (purged : Nat) (more : Nat → RawProc) : RawProc :=
  match keys.getLast? with
  | none => .ret (.ok (.purged purged))
  | some last =>
      match versionSuffix last with
      | .error e => .ret (.error e)
      | .ok lastVersion => .txn (deleteKeys keys) fun
          | .committed _ => more (add lastVersion 1)
          | .conflict => .ret (.error .backend)
          | .aborted r => .ret r

def purgeLoop (stream : String) (floor : Nat) : Nat → Nat → Nat → RawProc
  | 0, _, _ => .ret (.error .depth)
  | chunks + 1, next, purged =>
      if next < floor then
        .scan (inPrefix (rPrefix stream) (pad16 next) (some (pad16 floor))) fun rows =>
          let keys := (rows.map (·.1)).take purgeChunk
          purgeKeys keys purged fun next =>
            purgeLoop stream floor chunks next (purged + keys.length)
      else .ret (.ok (.purged purged))

def purgeBelow (chunks : Nat) (stream : String) (floor : Nat) : RawProc :=
  .ofReads (ceiling stream : RawM Error (Option Nat)) fun
    | .error e => .ret (.error e)
    | .ok c => purgeLoop stream floor chunks (c.elim 0 (add · 1)) 0

end U64

/-! ## The sums of a call -/

/-- The calls that add to versions, and forks. -/
inductive VersionCall (D : Type) where
  | readStream (stream : String) (start stop : Bound)
  | readHistory (stream : String) (start stop : Bound)
  | readTail (stream : String) (n : Nat)
  | append (stream : String) (expected : ExpectedVersion) (events : List (NewEvent D))
      (stamps : Nat → Nat → Stamp)
  | appendAt (stream : String) (fromVersion : Nat) (expected : ExpectedVersion)
      (events : List (NewEvent D)) (stamps : Nat → Nat → Stamp)
  | trimBelow (stream : String) (floor : Nat)
  | purgeBelow (stream : String) (floor : Nat)
  | fork (parent : String) (atVersion : Nat) (child : String)

/-- What a call returns. -/
inductive Answer (D : Type) where
  | events (r : Except Error (List (Event D)))
  | result (r : Result)

/-- The sums that `bounds` computes. -/
def boundSums (start stop : Bound) : List Nat :=
  (match start with
    | .excluded v => [v + 1]
    | _ => []) ++
  match stop with
  | .included v => [v + 1]
  | _ => []

/-- The fork points that a read of history comes by. -/
def forkPoints (w : Wire D S) (σ : RawDb) : Nat → String → List String → Nat → Option Nat →
    List Nat
  | 0, _, _, _, _ => []
  | depth + 1, stream, visited, lo, hi =>
      if hi.any (lo ≥ ·) then []
      else if stream ∈ visited then []
      else
        match (forkRef w stream).eval σ with
        | .ok (some f) =>
            let parentHi := hi.elim (f.atVersion + 1) (min · (f.atVersion + 1))
            f.atVersion ::
              if lo < parentHi then
                forkPoints w σ depth f.stream (stream :: visited) lo (some parentHi)
              else []
        | _ => []

/-- The append gets to its versions, from this tail on. -/
structure Admits [Payload D] (w : Wire D S) (σ : RawDb) (stream : String)
    (expected : ExpectedVersion) (events : List (NewEvent D)) (tail : Option TailRecord) :
    Prop where
  batch : checkBatch events = .ok ()
  found : (Raw.tail w stream).eval σ = .ok tail
  expected : expected.admits (tail.map (·.version)) = true
  nonempty : events ≠ []

/-- The sums of a batch from a first version on. -/
def batchSums (first n : Nat) : List Nat := (first + n) :: (List.range n).map (first + ·)

/-- The sums of an append. -/
def appendSums [Payload D] (w : Wire D S) (σ : RawDb) (stream : String)
    (expected : ExpectedVersion) (fromVersion : Option Nat) (events : List (NewEvent D)) :
    List Nat :=
  match checkBatch events, (Raw.tail w stream).eval σ with
  | .ok (), .ok tail =>
      let current := tail.map (·.version)
      if !expected.admits current then []
      else if events.isEmpty then []
      else
        match fromVersion, current with
        | some first, _ => batchSums first events.length
        | none, some v => (v + 1) :: batchSums (v + 1) events.length
        | none, none => batchSums 0 events.length
  | _, _ => []

/-- The sums of the chunks of a purge. -/
def purgeSums (stream : String) (floor : Nat) : Nat → Nat → RawDb → List Nat
  | 0, _, _ => []
  | chunks + 1, next, σ =>
      if next < floor then
        let rows := σ.scan (inPrefix (rPrefix stream) (pad16 next) (some (pad16 floor)))
        let keys := (rows.map (·.1)).take purgeChunk
        match keys.getLast?.map versionSuffix with
        | some (.ok lastVersion) =>
            (lastVersion + 1) :: purgeSums stream floor chunks (lastVersion + 1) (deleteAll σ keys)
        | _ => []
      else []

/-- The version after the tail. -/
def tailSums (w : Wire D S) (σ : RawDb) (stream : String) : List Nat :=
  match (Raw.tail w stream).eval σ with
  | .ok (some t) => [t.version + 1]
  | _ => []

/-- The batch of an append, from where it starts, ends before the last version. -/
def AppendRoom [Payload D] (w : Wire D S) (σ : RawDb) (stream : String)
    (expected : ExpectedVersion) (fromVersion : Option Nat) (events : List (NewEvent D)) : Prop :=
  ∀ tail, Admits w σ stream expected events tail →
    fromVersion.getD (tail.elim 0 (·.version + 1)) + events.length ≤ maxVersion

namespace VersionCall

/-- The sums of versions that a call computes. -/
def sums [Payload D] (w : Wire D S) (chunks depth : Nat) (σ : RawDb) : VersionCall D → List Nat
  | .readStream _ start stop => boundSums start stop
  | .readHistory stream start stop =>
      let (lo, hi) := Landslide.bounds start stop
      boundSums start stop ++ (forkPoints w σ depth stream [] lo hi).map (· + 1)
  | .readTail stream _ => tailSums w σ stream
  | .append stream expected events _ => appendSums w σ stream expected none events
  | .appendAt stream fromVersion expected events _ =>
      appendSums w σ stream expected (some fromVersion) events
  | .trimBelow stream _ => tailSums w σ stream
  | .purgeBelow stream floor =>
      match (ceiling stream : RawM Error (Option Nat)).eval σ with
      | .ok (some c) => (c + 1) :: purgeSums stream floor chunks (c + 1) σ
      | .ok none => purgeSums stream floor chunks 0 σ
      | .error _ => []
  | .fork _ _ _ => []

/-- A call with versions as natural numbers: what it returns and leaves. -/
def exec [Payload D] (w : Wire D S) (chunks depth : Nat) (σ : RawDb) :
    VersionCall D → Answer D × RawDb
  | .readStream stream start stop => (.events (Raw.readStream w σ stream start stop), σ)
  | .readHistory stream start stop => (.events (Raw.readHistory w depth σ stream start stop), σ)
  | .readTail stream n => (.events ((Raw.readTail w stream n).eval σ), σ)
  | .append stream expected events stamps =>
      ((callProc w chunks (.append stream expected events stamps)).exec σ).map .result id
  | .appendAt stream fromVersion expected events stamps =>
      ((callProc w chunks (.appendAt stream fromVersion expected events stamps)).exec σ).map
        .result id
  | .trimBelow stream floor => ((callProc w chunks (.trimBelow stream floor)).exec σ).map .result id
  | .purgeBelow stream floor =>
      ((callProc w chunks (.purgeBelow stream floor)).exec σ).map .result id
  | .fork parent atVersion child =>
      ((callProc w chunks (.fork parent atVersion child)).exec σ).map .result id

/-- A call as a release build runs it. -/
def exec64 [Payload D] (w : Wire D S) (chunks depth : Nat) (σ : RawDb) :
    VersionCall D → Answer D × RawDb
  | .readStream stream start stop => (.events (U64.readStream w σ stream start stop), σ)
  | .readHistory stream start stop => (.events (U64.readHistory w depth σ stream start stop), σ)
  | .readTail stream n => (.events ((U64.readTail w stream n).eval σ), σ)
  | .append stream expected events stamps =>
      ((w.proc (U64.commitAppends stream expected none none events true stamps)).exec σ).map
        .result id
  | .appendAt stream fromVersion expected events stamps =>
      ((w.proc (U64.commitAppends stream expected (some fromVersion) none events true stamps)).exec
        σ).map .result id
  | .trimBelow stream floor => ((w.proc (U64.trimBelow stream floor)).exec σ).map .result id
  | .purgeBelow stream floor => ((U64.purgeBelow chunks stream floor).exec σ).map .result id
  | .fork parent atVersion child =>
      ((callProc w chunks (.fork parent atVersion child)).exec σ).map .result id

/-- No addition of a call overflows, and the call does what it does with natural
numbers. -/
structure Fits [Payload D] (w : Wire D S) (chunks depth : Nat) (σ : RawDb) (c : VersionCall D) :
    Prop where
  sums : ∀ n ∈ c.sums w chunks depth σ, n ≤ maxVersion
  exec : c.exec64 w chunks depth σ = c.exec w chunks depth σ

/-- A range whose bounds are not counted from the last version. -/
def BoundsRoom (start stop : Bound) : Prop :=
  (∀ v, start = .excluded v → v < maxVersion) ∧ ∀ v, stop = .included v → v < maxVersion

/-- The last version of a stream is not the last that there is. -/
def TailRoom (w : Wire D S) (σ : RawDb) (stream : String) : Prop :=
  ∀ t, (Raw.tail w stream).eval σ = .ok (some t) → t.version < maxVersion

/-- There is room for what a call counts. -/
def Room [Payload D] (w : Wire D S) (depth : Nat) (σ : RawDb) : VersionCall D → Prop
  | .readStream _ start stop => BoundsRoom start stop
  | .readHistory stream start stop =>
      let (lo, hi) := Landslide.bounds start stop
      BoundsRoom start stop ∧ ∀ v ∈ forkPoints w σ depth stream [] lo hi, v < maxVersion
  | .readTail stream _ => TailRoom w σ stream
  | .append stream expected events _ => AppendRoom w σ stream expected none events
  | .appendAt stream fromVersion expected events _ =>
      AppendRoom w σ stream expected (some fromVersion) events
  | .trimBelow stream _ => TailRoom w σ stream
  | .purgeBelow stream _ => ∀ c, (ceiling stream : RawM Error (Option Nat)).eval σ = .ok (some c) →
      c < maxVersion
  | .fork _ _ _ => True

end VersionCall

/-! ## Where there is room -/

variable {w : Wire D S} {σ : RawDb} {stream : String}

theorem U64.bounds_eq {start stop : Bound} (h : VersionCall.BoundsRoom start stop) :
    U64.bounds start stop = Landslide.bounds start stop := by
  refine Prod.ext ?_ ?_
  · cases start with
    | excluded v => exact U64.add_eq (h.1 v rfl)
    | included v => rfl
    | unbounded => rfl
  · cases stop with
    | included v => exact congrArg some (U64.add_eq (h.2 v rfl))
    | excluded v => rfl
    | unbounded => rfl

theorem boundSums_iff {start stop : Bound} :
    (∀ n ∈ boundSums start stop, n ≤ maxVersion) ↔ VersionCall.BoundsRoom start stop := by
  refine List.forall_mem_append.trans (and_congr ?_ ?_)
  · cases start <;> simp
  · cases stop <;> simp

theorem tailSums_iff :
    (∀ n ∈ tailSums w σ stream, n ≤ maxVersion) ↔ VersionCall.TailRoom w σ stream := by
  rw [tailSums, VersionCall.TailRoom]
  cases (Raw.tail w stream).eval σ with
  | error e => simp
  | ok tail => cases tail <;> simp

theorem batchSums_iff {first n : Nat} :
    (∀ m ∈ batchSums first n, m ≤ maxVersion) ↔ first + n ≤ maxVersion := by
  rw [batchSums, List.forall_mem_cons]
  refine and_iff_left_of_imp fun h => ?_
  intro m hm
  obtain ⟨i, hi, rfl⟩ := List.mem_map.mp hm
  have hlt := List.mem_range.mp hi
  omega

/-- A read of history along fork points that are not the last version. -/
theorem U64.resolveHistory_eval : ∀ (depth : Nat) (stream : String) (visited : List String)
    (lo : Nat) (hi : Option Nat),
    (∀ v ∈ forkPoints w σ depth stream visited lo hi, v < maxVersion) →
      (U64.resolveHistory w depth stream visited lo hi).eval σ =
        (Raw.resolveHistory w depth stream visited lo hi).eval σ
  | 0, _, _, _, _, _ => rfl
  | depth + 1, stream, visited, lo, hi, h => by
      rw [forkPoints] at h
      rw [U64.resolveHistory, Raw.resolveHistory]
      split
      · rfl
      next hlo =>
      rw [if_neg hlo] at h
      split
      · rfl
      next hvisited =>
      rw [if_neg hvisited] at h
      rw [Prog.eval_bind, Prog.eval_bind]
      cases hf : (forkRef w stream).eval σ with
      | error e => rfl
      | ok f =>
          cases f with
          | none => rfl
          | some f =>
              rw [hf] at h
              dsimp only at h ⊢
              obtain ⟨hpoint, hrest⟩ := List.forall_mem_cons.mp h
              rw [U64.add_eq hpoint, Prog.eval_bind, Prog.eval_bind]
              by_cases hlt : lo < hi.elim (f.atVersion + 1) (min · (f.atVersion + 1))
              · rw [if_pos hlt] at hrest
                rw [if_pos hlt, if_pos hlt, U64.resolveHistory_eval depth _ _ _ _ hrest]
              · rw [if_neg hlt, if_neg hlt]

theorem U64.readTail_eval (h : VersionCall.TailRoom w σ stream) (n : Nat) :
    (U64.readTail w stream n).eval σ = (Raw.readTail w stream n).eval σ := by
  rw [U64.readTail, Raw.readTail, Prog.eval_bind, Prog.eval_bind]
  cases htail : (Raw.tail w stream).eval σ with
  | error e => rfl
  | ok tail =>
      cases tail with
      | none => rfl
      | some t =>
          dsimp only
          rw [U64.add_eq (h t htail)]

/-! ### Appends -/

theorem tail_eval (w : Wire D S) (σ : RawDb) (stream : String) : (Raw.tail w stream).eval σ =
    w.coding.decode? (.tail stream) (σ.get (keyName (.tail stream))) := by
  rw [Raw.tail, getJson, Prog.eval_read_bind, keyName]
  cases σ.get (mKey stream "tail") with
  | none => rfl
  | some b =>
      change (ofExcept ((w.tail.decode b).map some) : RawM Error _).eval σ =
        (w.tail.decode b).map some
      cases w.tail.decode b <;> rfl

/-- A transaction finds the tail that the store it sees has. -/
theorem eval_tail_of_run {t t' : Txn String fun _ => Bytes} {tail : Option TailRecord}
    (h : (w.body (Landslide.tail stream)).run t = .ok (tail, t')) :
    (Raw.tail w stream).eval t.view = .ok tail := by
  rw [Wire.body, Landslide.tail, Prog.run_lower_read] at h
  rw [tail_eval]
  change w.coding.decode? (.tail stream) (t.view.get (w.coding.name (.tail stream))) = _
  split at h
  · next hdecode =>
    cases h
    exact hdecode
  · cases h

theorem U64.putRecords_eq (indexTs : Bool) (first startSeq : Nat) (stamps : Nat → Stamp) :
    ∀ (i : Nat) (lastTs : Int) (events : List (NewEvent D)),
      first + (i + events.length) ≤ maxVersion →
        (U64.putRecords stream indexTs first startSeq stamps i lastTs events : TxnM D S Int) =
          Landslide.putRecords stream indexTs first startSeq stamps i lastTs events
  | _, _, [], _ => rfl
  | i, lastTs, e :: events, h => by
      rw [List.length_cons] at h
      rw [U64.putRecords, Landslide.putRecords, U64.batchEnvelope, Landslide.batchEnvelope,
        U64.add_eq (by omega)]
      dsimp only
      rw [U64.putRecords_eq indexTs first startSeq stamps (i + 1) _ events (by omega)]

/-- An append that there is room for. -/
theorem U64.replayAppend_run (w : Wire D S) (stream : String) (seq : Nat)
    (expected : ExpectedVersion) (fromVersion : Option Nat) (events : List (NewEvent D))
    (indexTs : Bool) (stamps : Nat → Stamp) (t : Txn String fun _ => Bytes)
    (hroom : ∀ tail, (Raw.tail w stream).eval t.view = .ok tail →
      expected.admits (tail.map (·.version)) = true → events ≠ [] →
        (∀ v, fromVersion = none → tail.map (·.version) = some v → v < maxVersion) ∧
        fromVersion.getD (tail.elim 0 (·.version + 1)) + events.length ≤ maxVersion) :
    (w.body (U64.replayAppend seq stream expected fromVersion none events indexTs stamps)).run t =
      (w.body (Landslide.replayAppend seq stream expected fromVersion none events indexTs
        stamps)).run t := by
  rw [Wire.body, Wire.body, U64.replayAppend, Landslide.replayAppend]
  refine Prog.run_lower_bind_congr _ _ fun tail t' htail => ?_
  have hfound : (Raw.tail w stream).eval t.view = .ok tail := eval_tail_of_run htail
  refine Prog.run_lower_bind_congr _ _ fun _ t'' _ => ?_
  by_cases hrefused : (!expected.admits (tail.map (·.version))) = true
  · rw [if_pos hrefused, if_pos hrefused]
  rw [if_neg hrefused, if_neg hrefused]
  rw [Bool.not_eq_true, Bool.not_eq_false'] at hrefused
  by_cases hevents : events.isEmpty = true
  · rw [if_pos hevents, if_pos hevents]
  rw [if_neg hevents, if_neg hevents]
  rw [List.isEmpty_iff] at hevents
  have hpos := List.length_pos_iff.mpr hevents
  obtain ⟨hcurrent, hlast⟩ := hroom tail hfound hrefused hevents
  have hfirst : fromVersion.getD ((tail.map (·.version)).elim 0 (U64.add · 1)) =
      fromVersion.getD ((tail.map (·.version)).elim 0 (· + 1)) := by
    cases fromVersion with
    | some v => rfl
    | none =>
        cases tail with
        | none => rfl
        | some t => exact U64.add_eq (hcurrent t.version rfl rfl)
  have hbase : fromVersion.getD ((tail.map (·.version)).elim 0 (· + 1)) + events.length ≤
      maxVersion := by
    cases tail <;> exact hlast
  rw [hfirst]
  generalize fromVersion.getD ((tail.map (·.version)).elim 0 (· + 1)) = first at hbase ⊢
  dsimp only
  rw [U64.add_eq hbase, U64.pred_eq (by omega) hbase,
    U64.putRecords_eq indexTs first (seq + 1) stamps 0 _ events (by omega)]

theorem U64.commitAppends_exec [Payload D] {expected : ExpectedVersion} {fromVersion : Option Nat}
    {events : List (NewEvent D)}
    (h : AppendRoom w σ stream expected fromVersion events) (indexTs : Bool)
    (stamps : Nat → Nat → Stamp) :
    (w.proc (U64.commitAppends stream expected fromVersion none events indexTs stamps)).exec σ =
      (w.proc (Landslide.commitAppends stream expected fromVersion none events indexTs
        stamps)).exec σ := by
  rw [U64.commitAppends, Landslide.commitAppends]
  cases hbatch : checkBatch events with
  | error e => rfl
  | ok u =>
      have hroom : ∀ tail, (Raw.tail w stream).eval σ = .ok tail →
          expected.admits (tail.map (·.version)) = true → events ≠ [] →
            (∀ v, fromVersion = none → tail.map (·.version) = some v → v < maxVersion) ∧
            fromVersion.getD (tail.elim 0 (·.version + 1)) + events.length ≤ maxVersion := by
        intro tail htail hexpected hevents
        have hlast := h tail ⟨hbatch, htail, hexpected, hevents⟩
        refine ⟨?_, hlast⟩
        rintro v rfl hv
        obtain ⟨t, rfl, rfl⟩ := Option.map_eq_some_iff.mp hv
        rw [Option.getD_none, Option.elim_some] at hlast
        omega
      have hbody : (w.body (U64.appendBody stream expected fromVersion none events indexTs
          (stamps commitRetries))).run (.begin σ) =
          (w.body (Landslide.appendBody stream expected fromVersion none events indexTs
            (stamps commitRetries))).run (.begin σ) := by
        refine Prog.run_lower_bind_congr _ _ fun seq t hseq => ?_
        have hview : t.view = σ := by
          rw [seqCursor, Prog.lower_bind, Prog.run_bind, Prog.run_lower_read] at hseq
          split at hseq
          · cases hseq
          · next hread =>
            split at hread
            · cases hread
              cases hseq
              rfl
            · cases hread
        have happend := U64.replayAppend_run w stream seq expected fromVersion
          events indexTs (stamps commitRetries) t (hview ▸ hroom)
        rw [Wire.body, Wire.body] at happend
        rw [Prog.lower_bind, Prog.lower_bind, Prog.run_bind, Prog.run_bind, happend]
      rw [Wire.body, Wire.body] at hbody
      dsimp only [commitRetries] at hbody ⊢
      rw [Wire.proc, Wire.proc, U64.commitLoop, Landslide.commitLoop, Proc.lower, Proc.lower,
        Proc.exec, Proc.exec, hbody]

theorem U64.trimBelow_exec (h : VersionCall.TailRoom w σ stream) (floor : Nat) :
    (w.proc (U64.trimBelow stream floor)).exec σ =
      (w.proc (Landslide.trimBelow stream floor)).exec σ := by
  have hbody : (w.body (U64.trimBelowBody stream floor)).run (.begin σ) =
      (w.body (Landslide.trimBelowBody stream floor)).run (.begin σ) := by
    refine Prog.run_lower_bind_congr _ _ fun tail t htail => ?_
    have hfound : (Raw.tail w stream).eval σ = .ok tail := eval_tail_of_run htail
    cases tail with
    | none => rfl
    | some last => rw [Option.elim_some, Option.elim_some, U64.add_eq (h last hfound)]
  rw [Wire.body, Wire.body] at hbody
  rw [Wire.proc, Wire.proc, U64.trimBelow, Landslide.trimBelow, once, once, Proc.lower, Proc.lower,
    Proc.exec, Proc.exec, hbody]

/-! ### Purges -/

/-- A version that is read off a key has at most 16 digits. -/
theorem versionSuffix_lt {key : String} {v : Nat} (h : versionSuffix key = .ok v) :
    v < 10 ^ 16 := by
  rw [versionSuffix] at h
  generalize hdigits : (if (key.toList.drop (key.toList.length - 16)).head? = some '+' then
    (key.toList.drop (key.toList.length - 16)).tail
    else key.toList.drop (key.toList.length - 16)) = digits at h
  have hlen : digits.length ≤ 16 := by
    rw [← hdigits]
    split <;> simp <;> omega
  split at h
  · next hall =>
    cases h
    rw [← Nat.ofDigitChars_eq_foldl]
    refine Nat.lt_of_lt_of_le (Decimal.value_lt (List.all_eq_true.mp hall.2)) ?_
    exact Nat.pow_le_pow_right (by decide) hlen
  · cases h

theorem versionSuffix_succ_le {key : String} {v : Nat} (h : versionSuffix key = .ok v) :
    v + 1 ≤ maxVersion :=
  Nat.le_trans (versionSuffix_lt h) (by decide)

theorem U64.purgeKeys_eq (keys : List String) (purged : Nat) (more : Nat → RawProc) :
    U64.purgeKeys keys purged more = Raw.purgeKeys keys purged more := by
  rw [U64.purgeKeys, Raw.purgeKeys]
  cases keys.getLast? with
  | none => rfl
  | some last =>
      dsimp only
      cases hlast : versionSuffix last with
      | error e => rfl
      | ok lastVersion =>
          dsimp only
          refine congrArg _ (funext fun o => ?_)
          cases o with
          | committed infos => exact congrArg more (U64.add_eq (versionSuffix_succ_le hlast))
          | conflict => rfl
          | aborted r => rfl

theorem U64.purgeLoop_eq (floor : Nat) : ∀ chunks next purged,
    U64.purgeLoop stream floor chunks next purged = Raw.purgeLoop stream floor chunks next purged
  | 0, _, _ => rfl
  | chunks + 1, next, purged => by
      rw [U64.purgeLoop, Raw.purgeLoop]
      split
      swap
      · rfl
      refine congrArg _ (funext fun rows => ?_)
      dsimp only
      simp only [U64.purgeLoop_eq floor chunks]
      exact U64.purgeKeys_eq _ _ _

theorem purgeSums_le (floor : Nat) : ∀ (chunks next : Nat) (σ : RawDb),
    ∀ n ∈ purgeSums stream floor chunks next σ, n ≤ maxVersion
  | 0, _, _, _, hn => absurd hn List.not_mem_nil
  | chunks + 1, next, σ, n, hn => by
      rw [purgeSums] at hn
      split at hn
      swap
      · exact absurd hn List.not_mem_nil
      dsimp only at hn
      split at hn
      swap
      · exact absurd hn List.not_mem_nil
      next lastVersion hlast =>
      obtain ⟨last, -, hsuffix⟩ := Option.map_eq_some_iff.mp hlast
      rcases List.mem_cons.mp hn with rfl | hn
      · exact versionSuffix_succ_le hsuffix
      · exact purgeSums_le floor chunks _ _ n hn

theorem U64.purgeBelow_exec
    (h : ∀ c, (ceiling stream : RawM Error (Option Nat)).eval σ = .ok (some c) → c < maxVersion)
    (chunks floor : Nat) :
    (U64.purgeBelow chunks stream floor).exec σ = (Raw.purgeBelow chunks stream floor).exec σ := by
  rw [U64.purgeBelow, Raw.purgeBelow, Proc.exec_ofReads, Proc.exec_ofReads]
  cases hceiling : (ceiling stream : RawM Error (Option Nat)).eval σ with
  | error e => rfl
  | ok c =>
      dsimp only
      rw [U64.purgeLoop_eq]
      cases c with
      | none => rfl
      | some c => rw [Option.elim_some, Option.elim_some, U64.add_eq (h c hceiling)]

/-! ## Calls with room -/

theorem appendSums_iff [Payload D] (w : Wire D S) (σ : RawDb) (stream : String)
    (expected : ExpectedVersion) (fromVersion : Option Nat) (events : List (NewEvent D)) :
    (∀ n ∈ appendSums w σ stream expected fromVersion events, n ≤ maxVersion) ↔
      AppendRoom w σ stream expected fromVersion events := by
  rw [AppendRoom]
  by_cases hadmits : ∃ tail, Admits w σ stream expected events tail
  · obtain ⟨tail, h⟩ := hadmits
    have honly : ∀ tail', Admits w σ stream expected events tail' → tail' = tail := by
      intro tail' h'
      have heq := h'.found
      rw [h.found] at heq
      cases heq
      rfl
    have hroom : (∀ tail', Admits w σ stream expected events tail' →
        fromVersion.getD (tail'.elim 0 (·.version + 1)) + events.length ≤ maxVersion) ↔
          fromVersion.getD (tail.elim 0 (·.version + 1)) + events.length ≤ maxVersion :=
      ⟨fun hall => hall tail h, fun hlast tail' h' => honly tail' h' ▸ hlast⟩
    rw [hroom, appendSums, h.batch, h.found]
    dsimp only
    rw [if_neg (by simp [h.expected]), if_neg (by simp [h.nonempty])]
    cases fromVersion with
    | some first => exact batchSums_iff
    | none =>
        cases tail with
        | none => exact batchSums_iff
        | some t =>
            rw [Option.map_some, List.forall_mem_cons, batchSums_iff, Option.getD_none,
              Option.elim_some]
            exact and_iff_right_of_imp fun hlast => by omega
  · refine iff_of_true ?_ fun tail h => absurd ⟨tail, h⟩ hadmits
    rw [appendSums]
    split
    swap
    · simp
    next tail hbatch hfound =>
    dsimp only
    split
    · simp
    next hexpected =>
    split
    · simp
    next hevents =>
    rw [Bool.not_eq_true, Bool.not_eq_false'] at hexpected
    exact absurd ⟨tail, hbatch, hfound, hexpected, by simpa using hevents⟩ hadmits

namespace VersionCall

variable [Payload D]

/-- No addition of a call overflows, and it does what it does with natural numbers, exactly
if there is room for what it counts. -/
theorem fits_iff (w : Wire D S) (chunks depth : Nat) (σ : RawDb) (c : VersionCall D) :
    c.Fits w chunks depth σ ↔ c.Room w depth σ := by
  have hiff : (∀ n ∈ c.sums w chunks depth σ, n ≤ maxVersion) ↔ c.Room w depth σ := by
    cases c with
    | readStream stream start stop => exact boundSums_iff
    | readHistory stream start stop =>
        refine List.forall_mem_append.trans (and_congr boundSums_iff ?_)
        rw [List.forall_mem_map]
        rfl
    | readTail stream n => exact tailSums_iff
    | append stream expected events stamps =>
        exact appendSums_iff w σ stream expected none events
    | appendAt stream fromVersion expected events stamps =>
        exact appendSums_iff w σ stream expected (some fromVersion) events
    | trimBelow stream floor => exact tailSums_iff
    | purgeBelow stream floor =>
        rw [sums, Room]
        cases (ceiling stream : RawM Error (Option Nat)).eval σ with
        | error e => simp
        | ok c =>
            cases c with
            | none => exact iff_of_true (purgeSums_le floor chunks 0 σ) (by simp)
            | some c =>
                dsimp only
                rw [List.forall_mem_cons, and_iff_left (purgeSums_le floor chunks (c + 1) σ)]
                simp
    | fork parent atVersion child => exact iff_of_true (by simp [sums]) trivial
  refine ⟨fun h => hiff.mp h.sums, fun h => ⟨hiff.mpr h, ?_⟩⟩
  cases c with
  | readStream stream start stop =>
      rw [exec64, exec, U64.readStream, Raw.readStream, U64.bounds_eq h]
  | readHistory stream start stop =>
      rw [exec64, exec, U64.readHistory, Raw.readHistory, U64.bounds_eq h.1]
      exact congrArg (fun r => (Answer.events r, σ)) (U64.resolveHistory_eval depth _ _ _ _ h.2)
  | readTail stream n => rw [exec64, exec, U64.readTail_eval h]
  | append stream expected events stamps =>
      rw [exec64, U64.commitAppends_exec h]
      rfl
  | appendAt stream fromVersion expected events stamps =>
      rw [exec64, U64.commitAppends_exec h]
      rfl
  | trimBelow stream floor =>
      rw [exec64, U64.trimBelow_exec h]
      rfl
  | purgeBelow stream floor =>
      rw [exec64, U64.purgeBelow_exec h]
      rfl
  | fork parent atVersion child => rfl

/-! ## Runs -/

/-- The store after some calls, with versions as natural numbers. -/
def after (w : Wire D S) (chunks depth : Nat) (σ : RawDb) (calls : List (VersionCall D)) : RawDb :=
  calls.foldl (fun σ c => (c.exec w chunks depth σ).2) σ

/-- The store after some calls in a release build. -/
def after64 (w : Wire D S) (chunks depth : Nat) (σ : RawDb) (calls : List (VersionCall D)) :
    RawDb :=
  calls.foldl (fun σ c => (c.exec64 w chunks depth σ).2) σ

/-- Where there has been room for all calls, they lead to one store. -/
theorem after64_eq (w : Wire D S) (chunks depth : Nat) (σ : RawDb) {calls : List (VersionCall D)}
    (h : ∀ earlier c later, calls = earlier ++ c :: later →
      c.Room w depth (after64 w chunks depth σ earlier)) :
    after64 w chunks depth σ calls = after w chunks depth σ calls := by
  refine Guarded.run_of_step (P := fun calls => after64 w chunks depth σ calls =
    after w chunks depth σ calls) rfl (fun calls c heq hroom => ?_) h
  have hexec := ((fits_iff w chunks depth _ c).mpr hroom).exec
  rw [after64, List.foldl_concat, after, List.foldl_concat]
  rw [after64] at hexec heq
  rw [hexec, heq, after]

end VersionCall

/-- For every run of calls from any store, over versions of 64 bits: every call meets the
store that it would meet with natural numbers, adds without overflow and does what it
would do there, exactly if there is room for what each call counts. -/
theorem sums_fit_iff [Payload D] (w : Wire D S) (chunks depth : Nat) (σ : RawDb)
    (calls : List (VersionCall D)) :
    (∀ earlier c later, calls = earlier ++ c :: later →
        VersionCall.after64 w chunks depth σ earlier = VersionCall.after w chunks depth σ earlier ∧
          c.Fits w chunks depth (VersionCall.after64 w chunks depth σ earlier)) ↔
      ∀ earlier c later, calls = earlier ++ c :: later →
        c.Room w depth (VersionCall.after64 w chunks depth σ earlier) := by
  constructor
  · exact fun h earlier c later heq => (VersionCall.fits_iff _ _ _ _ _).mp (h earlier c later heq).2
  · intro h earlier c later heq
    refine ⟨?_, (VersionCall.fits_iff _ _ _ _ _).mpr (h earlier c later heq)⟩
    refine VersionCall.after64_eq w chunks depth σ fun earlier' c' later' heq' => ?_
    exact h earlier' c' (later' ++ c :: later) (by rw [heq, heq', List.append_assoc]; rfl)

end

/-! ## A range up to the last version -/

/-- The events of an answer. -/
def Answer.read? {D : Type} : Answer D → Option (List (Event D))
  | .events (.ok found) => some found
  | _ => none

/-- An event is appended to a stream, and the stream is read up to the last version.  The
bound wraps to 0, and the event is not read. -/
theorem reads_nothing_up_to_last :
    ¬ ∀ calls : List (VersionCall Bytes), ∀ earlier c later, calls = earlier ++ c :: later →
      VersionCall.after64 sampleWire 1 1 ∅ earlier = VersionCall.after sampleWire 1 1 ∅ earlier ∧
        c.Fits sampleWire 1 1 (VersionCall.after64 sampleWire 1 1 ∅ earlier) := by
  intro h
  let appended : VersionCall Bytes := .append "s" .any [sampleEvent] fun _ _ => sampleStamp
  let read : VersionCall Bytes := .readStream "s" .unbounded (.included maxVersion)
  have hexec := (h [appended, read] [appended] read [] rfl).2.exec
  have hwrapped : (read.exec64 sampleWire 1 1
      (VersionCall.after64 sampleWire 1 1 ∅ [appended])).1.read? = some [] := by
    decide +kernel
  have hwhole : (read.exec sampleWire 1 1
      (VersionCall.after64 sampleWire 1 1 ∅ [appended])).1.read? =
        some [.fromParts (sampleEnvelope 1)] := by
    decide +kernel
  rw [hexec, hwhole] at hwrapped
  cases hwrapped

end Landslide.Raw
