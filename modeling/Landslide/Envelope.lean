import Landslide.Txn.Serial

/-!
# Events, records and errors

The data of the event store, after `envelope.rs`, `snapshot.rs`, `kv.rs`,
`fork.rs` and `error.rs`.  Payload bytes and snapshot bytes are opaque to the
store, so events carry payloads of any type `D` and snapshots carry states of
any type `S`; only the length of a payload is ever looked at (`Payload.len`).
The codecs round-trip, so the model stores the decoded record.

Versions and sequences are natural numbers: they count from 0 and from 1, and
the keys that hold them sort numerically below 10^16, which no run gets near.

Ids and clock readings come from outside.  Each envelope is built with a
`Stamp`, the ULID and the reading that `Envelope::new` draws.
-/

namespace Landslide

/-- Raw bytes. -/
abbrev Bytes : Type := List UInt8

/-- What the store knows of a payload: its length in bytes. -/
class Payload (D : Type) where
  len : D → Nat

instance : Payload Bytes := ⟨List.length⟩

/-- Optimistic-concurrency expectation of an append. -/
inductive ExpectedVersion where
  | any
  | noStream
  | exact (v : Nat)
deriving DecidableEq, Repr

/-- The expectation holds of the current version. -/
def ExpectedVersion.admits : ExpectedVersion → Option Nat → Bool
  | .any, _ => true
  | .noStream, current => current.isNone
  | .exact v, current => current = some v

/-- An event to append. -/
structure NewEvent (D : Type) where
  eventType : String
  data : D
  metadata : List (String × Bytes) := []
deriving DecidableEq, Repr

/-- The ULID and the clock reading drawn for one envelope. -/
structure Stamp where
  ulid : String
  nowMs : Int
deriving DecidableEq, Repr, Inhabited

/-- The value stored for one event. -/
structure Envelope (D : Type) where
  id : String
  eventType : String
  version : Nat
  /-- Global sequence counter value at commit. -/
  seq : Nat
  data : D
  metadata : List (String × Bytes)
  tsMs : Int
deriving DecidableEq, Repr

/-- The envelope of an event; the sequence is assigned at commit. -/
def Envelope.new {D : Type} (e : NewEvent D) (version : Nat) (st : Stamp) : Envelope D :=
  { id := st.ulid, eventType := e.eventType, version := version, seq := 0, data := e.data,
    metadata := e.metadata, tsMs := st.nowMs }

/-- The envelope carries this event. -/
def Envelope.Carries {D : Type} (env : Envelope D) (e : NewEvent D) : Prop :=
  env.eventType = e.eventType ∧ env.data = e.data ∧ env.metadata = e.metadata

/-- A decoded event. -/
structure Event (D : Type) where
  id : String
  eventType : String
  version : Nat
  globalSeq : Nat
  data : D
  metadata : List (String × Bytes)
  tsMs : Int
deriving DecidableEq, Repr

def Event.fromParts {D : Type} (e : Envelope D) : Event D :=
  { id := e.id, eventType := e.eventType, version := e.version, globalSeq := e.seq,
    data := e.data, metadata := e.metadata, tsMs := e.tsMs }

/-- The tail of a stream. -/
structure TailRecord where
  version : Nat
  tsMs : Int
deriving DecidableEq, Repr

/-- The branch point of a fork. -/
structure ForkRef where
  stream : String
  atVersion : Nat
deriving DecidableEq, Repr

/-- Folded state of a stream at `throughVersion`. -/
structure SnapshotRecord (S : Type) where
  throughVersion : Nat
  tsMs : Int
  state : S
deriving DecidableEq, Repr

/-- The announcement of a compaction. -/
structure CompactionRecord where
  stream : String
  throughVersion : Nat
  eventsCompacted : Nat
  jobId : Option String
  tsMs : Int
deriving DecidableEq, Repr

/-- Outcome of a successful append. -/
structure CommitInfo where
  firstVersion : Nat
  lastVersion : Nat
  startSequence : Nat
deriving DecidableEq, Repr

/-- Bookkeeping of a state-only operation: the current tail, or 0. -/
def tailCommitInfo (tail : Option TailRecord) : CommitInfo :=
  let v := tail.elim 0 (·.version)
  { firstVersion := v, lastVersion := v, startSequence := 0 }

/-- The errors of the store.  `backend` is a SlateDB error, here always a refused
transaction.  `depth` is the model's own: a recursion ran out of its bound. -/
inductive Error where
  | versionConflict (stream : String) (expected : ExpectedVersion) (actual : Option Nat)
  | fenceMismatch (stream currentToken : String)
  | backend
  | invalidInput (message : String)
  | depth
deriving DecidableEq, Repr

/-- Max records per append batch. -/
def maxBatchRecords : Nat := 1000

/-- Max size of a single record's payload. -/
def maxRecordBytes : Nat := 2 ^ 20

/-- The size caps of a batch. -/
def checkBatch {D : Type} [Payload D] (events : List (NewEvent D)) : Except Error Unit :=
  if events.length > maxBatchRecords then
    .error (.invalidInput s!"batch of {events.length} records exceeds max {maxBatchRecords}")
  else
    match events.find? fun e => Payload.len e.data > maxRecordBytes with
    | some e =>
        let n := Payload.len e.data
        .error (.invalidInput s!"record data of {n} bytes exceeds max {maxRecordBytes}")
    | none => .ok ()

theorem checkBatch_ok_iff {D : Type} [Payload D] (events : List (NewEvent D)) :
    checkBatch events = .ok () ↔ events.length ≤ maxBatchRecords ∧
      ∀ e ∈ events, Payload.len e.data ≤ maxRecordBytes := by
  rw [checkBatch]
  split
  · next hlen => exact iff_of_false (by simp) fun h => absurd h.1 (by omega)
  · next hlen =>
    cases hfind : events.find? fun e => Payload.len e.data > maxRecordBytes with
    | some e =>
        refine iff_of_false (by simp) fun h => ?_
        have hover := List.find?_some hfind
        simp only [decide_eq_true_eq] at hover
        exact absurd (h.2 e (List.mem_of_find?_eq_some hfind)) (Nat.not_le_of_lt hover)
    | none =>
        refine iff_of_true rfl ⟨Nat.le_of_not_lt hlen, fun e he => ?_⟩
        have hnot := List.find?_eq_none.mp hfind e he
        rw [decide_eq_true_eq] at hnot
        exact Nat.le_of_not_lt hnot

theorem checkBatch_refuses {D : Type} [Payload D] {events : List (NewEvent D)}
    (h : checkBatch events ≠ .ok ()) : ∃ text, checkBatch events = .error (.invalidInput text) := by
  rw [checkBatch] at h ⊢
  split at h
  · next hlen => exact ⟨_, if_pos hlen⟩
  · next hlen =>
    rw [if_neg hlen]
    cases hfind : events.find? fun e => Payload.len e.data > maxRecordBytes with
    | some e => exact ⟨_, rfl⟩
    | none =>
        rw [hfind] at h
        exact absurd rfl h

end Landslide
