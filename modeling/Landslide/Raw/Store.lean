import Landslide.EventStore
import Landslide.Raw.Keys

/-!
# The event store over byte keys

The reads of `kv.rs`, `fork.rs` and `store.rs` as scans of the keys that the store holds.
What a scan finds is taken for records, pins, windows or snapshots of the stream, whoever
wrote it.

A transaction of the event store reads and writes single keys, so it is the one of
`EventStore.lean` at the names of its keys.  The two calls that scan, `purge_below` and
`compact`, are written out.
-/

namespace Landslide.Raw

open TxnKv Landslide.Fuse

/-- The store as SlateDB holds it. -/
abbrev RawDb : Type := Store String fun _ => Bytes

/-- A program over a view of the store. -/
abbrev RawM (E α : Type) : Type := Prog String (fun _ => Bytes) E α

/-- A public operation. -/
abbrev RawProc : Type := Proc String (fun _ => Bytes) Result (List CommitInfo) Result

section

variable {D S E : Type}

/-! ## Reads -/

/-- A value, or its error. -/
def ofExcept {α : Type} : Except E α → RawM E α
  | .ok a => pure a
  | .error e => .throw e

def getBe (key : String) : RawM E (Option Nat) := do
  let b ← .read key
  return b.map fromBe

def getJson {α : Type} (c : Codec α) (key : String) : RawM Error (Option α) := do
  let b ← .read key
  match b with
  | none => return none
  | some b => ofExcept ((c.decode b).map some)

def tail (w : Wire D S) (stream : String) : RawM Error (Option TailRecord) :=
  getJson w.tail (mKey stream "tail")

def forkRef (w : Wire D S) (stream : String) : RawM Error (Option ForkRef) :=
  getJson w.fork (mKey stream "fork")

def scanPrefix (pre : String) : RawM E (List ((_ : String) × Bytes)) :=
  .readRange (inPrefix pre "" none)

/-- The highest of the pins whose child is not deleted, above `acc`.  The child is the
last component of the key. -/
def ceilingLoop (acc : Option Nat) : List ((_ : String) × Bytes) → RawM E (Option Nat)
  | [] => pure acc
  | ⟨key, at_⟩ :: rows => do
      let deleted ← .read (mKey (lastComponent key) "deleted")
      if deleted.isNone then
        ceilingLoop (some (acc.elim (fromBe at_) (max · (fromBe at_)))) rows
      else ceilingLoop acc rows

/-- Highest fork pin held by a non-deleted child. -/
def ceiling (stream : String) : RawM E (Option Nat) := do
  let rows ← scanPrefix (mKey stream "forks/")
  ceilingLoop none rows

/-- The rollback windows: `from`, read off the key, and the watermark. -/
def rollbacks (stream : String) : RawM Error (List (Nat × Nat)) := do
  let rows ← scanPrefix (mKey stream "rollback/")
  ofExcept (rows.mapM fun row => (versionSuffix row.1).map (·, fromBe row.2))

/-- What is found from `lo` on, less what the guards hide. -/
def readRecords (w : Wire D S) (stream : String) (lo : Nat) (hi : Option Nat) (deleted : Bool)
    (ceiling : Option Nat) : RawM Error (List (Event D)) := do
  let windows ← rollbacks stream
  if hi.any (lo ≥ ·) then return []
  let rows ← .readRange (inPrefix (rPrefix stream) (pad16 lo) (hi.map pad16))
  let envs ← ofExcept (rows.mapM fun row => w.envelope.decode row.2)
  return (envs.filter (visible lo hi deleted ceiling windows)).map Event.fromParts

/-- Raw records of a stream in `[lo, hi)`, with the guards of the stream applied: trim
floor, deletion ceiling and rollback windows. -/
def readEvents (w : Wire D S) (stream : String) (lo : Nat) (hi : Option Nat) :
    RawM Error (List (Event D)) := do
  let trim ← getBe (mKey stream "trim")
  let deleted ← .read (mKey stream "deleted")
  let ceiling ← (if deleted.isSome then ceiling stream else pure none : RawM Error (Option Nat))
  readRecords w stream (max lo (trim.getD 0)) hi deleted.isSome ceiling

def latestSnapshot (w : Wire D S) (stream : String) : RawM Error (Option (SnapshotRecord S)) := do
  let rows ← scanPrefix (snapPrefix stream)
  match rows.getLast? with
  | none => return none
  | some row => ofExcept ((w.snapshot.decode row.2).map some)

/-- Logical history of a stream over `[lo, hi)`.  The first argument bounds the length of
the fork chain. -/
def resolveHistory (w : Wire D S) : Nat → String → List String → Nat → Option Nat →
    RawM Error (List (Event D))
  | 0, _, _, _, _ => .throw .depth
  | depth + 1, stream, visited, lo, hi =>
      if hi.any (lo ≥ ·) then pure []
      else if stream ∈ visited then
        .throw (.invalidInput s!"fork cycle at '{stream}'")
      else do
        let f ← forkRef w stream
        let inherited ← (match f with
          | none => pure []
          | some f =>
              let parentHi := hi.elim (f.atVersion + 1) (min · (f.atVersion + 1))
              if lo < parentHi then
                resolveHistory w depth f.stream (stream :: visited) lo (some parentHi)
              else pure [] : RawM Error (List (Event D)))
        let own ← readEvents w stream lo hi
        return inherited ++ own

/-- `EventStore::read_stream` on a committed state. -/
def readStream (w : Wire D S) (σ : RawDb) (stream : String) (start stop : Bound) :
    Except Error (List (Event D)) :=
  let (lo, hi) := bounds start stop
  (readEvents w stream lo hi).eval σ

/-- `EventStore::read_history` on a committed state, along at most `depth` streams. -/
def readHistory (w : Wire D S) (depth : Nat) (σ : RawDb) (stream : String)
    (start stop : Bound) : Except Error (List (Event D)) :=
  let (lo, hi) := bounds start stop
  (resolveHistory w depth stream [] lo hi).eval σ

/-- `EventStore::stream_version` -/
def streamVersion (w : Wire D S) (stream : String) : RawM Error (Option Nat) := do
  let t ← tail w stream
  return t.map (·.version)

/-- `EventStore::seek_timestamp`: the version of the first index key from `tsMs` on. -/
def seekTimestamp (stream : String) (tsMs : Int) : RawM Error (Option Nat) := do
  let rows ← .readRange (inPrefix (tsPrefix stream) (padInt tsMs) none)
  match rows.head? with
  | none => return none
  | some row => ofExcept ((versionSuffix row.1).map some)

/-! ## Calls -/

/-- A transaction at the names of its keys. -/
def Wire.body {α : Type} (w : Wire D S) (body : TxnM D S α) : RawM Result α :=
  body.lower w.coding .error

/-- A call at the names of its keys. -/
def Wire.proc (w : Wire D S) (p : StoreProc D S) : RawProc := p.lower w.coding .error .error

/-- Deletes a chunk of keys. -/
def deleteKeys : List String → RawM Result (List CommitInfo)
  | [] => pure []
  | key :: keys => do
      .remove key
      deleteKeys keys

/-- One chunk of a purge: the keys found are deleted, and the purge goes on from the
version after the last one. -/
def purgeKeys (keys : List String) (purged : Nat) (more : Nat → RawProc) : RawProc :=
  match keys.getLast? with
  | none => .ret (.ok (.purged purged))
  | some last =>
      match versionSuffix last with
      | .error e => .ret (.error e)
      | .ok lastVersion => .txn (deleteKeys keys) fun
          | .committed _ => more (lastVersion + 1)
          | .conflict => .ret (.error .backend)
          | .aborted r => .ret r

/-- The chunks of a purge from `next` on.  The first argument bounds their number. -/
def purgeLoop (stream : String) (floor : Nat) : Nat → Nat → Nat → RawProc
  | 0, _, _ => .ret (.error .depth)
  | chunks + 1, next, purged =>
      if next < floor then
        .scan (inPrefix (rPrefix stream) (pad16 next) (some (pad16 floor))) fun rows =>
          let keys := (rows.map (·.1)).take purgeChunk
          purgeKeys keys purged fun next =>
            purgeLoop stream floor chunks next (purged + keys.length)
      else .ret (.ok (.purged purged))

/-- Deletes what is found below `floor` and above the highest live fork pin, in at most
`chunks` chunks. -/
def purgeBelow (chunks : Nat) (stream : String) (floor : Nat) : RawProc :=
  .ofReads (ceiling stream : RawM Error (Option Nat)) fun
    | .error e => .ret (.error e)
    | .ok c => purgeLoop stream floor chunks (c.elim 0 (· + 1)) 0

/-- Reads the history of a stream, builds its snapshot and publishes it. -/
def compactInner (w : Wire D S) (depth : Nat) (stream : String) (jobId : Option String)
    (build : List (Event D) → Except Error S) (nowMs : Int) (ulid : String) : RawProc :=
  .ofReads (resolveHistory w depth stream [] 0 none) fun
    | .error e => .ret (.error e)
    | .ok events =>
        match build events with
        | .error e => .ret (.error e)
        | .ok state =>
            match events.getLast? with
            | none => .ret (.error (.invalidInput s!"'{stream}' has no events to compact"))
            | some last =>
                let record : CompactionRecord :=
                  { stream := stream, throughVersion := last.version,
                    eventsCompacted := events.length, jobId := jobId, tsMs := nowMs }
                w.proc (once (publishBody stream record state ulid) fun _ => .compacted record)

/-- What a call does.  `chunks` bounds the chunks of a purge. -/
def callProc [Payload D] (w : Wire D S) (chunks : Nat) : Call D S → RawProc
  | .purgeBelow stream floor => purgeBelow chunks stream floor
  | .compact depth stream jobId build nowMs ulid =>
      compactInner w depth stream jobId build nowMs ulid
  | call => w.proc call.proc

end

end Landslide.Raw
