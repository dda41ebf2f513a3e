import Landslide.Fuse.Runs

/-!
# Replicas

`sync` and `reload` of `landslide-fuse/src/replica.rs`: a read-only view of a volume
that follows its stream.  A replica is opened empty, by its first sync.  It takes no
fence, so the writer goes on while it reads.  Each read of a sync, of the store or of the
bucket, sees a state of its own (`seen`), which may be later than the one before.

The writer commits, checkpoints and prunes what its latest checkpoint covers
(`WriterOp`).  A run interleaves its operations with syncs, also within them
(`Follower`).
-/

namespace Landslide.Fuse

open Std TxnKv

/-! ## The replica -/

/-- A read-only view of a volume.  The cache of content blocks is left out. -/
structure Replica where
  image : FsImage := {}
  /-- Last applied stream version. -/
  cursor : Option Nat := none
deriving DecidableEq

namespace Replica

/-- The first version that is not applied. -/
def next (replica : Replica) : Nat := replica.cursor.elim 0 (· + 1)

end Replica

section

variable {D S B : Type} (env : Outside D S B) (vol : String) (seen : Nat → Remote D S B)

/-- A read of the store, from read `t` on. -/
def readStore {α : Type} (p : KvM D S Error α) (t : Nat) : Except Error α × Nat :=
  p.follow (fun i => (seen i).store) t

/-- `mergeSegments`, where each fetch sees a bucket of its own. -/
def fetchSegments : FsImage → List String → Nat → Except Error FsImage × Nat
  | image, [], t => (.ok image, t)
  | image, path :: segments, t =>
      match (seen t).bucket (env.path path) with
      | none => (.error ioError, t + 1)
      | some object =>
          match env.segment.decode object with
          | .error e => (.error e, t + 1)
          | .ok segment => fetchSegments (image.mergeSegment segment) segments (t + 1)

/-- What a sync does with an event. -/
def Replica.applyEvent (clock : Nat → Int) (replica : Replica) (e : Event D) : Replica :=
  { image := replayEvent env clock replica.image e, cursor := some e.version }

/-- Rebuilds the image from the latest checkpoint, then reads the deltas committed
since. -/
def Replica.reload (replica : Replica) (t : Nat) :
    Except Error (List (Event D)) × Replica × Nat :=
  match readStore seen (latestSnapshot vol) t with
  | (.error e, t) => (.error e, replica, t)
  | (.ok none, t) =>
      (.error (.invalidInput
        s!"volume {repr vol}: backlog pruned but no checkpoint to rebuild from"), replica, t)
  | (.ok (some snap), t) =>
      match env.manifest.decode snap.state with
      | .error e => (.error e, replica, t)
      | .ok manifest =>
          match fetchSegments env seen {} manifest.segments t with
          | (.error e, t) => (.error e, replica, t)
          | (.ok image, t) =>
              let start := snap.throughVersion + 1
              match readStore seen (readEvents vol start none) t with
              | (.error e, t) => (.error e, replica, t)
              | (.ok events, t) =>
                  let cut := events.head?.filter (start < ·.version)
                  match cut with
                  | some first =>
                      (.error (.invalidInput (s!"volume {repr vol}: deltas v{start}..v" ++
                        s!"{first.version} pruned past the latest checkpoint " ++
                        s!"(v{snap.throughVersion}); retry after the writer checkpoints")),
                        replica, t)
                  | none =>
                      (.ok events, { image := image, cursor := some snap.throughVersion }, t)

/-- Something below the first readable event was pruned. -/
def Replica.gap (start : Nat) (events : List (Event D)) (t : Nat) : Except Error Bool × Nat :=
  match events.head? with
  | some first => (.ok (start < first.version), t)
  | none =>
      match readStore seen (latestSnapshot vol) t with
      | (.error e, t) => (.error e, t)
      | (.ok none, t) => (.ok false, t)
      | (.ok (some snap), t) => (.ok (start ≤ snap.throughVersion), t)

/-- Catches the image up with the stream.  `clock v` is the reading when the event of
version `v` is applied. -/
def Replica.sync (clock : Nat → Int) (replica : Replica) (t : Nat) :
    Except Error Unit × Replica × Nat :=
  match readStore seen (readEvents vol replica.next none) t with
  | (.error e, t) => (.error e, replica, t)
  | (.ok events, t) =>
      match Replica.gap vol seen replica.next events t with
      | (.error e, t) => (.error e, replica, t)
      | (.ok false, t) => (.ok (), events.foldl (applyEvent env clock) replica, t)
      | (.ok true, t) =>
          match replica.reload env vol seen t with
          | (.error e, replica, t) => (.error e, replica, t)
          | (.ok events, replica, t) =>
              (.ok (), events.foldl (applyEvent env clock) replica, t)

end

/-! ## The writer -/

/-- An operation of the single writer, or one of retention. -/
inductive WriterOp where
  | of (op : Op)
  | purgeBelow (floor : Nat)
  | trimBelow (floor : Nat)

/-- A step of a run. -/
inductive Move where
  | write (op : WriterOp)
  /-- A sync, and what the writer does before each of its reads. -/
  | sync (clock : Nat → Int) (gaps : List (List WriterOp))

section

variable {D S B : Type} [Payload D] (env : Outside D S B) (vol : String)

/-- A call on the store alone. -/
def State.call (st : State D S B) (call : Call D S) : State D S B :=
  { st with remote := { st.remote with store := (call.exec st.remote.store).2 } }

/-- Retention is called only for what the latest checkpoint covers. -/
def write (st : State D S B) : WriterOp → State D S B
  | .of op => step env vol st op
  | .purgeBelow floor =>
      if floor ≤ covered st.remote.store vol then st.call (.purgeBelow vol floor) else st
  | .trimBelow floor =>
      if floor ≤ covered st.remote.store vol then st.call (.trimBelow vol floor) else st

def writes (st : State D S B) (ops : List WriterOp) : State D S B := ops.foldl (write env vol) st

/-- The state that read `t` of a sync sees. -/
def seenAt (st : State D S B) (gaps : List (List WriterOp)) (t : Nat) : State D S B :=
  writes env vol st (gaps.take (t + 1)).flatten

/-- A writer and a replica of its volume. -/
structure Follower (D S B : Type) where
  writer : State D S B := {}
  replica : Replica := {}

/-- A sync while the writer goes on: its result and the state after it. -/
def Follower.sync (st : Follower D S B) (clock : Nat → Int) (gaps : List (List WriterOp)) :
    Except Error Unit × Follower D S B :=
  let out := st.replica.sync env vol (fun t => (seenAt env vol st.writer gaps t).remote) clock 0
  (out.1, { writer := writes env vol st.writer gaps.flatten, replica := out.2.1 })

def Follower.step (st : Follower D S B) : Move → Follower D S B
  | .write op => { st with writer := Fuse.write env vol st.writer op }
  | .sync clock gaps => (st.sync env vol clock gaps).2

/-- A run from an empty store, with a replica that has not synced. -/
def follow (moves : List Move) : Follower D S B := moves.foldl (Follower.step env vol) {}

end

end Landslide.Fuse
