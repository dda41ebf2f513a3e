import Landslide.Objects
import Landslide.Sqlite.Wal

/-!
# Database lifecycle

`open`, `sync`, `checkpoint` and `restore` of `landslide-sqlite/src/store.rs`, over
the event store and a bucket of segment objects.

What lies outside the repository is a parameter (`Outside`): the codecs of events,
segments and manifests, the ULIDs, and the path that the object store makes of a
string.  `Outside.Lawful` says what the code relies on.  Local files are left out,
but for the bytes of the WAL file that a sync reads.

A checkpoint can be given a `Fault`: the call into the bucket or the store that
fails, and for a write whether it took effect all the same.
-/

namespace Landslide.Sqlite

open Std Overlay TxnKv

/-! ## The world outside -/

/-- What the crate takes from elsewhere. -/
structure Outside (D S B : Type) where
  /-- `pack` and `unpack` of a batch. -/
  deltas : Codec (List Delta) D
  /-- The JSON decoding of a legacy event. -/
  json : D → Except Error Delta
  /-- `pack` and `unpack` of a segment. -/
  ltx : Codec Ltx B
  /-- The JSON of a manifest. -/
  manifest : Codec Manifest S
  /-- The ULIDs in the order they are drawn. -/
  ulid : Nat → String
  /-- `object_store::path::Path::from`, as a string. -/
  path : String → String

namespace Outside

variable {D S B : Type}

/-- The object path of a segment whose ULID is draw `i`. -/
def segmentPath (env : Outside D S B) (name : String) (i : Nat) : String :=
  env.path s!"ltx/{name}/{env.ulid i}"

/-- What the code relies on for a database: the codecs round-trip, the segments of
the database get distinct paths, and a path read back is itself. -/
structure Lawful (env : Outside D S B) (name : String) : Prop where
  deltas : env.deltas.Lawful
  ltx : env.ltx.Lawful
  manifest : env.manifest.Lawful
  fresh : ∀ i j, env.segmentPath name i = env.segmentPath name j → i = j
  stable : ∀ i, env.path (env.segmentPath name i) = env.segmentPath name i

end Outside

section

variable {D S B : Type} (env : Outside D S B)

/-! ## Events -/

def txb : String := "txb"

def txbChunk : Nat := 512 * 1024

/-- The bincode size of a transaction. -/
def serializedSize (d : Delta) : Nat :=
  8 + 4 + 4 + 8 + (d.pages.map fun f => 4 + 8 + f.data.length).sum

/-- Cuts transactions into chunks of about `txbChunk` bytes.  `chunk` and `size`
are the chunk under way. -/
def chunks : List Delta → Nat → List Delta → List (List Delta)
  | chunk, _, [] => if chunk = [] then [] else [chunk]
  | chunk, size, d :: deltas =>
      if size + serializedSize d > txbChunk ∧ chunk ≠ [] then
        chunk :: chunks [d] (serializedSize d) deltas
      else chunks (chunk ++ [d]) (size + serializedSize d) deltas

/-- The events of some chunks. -/
def packChunks : List (List Delta) → Except Error (List (NewEvent D))
  | [] => .ok []
  | chunk :: rest =>
      match env.deltas.encode chunk with
      | .error e => .error e
      | .ok data =>
          match packChunks rest with
          | .error e => .error e
          | .ok events => .ok ({ eventType := txb, data := data } :: events)

def encodeDeltas (deltas : List Delta) : Except Error (List (NewEvent D)) :=
  packChunks env (chunks [] 0 deltas)

/-- The transactions that one event carries. -/
def deltaEvents (e : Event D) : Except Error (List Delta) :=
  if e.eventType = txb then env.deltas.decode e.data
  else if e.eventType = "tx" then .ok (env.json e.data).toOption.toList
  else .ok []

/-! ## Segments -/

/-- Uploads a segment and returns its path.  With a fault the upload fails, and it
may have landed. -/
def putLtx (name : String) (l : Ltx) (fault : Option Bool) (r : Remote D S B) :
    Except Error String × Remote D S B :=
  let path := env.segmentPath name r.draws
  let drawn := { r with draws := r.draws + 1 }
  match env.ltx.encode l with
  | .error e => (.error e, drawn)
  | .ok b =>
      let stored := { drawn with bucket := Function.update r.bucket path (some b) }
      match fault with
      | none => (.ok path, stored)
      | some landed => (.error ioError, if landed then stored else drawn)

def fetchLtx (bucket : Bucket B) (path : String) : Except Error Ltx :=
  match bucket (env.path path) with
  | none => .error ioError
  | some b => env.ltx.decode b

/-- Fetches segments in order. -/
def fetchAll (bucket : Bucket B) : List SegmentRef → Except Error (List Ltx)
  | [] => .ok []
  | seg :: segments =>
      match fetchLtx env bucket seg.path with
      | .error e => .error e
      | .ok l =>
          match fetchAll bucket segments with
          | .error e => .error e
          | .ok ls => .ok (l :: ls)

/-- Deletes objects; a failed delete is dropped. -/
def deleteAll (bucket : Bucket B) (paths : List String) : Bucket B :=
  paths.foldl (fun bucket path => Function.update bucket (env.path path) none) bucket

/-! ## Restore -/

/-- The manifest of the latest snapshot, or the empty one. -/
def latestManifest (σ : Landslide.Db D S) (name : String) : Except Error Manifest :=
  match (latestSnapshot name : KvM D S Error _).eval σ with
  | .error e => .error e
  | .ok none => .ok {}
  | .ok (some s) => env.manifest.decode s.state

/-- The image of a manifest's segments. -/
def mergeSegments (bucket : Bucket B) (segments : List SegmentRef) : Except Error DbImage :=
  match fetchAll env bucket segments with
  | .error e => .error e
  | .ok ls => .ok (ls.foldl DbImage.mergeLtx {})

/-- Where a replay starts: the image of the latest manifest, the first version past
it and the version it covers. -/
def restoreBase (r : Remote D S B) (name : String) :
    Except Error (DbImage × Nat × Option Nat) :=
  match (latestSnapshot name : KvM D S Error _).eval r.store with
  | .error e => .error e
  | .ok none => .ok ({}, 0, none)
  | .ok (some s) =>
      match env.manifest.decode s.state with
      | .error e => .error e
      | .ok manifest =>
          match mergeSegments env r.bucket manifest.segments with
          | .error e => .error e
          | .ok image => .ok (image, s.throughVersion + 1, some s.throughVersion)

/-- One event of a replay: its transactions go to the image and to the builder.
An event that does not decode is kept as the error. -/
def replayEvent (acc : DbImage × LtxBuilder × Option Error) (e : Event D) :
    DbImage × LtxBuilder × Option Error :=
  match deltaEvents env e with
  | .ok ds => (acc.1.applied ds, ds.foldl LtxBuilder.apply acc.2.1, acc.2.2)
  | .error err => (acc.1, acc.2.1, some err)

/-- The image, the fold of the backlog, and the version they are current through. -/
def restoreImpl (r : Remote D S B) (name : String) :
    Except Error (DbImage × LtxBuilder × Option Nat) :=
  match restoreBase env r name with
  | .error e => .error e
  | .ok (image, start, through) =>
      match Landslide.fold r.store name (.included start) .unbounded (image, {}, none)
          (replayEvent env) with
      | .error e => .error e
      | .ok ((_, _, some err), _) => .error err
      | .ok ((image, pending, none), last) => .ok (image, pending, last.or through)

/-- Reconstructs the image of a database. -/
def restore (r : Remote D S B) (name : String) : Except Error (DbImage × Option Nat) :=
  match restoreImpl env r name with
  | .error e => .error e
  | .ok (image, _, tail) => .ok (image, tail)

/-- The segments that end at or before a transaction, up to the first that does
not. -/
def usable (target : Nat) (segments : List SegmentRef) : List SegmentRef :=
  segments.takeWhile fun seg => !(seg.txidStart > target || seg.txidEnd > target)

/-- One event of a replay up to a transaction. -/
def replayUpTo (base target : Nat) (acc : DbImage × Option Error) (e : Event D) :
    DbImage × Option Error :=
  match deltaEvents env e with
  | .ok ds => (acc.1.applied (ds.filter fun d => base < d.txid && d.txid ≤ target), acc.2)
  | .error err => (acc.1, some err)

/-- Reconstructs the image as of transaction `target`. -/
def restoreAt (r : Remote D S B) (name : String) (target : Nat) : Except Error DbImage :=
  match latestManifest env r.store name with
  | .error e => .error e
  | .ok manifest =>
      match mergeSegments env r.bucket (usable target manifest.segments) with
      | .error e => .error e
      | .ok image =>
          match Landslide.fold r.store name (.included 0) .unbounded (image, none)
              (replayUpTo env image.txid target) with
          | .error e => .error e
          | .ok ((_, some err), _) => .error err
          | .ok ((image, none), _) =>
              if image.txid < target then
                let reached := image.txid
                .error (.invalidInput (s!"txid {target} is not reconstructable (beyond tail or " ++
                  s!"purged by retention); reached txid {reached}"))
              else .ok image

/-! ## Handles -/

/-- An open database. -/
structure Db where
  name : String
  token : String
  image : DbImage
  tail : Option Nat
  cursor : WalCursor
  pending : LtxBuilder

/-- Takes the fencing token of a database and reconstructs its state. -/
def openDb [Payload D] (name : String) (r : Remote D S B) : Except Error Db × Remote D S B :=
  let token := env.ulid r.draws
  let (reply, store) := (Call.fence name (some token) : Call D S).exec r.store
  let r := { r with store := store, draws := r.draws + 1 }
  match reply with
  | .error e => (.error e, r)
  | .ok _ =>
      match restoreImpl env r name with
      | .error e => (.error e, r)
      | .ok (image, pending, tail) =>
          (.ok { name := name, token := token, image := image, tail := tail, cursor := {},
                 pending := pending }, r)

/-- The handle after a durable batch that ends at version `last`. -/
def Db.advance (db : Db) (deltas : List Delta) (last nextFrame : Nat) : Db :=
  { db with
    tail := some last
    image := db.image.applied deltas
    pending := deltas.foldl LtxBuilder.apply db.pending
    cursor := { db.cursor with frame := nextFrame } }

/-- The transactions of a batch as they are appended. -/
def batch (coalesce : Bool) (deltas : List Delta) : List Delta :=
  if coalesce ∧ deltas.length > 1 then [fold deltas] else deltas

/-- Captures new transactions from the WAL and appends them in one batch. -/
def syncInner [Payload D] (coalesce : Bool) (wal : Option Bytes) (stamps : Nat → Nat → Stamp)
    (db : Db) (r : Remote D S B) : Except Error Nat × Db × Remote D S B :=
  match scan db.cursor db.image.txid wal with
  | none => (.ok 0, db, r)
  | some s =>
      let db := { db with cursor := s.cursor }
      if s.deltas = [] then
        (.ok 0, { db with cursor := { db.cursor with frame := s.nextFrame } }, r)
      else
        let deltas := batch coalesce s.deltas
        match encodeDeltas env deltas with
        | .error e => (.error e, db, r)
        | .ok events =>
            match (Call.appendWithToken db.name db.token (expected db.tail) events false
                stamps : Call D S).exec r.store with
            | (.error e, store) => (.error e, db, { r with store := store })
            | (.ok (.infos [info]), store) =>
                (.ok s.deltas.length, db.advance deltas info.lastVersion s.nextFrame,
                  { r with store := store })
            -- an append returns the info of its batch
            | (.ok _, store) => (.error .depth, db, { r with store := store })

/-! ## Checkpoints -/

/-- The call of a checkpoint that fails.  A failed write may have landed. -/
inductive Fault where
  | putSegment (landed : Bool)
  | fetch (i : Nat)
  | putMerged (landed : Bool)
  | publish (landed : Bool)
deriving DecidableEq, Repr

namespace Fault

def atPutSegment : Option Fault → Option Bool
  | some (.putSegment landed) => some landed
  | _ => none

def atFetch : Option Fault → Option Nat
  | some (.fetch i) => some i
  | _ => none

def atPutMerged : Option Fault → Option Bool
  | some (.putMerged landed) => some landed
  | _ => none

def atPublish : Option Fault → Option Bool
  | some (.publish landed) => some landed
  | _ => none

end Fault

/-- The segment that replaces others: `older` and then the newest one, less the
pages beyond its size. -/
def mergedLtx (txidStart : Nat) (older : List Ltx) (ltx : Ltx) : Ltx :=
  let pages : Pages := write (write ∅ (writes (older.flatMap (·.pages)))) (writes ltx.pages)
  { txidStart := txidStart, txidEnd := ltx.txidEnd, pageSize := ltx.pageSize,
    dbSize := ltx.dbSize, pages := pageFrames (pages.filter fun pgno _ => pgno ≤ ltx.dbSize) }

/-- Coalesces the segments of a manifest, of which `ltx` is the last and still in
memory.  Returns the new segments and the paths they replace. -/
def coalesce (name : String) (segments : List SegmentRef) (newRef : SegmentRef) (ltx : Ltx)
    (fault : Option Fault) (r : Remote D S B) :
    Except Error (List SegmentRef × List String) × Remote D S B :=
  let others := segments.filter fun seg => seg.path ≠ newRef.path
  if (Fault.atFetch fault).any (· < others.length) then (.error ioError, r)
  else
    match fetchAll env r.bucket others with
    | .error e => (.error e, r)
    | .ok older =>
        let merged := mergedLtx (segments.head?.elim 0 (·.txidStart)) older ltx
        match putLtx env name merged (Fault.atPutMerged fault) r with
        | (.error e, r) => (.error e, r)
        | (.ok path, r) => (.ok ([SegmentRef.of merged path], segments.map (·.path)), r)

def record (name : String) (throughVersion : Nat) (nowMs : Int) : CompactionRecord :=
  { stream := name, throughVersion := throughVersion, eventsCompacted := 0, jobId := none,
    tsMs := nowMs }

/-- Publishes a manifest.  With a fault the call fails, and it may have landed. -/
def publishManifest [Payload D] (name : String) (entry : CompactionRecord) (manifest : Manifest)
    (ulid : String) (fault : Option Bool) (r : Remote D S B) : Except Error Unit × Remote D S B :=
  match env.manifest.encode manifest with
  | .error e => (.error e, r)
  | .ok state =>
      let (reply, store) := (Call.publishSnapshot name entry state ulid : Call D S).exec r.store
      match fault with
      | some landed => (.error ioError, if landed then { r with store := store } else r)
      | none =>
          match reply with
          | .error e => (.error e, { r with store := store })
          | .ok _ => (.ok (), { r with store := store })

/-- The segments and the retired paths of the next manifest. -/
def nextSegments (name : String) (opts : CheckpointOpts) (manifest : Manifest)
    (newRef : SegmentRef) (ltx : Ltx) (fault : Option Fault) (r : Remote D S B) :
    Except Error (List SegmentRef × List String) × Remote D S B :=
  let segments := manifest.segments ++ [newRef]
  if segments.length > opts.coalesceAt then coalesce env name segments newRef ltx fault r
  else (.ok (segments, []), r)

/-- Deletes what the previous manifest retired, publishes the new one and purges
what it covers. -/
def installManifest [Payload D] (name : String) (opts : CheckpointOpts) (through : Nat)
    (retired : List String) (manifest : Manifest) (nowMs : Int) (ulid : String)
    (fault : Option Fault) (r : Remote D S B) :
    Except Error CompactionRecord × Remote D S B :=
  -- the retired paths are deleted before the publish that supersedes their manifest
  let r := { r with bucket := deleteAll env r.bucket retired }
  let entry := record name through nowMs
  match publishManifest env name entry manifest ulid (Fault.atPublish fault) r with
  | (.error e, r) => (.error e, r)
  | (.ok (), r) =>
      if opts.purge then
        match (Call.purgeBelow name (through + 1) : Call D S).exec r.store with
        | (.error e, store) => (.error e, { r with store := store })
        | (.ok _, store) => (.ok entry, { r with store := store })
      else (.ok entry, r)

/-- The part of a checkpoint after its sync: seals the pending fold and installs a
manifest with it. -/
def sealPending [Payload D] (opts : CheckpointOpts) (nowMs : Int) (ulid : String)
    (fault : Option Fault) (db : Db) (r : Remote D S B) :
    Except Error (Option CompactionRecord) × Db × Remote D S B :=
  match db.tail with
  | none => (.ok none, db, r)
  | some through =>
      match latestManifest env r.store db.name with
      | .error e => (.error e, db, r)
      | .ok manifest =>
          if db.pending.txidStart.isNone then (.ok none, db, r)
          else
            let ltx := db.pending.intoLtx
            -- the fold leaves the handle here, before the calls that may fail
            let db := { db with pending := {} }
            match putLtx env db.name ltx (Fault.atPutSegment fault) r with
            | (.error e, r) => (.error e, db, r)
            | (.ok path, r) =>
                match nextSegments env db.name opts manifest (SegmentRef.of ltx path) ltx fault r with
                | (.error e, r) => (.error e, db, r)
                | (.ok (segments, retire), r) =>
                    match installManifest env db.name opts through manifest.retire
                        { segments := segments, retire := retire } nowMs ulid fault r with
                    | (.error e, r) => (.error e, db, r)
                    | (.ok entry, r) => (.ok (some entry), db, r)

/-- Syncs, then seals what is pending. -/
def checkpointWith [Payload D] (opts : CheckpointOpts) (wal : Option Bytes)
    (stamps : Nat → Nat → Stamp) (nowMs : Int) (ulid : String) (fault : Option Fault) (db : Db)
    (r : Remote D S B) : Except Error (Option CompactionRecord) × Db × Remote D S B :=
  match syncInner env false wal stamps db r with
  | (.error e, db, r) => (.error e, db, r)
  | (.ok _, db, r) => sealPending env opts nowMs ulid fault db r

end

end Landslide.Sqlite
