import Landslide.Objects
import Landslide.Stream
import Landslide.Fuse.Image

/-!
# Volume lifecycle

`mount`, `mutate`, `commit` and `checkpoint` of `landslide-fuse/src/store.rs`, over
the event store and a bucket of segment and block objects.

What lies outside the repository is a parameter (`Outside`): the JSON of deltas,
segments and manifests, SHA-256, the ULIDs, and the path that the object store makes
of a string.  `Outside.Lawful` says what the code relies on.

A commit or a checkpoint can be given a `Fault`: the call into the bucket or the
store that fails, and for an upload whether it took effect all the same.
-/

namespace Landslide.Fuse

open Std TxnKv

/-! ## The world outside -/

/-- What the crate takes from elsewhere. -/
structure Outside (D S B : Type) where
  /-- The JSON of a delta. -/
  delta : Codec Delta D
  /-- The JSON of a segment, as an object. -/
  segment : Codec Segment B
  /-- The JSON of a manifest. -/
  manifest : Codec Manifest S
  /-- Bytes as an object. -/
  object : Bytes → B
  /-- The bytes of an object. -/
  bytes : B → Bytes
  /-- The hexadecimal SHA-256 of some bytes. -/
  sha256 : Bytes → String
  /-- The ULIDs in the order they are drawn. -/
  ulid : Nat → String
  /-- `object_store::path::Path::from`, as a string. -/
  path : String → String

namespace Outside

variable {D S B : Type}

/-- The object path of a segment whose ULID is draw `i`. -/
def segmentPath (env : Outside D S B) (vol : String) (i : Nat) : String :=
  env.path s!"segments/{vol}/{env.ulid i}"

def blockPath (env : Outside D S B) (hash : String) : String := env.path s!"blocks/{hash}"

/-- What the code relies on for a volume: the formats round-trip, the segments of the
volume get distinct paths, which no block has, and a path read back is itself. -/
structure Lawful (env : Outside D S B) (vol : String) : Prop where
  delta : env.delta.Lawful
  segment : env.segment.Lawful
  manifest : env.manifest.Lawful
  fresh : ∀ i j, env.segmentPath vol i = env.segmentPath vol j → i = j
  apart : ∀ i hash, env.segmentPath vol i ≠ env.blockPath hash
  stable : ∀ i, env.path (env.segmentPath vol i) = env.segmentPath vol i

end Outside

section

variable {D S B : Type} (env : Outside D S B)

/-! ## Reading content -/

/-- Blocks fetched so far, by hash. -/
abbrev Cache : Type := ExtTreeMap String Bytes compare

def fetchBlock (bucket : Bucket B) (hash : String) (blocks : Cache) :
    Except Error Bytes × Cache :=
  match blocks[hash]? with
  | some b => (.ok b, blocks)
  | none =>
      match bucket (env.blockPath hash) with
      | none => (.error ioError, blocks)
      | some object => (.ok (env.bytes object), blocks.insert hash (env.bytes object))

def slice (bytes : Bytes) (lo hi : Nat) : Bytes :=
  (bytes.drop (min lo bytes.length)).take (min hi bytes.length - min lo bytes.length)

/-- The blocks that overlap `[offset, stop)`, from the block at position `pos` on. -/
def readBlocks (bucket : Bucket B) (offset stop : Nat) :
    List BlockRef → Nat → Bytes → Cache → Except Error Bytes × Cache
  | [], _, out, blocks => (.ok out, blocks)
  | block :: refs, pos, out, blocks =>
      let bend := pos + block.len
      if bend ≤ offset then readBlocks bucket offset stop refs bend out blocks
      else if stop ≤ pos then (.ok out, blocks)
      else
        match fetchBlock env bucket block.hash blocks with
        | (.error e, blocks) => (.error e, blocks)
        | (.ok b, blocks) =>
            readBlocks bucket offset stop refs bend
              (out ++ slice b (offset - pos) (min stop bend - pos)) blocks

def readContent (bucket : Bucket B) (content : Content) (offset len : Nat) (blocks : Cache) :
    Except Error Bytes × Cache :=
  match content with
  | .inline b => (.ok (slice b offset (min offset b.length + len)), blocks)
  | .blocks refs _ => readBlocks env bucket offset (offset + len) refs 0 [] blocks

def readFile (bucket : Bucket B) (image : FsImage) (path : String) (blocks : Cache) :
    Except Error (Option Bytes) × Cache :=
  match image.get path with
  | some (.file content _) =>
      match readContent env bucket content 0 content.len blocks with
      | (.ok b, blocks) => (.ok (some b), blocks)
      | (.error e, blocks) => (.error e, blocks)
  | _ => (.ok none, blocks)

/-! ## Handles -/

/-- A mounted volume: the write handle. -/
structure Volume where
  vol : String
  token : String
  image : FsImage
  tail : Option Nat
  pending : List Delta := []
  blocks : Cache := ∅

/-- Fetches segments and merges them in order into an image. -/
def mergeSegments (bucket : Bucket B) : FsImage → List String → Except Error FsImage
  | image, [] => .ok image
  | image, path :: segments =>
      match bucket (env.path path) with
      | none => .error ioError
      | some object =>
          match env.segment.decode object with
          | .error e => .error e
          | .ok segment => mergeSegments bucket (image.mergeSegment segment) segments

/-- Loads and merges all segments of a manifest. -/
def loadSegments (bucket : Bucket B) (state : S) : Except Error FsImage :=
  match env.manifest.decode state with
  | .error e => .error e
  | .ok manifest => mergeSegments env bucket {} manifest.segments

/-- Where a replay starts: the image of the latest manifest and the first version
past it. -/
def loadBase (r : Remote D S B) (vol : String) : Except Error (FsImage × Nat) :=
  match (latestSnapshot vol : KvM D S Error _).eval r.store with
  | .error e => .error e
  | .ok none => .ok ({}, 0)
  | .ok (some snap) =>
      match loadSegments env r.bucket snap.state with
      | .error e => .error e
      | .ok image => .ok (image, snap.throughVersion + 1)

/-- One event of a mount.  An event that is no delta is passed over. -/
def replayEvent (clock : Nat → Int) (image : FsImage) (e : Event D) : FsImage :=
  match env.delta.decode e.data with
  | .ok d => image.apply (clock e.version) d
  | .error _ => image

/-- Takes the fencing token of a volume and reconstructs its state.  `clock v` is the
reading when the event of version `v` is applied. -/
def mount [Payload D] (vol : String) (clock : Nat → Int) (r : Remote D S B) :
    Except Error Volume × Remote D S B :=
  let token := env.ulid r.draws
  let (reply, store) := (Call.fence vol (some token) : Call D S).exec r.store
  let r := { r with store := store, draws := r.draws + 1 }
  match reply with
  | .error e => (.error e, r)
  | .ok _ =>
      match loadBase env r vol with
      | .error e => (.error e, r)
      | .ok (image, start) =>
          match fold r.store vol (.included start) .unbounded image (replayEvent env clock) with
          | .error e => (.error e, r)
          | .ok (image, tail) =>
              (.ok { vol := vol, token := token, image := image, tail := tail }, r)

/-! ## Buffered mutations -/

namespace Volume

/-- Buffers a mutation. -/
def mutate (now : Int) (d : Delta) (v : Volume) : Volume :=
  { v with image := v.image.apply now d, pending := v.pending ++ [d] }

def writeFile (now : Int) (path : String) (offset : Nat) (data : Bytes) (v : Volume) : Volume :=
  v.mutate now (.write path offset (.inline data))

def resize (bytes : Bytes) (size : Nat) : Bytes :=
  bytes.take size ++ List.replicate (size - bytes.length) 0

/-- A size change as a removal and a write of the whole content. -/
def truncate (now : Int) (bucket : Bucket B) (path : String) (size : Nat) (v : Volume) :
    Except Error Unit × Volume :=
  match readFile env bucket v.image path v.blocks with
  | (.error e, blocks) => (.error e, { v with blocks := blocks })
  | (.ok content, blocks) =>
      let v := { v with blocks := blocks }
      (.ok (), (v.mutate now (.remove path)).mutate now
        (.write path 0 (.inline (resize (content.getD []) size))))

end Volume

/-! ## Commit -/

/-- The call of a commit or a checkpoint that fails.  A failed upload or publish may
have landed; an append that fails here has not. -/
inductive Fault where
  | putBlock (i : Nat) (landed : Bool)
  | append
  | putSegment (landed : Bool)
  | publish (landed : Bool)
deriving DecidableEq, Repr

/-- Content cut into chunks. -/
def chunks (content : Bytes) : List Bytes :=
  (List.range ((content.length + chunk - 1) / chunk)).map fun i =>
    (content.drop (i * chunk)).take chunk

def blockRef (bytes : Bytes) : BlockRef := { hash := env.sha256 bytes, len := bytes.length }

/-- The content of a file that is too large to stay inline. -/
def large (image : FsImage) (path : String) : Option Bytes :=
  match image.get path with
  | some (.file (.inline content) _) => if content.length ≤ chunk then none else some content
  | _ => none

/-- The deltas as they are committed: the first write to a large file becomes a write
of all its blocks, and its later writes are dropped.  `chunked` are the paths that
were replaced so far. -/
def upgrade (image : FsImage) : List String → List Delta → List Delta
  | _, [] => []
  | chunked, .write path offset data :: deltas =>
      if path ∈ chunked then upgrade image chunked deltas
      else
        match large image path with
        | none => .write path offset data :: upgrade image chunked deltas
        | some content =>
            .write path 0 (.blocks ((chunks content).map (blockRef env))) ::
              upgrade image (path :: chunked) deltas
  | chunked, d :: deltas => d :: upgrade image chunked deltas

/-- The blocks that the bucket has not got. -/
def uploads (bucket : Bucket B) (image : FsImage) : List String → List Delta → List Bytes
  | _, [] => []
  | chunked, .write path _ _ :: deltas =>
      if path ∈ chunked then uploads bucket image chunked deltas
      else
        match large image path with
        | none => uploads bucket image chunked deltas
        | some content =>
            (chunks content).filter (fun b => (bucket (env.blockPath (env.sha256 b))).isNone) ++
              uploads bucket image (path :: chunked) deltas
  | chunked, _ :: deltas => uploads bucket image chunked deltas

/-- Uploads blocks in order, up to the one that fails. -/
def putBlocks (fault : Option Fault) : Nat → List Bytes → Bucket B →
    Except Error Unit × Bucket B
  | _, [], bucket => (.ok (), bucket)
  | i, b :: rest, bucket =>
      let stored := Function.update bucket (env.blockPath (env.sha256 b)) (some (env.object b))
      if fault = some (.putBlock i true) then (.error ioError, stored)
      else if fault = some (.putBlock i false) then (.error ioError, bucket)
      else putBlocks fault (i + 1) rest stored

def isBlocks : Delta → Bool
  | .write _ _ (.blocks _) => true
  | _ => false

/-- The image with the block writes of a commit applied once more. -/
def restated (now : Int) (image : FsImage) (upgraded : List Delta) : FsImage :=
  (upgraded.filter isBlocks).foldl (fun image d => image.apply now d) image

def encodeDeltas : List Delta → Except Error (List (NewEvent D))
  | [] => .ok []
  | d :: deltas =>
      match env.delta.encode d with
      | .error e => .error e
      | .ok data =>
          match encodeDeltas deltas with
          | .error e => .error e
          | .ok events => .ok ({ eventType := "delta", data := data } :: events)

namespace Volume

/-- The deltas that a commit appends. -/
def upgraded (v : Volume) : List Delta := upgrade env v.image [] v.pending

/-- Commits buffered mutations as one atomic batch. -/
def commit [Payload D] (now : Int) (stamps : Nat → Nat → Stamp) (fault : Option Fault)
    (v : Volume) (r : Remote D S B) : Except Error Unit × Volume × Remote D S B :=
  if v.pending = [] then (.ok (), v, r)
  else
    let deltas := v.upgraded env
    match putBlocks env fault 0 (uploads env r.bucket v.image [] v.pending) r.bucket with
    | (.error e, bucket) => (.error e, v, { r with bucket := bucket })
    | (.ok (), bucket) =>
        let r := { r with bucket := bucket }
        let v := { v with image := restated now v.image deltas }
        match encodeDeltas env deltas with
        | .error e => (.error e, v, r)
        | .ok events =>
            if fault = some .append then (.error ioError, v, r)
            else
              match (Call.appendWithToken v.vol v.token (expected v.tail) events false
                  stamps : Call D S).exec r.store with
              | (.error e, store) => (.error e, v, { r with store := store })
              | (.ok (.infos [info]), store) =>
                  (.ok (), { v with tail := some info.lastVersion, pending := [] },
                    { r with store := store })
              -- an append returns the info of its batch
              | (.ok _, store) => (.error .depth, v, { r with store := store })

end Volume

/-! ## Checkpoint -/

/-- A checkpoint fold in progress: newest-wins entries with tombstones, and the
running image. -/
structure DeltaImage where
  entries : ExtTreeMap String (Option Node) compare := ∅
  live : FsImage

namespace DeltaImage

/-- A path below a rename's source is entered as gone, and its node at its new
path. -/
def enterMoved (live : FsImage) (source dest : String)
    (entries : ExtTreeMap String (Option Node) compare) (p : String) :
    ExtTreeMap String (Option Node) compare :=
  match live.get p with
  | some node => (entries.insert p none).insert (FsImage.moved source dest p) (some node)
  | none => entries

/-- The entries of a rename. -/
def enterRename (delta : DeltaImage) (source dest : String) :
    ExtTreeMap String (Option Node) compare :=
  let entries := delta.entries.insert source none
  let entries :=
    match delta.live.get source with
    | some node => entries.insert dest (some node)
    | none => entries
  (delta.live.descendants (slash source)).foldl (enterMoved delta.live source dest) entries

/-- The entries of a removal. -/
def enterRemove (delta : DeltaImage) (path : String) : ExtTreeMap String (Option Node) compare :=
  (delta.live.descendants (slash path)).foldl (fun entries p => entries.insert p none)
    (delta.entries.insert path none)

def apply (now : Int) (delta : DeltaImage) (d : Delta) : DeltaImage :=
  let live := delta.live.apply now d
  match d with
  | .remove path => { entries := delta.enterRemove path, live := live }
  | .rename source dest => { entries := delta.enterRename source dest, live := live }
  | .write path _ _ | .mkdir path | .setAttr path _ _ _ _ | .setXattr path _ _
  | .symlink path _ =>
      match live.get path with
      | some node => { entries := delta.entries.insert path (some node), live := live }
      | none => { entries := delta.entries, live := live }

/-- One event of a checkpoint's fold. -/
def replayEvent (clock : Nat → Int) (delta : DeltaImage) (e : Event D) : DeltaImage :=
  match env.delta.decode e.data with
  | .ok d => delta.apply (clock e.version) d
  | .error _ => delta

end DeltaImage

def record (vol : String) (throughVersion : Nat) (nowMs : Int) : CompactionRecord :=
  { stream := vol, throughVersion := throughVersion, eventsCompacted := 0, jobId := none,
    tsMs := nowMs }

/-- Uploads a segment and returns its path.  With a fault the upload fails, and it
may have landed. -/
def putSegment (vol : String) (segment : Segment) (fault : Option Fault) (r : Remote D S B) :
    Except Error String × Remote D S B :=
  let path := env.segmentPath vol r.draws
  let drawn := { r with draws := r.draws + 1 }
  match env.segment.encode segment with
  | .error e => (.error e, drawn)
  | .ok object =>
      let stored := { drawn with bucket := Function.update r.bucket path (some object) }
      if fault = some (.putSegment true) then (.error ioError, stored)
      else if fault = some (.putSegment false) then (.error ioError, drawn)
      else (.ok path, stored)

/-- The manifest of the latest snapshot, or the empty one. -/
def latestManifest (σ : Db D S) (vol : String) : Except Error Manifest :=
  match (latestSnapshot vol : KvM D S Error _).eval σ with
  | .error e => .error e
  | .ok none => .ok {}
  | .ok (some snap) => env.manifest.decode snap.state

/-- Publishes a manifest.  With a fault the call fails, and it may have landed. -/
def publishManifest [Payload D] (vol : String) (entry : CompactionRecord) (manifest : Manifest)
    (ulid : String) (fault : Option Fault) (r : Remote D S B) : Except Error Unit × Remote D S B :=
  match env.manifest.encode manifest with
  | .error e => (.error e, r)
  | .ok state =>
      let (reply, store) := (Call.publishSnapshot vol entry state ulid : Call D S).exec r.store
      if fault = some (.publish true) then (.error ioError, { r with store := store })
      else if fault = some (.publish false) then (.error ioError, r)
      else
        match reply with
        | .error e => (.error e, { r with store := store })
        | .ok _ => (.ok (), { r with store := store })

/-- Seals the entries of a fold in a new segment and installs a manifest with it. -/
def install [Payload D] (vol : String) (through : Nat) (segment : Segment) (nowMs : Int)
    (ulid : String) (fault : Option Fault) (r : Remote D S B) :
    Except Error CompactionRecord × Remote D S B :=
  match putSegment env vol segment fault r with
  | (.error e, r) => (.error e, r)
  | (.ok path, r) =>
      match latestManifest env r.store vol with
      | .error e => (.error e, r)
      | .ok manifest =>
          let entry := record vol through nowMs
          match publishManifest env vol entry { segments := manifest.segments ++ [path] } ulid
              fault r with
          | (.error e, r) => (.error e, r)
          | (.ok (), r) => (.ok entry, r)

namespace Volume

/-- Folds the changes since the last manifest into a new segment object and
publishes a manifest with it. -/
def checkpoint [Payload D] (now : Int) (stamps : Nat → Nat → Stamp) (clock : Nat → Int)
    (ulid : String) (fault : Option Fault) (v : Volume) (r : Remote D S B) :
    Except Error CompactionRecord × Volume × Remote D S B :=
  match v.commit env now stamps fault r with
  | (.error e, v, r) => (.error e, v, r)
  | (.ok (), v, r) =>
      match v.tail with
      | none => (.error (.invalidInput "nothing to checkpoint"), v, r)
      | some through =>
          match loadBase env r v.vol with
          | .error e => (.error e, v, r)
          | .ok (base, start) =>
              match fold r.store v.vol (.included start) .unbounded { live := base }
                  (DeltaImage.replayEvent env clock) with
              | .error e => (.error e, v, r)
              | .ok (delta, _) =>
                  match install env v.vol through { entries := delta.entries } now ulid fault r with
                  | (.error e, r) => (.error e, v, r)
                  | (.ok entry, r) => (.ok entry, v, r)

end Volume

end

end Landslide.Fuse
