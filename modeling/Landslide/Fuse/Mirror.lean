import Mathlib.Data.List.Sort
import Landslide.Near
import Landslide.Fuse.Store

/-!
# Mirror directories

`Mirror` of `landslide-fuse/src/mirror.rs`.  A pass writes the nodes of the image whose
fingerprint changed or whose place is empty, then removes what left the image, the
longest path first, then sets the modes of directories, and saves the fingerprints in a
file of the directory.

The directory is a place on a disk with symbolic links.  Which calls the system refuses
is part of a pass, one answer for each call that the code makes (`PassCall`).  `written`
is what the last write of a path showed; it is there for statements, and no step reads
it.
-/

namespace Landslide.Fuse

open Std Disk

/-- Bookkeeping file for mirror state, kept inside the target dir. -/
def stateFile : String := ".landslide-mirror.json"

/-- Fingerprint of one materialized path: what was last written to disk. -/
structure StateEntry where
  size : Nat
  mtimeMs : Int
  mode : UInt32
  target : Option String
deriving DecidableEq

namespace StateEntry

def of : Node → StateEntry
  | .file content attrs =>
      { size := content.len, mtimeMs := attrs.mtimeMs, mode := attrs.mode, target := none }
  | .symlink target attrs =>
      { size := target.utf8ByteSize, mtimeMs := attrs.mtimeMs, mode := attrs.mode,
        target := some target }
  | .dir attrs => { size := 0, mtimeMs := attrs.mtimeMs, mode := attrs.mode, target := none }

end StateEntry

/-- A mirror directory: the disk, the fingerprints, and what was last written. -/
structure Mirror where
  disk : Disk Bytes
  entries : ExtTreeMap String StateEntry compare := ∅
  written : ExtTreeMap String (View Bytes) compare := ∅

/-- The calls that a pass makes for one path. -/
inductive PassCall where
  | look | parent | isDir | find | remove | create | symlink | write | rename | modeOf | chmod
  | setTimes
deriving DecidableEq

/-- Which calls the system refuses, and how. -/
abbrev Faults := PassCall → Option (Disk.Fault Bytes)

/-- The order in which a hash map lists its keys. -/
structure KeyOrder where
  list : List String → List String
  perm : ∀ l, (list l).Perm l

def KeyOrder.sorted : KeyOrder := { list := id, perm := fun _ => .refl _ }

/-- What a pass finds: the image, the bucket, the order of the hash map, the attributes
of a new file, and the refused calls. -/
structure Pass (B : Type) where
  image : FsImage
  bucket : Bucket B
  order : KeyOrder := .sorted
  fresh : Attr := { mode := 0o644, mtimeMs := 0 }
  faults : String → Faults := fun _ _ => none
  stateFaults : Faults := fun _ => none

/-! ## Places -/

/-- The normal components of a volume path. -/
def names (volPath : String) : List String :=
  (parts volPath).filter fun c => c ≠ "" ∧ c ≠ "." ∧ c ≠ ".."

/-- Maps a volume path ("/etc/hostname") into the mirror dir. -/
def localPath (dir : Loc) (volPath : String) : Loc := dir ++ names volPath

/-- A file name before its last dot, unless that dot begins it. -/
def fileStem (name : String) : String :=
  let before := (name.toList.reverse.dropWhile (· ≠ '.')).drop 1
  if before = [] then name else String.ofList before.reverse

def withExtension (x : Loc) (extension : String) : Loc :=
  match x.getLast? with
  | none => x
  | some name => x.dropLast ++ [fileStem name ++ "." ++ extension]

/-- The sibling temp file of an atomic write. -/
def tmpOf (x : Loc) : Loc := withExtension x "landslide-mirror.tmp"

/-! ## Writing a node -/

def IoError.text : IoError → String
  | .notFound => "No such file or directory (os error 2)"
  | .refused => "Input/output error (os error 5)"
  | .alreadyExists => "File exists (os error 17)"
  | .notADirectory => "Not a directory (os error 20)"
  | .isADirectory => "Is a directory (os error 21)"
  | .loop => "Too many levels of symbolic links (os error 40)"

def io {α : Type} (m : DiskM Bytes IoError α) : DiskM Bytes Error α :=
  m.mapError fun e => .invalidInput s!"mirror io: {IoError.text e}"

/-- rm `-f`: unlink files and symlinks, remove dirs with their contents. -/
def removeAny (faults : Faults) (x : Loc) : DiskM Bytes Error Unit :=
  DiskM.attempt do
    let md ← symlinkMetadata (faults .find) x
    if md.isDir then removeDirAll (faults .remove) x else removeFile (faults .remove) x

/-- Writes bytes to a path via a sibling temp file and a rename. -/
def writeFileAtomic (faults : Faults) (fresh : Attr) (x : Loc) (bytes : Bytes) :
    DiskM Bytes IoError Unit := do
  write (faults .write) fresh (tmpOf x) bytes
  rename (faults .rename) (tmpOf x) x

def applyMode (faults : Faults) (x : Loc) (mode : UInt32) : DiskM Bytes Error Unit :=
  DiskM.attempt do
    let md ← symlinkMetadata (faults .modeOf) x
    -- chmod on symlink targets is surprising; skip
    if md.isLink then pure ()
    else setAttr (faults .chmod) (fun attr => { attr with mode := mode &&& 0o7777 }) x

section

variable {D S B : Type} (env : Outside D S B) (dir : Loc) (pass : Pass B)

/-- What `read_file` of the replica answers. -/
def readNode (path : String) : Except Error (Option Bytes) :=
  (readFile env pass.bucket pass.image path ∅).1

def readBytes (path : String) : DiskM Bytes Error Bytes := fun d =>
  match readNode env pass path with
  | .ok (some bytes) => (.ok bytes, d)
  | .ok none => (.error (.invalidInput s!"{path}: vanished mid-sync"), d)
  | .error e => (.error e, d)

def makeParent (faults : Faults) (x : Loc) : DiskM Bytes Error Unit :=
  if x = [] then pure () else io (createDirAll (faults .parent) pass.fresh x.dropLast)

def writeDir (faults : Faults) (x : Loc) : DiskM Bytes Error Unit := do
  let there ← Disk.isDir (faults .isDir) x
  if there then pure ()
  else do
    removeAny faults x
    io (createDirAll (faults .create) pass.fresh x)

def writeSymlink (faults : Faults) (target : String) (x : Loc) : DiskM Bytes Error Unit := do
  removeAny faults x
  io (Disk.symlink (faults .symlink) target x)

def writeFile (faults : Faults) (path : String) (attrs : NodeMeta) (x : Loc) :
    DiskM Bytes Error Unit := do
  let there ← Disk.isDir (faults .isDir) x
  (if there then removeAny faults x else pure ())
  let bytes ← readBytes env pass path
  io (writeFileAtomic faults pass.fresh x bytes)
  applyMode faults x attrs.mode
  DiskM.attempt
    (setAttr (faults .setTimes) (fun attr => { attr with mtimeMs := max attrs.mtimeMs 0 }) x)

/-- Writes one node, replacing whatever unrelated entry was on disk. -/
def writeNode (path : String) (node : Node) : DiskM Bytes Error Unit := do
  let x := localPath dir path
  let faults := pass.faults path
  makeParent pass faults x
  match node with
  | .dir _ => writeDir pass faults x
  | .symlink target _ => writeSymlink faults target x
  | .file _ attrs => writeFile env pass faults path attrs x

/-! ## A pass -/

/-- What a node shows on disk. -/
def shown (path : String) : Node → View Bytes
  | .file _ _ =>
      match readNode env pass path with
      | .ok (some bytes) => .file bytes
      | _ => .file []
  | .dir _ => .dir
  | .symlink target _ => .link target

/-- A pass on its way: the directories whose modes are due, and the paths it skipped. -/
structure Progress where
  mirror : Mirror
  dirModes : List (String × UInt32) := []
  skipped : List (String × Error) := []

/-- Whether a path is left as it is: the fingerprint is the same, and there is
something on disk. -/
def unchanged (m : Mirror) (path : String) (node : Node) : Bool :=
  m.entries[path]? = some (StateEntry.of node) &&
    match (symlinkMetadata ((pass.faults path) .look) (localPath dir path) m.disk).1 with
    | .ok _ => true
    | .error _ => false

def Progress.withMode (p : Progress) (path : String) : Node → Progress
  | .dir attrs => { p with dirModes := p.dirModes ++ [(path, attrs.mode)] }
  | _ => p

/-- Rewrites a node whose fingerprint changed or whose on-disk path vanished. -/
def update (p : Progress) (item : String × Node) : Progress :=
  if unchanged dir pass p.mirror item.1 item.2 then p.withMode item.1 item.2
  else
    match writeNode env dir pass item.1 item.2 p.mirror.disk with
    | (.ok (), disk) =>
        { p with
          mirror :=
            { disk := disk
              entries := p.mirror.entries.insert item.1 (StateEntry.of item.2)
              written := p.mirror.written.insert item.1 (shown env pass item.1 item.2) } }.withMode
          item.1 item.2
    | (.error e, disk) =>
        { p with
          mirror := { p.mirror with disk := disk }
          skipped := p.skipped ++ [(item.1, e)] }

/-- Previously-materialized paths that left the image, the longest first. -/
def gone (entries : ExtTreeMap String StateEntry compare) : List String :=
  ((pass.order.list entries.keys).filter fun p => !pass.image.nodes.contains p).insertionSort
    fun p q => q.utf8ByteSize ≤ p.utf8ByteSize

def drop (m : Mirror) (path : String) : Mirror :=
  { m with
    disk := (removeAny (pass.faults path) (localPath dir path) m.disk).2
    entries := m.entries.erase path }

def setMode (d : Disk Bytes) (item : String × UInt32) : Disk Bytes :=
  (applyMode (pass.faults item.1) (localPath dir item.1) item.2 d).2

def stateTmp : Loc := dir ++ [stateFile ++ ".tmp"]

/-- Saves the fingerprints. -/
def saveState (encode : ExtTreeMap String StateEntry compare → Bytes)
    (entries : ExtTreeMap String StateEntry compare) : DiskM Bytes Error Unit := do
  io (write (pass.stateFaults .write) pass.fresh (stateTmp dir) (encode entries))
  io (rename (pass.stateFaults .rename) (stateTmp dir) (dir ++ [stateFile]))

/-- How a pass ends: the paths it reported, and whether the fingerprints were saved. -/
structure Outcome where
  mirror : Mirror
  skipped : List (String × Error)
  saved : Except Error Unit

def materialize (encode : ExtTreeMap String StateEntry compare → Bytes) (m : Mirror) : Outcome :=
  let up := pass.image.nodes.toList.foldl (update env dir pass) { mirror := m }
  let down := (gone pass up.mirror.entries).foldl (drop dir pass) up.mirror
  let disk := up.dirModes.foldl (setMode dir pass) down.disk
  let saved := saveState dir pass encode down.entries disk
  { mirror := { down with disk := saved.2 }, skipped := up.skipped, saved := saved.1 }

end

/-- The mirror after some passes. -/
def Mirror.run {D S B : Type} (env : Outside D S B) (dir : Loc)
    (encode : ExtTreeMap String StateEntry compare → Bytes) (m : Mirror)
    (passes : List (Pass B)) : Mirror :=
  passes.foldl (fun m pass => (materialize env dir pass encode m).mirror) m

end Landslide.Fuse
