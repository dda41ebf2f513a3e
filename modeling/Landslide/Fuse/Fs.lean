import Landslide.Fuse.Inodes
import Landslide.Fuse.Replica

/-!
# The FUSE adapter

`LandslideFs` of `landslide-fuse/src/fs.rs`: a volume or a replica as a file system.
Writes are staged per handle and committed by a flush, to the path that the inode of the
handle has by then.

A request is answered by one session thread, so it runs to its end before the next one.
It draws its clock readings, the stamps and the failure of its commit, the order in which
the inode table is listed and what the directory buffer answers (`Draw`).  Between two
requests the rest of the world may change the store and the bucket, and the sync of a
replica its image (`Turn`).

Left out are the attributes that a reply carries, the requests that only read them or the
extended attributes, and names that are not UTF-8, which are refused.
-/

namespace Landslide.Fuse

open Std TxnKv

/-! ## The adapter -/

inductive Errno where
  | eio | erofs | enoent | enotdir | eisdir | einval | eexist | eloop | enotempty | ebadf
  | noXattr
deriving DecidableEq, Repr

inductive FileType where
  | regularFile
  | directory
  | symlink
deriving DecidableEq, Repr

/-- One open file: its inode and the extents that are to be committed. -/
structure Handle where
  ino : Nat
  extents : List (Nat × Bytes) := []
deriving DecidableEq

/-- What the mount serves. -/
inductive Backend where
  | volume (v : Volume)
  | replica (replica : Replica)

def Backend.image : Backend → FsImage
  | .volume v => v.image
  | .replica view => view.image

structure LandslideFs where
  backend : Backend
  state : Inodes := .new
  handles : ExtTreeMap Nat Handle compare := ∅
  nextFh : Nat := 1

/-- One entry of a directory, with the offset after it. -/
structure DirEntry where
  ino : Nat
  offset : Nat
  kind : FileType
  name : String
deriving DecidableEq

/-- What a request replies when it does not fail. -/
inductive Reply where
  | ok
  | entry (ino : Nat)
  | attr (ino : Nat)
  | created (ino fh : Nat)
  | opened (fh : Nat)
  | data (bytes : Bytes)
  | written (size : Nat)
  | directory (entries : List DirEntry)
deriving DecidableEq

/-- What a request takes from outside. -/
structure Draw where
  /-- The clock: reading 0 is the request's own, reading 1 that of a truncation, reading
  2 that of the commit, and the others are for its deltas. -/
  now : Nat → Int
  stamps : Nat → Nat → Stamp
  fault : Option Fault
  order : Order
  /-- What the directory buffer answers when it is given the entry with an offset. -/
  add : Nat → Bool

/-! ## Paths -/

def join (parent name : String) : String :=
  if parent = "/" then "/" ++ name else parent ++ "/" ++ name

/-- The path before the last slash. -/
def parentPath (path : String) : String :=
  let pre := ((path.toList.reverse.dropWhile (· ≠ '/')).drop 1).reverse
  if pre = [] then "/" else String.ofList pre

namespace Node

def kind : Node → FileType
  | .file _ _ => .regularFile
  | .dir _ => .directory
  | .symlink _ _ => .symlink

/-- The kind that a rename goes by. -/
def renameKind : Node → FileType
  | .file _ _ | .symlink _ _ => .regularFile
  | .dir _ => .directory

end Node

/-- Immediate children of a directory, by name. -/
def children (image : FsImage) (dir : String) : List (String × FileType) :=
  let pre := if dir = "/" then "/" else slash dir
  image.nodes.toList.filterMap fun entry =>
    if startsWith entry.1 pre then
      let rest := dropStart entry.1 pre
      if rest = "" || rest.toList.contains '/' then none else some (rest, entry.2.kind)
    else none

def isFile (image : FsImage) (path : String) : Bool :=
  match image.get path with
  | some (.file _ _) => true
  | _ => false

/-- A directory of the image, or the root, which is no node of it. -/
def isDir (image : FsImage) (path : String) : Bool :=
  path = "/" ||
    match image.get path with
    | some (.dir _) => true
    | _ => false

namespace LandslideFs

def image (fs : LandslideFs) : FsImage := fs.backend.image

def pathOf (fs : LandslideFs) (ino : Nat) : Option String := fs.state.pathOf[ino]?

/-- The inode of a path, given on first sight. -/
def ino (path : String) (fs : LandslideFs) : Nat × LandslideFs :=
  ((fs.state.ino path).1, { fs with state := (fs.state.ino path).2 })

def newHandle (ino : Nat) (fs : LandslideFs) : Nat × LandslideFs :=
  (fs.nextFh,
    { fs with handles := fs.handles.insert fs.nextFh { ino := ino }, nextFh := fs.nextFh + 1 })

end LandslideFs

/-! ## Commits and reads -/

section

variable {D S B : Type} (env : Outside D S B)

/-- Buffers deltas, each at a reading of its own. -/
def Volume.mutateAll (now : Nat → Int) : Nat → List Delta → Volume → Volume
  | _, [], v => v
  | i, d :: deltas, v => mutateAll now (i + 1) deltas (v.mutate (now i) d)

def readFileRange (bucket : Bucket B) (image : FsImage) (path : String) (offset len : Nat)
    (blocks : Cache) : Except Error (Option Bytes) × Cache :=
  match image.get path with
  | some (.file content _) =>
      match readContent env bucket content offset len blocks with
      | (.ok b, blocks) => (.ok (some b), blocks)
      | (.error e, blocks) => (.error e, blocks)
  | _ => (.ok none, blocks)

namespace LandslideFs

/-- Buffers deltas and commits them. -/
def commit [Payload D] (draw : Draw) (deltas : List Delta) (fs : LandslideFs) (r : Remote D S B) :
    Except Errno Unit × LandslideFs × Remote D S B :=
  match fs.backend with
  | .replica _ => (.error .erofs, fs, r)
  | .volume v =>
      match (v.mutateAll draw.now 3 deltas).commit env (draw.now 2) draw.stamps draw.fault r with
      | (.ok (), v, r) => (.ok (), { fs with backend := .volume v }, r)
      | (.error _, v, r) => (.error .eio, { fs with backend := .volume v }, r)

/-- Reads a whole file, for the blocks that this fetches. -/
def fetchFile (bucket : Bucket B) (path : String) (fs : LandslideFs) : LandslideFs :=
  match fs.backend with
  | .replica _ => fs
  | .volume v =>
      { fs with backend :=
          .volume { v with blocks := (readFile env bucket v.image path v.blocks).2 } }

def readRange (bucket : Bucket B) (path : String) (offset len : Nat) (fs : LandslideFs) :
    Except Errno (Option Bytes) × LandslideFs :=
  let answer : Except Error (Option Bytes) → Except Errno (Option Bytes) := fun
    | .ok bytes => .ok bytes
    | .error _ => .error .eio
  match fs.backend with
  | .replica replica =>
      (answer (readFileRange env bucket replica.image path offset len ∅).1, fs)
  | .volume v =>
      let out := readFileRange env bucket v.image path offset len v.blocks
      (answer out.1, { fs with backend := .volume { v with blocks := out.2 } })

def truncate (draw : Draw) (bucket : Bucket B) (path : String) (size : Nat) (fs : LandslideFs) :
    Except Errno Unit × LandslideFs :=
  match fs.backend with
  | .replica _ => (.error .erofs, fs)
  | .volume v =>
      match v.truncate env (draw.now 1) bucket path size with
      | (.ok (), v) => (.ok (), { fs with backend := .volume v })
      | (.error _, v) => (.error .eio, { fs with backend := .volume v })

/-- The deltas that commit the extents of a handle to a path. -/
def flushDeltas (now : Int) (path : String) (extents : List (Nat × Bytes)) : List Delta :=
  extents.map (fun e => .write path e.1 (.inline e.2)) ++ [.setAttr path none none none (some now)]

/-- Commits the staged extents of a handle to the path that its inode has now. -/
def flushFh [Payload D] (draw : Draw) (fh : Nat) (fs : LandslideFs) (r : Remote D S B) :
    Except Errno Unit × LandslideFs × Remote D S B :=
  match fs.handles[fh]? with
  | none => (.ok (), fs, r)
  | some h =>
      if h.extents = [] then (.ok (), fs, r)
      else
        let fs := { fs with handles := fs.handles.insert fh { h with extents := [] } }
        match fs.pathOf h.ino with
        | none => (.ok (), fs, r)
        | some path => fs.commit env draw (flushDeltas (draw.now 0) path h.extents) r

end LandslideFs

/-! ## Requests -/

/-- A time as a request gives it, in milliseconds since the epoch. -/
inductive TimeOrNow where
  | specificTime (ms : Int)
  | now
deriving DecidableEq, Repr

/-- The time that is stored. -/
def TimeOrNow.ms (now : Int) : TimeOrNow → Int
  | .specificTime ms => max ms 0
  | .now => now

/-- The FUSE operations. -/
inductive Request where
  | lookup (parent : Nat) (name : String)
  | setattr (ino : Nat) (mode uid gid : Option UInt32) (size : Option Nat)
      (mtime : Option TimeOrNow)
  | symlink (parent : Nat) (name target : String) (uid gid : UInt32)
  | readdir (ino offset : Nat)
  | mkdir (parent : Nat) (name : String) (mode umask uid gid : UInt32)
  | create (parent : Nat) (name : String) (mode umask uid gid : UInt32)
  | open (ino : Nat)
  | read (ino fh offset size : Nat)
  | write (fh offset : Nat) (data : Bytes)
  | flush (fh : Nat)
  | fsync (fh : Nat)
  | release (fh : Nat)
  | unlink (parent : Nat) (name : String)
  | rmdir (parent : Nat) (name : String)
  | rename (parent : Nat) (name : String) (newparent : Nat) (newname : String) (flags : UInt32)
  | setxattr (ino : Nat) (name : String) (value : Bytes)
  | removexattr (ino : Nat) (name : String)
deriving DecidableEq

namespace LandslideFs

def lookup (parent : Nat) (name : String) (fs : LandslideFs) : Except Errno Reply × LandslideFs :=
  match fs.pathOf parent with
  | none => (.error .enoent, fs)
  | some parentPath =>
      if !isDir fs.image parentPath then (.error .enotdir, fs)
      else
        let path := join parentPath name
        if fs.image.get path = none then (.error .enoent, fs)
        else (.ok (.entry (fs.ino path).1), (fs.ino path).2)

/-- Entries for the children of a directory, from an offset on. -/
def listChildren (dir : String) : List (String × FileType) → Nat → LandslideFs →
    List DirEntry × LandslideFs
  | [], _, fs => ([], fs)
  | (name, kind) :: kids, offset, fs =>
      let (i, fs) := fs.ino (join dir name)
      let (entries, fs) := listChildren dir kids (offset + 1) fs
      ({ ino := i, offset := offset, kind := kind, name := name } :: entries, fs)

/-- The entries that are given to the buffer, up to the first that it answers with
`false`. -/
def given (add : Nat → Bool) : List DirEntry → List DirEntry
  | [] => []
  | e :: entries => if add e.offset then e :: given add entries else [e]

def readdir (draw : Draw) (ino offset : Nat) (fs : LandslideFs) :
    Except Errno Reply × LandslideFs :=
  match fs.pathOf ino with
  | none => (.error .enoent, fs)
  | some dir =>
      if !isDir fs.image dir then (.error .enotdir, fs)
      else
        let kids := children fs.image dir
        let (up, fs) := fs.ino (parentPath dir)
        let (entries, fs) := listChildren dir kids 3 fs
        let entries :=
          { ino := ino, offset := 1, kind := .directory, name := "." } ::
            { ino := up, offset := 2, kind := .directory, name := ".." } :: entries
        (.ok (.directory (given draw.add (entries.drop offset))), fs)

def «open» (ino : Nat) (fs : LandslideFs) : Except Errno Reply × LandslideFs :=
  match fs.pathOf ino with
  | none => (.error .enoent, fs)
  | some path =>
      match fs.image.get path with
      | some (.file _ _) => (.ok (.opened (fs.newHandle ino).1), (fs.newHandle ino).2)
      | some (.dir _) => (.error .eisdir, fs)
      | some (.symlink _ _) => (.error .eloop, fs)
      | none => (.error .enoent, fs)

def write (fh offset : Nat) (data : Bytes) (fs : LandslideFs) : Except Errno Reply × LandslideFs :=
  match fs.handles[fh]? with
  | none => (.error .ebadf, fs)
  | some h =>
      (.ok (.written data.length),
        { fs with handles := fs.handles.insert fh { h with extents := h.extents ++ [(offset, data)] } })

/-- One staged extent over a range that was read from `offset` on. -/
def overlayExtent (offset : Nat) (buf : Bytes) (e : Nat × Bytes) : Bytes :=
  let start := e.1 - offset
  if buf.length < start then buf
  else
    let stop := min (start + e.2.length) buf.length
    buf.take start ++ e.2.take (stop - start) ++ buf.drop stop

def read (bucket : Bucket B) (ino fh offset size : Nat) (fs : LandslideFs) :
    Except Errno Reply × LandslideFs :=
  match fs.pathOf ino with
  | none => (.error .enoent, fs)
  | some path =>
      match fs.readRange env bucket path offset size with
      | (.error _, fs) => (.error .eio, fs)
      | (.ok none, fs) => (.error .enoent, fs)
      | (.ok (some buf), fs) =>
          let extents := (fs.handles[fh]?.map (·.extents)).getD []
          (.ok (.data (extents.foldl (overlayExtent offset) buf)), fs)

/-- An extent cut to a new size of the file. -/
def clip (size : Nat) (e : Nat × Bytes) : Option (Nat × Bytes) :=
  if size ≤ e.1 then none else some (e.1, e.2.take (size - e.1))

/-- Cuts the extents of every handle on an inode. -/
def clipHandles (ino size : Nat) (fs : LandslideFs) : LandslideFs :=
  { fs with handles := fs.handles.map fun _ h =>
      if h.ino = ino then { h with extents := h.extents.filterMap (clip size) } else h }

variable [Payload D]

/-- Replies when what was to be committed is. -/
def replies (reply : Reply) (out : Except Errno Unit × LandslideFs × Remote D S B) :
    Except Errno Reply × LandslideFs × Remote D S B :=
  match out with
  | (.ok (), fs, r) => (.ok reply, fs, r)
  | (.error e, fs, r) => (.error e, fs, r)

/-- Commits the attributes that a request sets. -/
def setMeta (draw : Draw) (ino : Nat) (path : String) (mode uid gid : Option UInt32)
    (mtimeMs : Option Int) (fs : LandslideFs) (r : Remote D S B) :
    Except Errno Reply × LandslideFs × Remote D S B :=
  let (res, fs, r) :=
    if mode.isSome || uid.isSome || gid.isSome || mtimeMs.isSome then
      fs.commit env draw [.setAttr path (mode.map (· &&& 0o7777)) uid gid mtimeMs] r
    else (.ok (), fs, r)
  match res with
  | .error e => (.error e, fs, r)
  | .ok () =>
      if path ≠ "/" ∧ fs.image.get path = none then (.error .enoent, fs, r)
      else (.ok (.attr ino), fs, r)

def setattr (draw : Draw) (ino : Nat) (mode uid gid : Option UInt32) (size : Option Nat)
    (mtime : Option TimeOrNow) (fs : LandslideFs) (r : Remote D S B) :
    Except Errno Reply × LandslideFs × Remote D S B :=
  match fs.pathOf ino with
  | none => (.error .enoent, fs, r)
  | some path =>
      let file := isFile fs.image path
      if path ≠ "/" ∧ !file ∧ fs.image.get path = none then (.error .enoent, fs, r)
      else
        let mtimeMs := mtime.map (·.ms (draw.now 0))
        match size with
        | none => fs.setMeta env draw ino path mode uid gid mtimeMs r
        | some size =>
            if !file then (.error .einval, fs, r)
            else
              match fs.truncate env draw r.bucket path size with
              | (.error e, fs) => (.error e, fs, r)
              | (.ok (), fs) =>
                  (fs.clipHandles ino size).setMeta env draw ino path mode uid gid
                    (some (mtimeMs.getD (draw.now 0))) r

/-- Commits a new node, unless its path is taken. -/
def make (draw : Draw) (parent : Nat) (name : String) (deltas : String → List Delta)
    (fs : LandslideFs) (r : Remote D S B) : Except Errno Reply × LandslideFs × Remote D S B :=
  match fs.pathOf parent with
  | none => (.error .enoent, fs, r)
  | some parentPath =>
      if !isDir fs.image parentPath then (.error .enotdir, fs, r)
      else
        let path := join parentPath name
        if fs.image.get path ≠ none then (.error .eexist, fs, r)
        else
          match fs.commit env draw (deltas path) r with
          | (.error e, fs, r) => (.error e, fs, r)
          | (.ok (), fs, r) => (.ok (.entry (fs.ino path).1), (fs.ino path).2, r)

def symlink (draw : Draw) (parent : Nat) (name target : String) (uid gid : UInt32) :
    LandslideFs → Remote D S B → Except Errno Reply × LandslideFs × Remote D S B :=
  make env draw parent name fun path =>
    [.symlink path target, .setAttr path none (some uid) (some gid) none]

/-- The mode that a new node gets. -/
def newMode (mode umask : UInt32) : UInt32 := mode &&& ~~~umask &&& 0o7777

def mkdir (draw : Draw) (parent : Nat) (name : String) (mode umask uid gid : UInt32) :
    LandslideFs → Remote D S B → Except Errno Reply × LandslideFs × Remote D S B :=
  make env draw parent name fun path =>
    [.mkdir path, .setAttr path (some (newMode mode umask)) (some uid) (some gid) none]

/-- Gives a file its inode and opens it. -/
def created (path : String) (fs : LandslideFs) (r : Remote D S B) :
    Except Errno Reply × LandslideFs × Remote D S B :=
  let (i, fs) := fs.ino path
  let (fh, fs) := fs.newHandle i
  (.ok (.created i fh), fs, r)

def create (draw : Draw) (parent : Nat) (name : String) (mode umask uid gid : UInt32)
    (fs : LandslideFs) (r : Remote D S B) : Except Errno Reply × LandslideFs × Remote D S B :=
  match fs.pathOf parent with
  | none => (.error .enoent, fs, r)
  | some parentPath =>
      if !isDir fs.image parentPath then (.error .enotdir, fs, r)
      else
        let path := join parentPath name
        match fs.image.get path with
        | some (.file _ _) => (fs.fetchFile env r.bucket path).created path r
        | some (.dir _) => (.error .eisdir, fs, r)
        | some (.symlink _ _) => (.error .eexist, fs, r)
        | none =>
            match fs.commit env draw
                [.write path 0 (.inline []),
                  .setAttr path (some (newMode mode umask)) (some uid) (some gid) none] r with
            | (.error e, fs, r) => (.error e, fs, r)
            | (.ok (), fs, r) => fs.created path r

def flush (draw : Draw) (fh : Nat) (fs : LandslideFs) (r : Remote D S B) :
    Except Errno Reply × LandslideFs × Remote D S B :=
  replies .ok (fs.flushFh env draw fh r)

def fsync (draw : Draw) (fh : Nat) (fs : LandslideFs) (r : Remote D S B) :
    Except Errno Reply × LandslideFs × Remote D S B :=
  replies .ok (fs.flushFh env draw fh r)

def release (draw : Draw) (fh : Nat) (fs : LandslideFs) (r : Remote D S B) :
    Except Errno Reply × LandslideFs × Remote D S B :=
  let (res, fs, r) := fs.flushFh env draw fh r
  replies .ok (res, { fs with handles := fs.handles.erase fh }, r)

def unlink (draw : Draw) (parent : Nat) (name : String) (fs : LandslideFs) (r : Remote D S B) :
    Except Errno Reply × LandslideFs × Remote D S B :=
  match fs.pathOf parent with
  | none => (.error .enoent, fs, r)
  | some parentPath =>
      let path := join parentPath name
      match fs.image.get path with
      | some (.dir _) => (.error .eisdir, fs, r)
      | some (.file _ _) | some (.symlink _ _) =>
          replies .ok (fs.commit env draw [.remove path] r)
      | none => (.error .enoent, fs, r)

def rmdir (draw : Draw) (parent : Nat) (name : String) (fs : LandslideFs) (r : Remote D S B) :
    Except Errno Reply × LandslideFs × Remote D S B :=
  match fs.pathOf parent with
  | none => (.error .enoent, fs, r)
  | some parentPath =>
      let path := join parentPath name
      match fs.image.get path with
      | some (.dir _) =>
          if children fs.image path ≠ [] then (.error .enotempty, fs, r)
          else replies .ok (fs.commit env draw [.remove path] r)
      | _ => (.error .enotdir, fs, r)

/-- Why a node cannot take the place of what is at its new path. -/
def inTheWay (image : FsImage) (dest : String) (source : Node) : Option Errno :=
  match image.get dest with
  | none => none
  | some node =>
      match source.renameKind, node.renameKind with
      | .regularFile, .directory => some .eisdir
      | .directory, .regularFile => some .enotdir
      | .directory, .directory => if children image dest ≠ [] then some .enotempty else none
      | _, _ => none

/-- The paths of a rename that is tried. -/
def renamePaths (parent : Nat) (name : String) (newparent : Nat) (newname : String)
    (flags : UInt32) (fs : LandslideFs) : Except Errno (String × String) :=
  if flags ≠ 0 then .error .einval
  else
    match fs.pathOf parent, fs.pathOf newparent with
    | some sourceDir, some destDir =>
        let source := join sourceDir name
        let dest := join destDir newname
        match fs.image.get source with
        | none => .error .enoent
        | some node =>
            match inTheWay fs.image dest node with
            | some e => .error e
            | none => .ok (source, dest)
    | _, _ => .error .enoent

def rename (draw : Draw) (parent : Nat) (name : String) (newparent : Nat) (newname : String)
    (flags : UInt32) (fs : LandslideFs) (r : Remote D S B) :
    Except Errno Reply × LandslideFs × Remote D S B :=
  match fs.renamePaths parent name newparent newname flags with
  | .error e => (.error e, fs, r)
  | .ok (source, dest) =>
      match fs.commit env draw [.rename source dest] r with
      | (.error e, fs, r) => (.error e, fs, r)
      | (.ok (), fs, r) =>
          (.ok .ok, { fs with state := fs.state.renameSubtree draw.order source dest }, r)

def setxattr (draw : Draw) (ino : Nat) (name : String) (value : Bytes) (fs : LandslideFs)
    (r : Remote D S B) : Except Errno Reply × LandslideFs × Remote D S B :=
  match fs.pathOf ino with
  | none => (.error .enoent, fs, r)
  | some path =>
      if path ≠ "/" ∧ fs.image.get path = none then (.error .enoent, fs, r)
      else replies .ok (fs.commit env draw [.setXattr path name (some value)] r)

def removexattr (draw : Draw) (ino : Nat) (name : String) (fs : LandslideFs) (r : Remote D S B) :
    Except Errno Reply × LandslideFs × Remote D S B :=
  match fs.pathOf ino with
  | none => (.error .enoent, fs, r)
  | some path =>
      match fs.image.get path with
      | none => (.error .enoent, fs, r)
      | some node =>
          if name ∈ node.attrs.xattrs then
            replies .ok (fs.commit env draw [.setXattr path name none] r)
          else (.error .noXattr, fs, r)

/-- Answers a request. -/
def serve (draw : Draw) (req : Request) (fs : LandslideFs) (r : Remote D S B) :
    Except Errno Reply × LandslideFs × Remote D S B :=
  match req with
  | .lookup parent name => ((fs.lookup parent name).1, (fs.lookup parent name).2, r)
  | .setattr ino mode uid gid size mtime => fs.setattr env draw ino mode uid gid size mtime r
  | .symlink parent name target uid gid => fs.symlink env draw parent name target uid gid r
  | .readdir ino offset => ((fs.readdir draw ino offset).1, (fs.readdir draw ino offset).2, r)
  | .mkdir parent name mode umask uid gid => fs.mkdir env draw parent name mode umask uid gid r
  | .create parent name mode umask uid gid => fs.create env draw parent name mode umask uid gid r
  | .open ino => ((fs.open ino).1, (fs.open ino).2, r)
  | .read ino fh offset size =>
      let out := fs.read env r.bucket ino fh offset size
      (out.1, out.2, r)
  | .write fh offset data => ((fs.write fh offset data).1, (fs.write fh offset data).2, r)
  | .flush fh => fs.flush env draw fh r
  | .fsync fh => fs.fsync env draw fh r
  | .release fh => fs.release env draw fh r
  | .unlink parent name => fs.unlink env draw parent name r
  | .rmdir parent name => fs.rmdir env draw parent name r
  | .rename parent name newparent newname flags =>
      fs.rename env draw parent name newparent newname flags r
  | .setxattr ino name value => fs.setxattr env draw ino name value r
  | .removexattr ino name => fs.removexattr env draw ino name r

end LandslideFs

end

/-! ## Runs -/

/-- One thing that happens to a mount. -/
inductive Turn (D S B : Type) where
  | request (req : Request) (draw : Draw)
  /-- The store and the bucket as the rest of the world leaves them. -/
  | outside (remote : Remote D S B)
  /-- The replica after a sync. -/
  | synced (replica : Replica)

/-- A mount and what it talks to. -/
structure Session (D S B : Type) where
  fs : LandslideFs
  remote : Remote D S B

namespace Session

variable {D S B : Type}

def turn [Payload D] (env : Outside D S B) (s : Session D S B) : Turn D S B → Session D S B
  | .request req draw =>
      let out := s.fs.serve env draw req s.remote
      { fs := out.2.1, remote := out.2.2 }
  | .outside remote => { s with remote := remote }
  | .synced replica =>
      match s.fs.backend with
      | .volume _ => s
      | .replica _ => { s with fs := { s.fs with backend := .replica replica } }

def run [Payload D] (env : Outside D S B) (s : Session D S B) (turns : List (Turn D S B)) :
    Session D S B :=
  turns.foldl (turn env) s

end Session

end Landslide.Fuse
