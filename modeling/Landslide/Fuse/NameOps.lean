import Landslide.Fuse.Flushes
import Landslide.Fuse.Names

/-!
# Operations on names

What POSIX makes of a request that makes, moves or takes away names (`NameOp.apply`): the new
tree, or the error.  `LandslideFs.asks` is the operation that a request stands for, by the
paths that its inodes have.

The kernel promises that names are not empty and have no slash, and that a rename goes to a
directory that is not in what it moves.  The adapter writes staged extents to the path of
their inode whatever is there, so a flush must find a path that a file can be at: a file, or
nothing, in a directory (`LandslideFs.promised`).

A mount stands for a tree if its image does and its inodes have paths of names
(`LandslideFs.Standing`).  A commit leaves the tree that its deltas make, also when it fails.
-/

namespace Landslide.Fuse

open Std TxnKv

/-! ## Operations on names -/

/-- A request that can change the tree of names, by its paths. -/
inductive NameOp where
  | make (kind : FileType) (p : NamePath) (n : Name)
  | create (p : NamePath) (n : Name)
  | unlink (p : NamePath) (n : Name)
  | rmdir (p : NamePath) (n : Name)
  | rename (p : NamePath) (m : Name) (q : NamePath) (n : Name)
  | write (p : NamePath) (n : Name)

namespace NameOp

open Classical in
/-- Why a node cannot be renamed. -/
noncomputable def renameError (t : Names) (source dest : NamePath) : Option Errno :=
  match t.kindAt source, t.kindAt dest with
  | none, _ => some .enoent
  | some _, none => none
  | some .directory, some .directory => if t.Bare dest then none else some .enotempty
  | some .directory, some _ => some .enotdir
  | some _, some .directory => some .eisdir
  | some _, some _ => none

open Classical in
/-- The tree after an operation, or its error. -/
noncomputable def apply (t : Names) : NameOp → Except Errno Names
  | .make kind p n =>
      if hp : t.kindAt p = some .directory then
        if h : t.kindAt (n :: p) = none then .ok (t.put n p kind hp (NameTree.bare_of_none h))
        else .error .eexist
      else .error .enotdir
  | .create p n =>
      if hp : t.kindAt p = some .directory then
        if h : t.kindAt (n :: p) = none then
          .ok (t.put n p .regularFile hp (NameTree.bare_of_none h))
        else if t.kindAt (n :: p) = some .directory then .error .eisdir
        else if t.kindAt (n :: p) = some .symlink then .error .eexist
        else .ok t
      else .error .enotdir
  | .unlink p n =>
      if t.kindAt (n :: p) = none then .error .enoent
      else if h : t.kindAt (n :: p) = some .directory then .error .eisdir
      else .ok (t.remove n p (NameTree.bare_of_ne h))
  | .rmdir p n =>
      if t.kindAt (n :: p) = some .directory then
        if h : t.Bare (n :: p) then .ok (t.remove n p h) else .error .enotempty
      else .error .enotdir
  | .rename p m q n =>
      match renameError t (m :: p) (n :: q) with
      | some e => .error e
      | none =>
          if h : t.kindAt q = some .directory ∧ ¬ m :: p <:+ q then
            .ok (t.move (m :: p) n q h.1 h.2)
          else .error .einval
  -- the staged extents of a handle make a file
  | .write p n =>
      if h : t.kindAt p = some .directory ∧ t.Bare (n :: p) then
        .ok (t.put n p .regularFile h.1 h.2)
      else .error .eio

/-- The tree after an operation that may have failed. -/
noncomputable def after (t : Names) : Option NameOp → Names
  | none => t
  | some op => (op.apply t).toOption.getD t

/-- A request answers as its operation does, or its commit fails. -/
def Tells (t : Names) (op : Option NameOp) (reply : Except Errno Reply) : Prop :=
  ∀ o, op = some o →
    (∀ e, o.apply t = .error e → reply = .error e) ∧
      ∀ u, o.apply t = .ok u → (∃ rep, reply = .ok rep) ∨ reply = .error .eio

end NameOp

/-! ## What a request asks for -/

namespace LandslideFs

/-- The path of an inode, as names. -/
noncomputable def pathAt (fs : LandslideFs) (ino : Nat) : Option NamePath :=
  (fs.pathOf ino).bind unspell

/-- The directory and the name of an entry. -/
noncomputable def entryAt (fs : LandslideFs) (parent : Nat) (name : String) :
    Option (NamePath × Name) :=
  (fs.pathAt parent).bind fun p => if h : ValidName name then some (p, ⟨name, h⟩) else none

/-- Where a flush writes, if it has something to write. -/
def flushPath (fh : Nat) (fs : LandslideFs) : Option String :=
  match fs.handles[fh]? with
  | none => none
  | some h => if h.extents = [] then none else fs.pathOf h.ino

noncomputable def asksFlush (fh : Nat) (fs : LandslideFs) : Option NameOp :=
  match (fs.flushPath fh).bind unspell with
  | some (n :: p) => some (.write p n)
  | _ => none

/-- The operation that a request stands for, if it is one on names. -/
noncomputable def asks (fs : LandslideFs) : Request → Option NameOp
  | .mkdir parent name .. => (fs.entryAt parent name).map fun e => .make .directory e.1 e.2
  | .symlink parent name .. => (fs.entryAt parent name).map fun e => .make .symlink e.1 e.2
  | .create parent name .. => (fs.entryAt parent name).map fun e => .create e.1 e.2
  | .unlink parent name => (fs.entryAt parent name).map fun e => .unlink e.1 e.2
  | .rmdir parent name => (fs.entryAt parent name).map fun e => .rmdir e.1 e.2
  | .rename parent name newparent newname flags =>
      if flags ≠ 0 then none
      else (fs.entryAt parent name).bind fun source =>
        (fs.entryAt newparent newname).map fun dest => .rename source.1 source.2 dest.1 dest.2
  | .flush fh | .fsync fh | .release fh => fs.asksFlush fh
  | _ => none

end LandslideFs

/-- The names that a request carries. -/
def Request.names : Request → List String
  | .lookup _ name | .symlink _ name .. | .mkdir _ name .. | .create _ name .. | .unlink _ name
  | .rmdir _ name => [name]
  | .rename _ name _ newname _ => [name, newname]
  | _ => []

namespace LandslideFs

/-- A rename goes to a directory that is not in what it moves. -/
def renameFits (parent : Nat) (name : String) (newparent : Nat) (fs : LandslideFs) : Bool :=
  match fs.pathOf parent, fs.pathOf newparent with
  | some sourceDir, some destDir =>
      isDir fs.image destDir && decide (destDir ≠ join sourceDir name) &&
        decide (¬ Below (join sourceDir name) destDir)
  | _, _ => true

/-- A flush writes where a file can be. -/
def flushFits (fh : Nat) (fs : LandslideFs) : Bool :=
  match fs.flushPath fh with
  | some path =>
      decide (path ≠ "/") && isDir fs.image (parentPath path) &&
        decide (children fs.image path = [])
  | none => true

/-- What a request must keep to. -/
def promised (fs : LandslideFs) (req : Request) : Bool :=
  (req.names.all fun name => decide (ValidName name)) &&
    match req with
    | .rename parent name newparent _ _ => fs.renameFits parent name newparent
    | .flush fh | .fsync fh | .release fh => fs.flushFits fh
    | _ => true

end LandslideFs

/-! ## Commits -/

theorem FsImage.Stands.kindAt_of_get {image : FsImage} {t : Names} (h : image.Stands t) {n : Name}
    {p : NamePath} {node : Node} (hget : image.get (spell (n :: p)) = some node) :
    t.kindAt (n :: p) = some node.kind := by
  rw [← h.kinds_cons, FsImage.kinds, hget, Option.map_some]

section

variable {D S B : Type}

theorem Restates.kinds {deltas : List Delta} {a b : FsImage} (h : Restates deltas a b) :
    b.kinds = a.kinds := by
  funext q
  rcases h q with heq | ⟨-, content, content', attrs, ha, hb⟩
  · rw [FsImage.kinds, FsImage.kinds, heq]
  · rw [FsImage.kinds, FsImage.kinds, ha, hb]
    rfl

theorem InlineWrites.append {deltas deltas' : List Delta} (h : InlineWrites deltas)
    (h' : InlineWrites deltas') : InlineWrites (deltas ++ deltas') := fun path offset refs hmem =>
  (List.mem_append.mp hmem).elim (h path offset refs) (h' path offset refs)

/-- A commit changes no name, whether it fails or not. -/
theorem Volume.commit_kinds [Payload D] (env : Outside D S B) (now : Int)
    (stamps : Nat → Nat → Stamp) (fault : Option Fault) {v : Volume}
    (h : InlineWrites v.pending) (r : Remote D S B) :
    (v.commit env now stamps fault r).2.1.image.kinds = v.image.kinds ∧
      InlineWrites (v.commit env now stamps fault r).2.1.pending := by
  have hrestates : Restates v.pending v.image (restated now v.image (v.upgraded env)) := by
    refine restated_restates now _ (fun path offset refs hmem => ?_) fun q => .inl rfl
    obtain ⟨⟨content, hlarge⟩, hwritten⟩ := upgrade_blocks h hmem
    refine ⟨?_, hwritten⟩
    rw [large] at hlarge
    split at hlarge
    · next content' attrs hget => exact ⟨_, attrs, hget⟩
    · cases hlarge
  rw [Volume.commit]
  split
  · exact ⟨rfl, h⟩
  split
  · exact ⟨rfl, h⟩
  dsimp only
  split
  · exact ⟨hrestates.kinds, h⟩
  split
  · exact ⟨hrestates.kinds, h⟩
  split
  · exact ⟨hrestates.kinds, h⟩
  · exact ⟨hrestates.kinds, fun path offset refs hmem => by cases hmem⟩
  · exact ⟨hrestates.kinds, h⟩

end

/-! ## Mounts that stand for a tree -/

/-- A volume with the names of a tree. -/
def Backend.Shows (b : Backend) (t : Names) : Prop :=
  ∃ v, b = .volume v ∧ InlineWrites v.pending ∧ v.image.Stands t

namespace LandslideFs

/-- A mounted volume with the names of a tree, whose inodes have paths of names. -/
structure Standing (fs : LandslideFs) (t : Names) : Prop where
  backend : fs.backend.Shows t
  spelled : ∀ {i : Nat} {path : String}, fs.pathOf i = some path → ∃ p, spell p = path
  root : fs.pathOf 1 = some (spell [])
  sound : fs.state.Sound

variable {fs fs' : LandslideFs} {t u : Names}

theorem Standing.image (h : fs.Standing t) : fs.image.Stands t := by
  obtain ⟨v, hv, -, himage⟩ := h.backend
  rw [LandslideFs.image, hv]
  exact himage

theorem Standing.frame (h : fs.Standing t) (hbackend : fs'.backend.Shows u)
    (hstate : fs'.state = fs.state) : fs'.Standing u where
  backend := hbackend
  spelled hpath := h.spelled (by rw [pathOf, hstate] at hpath; exact hpath)
  root := by rw [pathOf, hstate]; exact h.root
  sound := by rw [hstate]; exact h.sound

/-- A path that is seen gets an inode. -/
theorem Standing.ino (h : fs.Standing t) (p : NamePath) : (fs.ino (spell p)).2.Standing t where
  backend := h.backend
  spelled {i path} hpath := by
    cases hino : fs.state.inoOf[spell p]? with
    | some j =>
        rw [LandslideFs.ino, Inodes.ino, hino] at hpath
        exact h.spelled hpath
    | none =>
        have hkey : (fs.state.ino (spell p)).2.tables.key i = some path := hpath
        rw [Inodes.tables_ino hino, TwoWay.enter_key] at hkey
        split at hkey
        · exact ⟨p, Option.some.inj hkey⟩
        · exact h.spelled hkey
  root := h.sound.pathOf_ino h.root _
  sound := h.sound.ino _

theorem Standing.renameFits_spell (h : fs.Standing t) {parent newparent : Nat} {p q : NamePath}
    {m : Name} (hparent : fs.pathOf parent = some (spell p))
    (hnewparent : fs.pathOf newparent = some (spell q))
    (hfits : fs.renameFits parent m.1 newparent = true) :
    t.kindAt q = some .directory ∧ ¬ m :: p <:+ q := by
  rw [renameFits, hparent, hnewparent] at hfits
  simp only [Bool.and_eq_true, decide_eq_true_eq, join_spell_name, h.image.isDir_iff] at hfits
  obtain ⟨⟨hq, hself⟩, hbelow⟩ := hfits
  refine ⟨hq, ?_⟩
  rintro ⟨x, rfl⟩
  by_cases hx : x = []
  · subst hx
    exact hself rfl
  · rw [spell_cons, spell_of_ne (List.append_ne_nil_of_right_ne_nil x (List.cons_ne_nil m p)),
      below_stem_iff] at hbelow
    exact hbelow ⟨x, hx, rfl⟩

theorem Standing.pathOf_ino (h : fs.Standing t) (p : NamePath) :
    (fs.ino (spell p)).2.pathOf (fs.ino (spell p)).1 = some (spell p) :=
  h.sound.pathOf_ino_self _

/-- A rename re-keys the inodes to paths of names. -/
theorem Standing.renameSubtree (h : fs.Standing t) (order : Order) (m : Name) (p : NamePath)
    (n : Name) (q : NamePath) :
    ({ fs with state := fs.state.renameSubtree order (spell (m :: p)) (spell (n :: q)) } :
      LandslideFs).Standing t := by
  have hrenamed : ∀ {x : NamePath}, ∃ y, spell y =
      Inodes.renamed (spell (m :: p)) (spell (n :: q)) (spell x) := by
    intro x
    by_cases hself : spell x = spell (m :: p)
    · exact ⟨n :: q, by rw [hself, Inodes.renamed_source]⟩
    by_cases hbelow : Below (spell (m :: p)) (spell x)
    · rw [Inodes.renamed_below hbelow]
      rw [spell_cons] at hbelow
      have hx : x ≠ [] := by
        rintro rfl
        exact not_below_root m p hbelow
      rw [spell_of_ne hx] at hbelow ⊢
      obtain ⟨y, hy, rfl⟩ := below_stem_iff.mp hbelow
      cases y with
      | nil => exact absurd rfl hy
      | cons k y =>
          rw [spell_cons, spell_cons, moved_stem]
          exact ⟨k :: y ++ n :: q, spell_cons k _⟩
    · exact ⟨x, (Inodes.renamed_other hself hbelow _).symm⟩
  refine ⟨h.backend, fun {i path} hpath => ?_, ?_, h.sound.renameSubtree order _ _⟩
  · have hkey : (fs.state.renameSubtree order (spell (m :: p)) (spell (n :: q))).tables.key i =
        some path := hpath
    rw [Inodes.tables_renameSubtree] at hkey
    by_cases hmem : ∃ e ∈ fs.state.moved order (spell (m :: p)) (spell (n :: q)), e.2 = i
    · obtain ⟨e, he, rfl⟩ := hmem
      rw [TwoWay.foldl_rekey_key_of_mem (h.sound.moved_nodup order _ _) he] at hkey
      obtain ⟨x, hx⟩ := h.spelled (h.sound.pathOf_moved he)
      rw [← hx] at hkey
      obtain ⟨y, hy⟩ := hrenamed (x := x)
      exact ⟨y, hy.trans (Option.some.inj hkey)⟩
    · rw [TwoWay.foldl_rekey_key_of_notMem fun e he heq => hmem ⟨e, he, heq⟩] at hkey
      exact h.spelled hkey
  · refine h.sound.pathOf_kept order h.root (Inodes.renamed_other ?_ ?_ _)
    · exact fun heq => List.cons_ne_nil m p (spell_injective heq).symm
    · rw [spell_cons]
      exact not_below_root m p

section

variable {D S B : Type} [Payload D]

/-- A commit leaves the tree that its deltas make, whether it fails or not. -/
theorem Standing.commit (h : fs.Standing t) (env : Outside D S B) (draw : Draw)
    {deltas : List Delta} (hinline : InlineWrites deltas)
    (hstands : (FsImage.applied draw.now 3 fs.image deltas).Stands u) (r : Remote D S B) :
    ∃ res fs' r', fs.commit env draw deltas r = (res, fs', r') ∧ fs'.Standing u ∧
      fs'.state = fs.state ∧ (res = .ok () ∨ res = .error .eio) := by
  obtain ⟨v, hv, hpending, -⟩ := h.backend
  obtain ⟨himage, hpending'⟩ := v.mutateAll_image draw.now deltas 3
  have hinline' : InlineWrites (v.mutateAll draw.now 3 deltas).pending := by
    rw [hpending']
    exact hpending.append hinline
  rw [LandslideFs.image, hv] at hstands
  have hkinds := Volume.commit_kinds env (draw.now 2) draw.stamps draw.fault hinline' r
  rw [LandslideFs.commit, hv]
  dsimp only
  cases hcommit : (v.mutateAll draw.now 3 deltas).commit env (draw.now 2) draw.stamps draw.fault
    r with
  | mk res rest =>
  obtain ⟨v', r'⟩ := rest
  rw [hcommit, himage] at hkinds
  have hshows : (Backend.volume v').Shows u := ⟨v', rfl, hkinds.2, hstands.congr hkinds.1⟩
  cases res with
  | ok x =>
      exact ⟨_, { fs with backend := .volume v' }, _, rfl, h.frame hshows rfl, rfl, .inl rfl⟩
  | error e =>
      exact ⟨_, { fs with backend := .volume v' }, _, rfl, h.frame hshows rfl, rfl, .inr rfl⟩

end

end LandslideFs

end Landslide.Fuse
