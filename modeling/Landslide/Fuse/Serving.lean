import Landslide.Fuse.Requests
import Landslide.Fuse.Faithful
import Landslide.Guarded

/-!
# A mount shows what is committed

A request buffers deltas that write to one file at most, and nothing is removed or renamed
after the first write (`OneFile`).  When such deltas are committed, a replay of what is
appended shows what the mount shows after the commit (`OneFile.shapes_upgrade`), also where
the file has gone into blocks.  So a mount whose commits succeed shows the content of every
file as its volume has committed it, after every request (`Serves.serve`).

Only files that are larger than a chunk are in blocks (`BlocksLarge`), since a commit makes
no other block writes.
-/

namespace Landslide.Fuse

open Std TxnKv

/-! ## Blocks of large files -/

/-- Every file in blocks is larger than a chunk. -/
def BlocksLarge (f : Shapes) : Prop :=
  ∀ q refs size, f q = some (.file (.blocks refs size)) → chunk < size

/-- The block writes are of contents larger than a chunk. -/
def LargeBlockWrites (deltas : List Delta) : Prop :=
  ∀ path offset refs, .write path offset (.blocks refs) ∈ deltas → chunk < (refs.map (·.len)).sum

namespace BlocksLarge

variable {f : Shapes}

theorem update (h : BlocksLarge f) (path : String) {shape : Option Shape}
    (hshape : ∀ refs size, shape = some (.file (.blocks refs size)) → chunk < size) :
    BlocksLarge (Function.update f path shape) := by
  intro q refs size hq
  rw [Function.update_apply] at hq
  split at hq
  · exact hshape refs size hq
  · exact h q refs size hq

theorem move (h : BlocksLarge f) (m : String × String) : BlocksLarge (f.move m) := by
  rw [Shapes.move]
  cases hm : f m.1 with
  | none => exact h
  | some shape =>
      refine (h.update m.1 (by simp)).update m.2 fun refs size hshape => h m.1 refs size ?_
      rw [hm, hshape]

theorem moves (ms : List (String × String)) : ∀ {f : Shapes}, BlocksLarge f →
    BlocksLarge (ms.foldl Shapes.move f) := by
  induction ms with
  | nil => exact fun h => h
  | cons m ms ih => exact fun h => ih (h.move m)

theorem apply (h : BlocksLarge f) (ms : List (String × String)) {d : Delta}
    (hd : ∀ path offset refs, d = .write path offset (.blocks refs) →
      chunk < (refs.map (·.len)).sum) : BlocksLarge (f.apply ms d) := by
  cases d with
  | write path offset data =>
      refine h.update path fun refs size hshape => ?_
      cases data with
      | blocks blocks =>
          cases hshape
          exact hd path offset _ rfl
      | inline bytes =>
          have hinline : ∃ b, Shapes.written (f path) offset (.inline bytes) = .inline b := by
            rcases f path with _ | ⟨⟨_⟩ | _⟩ | _ | _ <;> exact ⟨_, rfl⟩
          obtain ⟨b, hb⟩ := hinline
          rw [hb] at hshape
          cases hshape
  | mkdir path =>
      refine h.update path fun refs size hshape => h path refs size ?_
      cases hpath : f path with
      | none =>
          rw [hpath] at hshape
          cases hshape
      | some shape =>
          rw [hpath] at hshape
          exact hshape
  | remove path =>
      intro q refs size hq
      rw [Shapes.apply, Subtree.erase] at hq
      split at hq
      · cases hq
      · exact h q refs size hq
  | rename source dest => exact h.moves ms
  | symlink path target => exact h.update path (by simp)
  | setAttr | setXattr => exact h

theorem applied (clock : Nat → Int) : ∀ {deltas : List Delta} (n : Nat) {image : FsImage},
    BlocksLarge image.shapes → LargeBlockWrites deltas →
      BlocksLarge (FsImage.applied clock n image deltas).shapes
  | [], _, _, h, _ => h
  | d :: deltas, n, image, h, hd => by
      refine applied clock (n + 1) ?_ fun path offset refs hmem =>
        hd path offset refs (List.mem_cons_of_mem d hmem)
      rw [FsImage.shapes_apply]
      refine h.apply _ fun path offset refs heq => hd path offset refs ?_
      rw [heq]
      exact List.mem_cons_self

end BlocksLarge

/-- No file that is replayed is in blocks of a chunk or less. -/
theorem LargeBlockWrites.replayed {deltas : List Delta} (h : LargeBlockWrites deltas) :
    BlocksLarge (replayed deltas).shapes :=
  .applied _ 0 (fun q refs size hq => by simp [FsImage.shapes, FsImage.get] at hq) h

section

variable {D S B : Type} {env : Outside D S B} {final : FsImage}

/-! ## Deltas that write to one file -/

/-- The delta writes to a file, or it sets attributes. -/
def Delta.Edits (path : String) : Delta → Prop
  | .write p _ _ => p = path
  | .setAttr .. => True
  | .setXattr .. => True
  | _ => False

/-- Some deltas without a write come first, and then writes to one file. -/
def OneFile (deltas : List Delta) : Prop :=
  ∃ path before after, deltas = before ++ after ∧
    (∀ p offset data, .write p offset data ∉ before) ∧ ∀ d ∈ after, d.Edits path

/-- Deltas without a write. -/
theorem OneFile.of_unwritten {deltas : List Delta} (h : ∀ p offset data, .write p offset data ∉ deltas) :
    OneFile deltas :=
  ⟨"", deltas, [], (List.append_nil _).symm, h, fun _ hd => absurd hd List.not_mem_nil⟩

theorem OneFile.of_edits (path : String) {deltas : List Delta} (h : ∀ d ∈ deltas, d.Edits path) :
    OneFile deltas :=
  ⟨path, [], deltas, rfl, fun _ _ _ => List.not_mem_nil, h⟩

theorem upgrade_append {before : List Delta} (chunked : List String) (after : List Delta)
    (h : ∀ p offset data, .write p offset data ∉ before) :
    upgrade env final chunked (before ++ after) = before ++ upgrade env final chunked after := by
  induction before with
  | nil => rfl
  | cons d before ih =>
      have hrest := ih fun p offset data hmem => h p offset data (List.mem_cons_of_mem _ hmem)
      cases d with
      | write p offset data => exact absurd List.mem_cons_self (h p offset data)
      | mkdir | remove | rename | symlink | setAttr | setXattr =>
          rw [List.cons_append, List.cons_append, ← hrest]
          rfl

/-- Without a write to a large file nothing is replaced. -/
theorem upgrade_small {deltas : List Delta}
    (h : ∀ p offset data, .write p offset data ∈ deltas → large final p = none) :
    upgrade env final [] deltas = deltas := by
  induction deltas with
  | nil => rfl
  | cons d deltas ih =>
      have hrest := ih fun p offset data hmem => h p offset data (List.mem_cons_of_mem _ hmem)
      cases d with
      | mkdir | remove | rename | symlink | setAttr | setXattr => rw [upgrade, hrest]; simp
      | write p offset data =>
          rw [upgrade, if_neg List.not_mem_nil, h p offset data List.mem_cons_self]
          dsimp only
          rw [hrest]

/-- The writes to a large file are replaced by one of blocks. -/
theorem upgrade_edits {path : String} {content : Bytes} (hlarge : large final path = some content)
    {d : Delta} : ∀ {deltas : List Delta} {chunked : List String}, (∀ d ∈ deltas, d.Edits path) →
      d ∈ upgrade env final chunked deltas →
        d.Edits path ∧ ∀ p offset bytes, d ≠ .write p offset (.inline bytes)
  | [], _, _, hd => absurd hd List.not_mem_nil
  | e :: deltas, chunked, h, hd => by
      have he := h e List.mem_cons_self
      have hdeltas : ∀ d ∈ deltas, d.Edits path := fun d hd => h d (List.mem_cons_of_mem _ hd)
      cases e with
      | mkdir | remove | rename | symlink => exact he.elim
      | setAttr | setXattr =>
          rcases List.mem_cons.mp hd with rfl | hd
          · exact ⟨trivial, by simp⟩
          · exact upgrade_edits hlarge hdeltas hd
      | write p offset data =>
          obtain rfl : p = path := he
          rw [upgrade, hlarge] at hd
          split at hd
          · exact upgrade_edits hlarge hdeltas hd
          · rcases List.mem_cons.mp hd with rfl | hd
            · exact ⟨rfl, by simp⟩
            · exact upgrade_edits hlarge hdeltas hd

/-- Block writes and attributes do to the shapes of an image what its block writes do. -/
theorem shapes_applied_blocks (clock : Nat → Int) (now : Int) (path : String) :
    ∀ {deltas : List Delta} {a b : FsImage} (n : Nat), a.shapes = b.shapes →
      (∀ d ∈ deltas, d.Edits path ∧ ∀ p offset bytes, d ≠ .write p offset (.inline bytes)) →
      (FsImage.applied clock n a deltas).shapes = (restated now b deltas).shapes
  | [], _, _, _, hab, _ => hab
  | d :: deltas, a, b, n, hab, h => by
      have hrest := fun {a b : FsImage} (hab : a.shapes = b.shapes) =>
        shapes_applied_blocks clock now path (n + 1) hab fun d hd => h d (List.mem_cons_of_mem _ hd)
      obtain ⟨hd, hne⟩ := h d List.mem_cons_self
      have hsame := FsImage.shapes_apply_congr hab (clock n) now d
      cases d with
      | mkdir | remove | rename | symlink => exact hd.elim
      | setAttr | setXattr =>
          refine hrest (hsame.trans ?_)
          rw [FsImage.shapes_apply]
          rfl
      | write p offset data =>
          cases data with
          | inline bytes => exact absurd rfl (hne p offset bytes)
          | blocks refs => exact hrest hsame

/-- What the deltas do not write keeps its shape. -/
theorem shapes_applied_edits (clock : Nat → Int) {path q : String} :
    ∀ {deltas : List Delta} {image : FsImage} (n : Nat), (∀ d ∈ deltas, d.Edits path) →
      (∀ offset data, .write q offset data ∉ deltas) →
      (FsImage.applied clock n image deltas).shapes q = image.shapes q
  | [], _, _, _, _ => rfl
  | d :: deltas, image, n, h, hq => by
      have hd := h d List.mem_cons_self
      rw [FsImage.applied, shapes_applied_edits clock (n + 1)
        (fun d hd => h d (List.mem_cons_of_mem _ hd))
        fun offset data hmem => hq offset data (List.mem_cons_of_mem _ hmem), FsImage.shapes_apply]
      cases d with
      | mkdir | remove | rename | symlink => exact hd.elim
      | setAttr | setXattr => rfl
      | write p offset data =>
          refine Function.update_of_ne ?_ _ _
          rintro rfl
          exact hq offset data List.mem_cons_self

/-- A replay of what a commit appends shows what the image shows after it. -/
theorem OneFile.shapes_upgrade {base : FsImage} {deltas : List Delta} {clock : Nat → Int} {n : Nat}
    (h : OneFile deltas) (hinline : InlineWrites deltas)
    (hfinal : final.shapes = (FsImage.applied clock n base deltas).shapes) (env : Outside D S B)
    (now : Int) : (FsImage.applied clock n base (upgrade env final [] deltas)).shapes =
      (restated now final (upgrade env final [] deltas)).shapes := by
  obtain ⟨path, before, after, rfl, hbefore, hafter⟩ := h
  cases hlarge : large final path with
  | none =>
      have hsmall : ∀ p offset data, Delta.write p offset data ∈ before ++ after →
          large final p = none := by
        intro p offset data hmem
        obtain rfl : p = path :=
          hafter _ ((List.mem_append.mp hmem).resolve_left (hbefore p offset data))
        exact hlarge
      rw [upgrade_small hsmall, ← hfinal]
      funext q
      rw [restated_shapes]
      cases hblocks : lastBlocks q (before ++ after) with
      | none => rfl
      | some refs =>
          obtain ⟨offset, hmem⟩ := mem_of_lastBlocks hblocks
          exact absurd hmem (hinline q offset refs)
  | some content =>
      have hunblocked : restated now final (before ++ upgrade env final [] after) =
          restated now final (upgrade env final [] after) := by
        rw [restated, restated, List.filter_append, List.filter_eq_nil_iff.mpr, List.nil_append]
        intro d hd
        cases d with
        | write p offset data => exact absurd hd (hbefore p offset data)
        | mkdir | remove | rename | symlink | setAttr | setXattr => exact Bool.false_ne_true
      rw [FsImage.applied_append] at hfinal
      rw [upgrade_append [] after hbefore, FsImage.applied_append, hunblocked,
        shapes_applied_blocks clock now path _ rfl fun d hd =>
          upgrade_edits hlarge hafter hd]
      -- the image differs from the one before the writes at the file only, which is in blocks
      funext q
      rw [restated_shapes, restated_shapes]
      cases hblocks : lastBlocks q (upgrade env final [] after) with
      | some refs => rfl
      | none =>
          rw [hfinal]
          refine (shapes_applied_edits clock _ hafter fun offset data hmem => ?_).symm
          obtain rfl : q = path := hafter _ hmem
          rw [lastBlocks_upgrade_large hlarge after [] List.not_mem_nil ⟨offset, data, hmem⟩]
            at hblocks
          cases hblocks

theorem length_of_large {image : FsImage} {path : String} {content : Bytes}
    (h : large image path = some content) : chunk < content.length := by
  rw [large] at h
  split at h
  · split at h
    · cases h
    · next hlarge =>
      cases h
      exact Nat.lt_of_not_le hlarge
  · cases h

/-- A commit of writes of bytes makes block writes of large files only. -/
theorem LargeBlockWrites.upgrade : ∀ {deltas : List Delta} (chunked : List String),
    InlineWrites deltas → LargeBlockWrites (upgrade env final chunked deltas)
  | [], _, _, _, _, _, hmem => absurd hmem List.not_mem_nil
  | d :: deltas, chunked, h, path, offset, refs, hmem => by
      have hdeltas : InlineWrites deltas := fun path offset refs hmem =>
        h path offset refs (List.mem_cons_of_mem d hmem)
      cases d with
      | mkdir | remove | rename | symlink | setAttr | setXattr =>
          rcases List.mem_cons.mp hmem with heq | hmem
          · cases heq
          · exact LargeBlockWrites.upgrade chunked hdeltas path offset refs hmem
      | write p o data =>
          rw [Fuse.upgrade] at hmem
          split at hmem
          · exact LargeBlockWrites.upgrade chunked hdeltas path offset refs hmem
          split at hmem
          · rcases List.mem_cons.mp hmem with heq | hmem
            · cases heq
              exact absurd List.mem_cons_self (h path offset refs)
            · exact LargeBlockWrites.upgrade chunked hdeltas path offset refs hmem
          · next content hlarge =>
            rcases List.mem_cons.mp hmem with heq | hmem
            · cases heq
              exact (length_of_large hlarge).trans_eq (blockContent_len env content).symm
            · exact LargeBlockWrites.upgrade (p :: chunked) hdeltas path offset refs hmem

/-! ## Volumes -/

/-- A handle that knows the tail of its volume and shows the committed deltas with its
pending ones, which write bytes. -/
structure Buffered (env : Outside D S B) (vol : String) (committed : List Delta) (v : Volume)
    (r : Remote D S B) : Prop where
  stored : Stored env vol r committed
  attached : Attached vol r v
  shapes : v.image.shapes = (replayed (committed ++ v.pending)).shapes
  blocks : LargeBlockWrites committed
  inline : InlineWrites v.pending

namespace Buffered

variable {vol : String} {committed : List Delta} {v : Volume} {r : Remote D S B}

/-- What is fetched of blocks does not matter. -/
theorem cached (h : Buffered env vol committed v r) (blocks : Cache) :
    Buffered env vol committed { v with blocks := blocks } r where
  stored := h.stored
  attached := h.attached.congr rfl rfl rfl
  shapes := h.shapes
  blocks := h.blocks
  inline := h.inline

theorem mutate (h : Buffered env vol committed v r) (now : Int) {d : Delta}
    (hd : ∀ path offset refs, d ≠ .write path offset (.blocks refs)) :
    Buffered env vol committed (v.mutate now d) r where
  stored := h.stored
  attached := h.attached.congr rfl rfl rfl
  shapes := by
    show (v.image.apply now d).shapes = (replayed (committed ++ (v.pending ++ [d]))).shapes
    rw [replayed, ← List.append_assoc, FsImage.applied_append]
    exact FsImage.shapes_apply_congr h.shapes now 0 d
  blocks := h.blocks
  inline := fun path offset refs hmem => by
    rcases List.mem_append.mp hmem with hmem | hmem
    · exact h.inline path offset refs hmem
    · exact hd path offset refs (List.mem_singleton.mp hmem).symm

theorem mutateAll (now : Nat → Int) : ∀ {deltas : List Delta} (i : Nat) {v : Volume},
    Buffered env vol committed v r → InlineWrites deltas →
      Buffered env vol committed (v.mutateAll now i deltas) r
  | [], _, _, h, _ => h
  | d :: deltas, i, v, h, hinline => by
      refine mutateAll now (i + 1) (h.mutate (now i) fun path offset refs heq => ?_)
        fun path offset refs hmem => hinline path offset refs (List.mem_cons_of_mem _ hmem)
      exact hinline path offset refs (by rw [heq]; exact List.mem_cons_self)

theorem truncate (h : Buffered env vol committed v r) (now : Int) (bucket : Bucket B)
    (path : String) (size : Nat) :
    Buffered env vol committed (v.truncate env now bucket path size).2 r := by
  rw [Volume.truncate]
  split
  · exact h.cached _
  · exact ((h.cached _).mutate now (by simp)).mutate now (by simp)

/-- A commit that succeeds leaves the handle showing what is committed, and the files that
stay inline as they were. -/
theorem commit [Payload D] (h : Buffered env vol committed v r) (henv : env.Lawful vol)
    (hone : OneFile v.pending) {now : Int} {stamps : Nat → Nat → Stamp} {fault : Option Fault}
    {v' : Volume} {r' : Remote D S B} (hcommit : v.commit env now stamps fault r = (.ok (), v', r')) :
    Buffered env vol (committed ++ v.upgraded env) v' r' ∧ v'.pending = [] ∧
      ∀ q, large v.image q = none → v'.image.shapes q = v.image.shapes q := by
  obtain ⟨hstored, hattached⟩ := h.stored.commit henv h.attached now stamps fault
  rw [hcommit] at hstored hattached
  replace hstored : Stored env vol r' (committed ++ v.upgraded env) := hstored
  have hblocks : LargeBlockWrites (committed ++ v.upgraded env) := fun path offset refs hmem =>
    (List.mem_append.mp hmem).elim (h.blocks path offset refs)
      (LargeBlockWrites.upgrade [] h.inline path offset refs)
  have hclears := (Volume.commit_clears hcommit).1
  refine ⟨⟨hstored, hattached, ?_, hblocks, by simp [InlineWrites, hclears]⟩, hclears, ?_⟩
  · rw [hclears, List.append_nil]
    rcases Volume.commit_ok hcommit with ⟨hnil, rfl, rfl⟩ | ⟨-, -, himage⟩
    · have hnone : v'.upgraded env = [] := by rw [Volume.upgraded, hnil]; rfl
      rw [hnone, h.shapes, hnil]
    · have hshapes := h.shapes
      rw [replayed, FsImage.applied_append] at hshapes
      rw [himage, replayed, FsImage.applied_append]
      exact (hone.shapes_upgrade h.inline hshapes env now).symm
  · intro q hq
    rcases Volume.commit_ok hcommit with ⟨-, rfl, -⟩ | ⟨-, -, himage⟩
    · rfl
    rw [himage, restated_shapes, Volume.upgraded,
      lastBlocks_upgrade_small hq v.pending [] (by simp)]
    cases hblocks : lastBlocks q v.pending with
    | none => rfl
    | some refs =>
        obtain ⟨offset, hmem⟩ := mem_of_lastBlocks hblocks
        exact absurd hmem (h.inline q offset refs)

end Buffered

/-! ## Mounts -/

/-- A mount of a volume that shows what is committed and has nothing pending. -/
structure Serves (env : Outside D S B) (vol : String) (fs : LandslideFs) (r : Remote D S B)
    (committed : List Delta) (v : Volume) : Prop extends Buffered env vol committed v r where
  backend : fs.backend = .volume v
  clean : v.pending = []

/-- If nothing is pending, the mount shows what is committed. -/
def LandslideFs.Served (env : Outside D S B) (vol : String) (fs : LandslideFs)
    (r : Remote D S B) : Prop :=
  fs.Clean → ∃ committed v, Serves env vol fs r committed v

variable {vol : String} {committed : List Delta} {v : Volume} {r : Remote D S B} {fs : LandslideFs}

/-- Only the volume of the mount matters. -/
theorem Serves.of_backend (h : Serves env vol fs r committed v) {fs' : LandslideFs}
    (hbackend : fs'.backend = fs.backend) : Serves env vol fs' r committed v where
  toBuffered := h.toBuffered
  backend := hbackend.trans h.backend
  clean := h.clean

theorem Serves.served (h : Serves env vol fs r committed v) : fs.Served env vol r :=
  fun _ => ⟨committed, v, h⟩

theorem LandslideFs.Served.of_backend (h : fs.Served env vol r) {fs' : LandslideFs}
    (hbackend : fs'.backend = fs.backend) : fs'.Served env vol r := by
  intro hclean
  rw [LandslideFs.clean_iff, hbackend, ← LandslideFs.clean_iff] at hclean
  obtain ⟨committed, v, hserves⟩ := h hclean
  exact ⟨committed, v, hserves.of_backend hbackend⟩

/-- A commit with nothing left pending has succeeded. -/
theorem Buffered.commit_clean [Payload D] (h : Buffered env vol committed v r)
    (henv : env.Lawful vol) (hv : fs.backend = .volume v) (draw : Draw) (deltas : List Delta)
    (hne : deltas ≠ []) (hinline : InlineWrites deltas) (hone : OneFile (v.pending ++ deltas))
    (hclean : (fs.commit env draw deltas r).2.1.Clean) :
    let w := v.mutateAll draw.now 3 deltas
    ∃ v' r', fs.commit env draw deltas r = (.ok (), { fs with backend := .volume v' }, r') ∧
      Serves env vol { fs with backend := .volume v' } r' (committed ++ w.upgraded env) v' ∧
      ∀ q, large w.image q = none → v'.image.shapes q = w.image.shapes q := by
  dsimp only
  obtain ⟨-, hpending⟩ := v.mutateAll_image draw.now deltas 3
  have hbuffered := h.mutateAll draw.now 3 hinline
  rw [← hpending] at hone
  rw [LandslideFs.commit, hv] at hclean ⊢
  dsimp only at hclean ⊢
  cases hcommit : (v.mutateAll draw.now 3 deltas).commit env (draw.now 2) draw.stamps draw.fault r with
  | mk res rest =>
  obtain ⟨v', r'⟩ := rest
  rw [hcommit] at hclean
  cases res with
  | error e =>
      obtain ⟨hold, -⟩ := Volume.commit_error hcommit
      obtain ⟨w, hw, hnil⟩ := hclean
      cases hw
      rw [hold.pending, hpending] at hnil
      exact absurd (List.append_eq_nil_iff.mp hnil).2 hne
  | ok u =>
      obtain ⟨hbuffered', hnil, hsame⟩ := hbuffered.commit henv hone hcommit
      exact ⟨v', r', rfl, ⟨hbuffered', rfl, hnil⟩, hsame⟩

section

variable [Payload D]

/-- A request that commits some deltas. -/
theorem Serves.served_commit (h : Serves env vol fs r committed v) (henv : env.Lawful vol)
    (draw : Draw) (deltas : List Delta) (hne : deltas ≠ []) (hinline : InlineWrites deltas)
    (hone : OneFile deltas) :
    (fs.commit env draw deltas r).2.1.Served env vol (fs.commit env draw deltas r).2.2 := by
  intro hclean
  obtain ⟨v', r', heq, hserves, -⟩ := h.commit_clean henv h.backend draw deltas hne hinline
    (by rw [h.clean]; exact hone) hclean
  rw [heq]
  exact ⟨_, v', hserves⟩

theorem OneFile.single {d : Delta} (hd : ∀ path offset data, d ≠ .write path offset data) :
    OneFile [d] :=
  .of_unwritten fun path offset data hmem =>
    hd path offset data (List.mem_singleton.mp hmem).symm

theorem oneFile_flush (now : Int) (path : String) (extents : List (Nat × Bytes)) :
    OneFile (LandslideFs.flushDeltas now path extents) := by
  refine .of_edits path fun d hd => ?_
  rw [LandslideFs.flushDeltas] at hd
  rcases List.mem_append.mp hd with hd | hd
  · obtain ⟨e, -, rfl⟩ := List.mem_map.mp hd
    rfl
  · cases List.mem_singleton.mp hd
    trivial

theorem Serves.served_flushFh (h : Serves env vol fs r committed v) (henv : env.Lawful vol)
    (draw : Draw) (fh : Nat) :
    (fs.flushFh env draw fh r).2.1.Served env vol (fs.flushFh env draw fh r).2.2 := by
  rw [LandslideFs.flushFh]
  split
  · exact h.served
  next hd hhd =>
  split
  · exact h.served
  dsimp only
  have hemptied : Serves env vol { fs with
      handles := fs.handles.insert fh { hd with extents := [] } } r committed v := h.of_backend rfl
  split
  · exact hemptied.served
  · exact hemptied.served_commit henv draw _ (by simp [LandslideFs.flushDeltas])
      (by simp [InlineWrites, LandslideFs.flushDeltas]) (oneFile_flush _ _ _)

/-- The attributes of a request, committed with what is pending. -/
theorem Buffered.served_setMeta (h : Buffered env vol committed v r) (henv : env.Lawful vol)
    (hv : fs.backend = .volume v) (hedits : ∀ path mode uid gid mtimeMs,
      OneFile (v.pending ++ [.setAttr path mode uid gid mtimeMs])) (draw : Draw) (ino : Nat)
    (path : String) (mode uid gid : Option UInt32) (mtimeMs : Option Int) :
    let out := fs.setMeta env draw ino path mode uid gid mtimeMs r
    out.2.1.Served env vol out.2.2 := by
  dsimp only
  rw [LandslideFs.setMeta]
  split
  next res fs' r' heq =>
  have hserved : fs'.Served env vol r' := by
    intro hclean
    split at heq
    · have hcommit := h.commit_clean henv hv draw [.setAttr path (mode.map (· &&& 0o7777)) uid gid
        mtimeMs] (by simp) (by simp [InlineWrites]) (hedits _ _ _ _ _)
      rw [heq] at hcommit
      obtain ⟨v', r'', heq', hserves, -⟩ := hcommit hclean
      cases heq'
      exact ⟨_, v', hserves⟩
    · cases heq
      obtain ⟨w, hw, hnil⟩ := hclean
      rw [hv] at hw
      cases hw
      exact ⟨committed, v, h, hv, hnil⟩
  split
  · exact hserved
  · split <;> exact hserved

omit [Payload D] in
/-- A truncation removes the file before it writes the whole content. -/
theorem oneFile_truncate (env : Outside D S B) (hnil : v.pending = []) (now : Int)
    (bucket : Bucket B) (path : String) (size : Nat) (path' : String)
    (mode uid gid : Option UInt32) (mtimeMs : Option Int) :
    OneFile ((v.truncate env now bucket path size).2.pending ++
      [.setAttr path' mode uid gid mtimeMs]) := by
  rw [Volume.truncate]
  split
  · show OneFile (v.pending ++ _)
    rw [hnil]
    exact .single (by simp)
  · next content blocks hread =>
    show OneFile (v.pending ++ [.remove path] ++ [.write path 0 _] ++ _)
    rw [hnil]
    exact ⟨path, [.remove path], [.write path 0 _, .setAttr path' mode uid gid mtimeMs], rfl,
      by simp, by simp [Delta.Edits]⟩

theorem Serves.served_setattr (h : Serves env vol fs r committed v) (henv : env.Lawful vol)
    (draw : Draw) (ino : Nat) (mode uid gid : Option UInt32) (size : Option Nat)
    (mtime : Option TimeOrNow) :
    let out := fs.setattr env draw ino mode uid gid size mtime r
    out.2.1.Served env vol out.2.2 := by
  dsimp only
  rw [LandslideFs.setattr]
  split
  · exact h.served
  next path hpath =>
  dsimp only
  split
  · exact h.served
  split
  · refine h.served_setMeta henv h.backend (fun path mode uid gid mtimeMs => ?_) draw ino path mode
      uid gid _
    rw [h.clean]
    exact .single (by simp)
  next size =>
  split
  · exact h.served
  rw [LandslideFs.truncate, h.backend]
  dsimp only
  have htruncated := h.truncate (draw.now 1) r.bucket path size
  have hone := oneFile_truncate env h.clean (draw.now 1) r.bucket path size
  cases htruncate : v.truncate env (draw.now 1) r.bucket path size with
  | mk res w =>
  rw [htruncate] at htruncated hone
  cases res with
  | error e =>
      rintro ⟨w', hw, hnil⟩
      cases hw
      exact ⟨committed, w, htruncated, rfl, hnil⟩
  | ok u => exact htruncated.served_setMeta henv rfl hone draw ino path mode uid gid _

theorem Serves.served_make (h : Serves env vol fs r committed v) (henv : env.Lawful vol)
    (draw : Draw) (parent : Nat) (name : String) {deltas : String → List Delta}
    (hne : ∀ path, deltas path ≠ []) (hinline : ∀ path, InlineWrites (deltas path))
    (hone : ∀ path, OneFile (deltas path)) :
    let out := fs.make env draw parent name deltas r
    out.2.1.Served env vol out.2.2 := by
  dsimp only
  rw [LandslideFs.make]
  split
  · exact h.served
  next parentPath hparent =>
  dsimp only
  split
  · exact h.served
  split
  · exact h.served
  have hcommit := h.served_commit henv draw _ (hne (join parentPath name))
    (hinline (join parentPath name)) (hone (join parentPath name))
  split
  · next heq =>
    rw [heq] at hcommit
    exact hcommit
  · next heq =>
    rw [heq] at hcommit
    exact hcommit.of_backend rfl

omit [Payload D] in
theorem LandslideFs.Served.replies {out : Except Errno Unit × LandslideFs × Remote D S B}
    (h : out.2.1.Served env vol out.2.2) (reply : Reply) :
    (LandslideFs.replies reply out).2.1.Served env vol (LandslideFs.replies reply out).2.2 := by
  rw [LandslideFs.replies_snd]
  exact h

omit [Payload D] in
theorem LandslideFs.listChildren_backend (dir : String) : ∀ (kids : List (String × FileType))
    (offset : Nat) (fs : LandslideFs), (listChildren dir kids offset fs).2.backend = fs.backend
  | [], _, _ => rfl
  | (_, _) :: kids, offset, _ => listChildren_backend dir kids (offset + 1) _

omit [Payload D] in
theorem Serves.served_read (h : Serves env vol fs r committed v) (ino fh offset size : Nat) :
    (fs.read env r.bucket ino fh offset size).2.Served env vol r := by
  rw [LandslideFs.read]
  split
  · exact h.served
  next path hpath =>
  have hserved : (fs.readRange env r.bucket path offset size).2.Served env vol r := by
    rw [LandslideFs.readRange, h.backend]
    exact fun _ => ⟨committed, _, h.cached _, rfl, h.clean⟩
  split <;> next heq => rw [heq] at hserved; exact hserved

theorem Serves.served_create (h : Serves env vol fs r committed v) (henv : env.Lawful vol)
    (draw : Draw) (parent : Nat) (name : String) (mode umask uid gid : UInt32) :
    let out := fs.create env draw parent name mode umask uid gid r
    out.2.1.Served env vol out.2.2 := by
  dsimp only
  rw [LandslideFs.create]
  split
  · exact h.served
  next parentPath hparent =>
  dsimp only
  split
  · exact h.served
  split
  · have hfetched : (fs.fetchFile env r.bucket (join parentPath name)).Served env vol r := by
      rw [LandslideFs.fetchFile, h.backend]
      exact fun _ => ⟨committed, _, h.cached _, rfl, h.clean⟩
    exact hfetched.of_backend rfl
  · exact h.served
  · exact h.served
  · have hcommit := h.served_commit henv draw [.write (join parentPath name) 0 (.inline []),
      .setAttr (join parentPath name) (some (LandslideFs.newMode mode umask)) (some uid) (some gid)
        none] (by simp) (by simp [InlineWrites])
      (.of_edits (join parentPath name) (by simp [Delta.Edits]))
    split
    · next heq =>
      rw [heq] at hcommit
      exact hcommit
    · next heq =>
      rw [heq] at hcommit
      exact hcommit.of_backend rfl

/-- After a request with which nothing is left pending, the mount shows what is committed. -/
theorem Serves.serve (h : Serves env vol fs r committed v) (henv : env.Lawful vol) (draw : Draw)
    (req : Request) :
    (fs.serve env draw req r).2.1.Served env vol (fs.serve env draw req r).2.2 := by
  have hcommit : ∀ d : Delta, (∀ path offset data, d ≠ .write path offset data) →
      (fs.commit env draw [d] r).2.1.Served env vol (fs.commit env draw [d] r).2.2 :=
    fun d hd => h.served_commit henv draw [d] (by simp)
      (fun path offset refs hmem => hd _ _ _ (List.mem_singleton.mp hmem).symm) (.single hd)
  cases req with
  | lookup parent name =>
      rw [LandslideFs.serve, LandslideFs.lookup]
      split
      · exact h.served
      dsimp only
      split
      · exact h.served
      split
      · exact h.served
      · exact h.served.of_backend rfl
  | setattr ino mode uid gid size mtime => exact h.served_setattr henv draw ino mode uid gid size mtime
  | symlink parent name target uid gid =>
      exact h.served_make henv draw parent name (by simp) (by simp [InlineWrites]) fun path =>
        .of_unwritten (by simp)
  | readdir ino offset =>
      rw [LandslideFs.serve, LandslideFs.readdir]
      split
      · exact h.served
      next dir hdir =>
      dsimp only
      split
      · exact h.served
      · exact (h.of_backend (LandslideFs.listChildren_backend dir (children fs.image dir) 3
          (fs.ino (parentPath dir)).2)).served
  | mkdir parent name mode umask uid gid =>
      exact h.served_make henv draw parent name (by simp) (by simp [InlineWrites]) fun path =>
        .of_unwritten (by simp)
  | create parent name mode umask uid gid =>
      exact h.served_create henv draw parent name mode umask uid gid
  | «open» ino =>
      rw [LandslideFs.serve, LandslideFs.open]
      split
      · exact h.served
      split
      · exact h.served.of_backend rfl
      · exact h.served
      · exact h.served
      · exact h.served
  | read ino fh offset size => exact h.served_read ino fh offset size
  | write fh offset data =>
      rw [LandslideFs.serve, LandslideFs.write]
      split
      · exact h.served
      · exact h.served.of_backend rfl
  | flush fh => exact (h.served_flushFh henv draw fh).replies .ok
  | fsync fh => exact (h.served_flushFh henv draw fh).replies .ok
  | release fh =>
      have hflush := h.served_flushFh henv draw fh
      rw [LandslideFs.serve, LandslideFs.release, LandslideFs.replies_snd]
      exact hflush.of_backend rfl
  | unlink parent name =>
      rw [LandslideFs.serve, LandslideFs.unlink]
      split
      · exact h.served
      dsimp only
      split
      · exact h.served
      · exact (hcommit _ (by simp)).replies .ok
      · exact (hcommit _ (by simp)).replies .ok
      · exact h.served
  | rmdir parent name =>
      rw [LandslideFs.serve, LandslideFs.rmdir]
      split
      · exact h.served
      dsimp only
      split
      · split
        · exact h.served
        · exact (hcommit _ (by simp)).replies .ok
      · exact h.served
  | rename parent name newparent newname flags =>
      rw [LandslideFs.serve, LandslideFs.rename]
      split
      · exact h.served
      next source dest hpaths =>
      have hrename := hcommit (.rename source dest) (by simp)
      split
      · next heq =>
        rw [heq] at hrename
        exact hrename
      · next heq =>
        rw [heq] at hrename
        exact hrename.of_backend rfl
  | setxattr ino name value =>
      rw [LandslideFs.serve, LandslideFs.setxattr]
      split
      · exact h.served
      split
      · exact h.served
      · exact (hcommit _ (by simp)).replies .ok
  | removexattr ino name =>
      rw [LandslideFs.serve, LandslideFs.removexattr]
      split
      · exact h.served
      split
      · exact h.served
      split
      · exact (hcommit _ (by simp)).replies .ok
      · exact h.served

/-! ## Runs of requests -/

/-- A session after some requests. -/
def Session.requests (env : Outside D S B) (s : Session D S B) (reqs : List (Request × Draw)) :
    Session D S B :=
  s.run env (reqs.map fun q => .request q.1 q.2)

theorem Session.requests_append (env : Outside D S B) (s : Session D S B)
    (reqs later : List (Request × Draw)) :
    s.requests env (reqs ++ later) = (s.requests env reqs).requests env later := by
  rw [requests, List.map_append, run, List.foldl_append]
  rfl

/-- A new mount shows what is committed. -/
theorem Serves.mount (hstored : Stored env vol r committed) (hblocks : LargeBlockWrites committed)
    (henv : env.Lawful vol) {clock : Nat → Int} {r' : Remote D S B}
    (hmount : Fuse.mount env vol clock r = (.ok v, r')) :
    Serves env vol { backend := .volume v } r' committed v := by
  obtain ⟨w, r'', heq, hstored', hattached, readings, himage⟩ := hstored.mount henv clock
  obtain ⟨-, hok⟩ := mount_cases env vol clock r
  rw [hmount] at heq hok
  cases heq
  obtain ⟨-, -, hpending, -⟩ := hok v rfl
  refine ⟨⟨hstored', hattached, ?_, hblocks, by simp [InlineWrites, hpending]⟩, rfl, hpending⟩
  rw [hpending, List.append_nil, himage]
  exact FsImage.shapes_applied_congr readings _ committed 0 0 rfl

/-- In every run of requests with which nothing is left pending, a mount shows what is
committed. -/
theorem Serves.run {s : Session D S B} (h : Serves env vol s.fs s.remote committed v)
    (henv : env.Lawful vol) {reqs : List (Request × Draw)}
    (hclean : ∀ earlier q later, reqs = earlier ++ q :: later →
      (s.requests env (earlier ++ [q])).fs.Clean) :
    ∃ committed v, Serves env vol (s.requests env reqs).fs (s.requests env reqs).remote
      committed v := by
  refine Guarded.run_of_step (P := fun reqs => ∃ committed v, Serves env vol
    (s.requests env reqs).fs (s.requests env reqs).remote committed v) ⟨committed, v, h⟩
    (fun earlier q hs (hq : (s.requests env (earlier ++ [q])).fs.Clean) => ?_) hclean
  obtain ⟨committed', v', hserves⟩ := hs
  rw [Session.requests_append] at hq ⊢
  exact hserves.serve henv q.2 q.1 hq

end

end

end Landslide.Fuse
