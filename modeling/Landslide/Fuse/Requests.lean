import Landslide.Fuse.Extents
import Landslide.Fuse.Renames

/-!
# What requests do to files and handles

A mount whose commits succeed has no delta pending between two requests (`Clean`).  Then a
commit leaves the image that its deltas make, except that files they write may have gone
into blocks (`commit_cases`).  So a request that is no rename leaves every file a file, or
takes it away (`serve_files`), and no request changes the inode of an open handle
(`serve_handles`).
-/

namespace Landslide.Fuse

open Std TxnKv

section

variable {D S B : Type}

/-! ## Commits -/

/-- Nothing is pending in a volume. -/
def LandslideFs.Clean (fs : LandslideFs) : Prop := ∃ v, fs.backend = .volume v ∧ v.pending = []

/-- What is pending in a volume. -/
def Backend.pending : Backend → Option (List Delta)
  | .volume v => some v.pending
  | .replica _ => none

theorem LandslideFs.clean_iff {fs : LandslideFs} : fs.Clean ↔ fs.backend.pending = some [] := by
  rw [LandslideFs.Clean]
  cases fs.backend with
  | volume v =>
      constructor
      · rintro ⟨w, hw, hnil⟩
        cases hw
        rw [Backend.pending, hnil]
      · intro h
        exact ⟨v, rfl, Option.some.inj h⟩
  | replica view =>
      refine iff_of_false ?_ (by simp [Backend.pending])
      rintro ⟨w, hw, -⟩
      cases hw

instance (fs : LandslideFs) : Decidable fs.Clean := decidable_of_iff _ LandslideFs.clean_iff.symm

/-- All writes are of inline data. -/
def InlineWrites (deltas : List Delta) : Prop :=
  ∀ path offset refs, .write path offset (.blocks refs) ∉ deltas

/-- `b` is `a`, except that files the deltas write may have other content. -/
def Restates (deltas : List Delta) (a b : FsImage) : Prop :=
  ∀ q, b.get q = a.get q ∨ (∃ offset data, .write q offset data ∈ deltas) ∧
    ∃ content content' attrs, a.get q = some (.file content attrs) ∧
      b.get q = some (.file content' attrs)

/-- The block writes of a commit are to large files that its deltas write. -/
theorem upgrade_blocks {env : Outside D S B} {final : FsImage} {path : String} {offset : Nat}
    {refs : List BlockRef} : ∀ {deltas : List Delta} {chunked : List String},
    InlineWrites deltas → .write path offset (.blocks refs) ∈ upgrade env final chunked deltas →
      (∃ content, large final path = some content) ∧ ∃ offset data, .write path offset data ∈ deltas
  | [], _, _, h => by cases h
  | d :: deltas, chunked, hinline, h => by
      have hrest : InlineWrites deltas := fun p o refs hmem =>
        hinline p o refs (List.mem_cons_of_mem _ hmem)
      have later : ∀ {chunked}, .write path offset (.blocks refs) ∈ upgrade env final chunked deltas →
          (∃ content, large final path = some content) ∧
            ∃ offset data, .write path offset data ∈ d :: deltas := by
        intro chunked hmem
        obtain ⟨hlarge, o, data, hw⟩ := upgrade_blocks hrest hmem
        exact ⟨hlarge, o, data, List.mem_cons_of_mem _ hw⟩
      cases d with
      | mkdir | remove | rename | symlink | setAttr | setXattr =>
          rw [upgrade] at h
          · rcases List.mem_cons.mp h with heq | h
            · cases heq
            · exact later h
          · simp
      | write p o data =>
          rw [upgrade] at h
          split at h
          · exact later h
          split at h
          · rcases List.mem_cons.mp h with heq | h
            · cases heq
              exact absurd List.mem_cons_self (hinline path offset refs)
            · exact later h
          · next content hlarge =>
            rcases List.mem_cons.mp h with heq | h
            · cases heq
              exact ⟨⟨content, hlarge⟩, o, data, List.mem_cons_self⟩
            · exact later h

/-- Block writes to files give them other content. -/
theorem restated_restates (now : Int) {image : FsImage} {deltas : List Delta} :
    ∀ (upgraded : List Delta) {a : FsImage},
    (∀ path offset refs, .write path offset (.blocks refs) ∈ upgraded →
      (∃ content attrs, image.get path = some (.file content attrs)) ∧
        ∃ offset data, .write path offset data ∈ deltas) →
    Restates deltas image a → Restates deltas image (restated now a upgraded)
  | [], _, _, ha => ha
  | d :: upgraded, a, h, ha => by
      have hrest := fun {a : FsImage} (ha : Restates deltas image a) =>
        restated_restates now upgraded
          (fun p o refs hmem => h p o refs (List.mem_cons_of_mem _ hmem)) ha
      cases d with
      | mkdir | remove | rename | symlink | setAttr | setXattr => exact hrest ha
      | write path offset data =>
          cases data with
          | inline data => exact hrest ha
          | blocks refs =>
              obtain ⟨⟨content, attrs, hfile⟩, hwritten⟩ := h path offset refs List.mem_cons_self
              refine hrest (a := a.apply now (.write path offset (.blocks refs))) fun q => ?_
              by_cases hq : q = path
              · subst hq
                refine .inr ⟨hwritten, content, .blocks refs (refs.map (·.len)).sum, attrs, hfile, ?_⟩
                have hattrs : ∃ content', a.get q = some (.file content' attrs) := by
                  rcases ha q with heq | ⟨-, c, c', attrs', hc, hc'⟩
                  · exact ⟨content, heq.trans hfile⟩
                  · rw [hfile] at hc
                    cases hc
                    exact ⟨c', hc'⟩
                obtain ⟨content', hget⟩ := hattrs
                have hget' : a.nodes[q]? = some (.file content' attrs) := hget
                rw [FsImage.apply, FsImage.get_insert, Function.update_self, FsImage.written, hget']
                rfl
              · have hother : (a.apply now (.write path offset (.blocks refs))).get q = a.get q := by
                  rw [FsImage.apply, FsImage.get_insert, Function.update_of_ne hq]
                rw [hother]
                exact ha q

theorem Volume.mutateAll_image (now : Nat → Int) : ∀ (deltas : List Delta) (i : Nat) (v : Volume),
    (v.mutateAll now i deltas).image = FsImage.applied now i v.image deltas ∧
      (v.mutateAll now i deltas).pending = v.pending ++ deltas
  | [], _, v => ⟨rfl, (List.append_nil _).symm⟩
  | d :: deltas, i, v => by
      obtain ⟨himage, hpending⟩ := mutateAll_image now deltas (i + 1) (v.mutate (now i) d)
      refine ⟨himage, hpending.trans ?_⟩
      rw [Volume.mutate, List.append_assoc]
      rfl

variable [Payload D]

/-- A commit leaves nothing pending and the image that its deltas make, or it fails and
leaves them pending. -/
theorem LandslideFs.commit_cases (env : Outside D S B) (draw : Draw) (deltas : List Delta)
    (hne : deltas ≠ []) {fs : LandslideFs} {v : Volume} (hv : fs.backend = .volume v)
    (hinline : InlineWrites (v.pending ++ deltas)) (r : Remote D S B) :
    (∃ v' r', fs.commit env draw deltas r = (.ok (), { fs with backend := .volume v' }, r') ∧
        v'.pending = [] ∧ Restates (v.pending ++ deltas)
          (FsImage.applied draw.now 3 v.image deltas) v'.image) ∨
      ∃ e v' r', fs.commit env draw deltas r = (.error e, { fs with backend := .volume v' }, r') ∧
        v'.pending ≠ [] := by
  obtain ⟨himage, hpending⟩ := v.mutateAll_image draw.now deltas 3
  have hne' : (v.mutateAll draw.now 3 deltas).pending ≠ [] := by
    rw [hpending]
    simp [hne]
  rw [LandslideFs.commit, hv]
  dsimp only
  have hok := @Volume.commit_ok D S B env _ (draw.now 2) draw.stamps draw.fault
    (v.mutateAll draw.now 3 deltas)
  rcases (v.mutateAll draw.now 3 deltas).commit_cases env (draw.now 2) draw.stamps draw.fault r with
    ⟨e, v', -, hold, heq⟩ | ⟨hnil, -⟩ | ⟨events, info, σ₁, image, -, -, -, heq⟩
  · right
    rw [heq]
    refine ⟨.eio, v', _, rfl, ?_⟩
    rw [hold.pending]
    exact hne'
  · exact absurd hnil hne'
  · left
    have hout := hok heq
    rw [heq]
    refine ⟨_, _, rfl, rfl, ?_⟩
    rcases hout with ⟨hnil, -⟩ | ⟨-, -, hrestated⟩
    · exact absurd hnil hne'
    rw [hrestated, himage, Volume.upgraded, hpending, himage]
    refine restated_restates _ _ (fun path offset refs hmem => ?_) fun q => .inl rfl
    obtain ⟨⟨content, hlarge⟩, hwritten⟩ := upgrade_blocks hinline hmem
    refine ⟨?_, hwritten⟩
    rw [large] at hlarge
    split at hlarge
    · next content' attrs hget => exact ⟨_, attrs, hget⟩
    · cases hlarge

/-- A commit from a clean state. -/
theorem LandslideFs.Clean.commit {fs : LandslideFs} (h : fs.Clean) (env : Outside D S B)
    (draw : Draw) (deltas : List Delta) (hne : deltas ≠ []) (hinline : InlineWrites deltas)
    (r : Remote D S B) :
    (∃ v r', fs.commit env draw deltas r = (.ok (), { fs with backend := .volume v }, r') ∧
        v.pending = [] ∧
        Restates deltas (FsImage.applied draw.now 3 fs.image deltas) v.image) ∨
      ∃ e fs' r', fs.commit env draw deltas r = (.error e, fs', r') ∧ ¬ fs'.Clean := by
  obtain ⟨v, hv, hpending⟩ := h
  have hcases := LandslideFs.commit_cases env draw deltas hne hv (by rw [hpending]; exact hinline) r
  rw [hpending, List.nil_append] at hcases
  have himage : fs.image = v.image := by rw [LandslideFs.image, hv]; rfl
  rw [himage]
  rcases hcases with ⟨v', r', heq, hnil, hrestates⟩ | ⟨e, v', r', heq, hpending'⟩
  · exact .inl ⟨v', r', heq, hnil, hrestates⟩
  · refine .inr ⟨e, _, r', heq, ?_⟩
    rintro ⟨w, hw, hnil⟩
    cases hw
    exact hpending' hnil

end

/-! ## Files -/

theorem isFile_iff {image : FsImage} {p : String} :
    isFile image p = true ↔ ∃ content attrs, image.get p = some (.file content attrs) := by
  rw [isFile]
  split
  · next content attrs hget => exact iff_of_true rfl ⟨content, attrs, hget⟩
  · next hne =>
    refine iff_of_false (by simp) ?_
    rintro ⟨content, attrs, hget⟩
    exact hne content attrs hget

/-- Every file is still a file, or nothing is at its path. -/
def LeavesFiles (a b : FsImage) : Prop :=
  ∀ p, isFile a p = true → b.get p = none ∨ isFile b p = true

theorem LeavesFiles.refl (a : FsImage) : LeavesFiles a a := fun _ h => .inr h

theorem Restates.isFile {deltas : List Delta} {a b : FsImage} (h : Restates deltas a b)
    {p : String} (hp : isFile a p = true) : isFile b p = true := by
  obtain ⟨content, attrs, hget⟩ := isFile_iff.mp hp
  rcases h p with heq | ⟨-, c, c', attrs', -, hb⟩
  · exact isFile_iff.mpr ⟨content, attrs, heq.trans hget⟩
  · exact isFile_iff.mpr ⟨c', attrs', hb⟩

theorem Restates.get_none {deltas : List Delta} {a b : FsImage} (h : Restates deltas a b)
    {p : String} (hp : a.get p = none) : b.get p = none := by
  rcases h p with heq | ⟨-, c, c', attrs, ha, -⟩
  · exact heq.trans hp
  · rw [hp] at ha
    cases ha

/-- A path that the deltas do not write is as they leave it. -/
theorem Restates.of_unwritten {deltas : List Delta} {a b : FsImage} (h : Restates deltas a b)
    {p : String} (hp : ∀ offset data, .write p offset data ∉ deltas) : b.get p = a.get p := by
  rcases h p with heq | ⟨⟨offset, data, hmem⟩, -⟩
  · exact heq
  · exact absurd hmem (hp offset data)

theorem LeavesFiles.restates {deltas : List Delta} {a mid b : FsImage} (h : LeavesFiles a mid)
    (hb : Restates deltas mid b) : LeavesFiles a b := fun p hp =>
  (h p hp).imp hb.get_none hb.isFile

/-- Deltas about one path leave the others. -/
theorem applied_other {path q : String} (hq : q ≠ path) (clock : Nat → Int) :
    ∀ {deltas : List Delta} {n : Nat} {image : FsImage},
    (∀ d ∈ deltas, FsImage.target d = some path) →
      (FsImage.applied clock n image deltas).get q = image.get q
  | [], _, _, _ => rfl
  | d :: deltas, n, image, h => by
      rw [FsImage.applied, applied_other hq clock fun d' hd' => h d' (List.mem_cons_of_mem _ hd')]
      exact (FsImage.get_apply_of_target (h d List.mem_cons_self) _ image).1 q hq

/-- Deltas about a path where there is nothing leave the files. -/
theorem leavesFiles_applied {path : String} {image : FsImage} (hfree : image.get path = none)
    (clock : Nat → Int) (n : Nat) (deltas : List Delta)
    (h : ∀ d ∈ deltas, FsImage.target d = some path) :
    LeavesFiles image (FsImage.applied clock n image deltas) := by
  intro p hp
  right
  obtain ⟨content, attrs, hget⟩ := isFile_iff.mp hp
  refine isFile_iff.mpr ⟨content, attrs, ?_⟩
  rw [applied_other _ clock h, hget]
  rintro rfl
  rw [hfree] at hget
  cases hget

/-- A change of attributes leaves the files. -/
theorem LeavesFiles.modify {a b : FsImage} (h : LeavesFiles a b) (path : String)
    (f : NodeMeta → NodeMeta) : LeavesFiles a { nodes := b.nodes.modify path (.mapAttrs f) } := by
  intro p hp
  rw [isFile_iff, FsImage.get_modify, Function.update_apply]
  split
  · next heq =>
    subst heq
    rcases h p hp with hnone | hfile
    · rw [hnone]
      exact .inl rfl
    · obtain ⟨content, attrs, hget⟩ := isFile_iff.mp hfile
      rw [hget]
      exact .inr ⟨content, f attrs, rfl⟩
  · rw [← isFile_iff]
    exact h p hp

/-- A write leaves a file where it writes, and the other paths. -/
theorem LeavesFiles.write {a b : FsImage} (h : LeavesFiles a b) (now : Int) (path : String)
    (offset : Nat) (data : Data) : LeavesFiles a (b.apply now (.write path offset data)) := by
  intro p hp
  rw [isFile_iff, FsImage.apply, FsImage.get_insert, Function.update_apply]
  split
  · right
    cases data with
    | blocks refs => exact ⟨_, _, rfl⟩
    | inline bytes =>
        rw [FsImage.written]
        split <;> exact ⟨_, _, rfl⟩
  · rw [← isFile_iff]
    exact h p hp

/-- What a flush commits leaves the files. -/
theorem LeavesFiles.flush {a : FsImage} (clock : Nat → Int) (now : Int) (path : String) :
    ∀ {extents : List (Nat × Bytes)} {n : Nat} {b : FsImage}, LeavesFiles a b →
      LeavesFiles a (FsImage.applied clock n b (LandslideFs.flushDeltas now path extents))
  | [], _, _, h => h.modify path _
  | e :: _, n, _, h => (h.write (clock n) path e.1 (.inline e.2)).flush clock now path

theorem leavesFiles_remove (image : FsImage) (path : String) :
    LeavesFiles image (image.remove path) := by
  intro p hp
  rw [isFile_iff, FsImage.get_remove, Subtree.erase]
  split
  · exact .inl rfl
  · exact .inr (isFile_iff.mp hp)

/-! ## Handles -/

/-- The open handles are handles of before, on their inodes. -/
def SameInos (fs fs' : LandslideFs) : Prop :=
  ∀ (fh : Nat) h', fs'.handles[fh]? = some h' → ∃ h, fs.handles[fh]? = some h ∧ h.ino = h'.ino

theorem SameInos.of_eq {fs fs' : LandslideFs} (h : fs'.handles = fs.handles) : SameInos fs fs' :=
  fun fh h' hh' => ⟨h', by rw [← h]; exact hh', rfl⟩

theorem SameInos.trans {a b c : LandslideFs} (hab : SameInos a b) (hbc : SameInos b c) :
    SameInos a c := by
  intro fh h' hh'
  obtain ⟨h, hh, hino⟩ := hbc fh h' hh'
  obtain ⟨h₀, hh₀, hino₀⟩ := hab fh h hh
  exact ⟨h₀, hh₀, hino₀.trans hino⟩

theorem sameInos_insert {fs : LandslideFs} {fh : Nat} {h : Handle} (hh : fs.handles[fh]? = some h)
    (extents : List (Nat × Bytes)) (backend : Backend) (state : Inodes) (nextFh : Nat) :
    SameInos fs { backend := backend, state := state, nextFh := nextFh,
                  handles := fs.handles.insert fh { h with extents := extents } } := by
  intro fh' h' hh'
  dsimp only at hh'
  rw [ExtTreeMap.getElem?_insert] at hh'
  split at hh'
  · next heq =>
    rw [Std.compare_eq_iff_eq] at heq
    subst heq
    cases hh'
    exact ⟨h, hh, rfl⟩
  · exact ⟨h', hh', rfl⟩

theorem sameInos_erase (fs : LandslideFs) (fh : Nat) :
    SameInos fs { fs with handles := fs.handles.erase fh } := by
  intro fh' h' hh'
  dsimp only at hh'
  rw [ExtTreeMap.getElem?_erase] at hh'
  split at hh'
  · cases hh'
  · exact ⟨h', hh', rfl⟩

theorem sameInos_clip (fs : LandslideFs) (ino size : Nat) :
    SameInos fs (fs.clipHandles ino size) := by
  intro fh' h' hh'
  rw [LandslideFs.clipHandles] at hh'
  dsimp only at hh'
  rw [ExtTreeMap.getElem?_map] at hh'
  obtain ⟨h, hh, rfl⟩ := Option.map_eq_some_iff.mp hh'
  refine ⟨h, hh, ?_⟩
  split <;> rfl

/-- What a request that opens nothing and renames nothing leaves. -/
structure LandslideFs.Leaves (fs fs' : LandslideFs) : Prop where
  inos : SameInos fs fs'
  files : LeavesFiles fs.image fs'.image

theorem LandslideFs.Leaves.refl (fs : LandslideFs) : fs.Leaves fs := ⟨.of_eq rfl, .refl _⟩

/-- The files and handles are those of before. -/
theorem LandslideFs.Leaves.of_same {fs fs' : LandslideFs} (hhandles : fs'.handles = fs.handles)
    (himage : fs'.image = fs.image) : fs.Leaves fs' :=
  ⟨.of_eq hhandles, by rw [himage]; exact .refl _⟩

/-! ## Requests that open a file -/

/-- The handle that a reply gives. -/
def opens : Except Errno Reply → Option Nat
  | .ok (.opened fh) => some fh
  | .ok (.created _ fh) => some fh
  | _ => none

/-- The path that a request opens. -/
def LandslideFs.openedPath (req : Request) (fs : LandslideFs) : Option String :=
  match req with
  | .open ino => fs.pathOf ino
  | .create parent name .. => (fs.pathOf parent).map fun parentPath => join parentPath name
  | _ => none

/-- What a request that opens a file leaves. -/
structure LandslideFs.Opens (fs fs' : LandslideFs) (fh : Nat) (path : String) : Prop where
  handle : ∃ ino, fs'.handles = fs.handles.insert fh { ino := ino } ∧ fs'.pathOf ino = some path
  file : isFile fs'.image path = true
  files : LeavesFiles fs.image fs'.image

section

variable {D S B : Type} [Payload D] {fs : LandslideFs}

/-- If nothing is pending in the end, the request opened nothing and left the handles and
the files. -/
def LandslideFs.Quiet (fs : LandslideFs)
    (out : Except Errno Reply × LandslideFs × Remote D S B) : Prop :=
  out.2.1.Clean → opens out.1 = none ∧ fs.Leaves out.2.1

omit [Payload D] in
theorem LandslideFs.quiet_error (fs : LandslideFs) (e : Errno) (r : Remote D S B) :
    fs.Quiet (.error e, fs, r) :=
  fun _ => ⟨rfl, .refl fs⟩

/-- A request that commits some deltas. -/
theorem LandslideFs.Clean.quiet_commit (h : fs.Clean) (env : Outside D S B) (draw : Draw)
    (deltas : List Delta) (hne : deltas ≠ []) (hinline : InlineWrites deltas)
    (hfiles : LeavesFiles fs.image (FsImage.applied draw.now 3 fs.image deltas))
    (r : Remote D S B) : fs.Quiet (replies .ok (fs.commit env draw deltas r)) := by
  rcases h.commit env draw deltas hne hinline r with ⟨v, r', heq, -, hrestates⟩ | ⟨e, fs', r', heq, hnot⟩
  · rw [heq]
    exact fun _ => ⟨rfl, .of_eq rfl, hfiles.restates hrestates⟩
  · rw [heq]
    exact fun hclean => absurd hclean hnot

/-- The attributes of a request, committed with what is pending. -/
theorem LandslideFs.quiet_setMeta (env : Outside D S B) (draw : Draw) {base : LandslideFs}
    (hbase : base.Leaves fs) {v : Volume} (hv : fs.backend = .volume v)
    (hinline : InlineWrites v.pending) (ino : Nat) (path : String)
    (mode uid gid : Option UInt32) (mtimeMs : Option Int) (r : Remote D S B) :
    base.Quiet (fs.setMeta env draw ino path mode uid gid mtimeMs r) := by
  have himage : fs.image = v.image := by rw [LandslideFs.image, hv]; rfl
  rw [LandslideFs.setMeta]
  split
  next res fs' r' heq =>
  have hleaves : fs'.Clean → base.Leaves fs' := by
    intro hclean
    split at heq
    · rcases LandslideFs.commit_cases env draw [.setAttr path (mode.map (· &&& 0o7777))
          uid gid mtimeMs] (by simp) hv (by simpa [InlineWrites] using hinline) r with
        ⟨v', r₁, hcommit, -, hrestates⟩ | ⟨e, v', r₁, hcommit, hpending⟩
      · rw [hcommit] at heq
        cases heq
        refine ⟨hbase.inos, LeavesFiles.restates ?_ hrestates⟩
        have hfiles := hbase.files
        rw [himage] at hfiles
        exact hfiles.modify path _
      · rw [hcommit] at heq
        cases heq
        obtain ⟨w, hw, hnil⟩ := hclean
        cases hw
        exact absurd hnil hpending
    · cases heq
      exact hbase
  split
  · exact fun hclean => ⟨rfl, hleaves hclean⟩
  · split <;> exact fun hclean => ⟨rfl, hleaves hclean⟩

theorem LandslideFs.Clean.quiet_setattr (h : fs.Clean) (env : Outside D S B) (draw : Draw)
    (ino : Nat) (mode uid gid : Option UInt32) (size : Option Nat) (mtime : Option TimeOrNow)
    (r : Remote D S B) : fs.Quiet (fs.setattr env draw ino mode uid gid size mtime r) := by
  obtain ⟨v, hv, hpending⟩ := h
  have himage : fs.image = v.image := by rw [LandslideFs.image, hv]; rfl
  rw [LandslideFs.setattr]
  split
  · exact fs.quiet_error _ r
  next path hpath =>
  dsimp only
  split
  · exact fs.quiet_error _ r
  split
  · exact LandslideFs.quiet_setMeta env draw (.refl fs) hv (by rw [hpending]; simp [InlineWrites])
      ino path mode uid gid _ r
  next size =>
  split
  · exact fs.quiet_error _ r
  rw [LandslideFs.truncate, hv]
  dsimp only
  rw [Volume.truncate]
  cases readFile env r.bucket v.image path v.blocks with
  | mk content blocks =>
  cases content with
  | error e => exact fun _ => ⟨rfl, .of_same rfl himage.symm⟩
  | ok content =>
      refine LandslideFs.quiet_setMeta env draw ⟨?_, ?_⟩ rfl ?_ ino path mode uid gid _ r
      · exact sameInos_clip fs ino size
      · rw [himage]
        exact (leavesFiles_remove v.image path).write _ path 0 _
      · simp [InlineWrites, Volume.mutate, hpending]

/-- A new node is made where there was none. -/
theorem LandslideFs.Clean.quiet_make (h : fs.Clean) (env : Outside D S B) (draw : Draw)
    (parent : Nat) (name : String) {deltas : String → List Delta}
    (hne : ∀ path, deltas path ≠ []) (hinline : ∀ path, InlineWrites (deltas path))
    (htarget : ∀ path, ∀ d ∈ deltas path, FsImage.target d = some path) (r : Remote D S B) :
    fs.Quiet (fs.make env draw parent name deltas r) := by
  rw [LandslideFs.make]
  split
  · exact fs.quiet_error _ r
  next parentPath hparent =>
  dsimp only
  split
  · exact fs.quiet_error _ r
  split
  · exact fs.quiet_error _ r
  next hfree =>
  rcases h.commit env draw _ (hne _) (hinline _) r with
    ⟨v, r', heq, -, hrestates⟩ | ⟨e, fs', r', heq, hnot⟩
  · rw [heq]
    refine fun _ => ⟨rfl, .of_eq rfl, LeavesFiles.restates ?_ hrestates⟩
    exact leavesFiles_applied (by simpa using hfree) draw.now 3 _ (htarget _)
  · rw [heq]
    exact fun hclean => absurd hclean hnot

theorem LandslideFs.Clean.leaves_flushFh (h : fs.Clean) (env : Outside D S B) (draw : Draw)
    (fh : Nat) (r : Remote D S B) :
    (fs.flushFh env draw fh r).2.1.Clean → fs.Leaves (fs.flushFh env draw fh r).2.1 := by
  rw [LandslideFs.flushFh]
  split
  · exact fun _ => .refl fs
  next hd hhd =>
  split
  · exact fun _ => .refl fs
  next hstaged =>
  dsimp only
  have hinos := sameInos_insert hhd [] fs.backend fs.state fs.nextFh
  split
  · exact fun _ => ⟨hinos, .refl _⟩
  next path hpath =>
  have hclean : LandslideFs.Clean { fs with handles := fs.handles.insert fh { hd with extents := [] } } := h
  rcases hclean.commit env draw (flushDeltas (draw.now 0) path hd.extents)
      (by simp [flushDeltas]) (by simp [InlineWrites, flushDeltas]) r with
    ⟨v, r', heq, -, hrestates⟩ | ⟨e, fs', r', heq, hnot⟩
  · rw [heq]
    exact fun _ => ⟨sameInos_insert hhd [] _ fs.state fs.nextFh,
      ((LeavesFiles.refl fs.image).flush draw.now _ path).restates hrestates⟩
  · rw [heq]
    exact fun hclean => absurd hclean hnot

omit [Payload D] in
theorem LandslideFs.quiet_replies {out : Except Errno Unit × LandslideFs × Remote D S B}
    (h : out.2.1.Clean → fs.Leaves out.2.1) : fs.Quiet (replies .ok out) := by
  obtain ⟨res, fs', r⟩ := out
  cases res with
  | error e => exact fun hclean => ⟨rfl, h hclean⟩
  | ok u => exact fun hclean => ⟨rfl, h hclean⟩

theorem LandslideFs.listChildren_frame (dir : String) : ∀ (kids : List (String × FileType))
    (offset : Nat) (fs : LandslideFs), (listChildren dir kids offset fs).2.handles = fs.handles ∧
      (listChildren dir kids offset fs).2.image = fs.image
  | [], _, _ => ⟨rfl, rfl⟩
  | (_, _) :: kids, offset, _ => listChildren_frame dir kids (offset + 1) _

omit [Payload D] in
theorem LandslideFs.readRange_frame (env : Outside D S B) (bucket : Bucket B) (path : String)
    (offset len : Nat) (fs : LandslideFs) :
    (fs.readRange env bucket path offset len).2.handles = fs.handles ∧
      (fs.readRange env bucket path offset len).2.image = fs.image := by
  rw [LandslideFs.readRange]
  dsimp only
  split
  · exact ⟨rfl, rfl⟩
  · next v hv =>
    refine ⟨rfl, ?_⟩
    rw [LandslideFs.image, LandslideFs.image, hv]
    rfl

omit [Payload D] in
theorem LandslideFs.fetchFile_frame (env : Outside D S B) (bucket : Bucket B) (path : String)
    (fs : LandslideFs) : (fs.fetchFile env bucket path).handles = fs.handles ∧
      (fs.fetchFile env bucket path).image = fs.image := by
  rw [LandslideFs.fetchFile]
  split
  · exact ⟨rfl, rfl⟩
  · next v hv =>
    refine ⟨rfl, ?_⟩
    rw [LandslideFs.image, LandslideFs.image, hv]
    rfl

omit [Payload D] in
theorem LandslideFs.opens_created (base fs : LandslideFs) (hsound : fs.state.Sound)
    (hhandles : fs.handles = base.handles) {path : String} (hfile : isFile fs.image path = true)
    (hfiles : LeavesFiles base.image fs.image) (r : Remote D S B) :
    ∃ fh, opens (fs.created path r).1 = some fh ∧ base.Opens (fs.created path r).2.1 fh path := by
  refine ⟨_, rfl, ⟨(fs.state.ino path).1, ?_, hsound.pathOf_ino_self path⟩, hfile, hfiles⟩
  rw [← hhandles]
  rfl

/-- A file that is there is opened, and one that is not is made. -/
theorem LandslideFs.Clean.leaves_create (h : fs.Clean) (hsound : fs.state.Sound)
    (env : Outside D S B) (draw : Draw) (parent : Nat) (name : String)
    (mode umask uid gid : UInt32) (r : Remote D S B) :
    let out := fs.create env draw parent name mode umask uid gid r
    fs.Quiet out ∨ (out.2.1.Clean → ∃ fh path, opens out.1 = some fh ∧
      fs.openedPath (.create parent name mode umask uid gid) = some path ∧
        fs.Opens out.2.1 fh path) := by
  dsimp only
  rw [LandslideFs.create]
  cases hparent : fs.pathOf parent with
  | none => exact .inl (fs.quiet_error _ r)
  | some parentPath =>
      dsimp only
      split
      · exact .inl (fs.quiet_error _ r)
      have hopened : fs.openedPath (.create parent name mode umask uid gid) =
          some (join parentPath name) := by rw [LandslideFs.openedPath, hparent]; rfl
      generalize join parentPath name = path at hopened ⊢
      split
      · next content attrs hget =>
        right
        obtain ⟨hhandles, himage⟩ := LandslideFs.fetchFile_frame env r.bucket path fs
        rw [← LandslideFs.fetchFile_state env r.bucket path fs] at hsound
        obtain ⟨fh, hopens, hout⟩ := fs.opens_created (fs.fetchFile env r.bucket path) hsound hhandles
          (isFile_iff.mpr ⟨content, attrs, by rw [himage]; exact hget⟩)
          (by rw [himage]; exact .refl _) r
        exact fun _ => ⟨fh, path, hopens, hopened, hout⟩
      · exact .inl (fs.quiet_error _ r)
      · exact .inl (fs.quiet_error _ r)
      · next hfree =>
        rcases h.commit env draw [.write path 0 (.inline []),
            .setAttr path (some (newMode mode umask)) (some uid) (some gid) none] (by simp)
            (by simp [InlineWrites]) r with
          ⟨v, r', heq, -, hrestates⟩ | ⟨e, fs', r', heq, hnot⟩
        · rw [heq]
          right
          have hfiles := leavesFiles_applied hfree draw.now 3 [.write path 0 (.inline []),
            .setAttr path (some (newMode mode umask)) (some uid) (some gid) none]
            (by simp [FsImage.target])
          have hmade : isFile (FsImage.applied draw.now 3 fs.image [.write path 0 (.inline []),
              .setAttr path (some (newMode mode umask)) (some uid) (some gid) none]) path = true := by
            have hfree' : fs.image.nodes[path]? = none := hfree
            rw [isFile_iff, FsImage.applied, FsImage.applied, FsImage.applied, FsImage.apply,
              FsImage.apply, FsImage.get_modify, Function.update_self, FsImage.get_insert,
              Function.update_self, FsImage.written, hfree']
            exact ⟨_, _, rfl⟩
          obtain ⟨fh, hopens, hout⟩ := fs.opens_created { fs with backend := .volume v } hsound
            rfl (hrestates.isFile hmade) (hfiles.restates hrestates) r'
          exact fun _ => ⟨fh, path, hopens, hopened, hout⟩
        · rw [heq]
          exact .inl fun hclean => absurd hclean hnot

/-- A request that is no rename opens a file, or it opens nothing; it leaves every file or
takes it away. -/
theorem LandslideFs.Clean.serve_leaves (h : fs.Clean) (hsound : fs.state.Sound)
    (env : Outside D S B) (draw : Draw) {req : Request}
    (hreq : ∀ parent name newparent newname flags,
      req ≠ .rename parent name newparent newname flags) (r : Remote D S B) :
    fs.Quiet (fs.serve env draw req r) ∨
      ((fs.serve env draw req r).2.1.Clean → ∃ fh path,
        opens (fs.serve env draw req r).1 = some fh ∧ fs.openedPath req = some path ∧
          fs.Opens (fs.serve env draw req r).2.1 fh path) := by
  cases req with
  | rename parent name newparent newname flags => exact (hreq _ _ _ _ _ rfl).elim
  | lookup parent name =>
      left
      rw [LandslideFs.serve, LandslideFs.lookup]
      split
      · exact fs.quiet_error _ r
      dsimp only
      split
      · exact fs.quiet_error _ r
      split
      · exact fs.quiet_error _ r
      · exact fun _ => ⟨rfl, .of_same rfl rfl⟩
  | readdir ino offset =>
      left
      rw [LandslideFs.serve, LandslideFs.readdir]
      split
      · exact fs.quiet_error _ r
      next dir hdir =>
      dsimp only
      split
      · exact fs.quiet_error _ r
      · obtain ⟨hhandles, himage⟩ := LandslideFs.listChildren_frame dir (children fs.image dir) 3
          (fs.ino (parentPath dir)).2
        exact fun _ => ⟨rfl, .of_same hhandles himage⟩
  | setattr ino mode uid gid size mtime =>
      exact .inl (h.quiet_setattr env draw ino mode uid gid size mtime r)
  | symlink parent name target uid gid =>
      exact .inl (h.quiet_make env draw parent name (by simp) (by simp [InlineWrites])
        (by simp [FsImage.target]) r)
  | mkdir parent name mode umask uid gid =>
      exact .inl (h.quiet_make env draw parent name (by simp) (by simp [InlineWrites])
        (by simp [FsImage.target]) r)
  | create parent name mode umask uid gid =>
      exact h.leaves_create hsound env draw parent name mode umask uid gid r
  | «open» ino =>
      rw [LandslideFs.serve, LandslideFs.open]
      cases hpath : fs.pathOf ino with
      | none => exact .inl (fs.quiet_error _ r)
      | some path =>
          dsimp only
          split
          · next content attrs hget =>
            refine .inr fun _ => ⟨fs.nextFh, path, rfl, hpath, ⟨ino, rfl, hpath⟩,
              isFile_iff.mpr ⟨content, attrs, hget⟩, .refl _⟩
          · exact .inl (fs.quiet_error _ r)
          · exact .inl (fs.quiet_error _ r)
          · exact .inl (fs.quiet_error _ r)
  | read ino fh offset size =>
      left
      rw [LandslideFs.serve, LandslideFs.read]
      split
      · exact fs.quiet_error _ r
      next path hpath =>
      obtain ⟨hhandles, himage⟩ := LandslideFs.readRange_frame env r.bucket path offset size fs
      split
      · next heq =>
        rw [heq] at hhandles himage
        exact fun _ => ⟨rfl, .of_same hhandles himage⟩
      · next heq =>
        rw [heq] at hhandles himage
        exact fun _ => ⟨rfl, .of_same hhandles himage⟩
      · next heq =>
        rw [heq] at hhandles himage
        exact fun _ => ⟨rfl, .of_same hhandles himage⟩
  | write fh offset data =>
      left
      rw [LandslideFs.serve, LandslideFs.write]
      split
      · exact fs.quiet_error _ r
      · next hd hhd => exact fun _ => ⟨rfl, sameInos_insert hhd _ _ _ _, .refl _⟩
  | flush fh => exact .inl (fs.quiet_replies (h.leaves_flushFh env draw fh r))
  | fsync fh => exact .inl (fs.quiet_replies (h.leaves_flushFh env draw fh r))
  | release fh =>
      refine .inl (fs.quiet_replies fun hclean => ?_)
      have hleaves := h.leaves_flushFh env draw fh r hclean
      exact ⟨hleaves.inos.trans (sameInos_erase _ fh), hleaves.files⟩
  | unlink parent name =>
      left
      rw [LandslideFs.serve, LandslideFs.unlink]
      split
      · exact fs.quiet_error _ r
      next parentPath hparent =>
      have hremove := h.quiet_commit env draw [.remove (join parentPath name)] (by simp)
        (by simp [InlineWrites]) (leavesFiles_remove fs.image _) r
      dsimp only
      split
      · exact fs.quiet_error _ r
      · exact hremove
      · exact hremove
      · exact fs.quiet_error _ r
  | rmdir parent name =>
      left
      rw [LandslideFs.serve, LandslideFs.rmdir]
      split
      · exact fs.quiet_error _ r
      dsimp only
      split
      · split
        · exact fs.quiet_error _ r
        · refine h.quiet_commit env draw _ (by simp) (by simp [InlineWrites]) ?_ r
          exact leavesFiles_remove fs.image _
      · exact fs.quiet_error _ r
  | setxattr ino name value =>
      left
      rw [LandslideFs.serve, LandslideFs.setxattr]
      split
      · exact fs.quiet_error _ r
      split
      · exact fs.quiet_error _ r
      · refine h.quiet_commit env draw _ (by simp) (by simp [InlineWrites]) ?_ r
        exact (LeavesFiles.refl fs.image).modify _ _
  | removexattr ino name =>
      left
      rw [LandslideFs.serve, LandslideFs.removexattr]
      split
      · exact fs.quiet_error _ r
      split
      · exact fs.quiet_error _ r
      split
      · refine h.quiet_commit env draw _ (by simp) (by simp [InlineWrites]) ?_ r
        exact (LeavesFiles.refl fs.image).modify _ _
      · exact fs.quiet_error _ r

end

end Landslide.Fuse
