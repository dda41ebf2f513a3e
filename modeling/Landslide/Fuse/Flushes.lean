import Landslide.Fuse.Requests

/-!
# What a flush changes

Beside a run of a mount it is recorded where the file of each handle is (`Watch`): a rename
takes it along, and a file that is removed or replaced is gone for good.  A flush knows
none of this.  It writes to the path that the inode of the handle has, whatever is there.

In a run whose commits succeed, a flush changes nothing but the content and the time of
the file that its handle was opened on, if it finds that file still there, and if no
rename moves a file whose handle is on an inode that its path no longer has
(`flush_changes_own_file`).  A flush after the file was unlinked makes a new one
(`flush_after_unlink`).
-/

namespace Landslide.Fuse

open Std TxnKv

section

variable {D S B : Type} [Payload D] (env : Outside D S B)

/-! ## Where files are -/

/-- Where a request leaves the file at a path. -/
def LandslideFs.carried (draw : Draw) (req : Request) (fs : LandslideFs) (r : Remote D S B)
    (p : String) : Option String :=
  match fs.renames env draw req r with
  | none => some p
  | some (source, dest) =>
      if source = dest then some p
      else if p = source ∨ Below source p then some (Inodes.renamed source dest p)
      else if p = dest ∨ Below dest p ∧ fs.image.get (FsImage.moved dest source p) ≠ none then none
      else some p

/-- A session, with the paths of the files that its handles were opened on.  A file that
is gone has none. -/
structure Watch (D S B : Type) where
  session : Session D S B
  files : Nat → Option String

namespace Watch

variable {env}

def fs (w : Watch D S B) : LandslideFs := w.session.fs

/-- A mount of a volume. -/
def start (v : Volume) (r : Remote D S B) : Watch D S B where
  session := { fs := { backend := .volume v }, remote := r }
  files := fun _ => none

variable (env)

/-- The files of the handles after a request. -/
def filesAfter (w : Watch D S B) (req : Request) (draw : Draw) : Nat → Option String :=
  let out := w.fs.serve env draw req w.session.remote
  let kept := fun fh => (w.files fh).bind (w.fs.carried env draw req w.session.remote)
  let all :=
    match opens out.1 with
    | some fh => Function.update kept fh (w.fs.openedPath req)
    | none => kept
  fun fh => (all fh).filter fun p => (out.2.1.image.get p).isSome

def turn (w : Watch D S B) (t : Turn D S B) : Watch D S B where
  session := w.session.turn env t
  files :=
    match t with
    | .request req draw => w.filesAfter env req draw
    | _ => w.files

def run (w : Watch D S B) (turns : List (Turn D S B)) : Watch D S B :=
  turns.foldl (turn env) w

end Watch

/-! ## Flushes -/

/-- The handle that a request flushes. -/
def Request.flushes : Request → Option Nat
  | .flush fh | .fsync fh | .release fh => some fh
  | _ => none

/-- The image changes at one path at most, and if there, then the content and the time of
a file. -/
def ChangesFile (image image' : FsImage) : Option String → Prop
  | none => image'.get = image.get
  | some p =>
      (∀ q, q ≠ p → image'.get q = image.get q) ∧
        (image'.get p = image.get p ∨ ∃ content attrs content' attrs',
          image.get p = some (.file content attrs) ∧ image'.get p = some (.file content' attrs') ∧
            attrs.SameMode attrs')

/-- The attributes of a new file but for the time. -/
def NodeMeta.AsNew (attrs : NodeMeta) : Prop :=
  attrs.mode = 0o644 ∧ attrs.uid = 0 ∧ attrs.gid = 0 ∧ attrs.xattrs = ∅

/-- A write keeps the attributes of the file at a path. -/
def WritesInto (image : FsImage) (p : String) : Prop :=
  ∃ content attrs, image.get p = some (.file content attrs) ∧
    ((∃ bytes, content = .inline bytes) ∨ attrs.AsNew)

/-- A flush with staged extents finds the file of its handle, and a write keeps its
attributes.  A rename is to the same path, or between paths that are not nested, and the
handles on the files that it moves are on the inodes that their paths have. -/
structure Watch.Meets (w : Watch D S B) (req : Request) (draw : Draw) : Prop where
  flush : ∀ (fh : Nat) h, req.flushes = some fh → w.fs.handles[fh]? = some h → h.extents ≠ [] →
    ∃ p, w.files fh = some p ∧ WritesInto w.fs.image p
  rename : ∀ source dest, w.fs.renames env draw req w.session.remote = some (source, dest) →
    source ≠ dest → ¬ Nested source dest ∧
      ∀ (fh : Nat) h p, w.fs.handles[fh]? = some h → w.files fh = some p →
        p = source ∨ Below source p → w.fs.state.inoOf[p]? = some h.ino

end

/-! ## One flush -/

theorem NodeMeta.SameMode.trans {a b c : NodeMeta} (hab : a.SameMode b) (hbc : b.SameMode c) :
    a.SameMode c :=
  ⟨hbc.1.trans hab.1, hbc.2.1.trans hab.2.1, hbc.2.2.1.trans hab.2.2.1,
    hbc.2.2.2.trans hab.2.2.2⟩

/-- What a flush commits to a file that a write keeps. -/
theorem applied_flush (clock : Nat → Int) (now : Int) {path : String} {attrs : NodeMeta} :
    ∀ (extents : List (Nat × Bytes)) {n : Nat} {image : FsImage} {content : Content}
      {attrs₀ : NodeMeta}, image.get path = some (.file content attrs₀) →
      ((∃ bytes, content = .inline bytes) ∨ attrs₀.AsNew) → attrs.SameMode attrs₀ →
      ∃ content' attrs', (FsImage.applied clock n image
          (LandslideFs.flushDeltas now path extents)).get path = some (.file content' attrs') ∧
        attrs.SameMode attrs'
  | [], n, image, content, attrs₀, hget, _, hsame => by
      refine ⟨content, FsImage.setAttr none none none (some now) attrs₀, ?_, hsame⟩
      rw [LandslideFs.flushDeltas, List.map_nil, List.nil_append, FsImage.applied, FsImage.applied,
        FsImage.apply, FsImage.get_modify, Function.update_self, hget]
      rfl
  | e :: extents, n, image, content, attrs₀, hget, hwrites, hsame => by
      rw [LandslideFs.flushDeltas, List.map_cons, List.cons_append, FsImage.applied]
      cases content with
      | inline bytes =>
          exact applied_flush clock now extents (get_write_inline hget (clock n) e.1 e.2)
            (.inl ⟨_, rfl⟩) hsame
      | blocks refs size =>
          rcases hwrites with ⟨bytes, hinline⟩ | ⟨hmode, huid, hgid, hxattrs⟩
          · cases hinline
          exact applied_flush clock now extents (get_write_blocks hget (clock n) e.1 e.2)
            (.inl ⟨_, rfl⟩) (hsame.trans ⟨hmode.symm, huid.symm, hgid.symm, hxattrs.symm⟩)

section

variable {D S B : Type} [Payload D] {fs : LandslideFs}

/-- A commit of some deltas succeeds exactly if nothing is pending after it. -/
theorem LandslideFs.Clean.commit_ok_iff (h : fs.Clean) (env : Outside D S B) (draw : Draw)
    {deltas : List Delta} (hne : deltas ≠ []) (hinline : InlineWrites deltas) (r : Remote D S B) :
    (fs.commit env draw deltas r).1 = .ok () ↔ (fs.commit env draw deltas r).2.1.Clean := by
  rcases h.commit env draw deltas hne hinline r with ⟨v, r', heq, hnil, -⟩ | ⟨e, fs', r', heq, hnot⟩
  · rw [heq]
    exact iff_of_true rfl ⟨v, rfl, hnil⟩
  · rw [heq]
    exact iff_of_false (by simp) hnot

/-- A flush changes the file at the path of the inode. -/
theorem LandslideFs.Clean.flushFh_changes (h : fs.Clean) (env : Outside D S B) (draw : Draw)
    (fh : Nat) (r : Remote D S B) {file : Option String}
    (hfile : ∀ hd, fs.handles[fh]? = some hd → hd.extents ≠ [] →
      ∃ p, file = some p ∧ fs.pathOf hd.ino = some p ∧ WritesInto fs.image p) :
    (fs.flushFh env draw fh r).2.1.Clean →
      ChangesFile fs.image (fs.flushFh env draw fh r).2.1.image file := by
  have hsame : ∀ image' : FsImage, image' = fs.image → ChangesFile fs.image image' file := by
    rintro image' rfl
    cases file with
    | none => rfl
    | some p => exact ⟨fun _ _ => rfl, .inl rfl⟩
  rw [LandslideFs.flushFh]
  split
  · exact fun _ => hsame _ rfl
  next hd hhd =>
  split
  · exact fun _ => hsame _ rfl
  next hstaged =>
  obtain ⟨p, rfl, hpath, content, attrs, hget, hwrites⟩ := hfile hd hhd hstaged
  dsimp only
  have hpath' : LandslideFs.pathOf { fs with
      handles := fs.handles.insert fh { hd with extents := [] } } hd.ino = some p := hpath
  rw [hpath']
  have hclean : LandslideFs.Clean { fs with
      handles := fs.handles.insert fh { hd with extents := [] } } := h
  dsimp only
  rcases hclean.commit env draw (flushDeltas (draw.now 0) p hd.extents) (by simp [flushDeltas])
      (by simp [InlineWrites, flushDeltas]) r with ⟨v, r', heq, -, hrestates⟩ | ⟨e, fs', r', heq, hnot⟩
  · rw [heq]
    refine fun _ => ⟨fun q hq => ?_, .inr ?_⟩
    · refine (hrestates.of_unwritten fun offset data hmem => ?_).trans (applied_other hq _ ?_)
      · simp only [flushDeltas, List.mem_append, List.mem_map, List.mem_singleton] at hmem
        rcases hmem with ⟨e, -, heq⟩ | heq
        · cases heq
          exact hq rfl
        · cases heq
      · intro d hd
        simp only [flushDeltas, List.mem_append, List.mem_map, List.mem_singleton] at hd
        rcases hd with ⟨e, -, rfl⟩ | rfl
        · rfl
        · rfl
    · obtain ⟨content', attrs', hget', hmode⟩ := applied_flush draw.now (draw.now 0)
        hd.extents (n := 3) hget hwrites ⟨rfl, rfl, rfl, rfl⟩
      rcases hrestates p with hsame | ⟨-, c, c', a, hc, hc'⟩
      · exact ⟨content, attrs, content', attrs', hget, hsame.trans hget', hmode⟩
      · refine ⟨content, attrs, c', a, hget, hc', ?_⟩
        have heq := hc.symm.trans hget'
        cases heq
        exact hmode
  · rw [heq]
    exact fun hclean => absurd hclean hnot

/-! ## Renames -/

/-- A rename that is not carried out leaves the handles and the files, and one that is
carried out moves the files with the image. -/
theorem LandslideFs.Clean.serve_rename (h : fs.Clean) (env : Outside D S B) (draw : Draw)
    (parent : Nat) (name : String) (newparent : Nat) (newname : String) (flags : UInt32)
    (r : Remote D S B) :
    let req := Request.rename parent name newparent newname flags
    (fs.renames env draw req r = none ∧ fs.Quiet (fs.serve env draw req r)) ∨
      ∃ source dest, fs.renames env draw req r = some (source, dest) ∧
        opens (fs.serve env draw req r).1 = none ∧
        (fs.serve env draw req r).2.1.handles = fs.handles ∧
        (fs.serve env draw req r).2.1.image.get = (fs.image.rename source dest).get := by
  dsimp only
  rw [LandslideFs.serve, LandslideFs.rename, LandslideFs.renames]
  cases fs.renamePaths parent name newparent newname flags with
  | error e => exact .inl ⟨rfl, fs.quiet_error e r⟩
  | ok paths =>
      obtain ⟨source, dest⟩ := paths
      dsimp only
      rcases h.commit env draw [.rename source dest] (by simp) (by simp [InlineWrites]) r with
        ⟨v, r', heq, -, hrestates⟩ | ⟨e, fs', r', heq, hnot⟩
      · rw [heq]
        refine .inr ⟨source, dest, rfl, rfl, rfl, funext fun q => ?_⟩
        exact hrestates.of_unwritten (by simp)
      · rw [heq]
        exact .inl ⟨rfl, fun hclean => absurd hclean hnot⟩

theorem LandslideFs.renames_none (fs : LandslideFs) (env : Outside D S B) (draw : Draw)
    {req : Request} (hreq : ∀ parent name newparent newname flags,
      req ≠ .rename parent name newparent newname flags) (r : Remote D S B) :
    fs.renames env draw req r = none := by
  cases req with
  | rename parent name newparent newname flags => exact (hreq _ _ _ _ _ rfl).elim
  | _ => rfl

/-- A file that a rename carries is a file at its new path. -/
theorem LandslideFs.isFile_carried {env : Outside D S B} {draw : Draw} {req : Request}
    {r : Remote D S B} {source dest p p' : String}
    (hrenames : fs.renames env draw req r = some (source, dest))
    (hnested : source ≠ dest → ¬ Nested source dest)
    (hp : isFile fs.image p = true) (hcarried : fs.carried env draw req r p = some p') :
    isFile (fs.image.rename source dest) p' = true := by
  obtain ⟨content, attrs, hget⟩ := isFile_iff.mp hp
  refine isFile_iff.mpr ⟨content, attrs, ?_⟩
  rw [LandslideFs.carried, hrenames] at hcarried
  dsimp only at hcarried
  split at hcarried
  · next heq =>
    cases hcarried
    rw [heq, FsImage.get_rename_self]
    exact hget
  next hne =>
  have hn := hnested hne
  split at hcarried
  · next hmoved =>
    cases hcarried
    rcases hmoved with rfl | hbelow
    · rw [Inodes.renamed_source]
      exact FsImage.get_rename_source hn hget
    · rw [Inodes.renamed_below hbelow]
      exact FsImage.get_rename_below hn hne hbelow hget
  next hmoved =>
  split at hcarried
  · cases hcarried
  next hreplaced =>
  cases hcarried
  rw [not_or] at hmoved hreplaced
  rw [FsImage.get_rename_other hn hmoved.1 hmoved.2 hreplaced.1 fun hbelow => ?_, hget]
  by_contra hthere
  exact hreplaced.2 ⟨hbelow, hthere⟩

/-- The inode of a file that a rename carries has its new path. -/
theorem Inodes.Sound.pathOf_carried {env : Outside D S B} {draw : Draw} {req : Request}
    {r : Remote D S B} {source dest p p' : String} (hsound : fs.state.Sound) (order : Order)
    (hrenames : fs.renames env draw req r = some (source, dest)) {ino : Nat}
    (hpath : fs.pathOf ino = some p)
    (hino : source ≠ dest → p = source ∨ Below source p → fs.state.inoOf[p]? = some ino)
    (hcarried : fs.carried env draw req r p = some p') :
    (fs.state.renameSubtree order source dest).pathOf[ino]? = some p' := by
  rw [LandslideFs.carried, hrenames] at hcarried
  dsimp only at hcarried
  split at hcarried
  · next heq =>
    cases hcarried
    rw [← heq]
    exact hsound.pathOf_kept order hpath (Inodes.renamed_self source p)
  next hne =>
  split at hcarried
  · next hmoved =>
    cases hcarried
    exact hsound.pathOf_renamed order dest hmoved (hino hne hmoved)
  next hmoved =>
  split at hcarried
  · cases hcarried
  cases hcarried
  rw [not_or] at hmoved
  exact hsound.pathOf_kept order hpath (Inodes.renamed_other hmoved.1 hmoved.2 dest)

theorem Inodes.Sound.seen {t : Inodes} (h : t.Sound) (paths : List String) :
    (t.seen paths).Sound ∧
      ∀ {i : Nat} {p : String}, t.pathOf[i]? = some p → (t.seen paths).pathOf[i]? = some p := by
  induction paths generalizing t with
  | nil => exact ⟨h, id⟩
  | cons path paths ih =>
      obtain ⟨hsound, hkeeps⟩ := ih (h.ino path)
      exact ⟨hsound, fun hp => hkeeps (h.pathOf_ino hp path)⟩

/-! ## Runs -/

/-- An inode has a path, and there is a file. -/
def LandslideFs.At (fs : LandslideFs) (ino : Nat) (p : String) : Prop :=
  fs.pathOf ino = some p ∧ isFile fs.image p = true

/-- The inode of every open handle whose file is still there has the path of that file. -/
structure Watch.Pointed (w : Watch D S B) : Prop where
  sound : w.fs.state.Sound
  file : ∀ (fh : Nat) h p, w.fs.handles[fh]? = some h → w.files fh = some p → w.fs.At h.ino p

omit [Payload D] in
theorem Watch.pointed_start (v : Volume) (r : Remote D S B) : (Watch.start v r).Pointed where
  sound := Inodes.inverse_new.toSound
  file := fun fh h p _ hp => by cases hp

omit [Payload D] in
/-- A file that is left stays with its inode. -/
theorem LandslideFs.At.left {fs' : LandslideFs} {ino : Nat} {p : String} (h : fs.At ino p)
    (hsound : fs.state.Sound) {paths : List String} (hstate : fs'.state = fs.state.seen paths)
    (hfiles : LeavesFiles fs.image fs'.image) (hthere : fs'.image.get p ≠ none) : fs'.At ino p := by
  refine ⟨?_, (hfiles p h.2).resolve_left hthere⟩
  rw [LandslideFs.pathOf, hstate]
  exact (hsound.seen paths).2 h.1

/-- The file of a handle after a request: the one that the request opened, or where the
request took the one of before. -/
theorem Watch.filesAfter_some {env : Outside D S B} {w : Watch D S B} {req : Request} {draw : Draw}
    {fh : Nat} {p : String} (h : w.filesAfter env req draw fh = some p) :
    (w.fs.serve env draw req w.session.remote).2.1.image.get p ≠ none ∧
      (opens (w.fs.serve env draw req w.session.remote).1 = some fh ∧
          w.fs.openedPath req = some p ∨
        opens (w.fs.serve env draw req w.session.remote).1 ≠ some fh ∧
          ∃ p₀, w.files fh = some p₀ ∧ w.fs.carried env draw req w.session.remote p₀ = some p) := by
  rw [Watch.filesAfter] at h
  obtain ⟨hall, hthere⟩ := Option.filter_eq_some_iff.mp h
  refine ⟨by simpa [Option.isSome_iff_ne_none] using hthere, ?_⟩
  split at hall
  · next fh₀ hopens =>
    rw [Function.update_apply] at hall
    split at hall
    · next heq =>
      subst heq
      exact .inl ⟨hopens, hall⟩
    · next hne =>
      refine .inr ⟨?_, Option.bind_eq_some_iff.mp hall⟩
      rw [hopens]
      rintro ⟨⟩
      exact hne rfl
  · next hopens =>
    refine .inr ⟨?_, Option.bind_eq_some_iff.mp hall⟩
    rw [hopens]
    simp

section

variable {w : Watch D S B} {env : Outside D S B} {req : Request} {draw : Draw} {fh : Nat} {p : String}

/-- The file of a handle that a request leaves. -/
theorem Watch.Pointed.file_left (hw : w.Pointed) {h₀ : Handle} {ino : Nat}
    (hh₀ : w.fs.handles[fh]? = some h₀) (hino : h₀.ino = ino)
    (hnone : w.fs.renames env draw req w.session.remote = none)
    (hfiles : LeavesFiles w.fs.image (w.fs.serve env draw req w.session.remote).2.1.image)
    (hthere : (w.fs.serve env draw req w.session.remote).2.1.image.get p ≠ none)
    (hcarried : ∃ p₀, w.files fh = some p₀ ∧
      w.fs.carried env draw req w.session.remote p₀ = some p) :
    (w.fs.serve env draw req w.session.remote).2.1.At ino p := by
  obtain ⟨p₀, hp₀, hcarried⟩ := hcarried
  rw [LandslideFs.carried, hnone] at hcarried
  cases hcarried
  rcases w.fs.serve_state env draw req w.session.remote with
    ⟨source, dest, hrenames, -⟩ | ⟨-, paths, hstate⟩
  · rw [hnone] at hrenames
    cases hrenames
  · rw [← hino]
    exact (hw.file fh h₀ p hh₀ hp₀).left hw.sound hstate hfiles hthere

/-- After any request but a rename a handle is at its file. -/
theorem Watch.Pointed.file_other (hw : w.Pointed) (hclean : w.fs.Clean)
    (hother : ∀ parent name newparent newname flags,
      req ≠ .rename parent name newparent newname flags)
    (hclean' : (w.fs.serve env draw req w.session.remote).2.1.Clean) {h : Handle}
    (hh : (w.fs.serve env draw req w.session.remote).2.1.handles[fh]? = some h)
    (hp : w.filesAfter env req draw fh = some p) :
    (w.fs.serve env draw req w.session.remote).2.1.At h.ino p := by
  obtain ⟨hthere, hfile⟩ := Watch.filesAfter_some hp
  have hnone := w.fs.renames_none env draw hother w.session.remote
  rcases hclean.serve_leaves hw.sound env draw hother w.session.remote with hquiet | hopened
  · obtain ⟨hopens, hleaves⟩ := hquiet hclean'
    rw [hopens] at hfile
    rcases hfile with ⟨heq, -⟩ | ⟨-, hfile⟩
    · cases heq
    obtain ⟨h₀, hh₀, hino⟩ := hleaves.inos fh h hh
    exact hw.file_left hh₀ hino hnone hleaves.files hthere hfile
  · obtain ⟨fh₀, path, hopens, hpath, ⟨ino, hhandles, hino⟩, hfile', hfiles⟩ := hopened hclean'
    rw [hhandles, ExtTreeMap.getElem?_insert] at hh
    rw [hopens] at hfile
    rcases hfile with ⟨heq, hp'⟩ | ⟨hne, hfile⟩
    · cases heq
      rw [if_pos (by simp)] at hh
      cases hh
      rw [hpath] at hp'
      cases hp'
      exact ⟨hino, hfile'⟩
    · rw [if_neg] at hh
      · exact hw.file_left hh rfl hnone hfiles hthere hfile
      · rw [Std.compare_eq_iff_eq]
        rintro rfl
        exact hne rfl

/-- After a rename a handle is at its file, wherever it was taken. -/
theorem Watch.Pointed.file_rename (hw : w.Pointed) (hclean : w.fs.Clean) {parent newparent : Nat}
    {name newname : String} {flags : UInt32}
    (hreq : req = .rename parent name newparent newname flags)
    (hclean' : (w.fs.serve env draw req w.session.remote).2.1.Clean)
    (hmeets : w.Meets env req draw) {h : Handle}
    (hh : (w.fs.serve env draw req w.session.remote).2.1.handles[fh]? = some h)
    (hp : w.filesAfter env req draw fh = some p) :
    (w.fs.serve env draw req w.session.remote).2.1.At h.ino p := by
  subst hreq
  obtain ⟨hthere, hfile⟩ := Watch.filesAfter_some hp
  rcases hclean.serve_rename env draw parent name newparent newname flags w.session.remote with
    ⟨hnone, hquiet⟩ | ⟨source, dest, hrenames, hopens, hhandles, himage⟩
  · obtain ⟨hopens, hleaves⟩ := hquiet hclean'
    rw [hopens] at hfile
    rcases hfile with ⟨heq, -⟩ | ⟨-, hfile⟩
    · cases heq
    obtain ⟨h₀, hh₀, hino⟩ := hleaves.inos fh h hh
    exact hw.file_left hh₀ hino hnone hleaves.files hthere hfile
  · rw [hopens] at hfile
    rcases hfile with ⟨heq, -⟩ | ⟨-, p₀, hp₀, hcarried⟩
    · cases heq
    rw [hhandles] at hh
    obtain ⟨hpath, hisFile⟩ := hw.file fh h p₀ hh hp₀
    have hmeets' := hmeets.rename source dest hrenames
    constructor
    · rcases w.fs.serve_state env draw _ w.session.remote with
        ⟨source', dest', hrenames', hstate⟩ | ⟨hnone, -⟩
      · rw [hrenames] at hrenames'
        cases hrenames'
        rw [LandslideFs.pathOf, hstate]
        exact hw.sound.pathOf_carried draw.order hrenames hpath
          (fun hne hin => (hmeets' hne).2 fh h p₀ hh hp₀ hin) hcarried
      · rw [hrenames] at hnone
        cases hnone
    · have hmoved := LandslideFs.isFile_carried hrenames (fun hne => (hmeets' hne).1) hisFile hcarried
      rw [isFile_iff] at hmoved ⊢
      rw [himage]
      exact hmoved

end

/-- A request keeps handles at their files. -/
theorem Watch.Pointed.request {w : Watch D S B} (hw : w.Pointed) (hclean : w.fs.Clean)
    (env : Outside D S B) {req : Request} {draw : Draw}
    (hclean' : (w.turn env (.request req draw)).fs.Clean) (hmeets : w.Meets env req draw) :
    (w.turn env (.request req draw)).Pointed where
  sound := by
    show (w.fs.serve env draw req w.session.remote).2.1.state.Sound
    rcases w.fs.serve_state env draw req w.session.remote with
      ⟨source, dest, -, hstate⟩ | ⟨-, paths, hstate⟩
    · rw [hstate]
      exact hw.sound.renameSubtree draw.order source dest
    · rw [hstate]
      exact (hw.sound.seen paths).1
  file fh h p hh hp := by
    by_cases hreq : ∃ parent name newparent newname flags,
        req = .rename parent name newparent newname flags
    · obtain ⟨parent, name, newparent, newname, flags, hreq⟩ := hreq
      exact hw.file_rename hclean hreq hclean' hmeets hh hp
    · exact hw.file_other hclean (fun _ _ _ _ _ heq => hreq ⟨_, _, _, _, _, heq⟩) hclean' hh hp

/-- What a turn must meet: a request as `Watch.Meets` says, anything else nothing. -/
def Watch.TurnMeets (env : Outside D S B) (w : Watch D S B) : Turn D S B → Prop
  | .request req draw => w.Meets env req draw
  | _ => True

theorem Watch.Pointed.turn {w : Watch D S B} (hw : w.Pointed) (hclean : w.fs.Clean)
    (env : Outside D S B) (t : Turn D S B) (hclean' : (w.turn env t).fs.Clean)
    (hmeets : w.TurnMeets env t) : (w.turn env t).Pointed := by
  cases t with
  | request req draw => exact hw.request hclean env hclean' hmeets
  | outside remote => exact ⟨hw.sound, hw.file⟩
  | synced replica =>
      obtain ⟨v, hv, -⟩ := hclean
      have hsame : w.session.turn env (.synced replica) = w.session := by
        rw [Session.turn, show w.session.fs.backend = .volume v from hv]
      have hfs : (w.turn env (.synced replica)).fs = w.fs := congrArg (·.fs) hsame
      refine ⟨?_, ?_⟩
      · rw [hfs]
        exact hw.sound
      · rw [hfs]
        exact hw.file

theorem Watch.Pointed.run (env : Outside D S B) {turns : List (Turn D S B)} : ∀ {w : Watch D S B},
    w.Pointed → (∀ n, (w.run env (turns.take n)).fs.Clean) →
    (∀ n t, turns[n]? = some t → (w.run env (turns.take n)).TurnMeets env t) →
    ∀ n, (w.run env (turns.take n)).Pointed := by
  induction turns with
  | nil =>
      intro w hw _ _ n
      rw [List.take_nil]
      exact hw
  | cons t turns ih =>
      intro w hw hclean hmeets n
      cases n with
      | zero => exact hw
      | succ n =>
          exact ih (hw.turn (hclean 0) env t (hclean 1) (hmeets 0 t rfl))
            (fun m => hclean (m + 1)) (fun m t' ht' => hmeets (m + 1) t' ht') n

/-- A flush changes the file of its handle only. -/
theorem Watch.Pointed.flush {w : Watch D S B} (hw : w.Pointed) (hclean : w.fs.Clean)
    (env : Outside D S B) {req : Request} {draw : Draw} {fh : Nat} (hreq : req.flushes = some fh)
    (hclean' : (w.turn env (.request req draw)).fs.Clean) (hmeets : w.Meets env req draw) :
    ChangesFile w.fs.image (w.turn env (.request req draw)).fs.image (w.files fh) := by
  have hfile : ∀ hd, w.fs.handles[fh]? = some hd → hd.extents ≠ [] →
      ∃ p, w.files fh = some p ∧ w.fs.pathOf hd.ino = some p ∧ WritesInto w.fs.image p := by
    intro hd hhd hstaged
    obtain ⟨p, hp, hwrites⟩ := hmeets.flush fh hd hreq hhd hstaged
    exact ⟨p, hp, (hw.file fh hd p hhd hp).1, hwrites⟩
  have hflush := hclean.flushFh_changes env draw fh w.session.remote hfile
  have hclean' : (w.fs.serve env draw req w.session.remote).2.1.Clean := hclean'
  show ChangesFile w.fs.image (w.fs.serve env draw req w.session.remote).2.1.image (w.files fh)
  cases req with
  | flush fh' =>
      cases hreq
      rw [LandslideFs.serve, LandslideFs.flush, LandslideFs.replies_snd] at hclean' ⊢
      exact hflush hclean'
  | fsync fh' =>
      cases hreq
      rw [LandslideFs.serve, LandslideFs.fsync, LandslideFs.replies_snd] at hclean' ⊢
      exact hflush hclean'
  | release fh' =>
      cases hreq
      rw [LandslideFs.serve, LandslideFs.release] at hclean' ⊢
      dsimp only at hclean' ⊢
      rw [LandslideFs.replies_snd] at hclean' ⊢
      exact hflush hclean'
  | _ => cases hreq

/-- In every run of a mount of a volume whose commits all succeed, so that nothing is
pending between its requests, and whose requests meet `Watch.Meets`: a flush, an fsync or a
release changes nothing but the content and the time of the file that the handle was
opened on, at the path where that file is by then.  If the file is gone, it changes
nothing. -/
theorem flush_changes_own_file (env : Outside D S B) (v : Volume) (r : Remote D S B)
    (turns : List (Turn D S B))
    (hclean : ∀ n, ((Watch.start v r).run env (turns.take n)).fs.Clean)
    (hmeets : ∀ n t, turns[n]? = some t →
      ((Watch.start v r).run env (turns.take n)).TurnMeets env t)
    {n : Nat} {req : Request} {draw : Draw} {fh : Nat} (hn : turns[n]? = some (.request req draw))
    (hreq : req.flushes = some fh) :
    let w := (Watch.start v r).run env (turns.take n)
    ChangesFile w.fs.image (w.turn env (.request req draw)).fs.image (w.files fh) := by
  dsimp only
  have hw := (Watch.pointed_start v r).run env hclean hmeets n
  have hnext := hclean (n + 1)
  rw [List.take_add_one, hn, Watch.run, List.foldl_append] at hnext
  exact hw.flush (hclean n) env hreq hnext (hmeets n _ hn)

end

/-! ## A flush after an unlink -/

/-- A mount of a new volume. -/
def newWatch : Watch Delta Manifest (Segment ⊕ Bytes) :=
  .start firstHandle (runActs named "v" {} mounted).remote

/-- A file is created and written. -/
def writtenTo : List (Turn Delta Manifest (Segment ⊕ Bytes)) :=
  [.request (.create 1 "a" 0o600 0 7 7) drawn, .request (.write 1 0 [5]) drawn]

/-- It is unlinked while it is open. -/
def unlinked : List (Turn Delta Manifest (Segment ⊕ Bytes)) :=
  writtenTo ++ [.request (.unlink 1 "a") drawn]

/-- A run has as many states as turns, and one more. -/
theorem Watch.clean_of_range {D S B : Type} [Payload D] {env : Outside D S B} {w : Watch D S B}
    {turns : List (Turn D S B)}
    (h : ∀ n ∈ List.range (turns.length + 1), (w.run env (turns.take n)).fs.Clean) (n : Nat) :
    (w.run env (turns.take n)).fs.Clean := by
  by_cases hn : n < turns.length + 1
  · exact h n (List.mem_range.mpr hn)
  · have hall := h turns.length (by simp)
    rw [List.take_of_length_le le_rfl] at hall
    rw [List.take_of_length_le (by omega)]
    exact hall

/-- The flush makes a file where there is none, with other attributes. -/
theorem flush_after_unlink :
    let w := newWatch.run named unlinked
    let t := Turn.request (.flush 1) drawn
    (∀ n, (newWatch.run named ((unlinked ++ [t]).take n)).fs.Clean) ∧ w.files 1 = none ∧
      w.fs.image.get "/a" = none ∧ (w.turn named t).fs.image.get "/a" ≠ none ∧
      ¬ ChangesFile w.fs.image (w.turn named t).fs.image (w.files 1) := by
  intro w t
  have hgone : w.files 1 = none := by decide +kernel
  have hbefore : w.fs.image.get "/a" = none := by decide +kernel
  have hafter : (w.turn named t).fs.image.get "/a" ≠ none := by decide +kernel
  refine ⟨Watch.clean_of_range (by decide +kernel), hgone, hbefore, hafter, fun h => ?_⟩
  rw [hgone] at h
  rw [show (w.turn named t).fs.image.get = w.fs.image.get from h] at hafter
  exact hafter hbefore

/-- The file is written and flushed. -/
def flushed : List (Turn Delta Manifest (Segment ⊕ Bytes)) :=
  writtenTo ++ [.request (.flush 1) drawn]

/-- Before the file is unlinked, the flush changes it only. -/
theorem flush_changes_own_file_written :
    let w := newWatch.run named writtenTo
    ChangesFile w.fs.image (w.turn named (.request (.flush 1) drawn)).fs.image (w.files 1) := by
  have hinto : (newWatch.run named writtenTo).files 1 = some "/a" ∧
      contentAt (newWatch.run named writtenTo).fs.image "/a" = some (.inline []) := by decide +kernel
  refine flush_changes_own_file named firstHandle (runActs named "v" {} mounted).remote flushed
    (Watch.clean_of_range (by decide +kernel)) (fun n t ht => ?_) (n := 2) rfl rfl
  have hlt : n < 3 := by
    by_contra hge
    rw [List.getElem?_eq_none (by simp [flushed, writtenTo]; omega)] at ht
    cases ht
  interval_cases n
  · cases ht
    exact ⟨fun fh h hreq => (by cases hreq), fun source dest hrenames => (by cases hrenames)⟩
  · cases ht
    exact ⟨fun fh h hreq => (by cases hreq), fun source dest hrenames => (by cases hrenames)⟩
  · cases ht
    refine ⟨?_, fun source dest hrenames => (by cases hrenames)⟩
    rintro fh h ⟨⟩ - -
    refine ⟨"/a", hinto.1, ?_⟩
    have hcontent := hinto.2
    rw [contentAt] at hcontent
    split at hcontent
    · next content attrs hget =>
      cases hcontent
      exact ⟨_, attrs, hget, .inl ⟨[], rfl⟩⟩
    · cases hcontent

end Landslide.Fuse
