import Landslide.Fuse.NameOps

/-!
# The names of a mount

Each request to a mounted volume leaves the tree of names that its operation makes of the one
before, and answers as the operation does: with its error, or with success, or with `EIO` if
the commit fails (`LandslideFs.Standing.serve`).  Requests that are none on names leave the
tree.
-/

namespace Landslide.Fuse

open Std TxnKv

namespace LandslideFs

variable {fs fs' : LandslideFs} {t u : Names}

/-! ## Requests -/

/-- After a request the mount has the names that its operation makes, and the request
answers as the operation does. -/
def Obeys {D S B : Type} (t : Names) (op : Option NameOp)
    (out : Except Errno Reply × LandslideFs × Remote D S B) : Prop :=
  out.2.1.Standing (NameOp.after t op) ∧ NameOp.Tells t op out.1

section

variable {D S B : Type} {op : NameOp} {r : Remote D S B}

/-- A request that is none on names. -/
theorem obeys_none {out : Except Errno Reply × LandslideFs × Remote D S B}
    (h : out.2.1.Standing t) : Obeys t none out := ⟨h, fun o ho => by cases ho⟩

theorem obeys_error (h : fs.Standing t) {e : Errno} (he : op.apply t = .error e) :
    Obeys t (some op) (.error e, fs, r) := by
  refine ⟨?_, ?_⟩
  · rw [NameOp.after, he]
    exact h
  · rintro o ⟨⟩
    refine ⟨fun e' he' => ?_, fun u hu => ?_⟩
    · rw [he, Except.error.injEq] at he'
      rw [he']
    · rw [he] at hu
      cases hu

theorem obeys_ok {reply : Except Errno Reply} (h : fs.Standing u) (hu : op.apply t = .ok u)
    (hreply : (∃ rep, reply = .ok rep) ∨ reply = .error .eio) :
    Obeys t (some op) (reply, fs, r) := by
  refine ⟨?_, ?_⟩
  · rw [NameOp.after, hu]
    exact h
  · rintro o ⟨⟩
    refine ⟨fun e he => ?_, fun _ _ => hreply⟩
    rw [hu] at he
    cases he

variable [Payload D]

/-- A request that commits what its operation makes. -/
theorem Standing.obeys_commit (h : fs.Standing t) (env : Outside D S B) (draw : Draw)
    {deltas : List Delta} (hinline : InlineWrites deltas)
    (hstands : (FsImage.applied draw.now 3 fs.image deltas).Stands u)
    (hu : op.apply t = .ok u) (reply : Reply) (r : Remote D S B) :
    Obeys t (some op) (replies reply (fs.commit env draw deltas r)) := by
  obtain ⟨res, fs', r', hcommit, hfs', -, hres⟩ := h.commit env draw hinline hstands r
  rw [hcommit]
  rcases hres with rfl | rfl
  · exact obeys_ok hfs' hu (.inl ⟨reply, rfl⟩)
  · exact obeys_ok hfs' hu (.inr rfl)

theorem Standing.obeys_remove (h : fs.Standing t) (env : Outside D S B) (draw : Draw) {n : Name}
    {p : NamePath} (hbare : t.Bare (n :: p)) (hu : op.apply t = .ok (t.remove n p hbare))
    (r : Remote D S B) :
    Obeys t (some op) (replies .ok (fs.commit env draw [.remove (spell (n :: p))] r)) := by
  have hstands : (FsImage.applied draw.now 3 fs.image [.remove (spell (n :: p))]).Stands
      (t.remove n p hbare) := h.image.remove hbare
  exact h.obeys_commit env draw (fun path offset refs hmem => by simp at hmem) hstands hu .ok r

theorem pathAt_spell {ino : Nat} {p : NamePath} (h : fs.pathOf ino = some (spell p)) :
    fs.pathAt ino = some p := by
  rw [pathAt, h, Option.bind_some, unspell_spell]

theorem entryAt_none {parent : Nat} (h : fs.pathOf parent = none) (name : String) :
    fs.entryAt parent name = none := by
  rw [entryAt, pathAt, h, Option.bind_none, Option.bind_none]

theorem entryAt_spell {parent : Nat} {p : NamePath} (h : fs.pathOf parent = some (spell p))
    (n : Name) : fs.entryAt parent n.1 = some (p, n) := by
  rw [entryAt, pathAt_spell h, Option.bind_some, dif_pos n.2]

/-- A new directory or symlink. -/
theorem Standing.make (h : fs.Standing t) (env : Outside D S B) (draw : Draw) (parent : Nat)
    (n : Name) (kind : FileType) {deltas : String → List Delta}
    (hinline : ∀ path, InlineWrites (deltas path))
    (hkinds : ∀ path, fs.image.get path = none →
      (FsImage.applied draw.now 3 fs.image (deltas path)).kinds =
        Function.update fs.image.kinds path (some kind)) (r : Remote D S B) :
    Obeys t ((fs.entryAt parent n.1).map fun e => .make kind e.1 e.2)
      (fs.make env draw parent n.1 deltas r) := by
  rw [LandslideFs.make]
  cases hpath : fs.pathOf parent with
  | none =>
      rw [entryAt_none hpath]
      exact obeys_none h
  | some path =>
      obtain ⟨p, rfl⟩ := h.spelled hpath
      rw [entryAt_spell hpath, Option.map_some]
      dsimp only
      have hget := h.image.get_none_iff n p
      rw [join_spell_name]
      split
      · next hdir =>
        refine obeys_error h ?_
        rw [NameOp.apply, dif_neg]
        rw [← h.image.isDir_iff]
        simpa using hdir
      next hdir =>
      have hp : t.kindAt p = some .directory := h.image.isDir_iff.mp (by simpa using hdir)
      split
      · next hthere =>
        refine obeys_error h ?_
        rw [NameOp.apply, dif_pos hp, dif_neg fun hnone => hthere (hget.mpr hnone)]
      next hfree =>
      have hnone : fs.image.get (spell (n :: p)) = none := not_not.mp hfree
      have hkind := hget.mp hnone
      have hstands := h.image.put (hkinds _ hnone) hp (NameTree.bare_of_none hkind)
      have hu : (NameOp.make kind p n).apply t =
          .ok (t.put n p kind hp (NameTree.bare_of_none hkind)) := by
        rw [NameOp.apply, dif_pos hp, dif_pos hkind]
      obtain ⟨res, fs', r', hcommit, hfs', -, hres⟩ :=
        h.commit env draw (hinline _) hstands r
      rw [hcommit]
      rcases hres with rfl | rfl
      · exact obeys_ok (hfs'.ino _) hu (.inl ⟨_, rfl⟩)
      · exact obeys_ok hfs' hu (.inr rfl)

omit [Payload D] in
theorem Standing.fetchFile (h : fs.Standing t) (env : Outside D S B) (bucket : Bucket B)
    (path : String) : (fs.fetchFile env bucket path).Standing t := by
  obtain ⟨v, hv, hpending, himage⟩ := h.backend
  rw [LandslideFs.fetchFile, hv]
  exact h.frame ⟨_, rfl, hpending, himage⟩ rfl

omit [Payload D] in
theorem Standing.obeys_created (h : fs.Standing u) (p : NamePath) (hu : op.apply t = .ok u)
    (r : Remote D S B) : Obeys t (some op) (fs.created (spell p) r) :=
  obeys_ok ((h.ino p).frame (h.ino p).backend rfl) hu (.inl ⟨_, rfl⟩)

/-- A file that is opened, or made and opened. -/
theorem Standing.create (h : fs.Standing t) (env : Outside D S B) (draw : Draw) (parent : Nat)
    (n : Name) (mode umask uid gid : UInt32) (r : Remote D S B) :
    Obeys t ((fs.entryAt parent n.1).map fun e => .create e.1 e.2)
      (fs.create env draw parent n.1 mode umask uid gid r) := by
  rw [LandslideFs.create]
  cases hpath : fs.pathOf parent with
  | none =>
      rw [entryAt_none hpath]
      exact obeys_none h
  | some path =>
      obtain ⟨p, rfl⟩ := h.spelled hpath
      rw [entryAt_spell hpath, Option.map_some]
      dsimp only
      rw [join_spell_name]
      split
      · next hdir =>
        refine obeys_error h ?_
        rw [NameOp.apply, dif_neg]
        rw [← h.image.isDir_iff]
        simpa using hdir
      next hdir =>
      have hp : t.kindAt p = some .directory := h.image.isDir_iff.mp (by simpa using hdir)
      cases hget : fs.image.get (spell (n :: p)) with
      | some node =>
          have hkind := h.image.kindAt_of_get hget
          cases node with
          | file content attrs =>
              refine (h.fetchFile env r.bucket _).obeys_created (n :: p) ?_ r
              simp [NameOp.apply, hp, hkind, Node.kind]
          | dir attrs =>
              refine obeys_error h ?_
              simp [NameOp.apply, hp, hkind, Node.kind]
          | symlink target attrs =>
              refine obeys_error h ?_
              simp [NameOp.apply, hp, hkind, Node.kind]
      | none =>
          have hkind := (h.image.get_none_iff n p).mp hget
          have hkinds : (FsImage.applied draw.now 3 fs.image
              [.write (spell (n :: p)) 0 (.inline []),
                .setAttr (spell (n :: p)) (some (newMode mode umask)) (some uid) (some gid)
                  none]).kinds =
              Function.update fs.image.kinds (spell (n :: p)) (some .regularFile) :=
            (FsImage.kinds_mapAttrs _ _).trans (FsImage.kinds_write _ _ _ _)
          have hu : (NameOp.create p n).apply t =
              .ok (t.put n p .regularFile hp (NameTree.bare_of_none hkind)) := by
            rw [NameOp.apply, dif_pos hp, dif_pos hkind]
          obtain ⟨res, fs', r', hcommit, hfs', -, hres⟩ := h.commit env draw
            (fun path offset refs hmem => by simp at hmem)
            (h.image.put hkinds hp (NameTree.bare_of_none hkind)) r
          dsimp only
          rw [hcommit]
          rcases hres with rfl | rfl
          · exact hfs'.obeys_created (n :: p) hu r'
          · exact obeys_ok hfs' hu (.inr rfl)

theorem Standing.unlink (h : fs.Standing t) (env : Outside D S B) (draw : Draw) (parent : Nat)
    (n : Name) (r : Remote D S B) :
    Obeys t ((fs.entryAt parent n.1).map fun e => .unlink e.1 e.2)
      (fs.unlink env draw parent n.1 r) := by
  rw [LandslideFs.unlink]
  cases hpath : fs.pathOf parent with
  | none =>
      rw [entryAt_none hpath]
      exact obeys_none h
  | some path =>
      obtain ⟨p, rfl⟩ := h.spelled hpath
      rw [entryAt_spell hpath, Option.map_some]
      dsimp only
      rw [join_spell_name]
      have gone : ∀ {k}, t.kindAt (n :: p) = some k → k ≠ .directory →
          Obeys t (some (.unlink p n))
            (replies .ok (fs.commit env draw [.remove (spell (n :: p))] r)) := by
        intro k hkind hk
        have hne : t.kindAt (n :: p) ≠ some .directory := by
          rw [hkind]
          exact fun heq => hk (Option.some.inj heq)
        refine h.obeys_remove env draw (NameTree.bare_of_ne hne) ?_ r
        rw [NameOp.apply, if_neg (by rw [hkind]; simp), dif_neg hne]
      cases hget : fs.image.get (spell (n :: p)) with
      | some node =>
          have hkind := h.image.kindAt_of_get hget
          cases node with
          | file content attrs => exact gone hkind (by simp [Node.kind])
          | dir attrs =>
              refine obeys_error h ?_
              simp [NameOp.apply, hkind, Node.kind]
          | symlink target attrs => exact gone hkind (by simp [Node.kind])
      | none =>
          refine obeys_error h ?_
          rw [NameOp.apply, if_pos ((h.image.get_none_iff n p).mp hget)]

theorem Standing.rmdir (h : fs.Standing t) (env : Outside D S B) (draw : Draw) (parent : Nat)
    (n : Name) (r : Remote D S B) :
    Obeys t ((fs.entryAt parent n.1).map fun e => .rmdir e.1 e.2)
      (fs.rmdir env draw parent n.1 r) := by
  rw [LandslideFs.rmdir]
  cases hpath : fs.pathOf parent with
  | none =>
      rw [entryAt_none hpath]
      exact obeys_none h
  | some path =>
      obtain ⟨p, rfl⟩ := h.spelled hpath
      rw [entryAt_spell hpath, Option.map_some]
      dsimp only
      rw [join_spell_name]
      have refused : t.kindAt (n :: p) ≠ some .directory →
          Obeys t (some (.rmdir p n)) (.error .enotdir, fs, r) := fun hne =>
        obeys_error h (by rw [NameOp.apply, if_neg hne])
      cases hget : fs.image.get (spell (n :: p)) with
      | some node =>
          have hkind := h.image.kindAt_of_get hget
          cases node with
          | file content attrs => exact refused (by rw [hkind]; simp [Node.kind])
          | dir attrs =>
              rw [Node.kind] at hkind
              have hchildren := h.image.children_eq_nil_iff (p := n :: p)
              dsimp only
              split
              · next hfull =>
                refine obeys_error h ?_
                rw [NameOp.apply, if_pos hkind, dif_neg fun hbare => hfull (hchildren.mpr hbare)]
              · next hempty =>
                have hbare := hchildren.mp (not_not.mp hempty)
                refine h.obeys_remove env draw hbare ?_ r
                rw [NameOp.apply, if_pos hkind, dif_pos hbare]
          | symlink target attrs => exact refused (by rw [hkind]; simp [Node.kind])
      | none =>
          exact refused (by rw [(h.image.get_none_iff n p).mp hget]; simp)

/-! ## Renames -/

omit [Payload D] in
theorem Standing.inTheWay_spell (h : fs.Standing t) {m n : Name} {p q : NamePath} {node : Node}
    (hget : fs.image.get (spell (m :: p)) = some node) :
    inTheWay fs.image (spell (n :: q)) node = NameOp.renameError t (m :: p) (n :: q) := by
  have hempty := h.image.children_eq_nil_iff (p := n :: q)
  rw [inTheWay, NameOp.renameError, h.image.kindAt_of_get hget]
  cases hdest : fs.image.get (spell (n :: q)) with
  | none => rw [(h.image.get_none_iff n q).mp hdest]
  | some node' =>
      rw [h.image.kindAt_of_get hdest]
      cases node <;> cases node' <;> simp only [Node.kind, Node.renameKind]
      by_cases hbare : t.Bare (n :: q)
      · rw [if_neg (not_not.mpr (hempty.mpr hbare)), if_pos hbare]
      · rw [if_pos fun hnil => hbare (hempty.mp hnil), if_neg hbare]

/-- A rename that is not refused finds its source, and nothing below its destination. -/
theorem renameError_none {source dest : NamePath}
    (h : NameOp.renameError t source dest = none) :
    t.kindAt source ≠ none ∧ t.Bare dest := by
  rw [NameOp.renameError] at h
  cases hsource : t.kindAt source with
  | none =>
      rw [hsource] at h
      cases h
  | some k =>
      refine ⟨by simp, ?_⟩
      by_cases hdest : t.kindAt dest = some .directory
      · rw [hsource, hdest] at h
        cases k with
        | directory =>
            by_contra hbare
            simp [hbare] at h
        | regularFile => cases h
        | symlink => cases h
      · exact NameTree.bare_of_ne hdest

/-- The tree after a rename, also of a path to itself. -/
theorem stands_rename {image : FsImage} (h : image.Stands t) {m n : Name} {p q : NamePath}
    (hfree : NameOp.renameError t (m :: p) (n :: q) = none)
    (hq : t.kindAt q = some .directory) (hp : ¬ m :: p <:+ q) :
    (image.rename (spell (m :: p)) (spell (n :: q))).Stands (t.move (m :: p) n q hq hp) := by
  obtain ⟨hthere, hbare⟩ := renameError_none hfree
  by_cases hne : m :: p = n :: q
  · have hsame : t.move (m :: p) n q hq hp = t := by
      refine NameTree.ext ?_
      rw [NameTree.kindAt_move, hne]
      exact NameTree.carried_self t _
    rw [hsame, hne]
    refine h.congr ?_
    funext x
    rw [FsImage.kinds, FsImage.kinds, FsImage.get_rename_self]
  · exact h.rename hthere hq hp hne hbare

theorem Standing.rename (h : fs.Standing t) (env : Outside D S B) (draw : Draw)
    (parent newparent : Nat) (m n : Name) (flags : UInt32)
    (hfits : fs.renameFits parent m.1 newparent = true) (r : Remote D S B) :
    Obeys t (fs.asks (.rename parent m.1 newparent n.1 flags))
      (fs.rename env draw parent m.1 newparent n.1 flags r) := by
  rw [asks, LandslideFs.rename, renamePaths]
  split
  · exact obeys_none h
  cases hparent : fs.pathOf parent with
  | none =>
      rw [entryAt_none hparent]
      exact obeys_none h
  | some path =>
      obtain ⟨p, rfl⟩ := h.spelled hparent
      rw [entryAt_spell hparent, Option.bind_some]
      cases hnewparent : fs.pathOf newparent with
      | none =>
          rw [entryAt_none hnewparent]
          exact obeys_none h
      | some newpath =>
          obtain ⟨q, rfl⟩ := h.spelled hnewparent
          rw [entryAt_spell hnewparent, Option.map_some]
          dsimp only
          rw [join_spell_name, join_spell_name]
          cases hget : fs.image.get (spell (m :: p)) with
          | none =>
              refine obeys_error h ?_
              simp [NameOp.apply, NameOp.renameError, (h.image.get_none_iff m p).mp hget]
          | some node =>
              dsimp only
              rw [h.inTheWay_spell hget]
              cases hfree : NameOp.renameError t (m :: p) (n :: q) with
              | some e =>
                  refine obeys_error h ?_
                  rw [NameOp.apply, hfree]
              | none =>
                  obtain ⟨hq, hp⟩ := h.renameFits_spell hparent hnewparent hfits
                  have hu : (NameOp.rename p m q n).apply t =
                      .ok (t.move (m :: p) n q hq hp) := by
                    rw [NameOp.apply, hfree]
                    exact dif_pos ⟨hq, hp⟩
                  have hstands : (FsImage.applied draw.now 3 fs.image
                      [.rename (spell (m :: p)) (spell (n :: q))]).Stands
                      (t.move (m :: p) n q hq hp) := stands_rename h.image hfree hq hp
                  obtain ⟨res, fs', r', hcommit, hfs', -, hres⟩ := h.commit env draw
                    (fun path offset refs hmem => by simp at hmem) hstands r
                  dsimp only
                  rw [hcommit]
                  rcases hres with rfl | rfl
                  · exact obeys_ok (hfs'.renameSubtree draw.order m p n q) hu (.inl ⟨_, rfl⟩)
                  · exact obeys_ok hfs' hu (.inr rfl)

/-! ## Flushes -/

omit [Payload D] in
theorem inlineWrites_flush (now : Int) (path : String) (extents : List (Nat × Bytes)) :
    InlineWrites (flushDeltas now path extents) := by
  intro q offset refs hmem
  rw [flushDeltas, List.mem_append, List.mem_map] at hmem
  rcases hmem with ⟨e, -, he⟩ | hmem
  · cases he
  · simp at hmem

/-- Extents make their path a file. -/
theorem kinds_flush (clock : Nat → Int) (now : Int) (path : String) :
    ∀ (extents : List (Nat × Bytes)) (i : Nat) (image : FsImage),
    (FsImage.applied clock i image (flushDeltas now path extents)).kinds =
      if extents = [] then image.kinds
      else Function.update image.kinds path (some .regularFile)
  | [], i, image => FsImage.kinds_mapAttrs path _
  | e :: extents, i, image => by
      rw [flushDeltas, List.map_cons, List.cons_append, FsImage.applied, ← flushDeltas,
        kinds_flush clock now path extents, if_neg (List.cons_ne_nil e extents),
        FsImage.kinds_write]
      split
      · rfl
      · exact Function.update_idem _ _ _

/-- A flush makes a file of its path, or has nothing to write. -/
theorem Standing.flushFh (h : fs.Standing t) (env : Outside D S B) (draw : Draw) (fh : Nat)
    (hfits : fs.flushFits fh = true) (r : Remote D S B) :
    ∃ res fs' r', fs.flushFh env draw fh r = (res, fs', r') ∧
      fs'.Standing (NameOp.after t (fs.asksFlush fh)) ∧
      (∀ o, fs.asksFlush fh = some o → ∃ u, o.apply t = .ok u) ∧
      (res = .ok () ∨ res = .error .eio) := by
  rw [LandslideFs.flushFh, asksFlush, flushPath]
  rw [flushFits, flushPath] at hfits
  cases hh : fs.handles[fh]? with
  | none => exact ⟨_, fs, r, rfl, h, fun o ho => (by cases ho), .inl rfl⟩
  | some handle =>
      rw [hh] at hfits
      dsimp only at hfits ⊢
      by_cases hnil : handle.extents = []
      · rw [if_pos hnil, if_pos hnil]
        exact ⟨_, fs, r, rfl, h, fun o ho => (by cases ho), .inl rfl⟩
      rw [if_neg hnil] at hfits
      rw [if_neg hnil, if_neg hnil]
      have h' : ({ fs with handles := fs.handles.insert fh { handle with extents := [] } } :
          LandslideFs).Standing t := h.frame h.backend rfl
      cases hpath : fs.pathOf handle.ino with
      | none =>
          have hpath' : ({ fs with handles := fs.handles.insert fh { handle with extents := [] } } :
            LandslideFs).pathOf handle.ino = none := hpath
          rw [hpath']
          exact ⟨_, _, r, rfl, h', fun o ho => (by cases ho), .inl rfl⟩
      | some path =>
          have hpath' : ({ fs with handles := fs.handles.insert fh { handle with extents := [] } } :
            LandslideFs).pathOf handle.ino = some path := hpath
          rw [hpath']
          obtain ⟨x, rfl⟩ := h.spelled hpath
          rw [hpath] at hfits
          cases x with
          | nil => simp at hfits
          | cons n p =>
              simp only [Bool.and_eq_true, decide_eq_true_eq, parentPath_spell,
                h.image.isDir_iff, h.image.children_eq_nil_iff] at hfits
              obtain ⟨⟨-, hp⟩, hbare⟩ := hfits
              rw [Option.bind_some, unspell_spell]
              dsimp only
              have hu : (NameOp.write p n).apply t = .ok (t.put n p .regularFile hp hbare) :=
                dif_pos ⟨hp, hbare⟩
              have hkinds := kinds_flush draw.now (draw.now 0) (spell (n :: p)) handle.extents 3
                fs.image
              rw [if_neg hnil] at hkinds
              obtain ⟨res, fs', r', hcommit, hfs', -, hres⟩ := h'.commit env draw
                (inlineWrites_flush (draw.now 0) (spell (n :: p)) handle.extents)
                (h.image.put hkinds hp hbare) r
              refine ⟨res, fs', r', hcommit, ?_, ?_, hres⟩
              · rw [NameOp.after, hu]
                exact hfs'
              · rintro o ⟨⟩
                exact ⟨_, hu⟩

omit [Payload D] in
/-- A flush that has something to write stands for an operation that the tree allows. -/
theorem obeys_flush {asked : Option NameOp} {res : Except Errno Unit}
    (h : fs.Standing (NameOp.after t asked)) (hok : ∀ o, asked = some o → ∃ u, o.apply t = .ok u)
    (hres : res = .ok () ∨ res = .error .eio) : Obeys t asked (replies .ok (res, fs, r)) := by
  refine ⟨?_, fun o ho => ⟨fun e he => ?_, fun u hu => ?_⟩⟩
  · rw [replies_snd]
    exact h
  · obtain ⟨u, hu⟩ := hok o ho
    rw [hu] at he
    cases he
  · rcases hres with rfl | rfl
    · exact .inl ⟨_, rfl⟩
    · exact .inr rfl

/-! ## Requests that leave the names -/

omit [Payload D] in
theorem Standing.lookup (h : fs.Standing t) (parent : Nat) (n : Name) :
    (fs.lookup parent n.1).2.Standing t := by
  rw [LandslideFs.lookup]
  split
  · exact h
  next path hpath =>
  obtain ⟨p, rfl⟩ := h.spelled hpath
  dsimp only
  split
  · exact h
  split
  · exact h
  · rw [join_spell_name]
    exact h.ino (n :: p)

omit [Payload D] in
theorem Standing.listChildren (p : NamePath) : ∀ (kids : List (String × FileType)) (offset : Nat)
    {fs : LandslideFs}, fs.Standing t → (∀ kid ∈ kids, ∃ n : Name, n.1 = kid.1) →
      (listChildren (spell p) kids offset fs).2.Standing t
  | [], _, _, h, _ => h
  | (name, kind) :: kids, offset, fs, h, hkids => by
      obtain ⟨n, rfl⟩ := hkids _ List.mem_cons_self
      rw [LandslideFs.listChildren, join_spell_name]
      exact Standing.listChildren p kids (offset + 1) (h.ino (n :: p)) fun kid hkid =>
        hkids kid (List.mem_cons_of_mem _ hkid)

omit [Payload D] in
theorem Standing.readdir (h : fs.Standing t) (draw : Draw) (ino offset : Nat) :
    (fs.readdir draw ino offset).2.Standing t := by
  rw [LandslideFs.readdir]
  split
  · exact h
  next path hpath =>
  obtain ⟨p, rfl⟩ := h.spelled hpath
  dsimp only
  split
  · exact h
  obtain ⟨q, hq⟩ : ∃ q, parentPath (spell p) = spell q := by
    cases p with
    | nil => exact ⟨[], parentPath_root⟩
    | cons n p => exact ⟨p, parentPath_spell n p⟩
  rw [hq]
  refine Standing.listChildren p _ 3 (h.ino q) ?_
  rintro ⟨name, kind⟩ hkid
  obtain ⟨n, hn, -⟩ := h.image.mem_children.mp hkid
  exact ⟨n, hn⟩

omit [Payload D] in
theorem Standing.readRange (h : fs.Standing t) (env : Outside D S B) (bucket : Bucket B)
    (path : String) (offset len : Nat) :
    (fs.readRange env bucket path offset len).2.Standing t := by
  obtain ⟨v, hv, hpending, himage⟩ := h.backend
  rw [LandslideFs.readRange, hv]
  exact h.frame ⟨_, rfl, hpending, himage⟩ rfl

omit [Payload D] in
theorem Standing.read (h : fs.Standing t) (env : Outside D S B) (bucket : Bucket B)
    (ino fh offset size : Nat) : (fs.read env bucket ino fh offset size).2.Standing t := by
  rw [LandslideFs.read]
  split
  · exact h
  next path hpath =>
  have hread := h.readRange env bucket path offset size
  split <;> next heq => rw [heq] at hread; exact hread

omit [Payload D] in
theorem Standing.open (h : fs.Standing t) (ino : Nat) : (fs.open ino).2.Standing t := by
  rw [LandslideFs.open]
  split
  · exact h
  split
  · exact h.frame h.backend rfl
  · exact h
  · exact h
  · exact h

omit [Payload D] in
theorem Standing.write (h : fs.Standing t) (fh offset : Nat) (data : Bytes) :
    (fs.write fh offset data).2.Standing t := by
  rw [LandslideFs.write]
  split
  · exact h
  · exact h.frame h.backend rfl

/-- A commit that sets attributes. -/
theorem Standing.commit_attrs (h : fs.Standing t) (env : Outside D S B) (draw : Draw) {d : Delta}
    (hd : InlineWrites [d]) (hkinds : (fs.image.apply (draw.now 3) d).kinds = fs.image.kinds)
    (r : Remote D S B) : (fs.commit env draw [d] r).2.1.Standing t := by
  have hstands : (FsImage.applied draw.now 3 fs.image [d]).Stands t := h.image.congr hkinds
  obtain ⟨res, fs', r', hcommit, hfs', -⟩ := h.commit env draw hd hstands r
  rw [hcommit]
  exact hfs'

theorem Standing.setMeta (h : fs.Standing t) (env : Outside D S B) (draw : Draw) (ino : Nat)
    (path : String) (mode uid gid : Option UInt32) (mtimeMs : Option Int) (r : Remote D S B) :
    (fs.setMeta env draw ino path mode uid gid mtimeMs r).2.1.Standing t := by
  rw [LandslideFs.setMeta]
  split
  next res fs' r' heq =>
  have hfs' : fs'.Standing t := by
    split at heq
    · have hcommit := h.commit_attrs env draw
        (d := .setAttr path (mode.map (· &&& 0o7777)) uid gid mtimeMs) (by simp [InlineWrites])
        (FsImage.kinds_mapAttrs path _) r
      rw [heq] at hcommit
      exact hcommit
    · cases heq
      exact h
  split
  · exact hfs'
  · split <;> exact hfs'

/-- A truncation takes a file away and makes it anew. -/
theorem stands_truncated {image : FsImage} (h : image.Stands t) {n : Name} {p : NamePath}
    (hfile : isFile image (spell (n :: p)) = true) (now : Int) (bytes : Bytes) :
    ((image.apply now (.remove (spell (n :: p)))).apply now
      (.write (spell (n :: p)) 0 (.inline bytes))).Stands t := by
  obtain ⟨content, attrs, hget⟩ := isFile_iff.mp hfile
  have hkind : t.kindAt (n :: p) = some .regularFile := h.kindAt_of_get hget
  have hbare : t.Bare (n :: p) := NameTree.bare_of_ne (by rw [hkind]; simp)
  have hp : t.kindAt p = some .directory := t.closed (by rw [hkind]; simp)
  have hgone := h.remove hbare
  have hput := hgone.put (FsImage.kinds_write now (spell (n :: p)) 0 (.inline bytes))
    (by rw [NameTree.kindAt_remove, Function.update_of_ne (List.cons_ne_self n p).symm, hp])
    (NameTree.bare_of_none (by rw [NameTree.kindAt_remove, Function.update_self]))
  refine (NameTree.ext ?_ : NameTree.put _ n p _ _ _ = t) ▸ hput
  rw [NameTree.kindAt_put, NameTree.kindAt_remove, Function.update_idem, ← hkind,
    Function.update_eq_self]

theorem Standing.setattr (h : fs.Standing t) (env : Outside D S B) (draw : Draw) (ino : Nat)
    (mode uid gid : Option UInt32) (size : Option Nat) (mtime : Option TimeOrNow)
    (r : Remote D S B) : (fs.setattr env draw ino mode uid gid size mtime r).2.1.Standing t := by
  rw [LandslideFs.setattr]
  split
  · exact h
  next path hpath =>
  obtain ⟨x, rfl⟩ := h.spelled hpath
  dsimp only
  split
  · exact h
  split
  · exact h.setMeta env draw ino _ mode uid gid _ r
  next size =>
  split
  · exact h
  next hfile =>
  obtain ⟨v, hv, hpending, himage⟩ := h.backend
  rw [LandslideFs.truncate, hv]
  dsimp only
  rw [Volume.truncate]
  cases readFile env r.bucket v.image (spell x) v.blocks with
  | mk content blocks =>
  cases content with
  | error e => exact h.frame ⟨_, rfl, hpending, himage⟩ rfl
  | ok content =>
      have hshows : (Backend.volume (({ v with blocks := blocks }.mutate (draw.now 1)
          (.remove (spell x))).mutate (draw.now 1)
          (.write (spell x) 0 (.inline (Volume.resize (content.getD []) size))))).Shows t := by
        refine ⟨_, rfl, ?_, ?_⟩
        · have hgone : InlineWrites (v.pending ++ [.remove (spell x)]) :=
            hpending.append (by simp [InlineWrites])
          exact hgone.append (by simp [InlineWrites])
        · have hfile' : isFile v.image (spell x) = true := by
            rw [LandslideFs.image, hv] at hfile
            simpa [Backend.image] using hfile
          cases x with
          | nil =>
              obtain ⟨content, attrs, hget⟩ := isFile_iff.mp hfile'
              obtain ⟨p, hp, hroot⟩ := himage.spelled (q := spell []) (by
                rw [FsImage.kinds, hget]
                simp)
              exact absurd (spell_injective hroot) hp
          | cons n p => exact stands_truncated himage hfile' (draw.now 1) _
      have hclipped : ∀ w : Volume, (Backend.volume w).Shows t →
          (clipHandles ino size { fs with backend := .volume w }).Standing t := fun w hw =>
        h.frame hw rfl
      exact (hclipped _ hshows).setMeta env draw ino _ mode uid gid _ r

theorem Standing.setxattr (h : fs.Standing t) (env : Outside D S B) (draw : Draw) (ino : Nat)
    (name : String) (value : Bytes) (r : Remote D S B) :
    (fs.setxattr env draw ino name value r).2.1.Standing t := by
  rw [LandslideFs.setxattr]
  split
  · exact h
  next path hpath =>
  split
  · exact h
  · rw [LandslideFs.replies_snd]
    exact h.commit_attrs env draw (d := .setXattr path name (some value))
      (by simp [InlineWrites]) (FsImage.kinds_mapAttrs path _) r

theorem Standing.removexattr (h : fs.Standing t) (env : Outside D S B) (draw : Draw) (ino : Nat)
    (name : String) (r : Remote D S B) :
    (fs.removexattr env draw ino name r).2.1.Standing t := by
  rw [LandslideFs.removexattr]
  split
  · exact h
  next path hpath =>
  split
  · exact h
  split
  · rw [LandslideFs.replies_snd]
    exact h.commit_attrs env draw (d := .setXattr path name none)
      (by simp [InlineWrites]) (FsImage.kinds_mapAttrs path _) r
  · exact h

/-! ## All requests -/

/-- What a request does to the names, and what it answers. -/
theorem Standing.serve (h : fs.Standing t) (env : Outside D S B) (draw : Draw) (req : Request)
    (hreq : fs.promised req = true) (r : Remote D S B) :
    Obeys t (fs.asks req) (fs.serve env draw req r) := by
  rw [promised.eq_def, Bool.and_eq_true, List.all_eq_true] at hreq
  obtain ⟨hnames, hfits⟩ := hreq
  have hname : ∀ name ∈ req.names, ∃ n : Name, n.1 = name := fun name hmem =>
    ⟨⟨name, of_decide_eq_true (hnames name hmem)⟩, rfl⟩
  have flushed : ∀ {fh}, fs.flushFits fh = true →
      Obeys t (fs.asksFlush fh) (replies .ok (fs.flushFh env draw fh r)) := by
    intro fh hfh
    obtain ⟨res, fs', r', hflush, hfs', hok, hres⟩ := h.flushFh env draw fh hfh r
    rw [hflush]
    exact obeys_flush hfs' hok hres
  cases req with
  | lookup parent name =>
      obtain ⟨n, rfl⟩ := hname name (List.mem_singleton_self _)
      exact obeys_none (h.lookup parent n)
  | setattr ino mode uid gid size mtime =>
      exact obeys_none (h.setattr env draw ino mode uid gid size mtime r)
  | symlink parent name target uid gid =>
      obtain ⟨n, rfl⟩ := hname name (List.mem_singleton_self _)
      refine h.make env draw parent n .symlink
        (fun path q offset refs hmem => by simp at hmem) (fun path _ => ?_) r
      exact (FsImage.kinds_mapAttrs path _).trans (FsImage.kinds_symlink _ path target)
  | readdir ino offset => exact obeys_none (h.readdir draw ino offset)
  | mkdir parent name mode umask uid gid =>
      obtain ⟨n, rfl⟩ := hname name (List.mem_singleton_self _)
      refine h.make env draw parent n .directory
        (fun path q offset refs hmem => by simp at hmem) (fun path hfree => ?_) r
      exact (FsImage.kinds_mapAttrs path _).trans (FsImage.kinds_mkdir _ hfree)
  | create parent name mode umask uid gid =>
      obtain ⟨n, rfl⟩ := hname name (List.mem_singleton_self _)
      exact h.create env draw parent n mode umask uid gid r
  | «open» ino => exact obeys_none (h.open ino)
  | read ino fh offset size => exact obeys_none (h.read env r.bucket ino fh offset size)
  | write fh offset data => exact obeys_none (h.write fh offset data)
  | flush fh => exact flushed hfits
  | fsync fh => exact flushed hfits
  | release fh =>
      obtain ⟨res, fs', r', hflush, hfs', hok, hres⟩ := h.flushFh env draw fh hfits r
      rw [LandslideFs.serve, LandslideFs.release, hflush]
      exact obeys_flush (hfs'.frame hfs'.backend rfl) hok hres
  | unlink parent name =>
      obtain ⟨n, rfl⟩ := hname name (List.mem_singleton_self _)
      exact h.unlink env draw parent n r
  | rmdir parent name =>
      obtain ⟨n, rfl⟩ := hname name (List.mem_singleton_self _)
      exact h.rmdir env draw parent n r
  | rename parent name newparent newname flags =>
      obtain ⟨m, rfl⟩ := hname name List.mem_cons_self
      obtain ⟨n, rfl⟩ := hname newname (by simp [Request.names])
      exact h.rename env draw parent newparent m n flags hfits r
  | setxattr ino name value =>
      exact obeys_none (h.setxattr env draw ino name value r)
  | removexattr ino name =>
      exact obeys_none (h.removexattr env draw ino name r)

end

end LandslideFs

end Landslide.Fuse
