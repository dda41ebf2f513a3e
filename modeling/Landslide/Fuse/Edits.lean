import Landslide.Fuse.Serving
import Landslide.Fuse.Truncations
import Landslide.Staging

/-!
# The edits of one handle

The writes of a handle are staged until it is flushed, and a change of the size goes to the
volume at once, where it is made to the committed content, and cuts what is staged.  So the
content that is committed and the extents of the handle are a stage (`Editing`), and each
call of the handle is a step of it (`Editing.step`).

After a flush a mount reads the content of the calls one by one (`edits_committed`).  The
file may not be larger than a chunk when something is committed: a larger one goes into
blocks, and the next write starts a new file over it.
-/

namespace Landslide.Fuse

open Std TxnKv

/-! ## Calls -/

/-- A call of a program that has a file open. -/
inductive FileCall where
  | write (offset : Nat) (data : Bytes)
  | setSize (size : Nat) (mode uid gid : Option UInt32) (mtime : Option TimeOrNow)
  | flush
  | fsync

namespace FileCall

/-- The request of a call through a handle on an inode. -/
def request (ino fh : Nat) : FileCall → Request
  | .write offset data => .write fh offset data
  | .setSize size mode uid gid mtime => .setattr ino mode uid gid (some size) mtime
  | .flush => .flush fh
  | .fsync => .fsync fh

/-- What a call does to the content, and what it does to a stage. -/
def step : FileCall → Staging.Step UInt8
  | .write offset data => .write offset data
  | .setSize size _ _ _ _ => .resize size
  | .flush | .fsync => .flush

def flushes : FileCall → Bool
  | .flush | .fsync => true
  | _ => false

/-- Everything but a write commits. -/
def commits : FileCall → Bool
  | .write _ _ => false
  | _ => true

end FileCall

/-- The content after some calls, in call order. -/
def contentAfter (content : Bytes) (calls : List (FileCall × Draw)) : Bytes :=
  Staging.edited 0 content (calls.map (·.1.step))

section

variable {D S B : Type} [Payload D]

/-- A session after some calls through a handle. -/
def Session.calls (env : Outside D S B) (s : Session D S B) (ino fh : Nat)
    (calls : List (FileCall × Draw)) : Session D S B :=
  s.requests env (calls.map fun c => (c.1.request ino fh, c.2))

theorem Session.calls_concat (env : Outside D S B) (s : Session D S B) (ino fh : Nat)
    (calls : List (FileCall × Draw)) (c : FileCall × Draw) :
    s.calls env ino fh (calls ++ [c]) =
      (s.calls env ino fh calls).turn env (.request (c.1.request ino fh) c.2) := by
  rw [Session.calls, List.map_append, Session.requests_append]
  rfl

/-! ## Shapes of files -/

/-- A flush writes the extents over the content. -/
theorem shapes_flushDeltas (clock : Nat → Int) (now : Int) (path : String) :
    ∀ (extents : List (Nat × Bytes)) (n : Nat) {image : FsImage} {base : Bytes},
      image.shapes path = some (.file (.inline base)) →
      (FsImage.applied clock n image (LandslideFs.flushDeltas now path extents)).shapes path =
        some (.file (.inline (Staging.overlay 0 base extents)))
  | [], n, image, base, h => by
      rw [LandslideFs.flushDeltas, List.map_nil, List.nil_append, FsImage.applied, FsImage.applied,
        FsImage.shapes_apply]
      exact h
  | e :: extents, n, image, base, h => by
      refine shapes_flushDeltas clock now path extents (n + 1) ?_
      rw [FsImage.shapes_apply, Shapes.apply, Function.update_self, h]
      rfl

/-! ## Changes of the size -/

/-- A request that sets the time commits it. -/
theorem LandslideFs.setMeta_snd (env : Outside D S B) (draw : Draw) (ino : Nat) (path : String)
    (mode uid gid : Option UInt32) (mtimeMs : Int) (fs : LandslideFs) (r : Remote D S B) :
    (fs.setMeta env draw ino path mode uid gid (some mtimeMs) r).2 =
      (fs.commit env draw [.setAttr path (mode.map (· &&& 0o7777)) uid gid (some mtimeMs)] r).2 := by
  rw [LandslideFs.setMeta, if_pos (by simp)]
  split
  next res fs' r' heq =>
  rw [heq]
  split
  · rfl
  · split <;> rfl

/-- A change of the size of an inline file is committed with the attributes. -/
theorem LandslideFs.setattr_size (env : Outside D S B) (draw : Draw) {fs : LandslideFs}
    {v : Volume} (hv : fs.backend = .volume v) {ino : Nat} {path : String}
    (hpath : fs.pathOf ino = some path) {base : Bytes} {attrs : NodeMeta}
    (hget : v.image.get path = some (.file (.inline base) attrs)) (size : Nat)
    (mode uid gid : Option UInt32) (mtime : Option TimeOrNow) (r : Remote D S B) :
    let v' := (v.truncate env (draw.now 1) r.bucket path size).2
    ∃ mtimeMs, (fs.setattr env draw ino mode uid gid (some size) mtime r).2 =
      ((LandslideFs.clipHandles ino size { fs with backend := .volume v' }).commit env draw
        [.setAttr path (mode.map (· &&& 0o7777)) uid gid (some mtimeMs)] r).2 := by
  have himage : fs.image = v.image := by rw [LandslideFs.image, hv]; rfl
  have hfile : isFile fs.image path = true := isFile_iff.mpr ⟨_, attrs, by rw [himage]; exact hget⟩
  have htruncate := Volume.truncate_ok (readFile_inline env r.bucket hget v.blocks) (draw.now 1) size
  refine ⟨(mtime.map (·.ms (draw.now 0))).getD (draw.now 0), ?_⟩
  rw [LandslideFs.setattr, hpath]
  dsimp only
  rw [hfile, if_neg (by simp), if_neg (by simp), LandslideFs.truncate, hv]
  dsimp only
  rw [htruncate]
  exact LandslideFs.setMeta_snd ..

/-! ## One handle -/

/-- A handle on a file: the committed content is the base of the stage, and the extents of
the handle are the staged writes. -/
structure Editing (env : Outside D S B) (vol : String) (s : Session D S B) (ino fh : Nat)
    (path : String) (stage : Staging.Stage UInt8) : Prop where
  serves : ∃ committed v, Serves env vol s.fs s.remote committed v
  pathOf : s.fs.pathOf ino = some path
  handle : s.fs.handles[fh]? = some { ino := ino, extents := stage.extents }
  content : s.fs.image.shapes path = some (.file (.inline stage.base))

namespace Editing

variable {env : Outside D S B} {vol : String} {s : Session D S B} {ino fh : Nat} {path : String}
  {stage : Staging.Stage UInt8}

theorem write (h : Editing env vol s ino fh path stage) (draw : Draw) (offset : Nat)
    (data : Bytes) : Editing env vol (s.turn env (.request (.write fh offset data) draw)) ino fh
      path (stage.step 0 (.write offset data)) := by
  obtain ⟨committed, v, hserves⟩ := h.serves
  have hout : s.turn env (.request (.write fh offset data) draw) = { s with fs := { s.fs with
      handles := s.fs.handles.insert fh
        { ino := ino, extents := stage.extents ++ [(offset, data)] } } } := by
    rw [Session.turn, LandslideFs.serve, LandslideFs.write, h.handle]
  rw [hout]
  exact ⟨⟨committed, v, hserves.of_backend rfl⟩, h.pathOf, ExtTreeMap.getElem?_insert_self, h.content⟩

/-- A flush makes the staged writes. -/
theorem flush (h : Editing env vol s ino fh path stage) (henv : env.Lawful vol) {draw : Draw}
    {req : Request} (hreq : s.fs.serve env draw req s.remote =
      LandslideFs.replies .ok (s.fs.flushFh env draw fh s.remote))
    (hsize : (stage.content 0).length ≤ chunk)
    (hclean : (s.turn env (.request req draw)).fs.Clean) :
    Editing env vol (s.turn env (.request req draw)) ino fh path (stage.step 0 .flush) := by
  rw [Session.turn, hreq, LandslideFs.replies_snd] at hclean ⊢
  obtain ⟨committed, v, hserves⟩ := h.serves
  rw [LandslideFs.flushFh, h.handle] at hclean ⊢
  dsimp only at hclean ⊢
  split
  · next hnil =>
    obtain ⟨base, extents⟩ := stage
    obtain rfl : extents = [] := hnil
    exact h
  next hstaged =>
  rw [if_neg hstaged] at hclean
  have hpath : LandslideFs.pathOf { s.fs with
      handles := s.fs.handles.insert fh { ino := ino, extents := [] } } ino = some path := h.pathOf
  rw [hpath] at hclean ⊢
  dsimp only at hclean ⊢
  have hemptied : Serves env vol { s.fs with
      handles := s.fs.handles.insert fh { ino := ino, extents := [] } } s.remote committed v :=
    hserves.of_backend rfl
  obtain ⟨v', r', heq, hserves', hsame⟩ := hemptied.commit_clean henv hemptied.backend draw _
    (by simp [LandslideFs.flushDeltas]) (by simp [InlineWrites, LandslideFs.flushDeltas])
    (by rw [hemptied.clean]; exact oneFile_flush _ _ _) hclean
  rw [heq]
  refine ⟨⟨_, v', hserves'⟩, h.pathOf, ExtTreeMap.getElem?_insert_self, ?_⟩
  have hcontent : v.image.shapes path = some (.file (.inline stage.base)) := by
    have hcontent := h.content
    rw [LandslideFs.image, hserves.backend] at hcontent
    exact hcontent
  have hwritten := shapes_flushDeltas draw.now (draw.now 0) path stage.extents 3 hcontent
  rw [← (v.mutateAll_image draw.now _ 3).1] at hwritten
  exact (hsame path (small_of_shapes hwritten hsize)).trans hwritten

/-- A change of the size is made to the committed content, and cuts what is staged. -/
theorem setSize (h : Editing env vol s ino fh path stage) (henv : env.Lawful vol) (draw : Draw)
    {size : Nat} (hsize : size ≤ chunk) (mode uid gid : Option UInt32) (mtime : Option TimeOrNow)
    (hclean : (s.turn env (.request (.setattr ino mode uid gid (some size) mtime) draw)).fs.Clean) :
    Editing env vol (s.turn env (.request (.setattr ino mode uid gid (some size) mtime) draw)) ino
      fh path (stage.step 0 (.resize size)) := by
  obtain ⟨committed, v, hserves⟩ := h.serves
  have hcontent := h.content
  rw [LandslideFs.image, hserves.backend] at hcontent
  obtain ⟨attrs, hget⟩ := FsImage.get_of_shapes hcontent
  obtain ⟨mtimeMs, hsetattr⟩ := LandslideFs.setattr_size env draw hserves.backend h.pathOf hget size
    mode uid gid mtime s.remote
  rw [Session.turn, LandslideFs.serve, hsetattr] at hclean ⊢
  have hbuffered := hserves.truncate (draw.now 1) s.remote.bucket path size
  have hone := oneFile_truncate env hserves.clean (draw.now 1) s.remote.bucket path size
  have hresized : (v.truncate env (draw.now 1) s.remote.bucket path size).2.image.shapes path =
      some (.file (.inline (Volume.resize stage.base size))) := by
    rw [FsImage.shapes, Volume.get_truncate (readFile_inline env s.remote.bucket hget v.blocks),
      Function.update_self]
    rfl
  generalize (v.truncate env (draw.now 1) s.remote.bucket path size).2 = w
    at hbuffered hone hresized hclean
  obtain ⟨v', r', heq, hserves', hsame⟩ := hbuffered.commit_clean henv rfl draw _
    (by simp) (by simp [InlineWrites]) (hone _ _ _ _ _) hclean
  rw [heq]
  refine ⟨⟨_, v', hserves'⟩, h.pathOf, ?_, ?_⟩
  · show (s.fs.handles.map _)[fh]? = _
    rw [ExtTreeMap.getElem?_map, h.handle, Option.map_some, if_pos rfl]
    rfl
  · have hcommitted : (w.mutateAll draw.now 3 [.setAttr path (mode.map (· &&& 0o7777)) uid gid
        (some mtimeMs)]).image.shapes path = some (.file (.inline (Volume.resize stage.base size))) := by
      rw [← hresized, (w.mutateAll_image draw.now _ 3).1, FsImage.applied, FsImage.applied,
        FsImage.shapes_apply]
      rfl
    refine (hsame path (small_of_shapes hcommitted ?_)).trans hcommitted
    rw [length_resize]
    exact hsize

/-- Each call is a step of the stage. -/
theorem step (h : Editing env vol s ino fh path stage) (henv : env.Lawful vol) (draw : Draw)
    {call : FileCall} (hsize : call.commits = true → ((stage.step 0 call.step).content 0).length ≤ chunk)
    (hclean : (s.turn env (.request (call.request ino fh) draw)).fs.Clean) :
    Editing env vol (s.turn env (.request (call.request ino fh) draw)) ino fh path
      (stage.step 0 call.step) := by
  cases call with
  | write offset data => exact h.write draw offset data
  | setSize size mode uid gid mtime =>
      refine h.setSize henv draw ?_ mode uid gid mtime hclean
      have hresized := hsize rfl
      rwa [Staging.Stage.content_step, FileCall.step, Staging.Step.apply, Staging.length_resize]
        at hresized
  | flush => exact h.flush henv rfl (hsize rfl) hclean
  | fsync => exact h.flush henv rfl (hsize rfl) hclean

/-- The run of the calls is a run of the stage. -/
theorem run (h : Editing env vol s ino fh path stage) (henv : env.Lawful vol)
    {calls : List (FileCall × Draw)}
    (hcalls : ∀ earlier c later, calls = earlier ++ c :: later →
      (s.calls env ino fh (earlier ++ [c])).fs.Clean ∧ (c.1.commits = true →
        (contentAfter (stage.content 0) (earlier ++ [c])).length ≤ chunk)) :
    Editing env vol (s.calls env ino fh calls) ino fh path
      (stage.run 0 (calls.map (·.1.step))) := by
  refine Guarded.run_of_step (P := fun calls => Editing env vol (s.calls env ino fh calls) ino fh
    path (stage.run 0 (calls.map (·.1.step)))) h (fun earlier c hearlier hc => ?_) hcalls
  obtain ⟨hclean, hsize⟩ := hc
  rw [contentAfter, ← Staging.Stage.content_run, List.map_append, List.map_singleton,
    Staging.Stage.run_concat] at hsize
  rw [Session.calls_concat] at hclean ⊢
  rw [List.map_append, List.map_singleton, Staging.Stage.run_concat]
  exact hearlier.step henv c.2 hsize hclean

end Editing

/-! ## Runs -/

/-- A handle that is open on a file of at most a chunk, with nothing staged. -/
structure Opened (env : Outside D S B) (s : Session D S B) (ino fh : Nat) (path : String)
    (content : Bytes) : Prop where
  pathOf : s.fs.pathOf ino = some path
  handle : s.fs.handles[fh]? = some { ino := ino }
  file : ∃ c attrs, s.fs.image.get path = some (.file c attrs) ∧ c.len ≤ chunk ∧
    contentBytes env s.remote.bucket c = .ok content

/-- After every run of requests of a mount whose commits succeed, for every handle that is
open by then and every run of its calls whose commits succeed, with a size of at most a
chunk where something is committed: after a last flush, a mount of the volume reads the
content that the writes and the changes of the size, one by one and in call order, make of
the content at the start. -/
theorem edits_committed (env : Outside D S B) (vol : String) (henv : env.Lawful vol)
    {committed : List Delta} {r r₀ : Remote D S B} (hstored : Stored env vol r committed)
    (hblocks : LargeBlockWrites committed) {clock : Nat → Int} {v : Volume}
    (hmount : mount env vol clock r = (.ok v, r₀)) (before : List (Request × Draw))
    (hbefore : ∀ earlier q later, before = earlier ++ q :: later →
      (Session.requests env ⟨{ backend := .volume v }, r₀⟩ (earlier ++ [q])).fs.Clean)
    {s : Session D S B} (hs : s = Session.requests env ⟨{ backend := .volume v }, r₀⟩ before)
    {ino fh : Nat} {path : String} {content : Bytes} (hopen : Opened env s ino fh path content)
    (calls : List (FileCall × Draw)) {last : FileCall × Draw} (hlast : last.1.flushes = true)
    (hcalls : ∀ earlier c later, calls ++ [last] = earlier ++ c :: later →
      (s.calls env ino fh (earlier ++ [c])).fs.Clean ∧
        (c.1.commits = true → (contentAfter content (earlier ++ [c])).length ≤ chunk))
    (clock' : Nat → Int) :
    ∃ w r', mount env vol clock' (s.calls env ino fh (calls ++ [last])).remote = (.ok w, r') ∧
      (readFile env r'.bucket w.image path w.blocks).1 = .ok (some (contentAfter content calls)) := by
  subst hs
  obtain ⟨committed₁, v₁, hserves⟩ :=
    (Serves.mount hstored hblocks henv hmount).run henv (s := ⟨_, r₀⟩) hbefore
  obtain ⟨c, attrs, hget, hlen, hbytes⟩ := hopen.file
  -- a file of at most a chunk is not in blocks
  have hinline : c = .inline content := by
    cases c with
    | inline bytes =>
        rw [contentBytes_inline] at hbytes
        rw [Except.ok.inj hbytes]
    | blocks refs size =>
        refine absurd hlen (Nat.not_le_of_lt (hserves.blocks.replayed path refs size ?_))
        have hshapes := hserves.shapes
        rw [hserves.clean, List.append_nil] at hshapes
        rw [LandslideFs.image, hserves.backend] at hget
        rw [← hshapes, FsImage.shapes]
        exact congrArg (Option.map Node.shape) hget
  subst hinline
  have hstart : Editing env vol _ ino fh path { base := content } :=
    ⟨⟨committed₁, v₁, hserves⟩, hopen.pathOf, hopen.handle, congrArg (Option.map Node.shape) hget⟩
  obtain ⟨⟨committed₂, v₂, hserves'⟩, -, -, hcontent⟩ := hstart.run henv hcalls
  have hflush : last.1.step = .flush := by
    cases hlast' : last.1 with
    | write | setSize => rw [hlast'] at hlast; cases hlast
    | flush | fsync => rfl
  rw [List.map_append, List.map_singleton, hflush, Staging.Stage.run_concat] at hcontent
  -- what is committed in the end
  obtain ⟨w, r', hmount', -, -, readings, himage⟩ := hserves'.stored.mount henv clock'
  refine ⟨w, r', hmount', ?_⟩
  have hshapes := hserves'.shapes
  rw [hserves'.clean, List.append_nil] at hshapes
  have hw : w.image.shapes path = some (.file (.inline (contentAfter content calls))) := by
    rw [LandslideFs.image, hserves'.backend] at hcontent
    rw [himage, FsImage.shapes_applied_congr readings (fun _ => 0) committed₂ 0 0 rfl]
    refine (congrFun hshapes path).symm.trans (hcontent.trans ?_)
    rw [Staging.Stage.step, Staging.Stage.content_run]
    rfl
  obtain ⟨attrs', hget'⟩ := FsImage.get_of_shapes hw
  rw [readFile_inline env r'.bucket hget']

end

/-- A file is created. -/
def createdFile : List (Request × Draw) := [(.create 1 "a" 0o600 0 7 7, drawn)]

/-- It is written, cut and flushed. -/
def cutCalls : List (FileCall × Draw) :=
  [(.write 0 [1, 2, 3], drawn), (.setSize 2 none none none none, drawn)]

/-- The size is changed before the write is committed, and the write is cut. -/
theorem edits_committed_cut : ∃ w r', mount named "v" (fun _ => 1)
      ((newSession.requests named createdFile).calls named 2 1
        (cutCalls ++ [(.flush, drawn)])).remote = (.ok w, r') ∧
    (readFile named r'.bucket w.image "/a" w.blocks).1 = .ok (some [1, 2]) := by
  have hopen : Opened named (newSession.requests named createdFile) 2 1 "/a" [] := by
    have hfile : contentAt (newSession.requests named createdFile).fs.image "/a" =
        some (.inline []) := by decide +kernel
    obtain ⟨attrs, hget⟩ := FsImage.get_of_shapes (contentAt_eq_some.mp hfile)
    exact ⟨by decide +kernel, by decide +kernel, _, attrs, hget, Nat.zero_le _, rfl⟩
  have hmount : mount named "v" (fun _ => 1) {} =
      (.ok firstHandle, (runActs named "v" {} mounted).remote) := rfl
  exact edits_committed named "v" (named_lawful "v") (.empty named "v")
    (fun _ _ _ h => absurd h List.not_mem_nil) hmount createdFile
    (Guarded.of_fin (fun earlier q => (newSession.requests named (earlier ++ [q])).fs.Clean)
      (by decide +kernel)) rfl hopen cutCalls rfl
    (Guarded.of_fin (fun earlier c =>
      ((newSession.requests named createdFile).calls named 2 1 (earlier ++ [c])).fs.Clean ∧
        (c.1.commits = true → (contentAfter [] (earlier ++ [c])).length ≤ chunk)) (by decide +kernel))
    fun _ => 1

end Landslide.Fuse
