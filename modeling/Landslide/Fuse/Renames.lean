import Landslide.Fuse.Commit
import Landslide.Fuse.Fs

/-!
# The inode tables of a mount

A request sees paths for the first time, or it is a rename that is committed and re-keys
a subtree (`serve_state`).  So over a run the inode tables stay inverse to each other
exactly if every such rename lands on paths without an inode (`tables_inverse_iff`).  A
rename over a file that was looked up takes its path and leaves its inode there
(`rename_over_shares_path`).
-/

namespace Landslide.Fuse

open Std TxnKv

section

variable {D S B : Type}

/-! ## What the calls leave -/

theorem LandslideFs.commit_frame [Payload D] (env : Outside D S B) (draw : Draw)
    (deltas : List Delta) (fs : LandslideFs) (r : Remote D S B) :
    ∃ backend, (fs.commit env draw deltas r).2.1 = { fs with backend := backend } := by
  rw [LandslideFs.commit]
  split
  · exact ⟨_, rfl⟩
  · split <;> exact ⟨_, rfl⟩

theorem LandslideFs.truncate_frame (env : Outside D S B) (draw : Draw) (bucket : Bucket B)
    (path : String) (size : Nat) (fs : LandslideFs) :
    ∃ backend, (fs.truncate env draw bucket path size).2 = { fs with backend := backend } := by
  rw [LandslideFs.truncate]
  split
  · exact ⟨_, rfl⟩
  · split <;> exact ⟨_, rfl⟩

theorem LandslideFs.flushFh_frame [Payload D] (env : Outside D S B) (draw : Draw) (fh : Nat)
    (fs : LandslideFs) (r : Remote D S B) : ∃ backend handles,
      (fs.flushFh env draw fh r).2.1 = { fs with backend := backend, handles := handles } := by
  rw [LandslideFs.flushFh]
  split
  · exact ⟨_, _, rfl⟩
  · dsimp only
    split
    · exact ⟨_, _, rfl⟩
    · split
      · exact ⟨_, _, rfl⟩
      · obtain ⟨backend, hcommit⟩ := LandslideFs.commit_frame env draw
          (flushDeltas (draw.now 0) _ _) _ r
        rw [hcommit]
        exact ⟨_, _, rfl⟩

/-! ## First sights -/

/-- The tables after some paths were looked up. -/
def Inodes.seen (t : Inodes) (paths : List String) : Inodes :=
  paths.foldl (fun t path => (t.ino path).2) t

theorem Inodes.Inverse.seen {t : Inodes} (h : t.Inverse) (paths : List String) :
    (t.seen paths).Inverse := by
  induction paths generalizing t with
  | nil => exact h
  | cons path paths ih => exact ih (h.ino path)

theorem LandslideFs.listChildren_state (dir : String) : ∀ (kids : List (String × FileType))
    (offset : Nat) (fs : LandslideFs), (listChildren dir kids offset fs).2.state =
      fs.state.seen (kids.map fun kid => join dir kid.1)
  | [], _, _ => rfl
  | (_, _) :: kids, offset, _ => listChildren_state dir kids (offset + 1) _

@[simp] theorem LandslideFs.replies_snd (reply : Reply)
    (out : Except Errno Unit × LandslideFs × Remote D S B) :
    (LandslideFs.replies reply out).2 = out.2 := by
  obtain ⟨res, fs, r⟩ := out
  cases res <;> rfl

theorem LandslideFs.created_state (path : String) (fs : LandslideFs) (r : Remote D S B) :
    (fs.created path r).2.1.state = fs.state.seen [path] := rfl

theorem LandslideFs.fetchFile_state (env : Outside D S B) (bucket : Bucket B) (path : String)
    (fs : LandslideFs) : (fs.fetchFile env bucket path).state = fs.state := by
  rw [LandslideFs.fetchFile]
  split <;> rfl

theorem LandslideFs.readRange_state (env : Outside D S B) (bucket : Bucket B) (path : String)
    (offset len : Nat) (fs : LandslideFs) :
    (fs.readRange env bucket path offset len).2.state = fs.state := by
  rw [LandslideFs.readRange]
  dsimp only
  split <;> rfl

theorem LandslideFs.read_state (env : Outside D S B) (bucket : Bucket B) (ino fh offset size : Nat)
    (fs : LandslideFs) : (fs.read env bucket ino fh offset size).2.state = fs.state := by
  rw [LandslideFs.read]
  split
  · rfl
  next path hpath =>
  have hstate := LandslideFs.readRange_state env bucket path offset size fs
  split <;> next heq => rw [heq] at hstate; exact hstate

/-- The paths of a rename that a request carries out. -/
def LandslideFs.renames [Payload D] (env : Outside D S B) (draw : Draw) (req : Request)
    (fs : LandslideFs) (r : Remote D S B) : Option (String × String) :=
  match req with
  | .rename parent name newparent newname flags =>
      match fs.renamePaths parent name newparent newname flags with
      | .error _ => none
      | .ok (source, dest) =>
          match (fs.commit env draw [.rename source dest] r).1 with
          | .error _ => none
          | .ok () => some (source, dest)
  | _ => none

variable [Payload D]

theorem LandslideFs.setMeta_frame (env : Outside D S B) (draw : Draw) (ino : Nat) (path : String)
    (mode uid gid : Option UInt32) (mtimeMs : Option Int) (fs : LandslideFs) (r : Remote D S B) :
    ∃ backend, (fs.setMeta env draw ino path mode uid gid mtimeMs r).2.1 =
      { fs with backend := backend } := by
  rw [LandslideFs.setMeta]
  split
  next res fs' r' heq =>
  have hframe : ∃ backend, fs' = { fs with backend := backend } := by
    split at heq
    · obtain ⟨backend, hcommit⟩ := LandslideFs.commit_frame env draw
        [.setAttr path (mode.map (· &&& 0o7777)) uid gid mtimeMs] fs r
      rw [heq] at hcommit
      exact ⟨backend, hcommit⟩
    · cases heq
      exact ⟨_, rfl⟩
  split
  · exact hframe
  · split <;> exact hframe

theorem LandslideFs.setattr_state (env : Outside D S B) (draw : Draw) (ino : Nat)
    (mode uid gid : Option UInt32) (size : Option Nat) (mtime : Option TimeOrNow)
    (fs : LandslideFs) (r : Remote D S B) :
    (fs.setattr env draw ino mode uid gid size mtime r).2.1.state = fs.state := by
  rw [LandslideFs.setattr]
  split
  · rfl
  next path hpath =>
  dsimp only
  split
  · rfl
  split
  · obtain ⟨backend, hmeta⟩ := LandslideFs.setMeta_frame env draw ino path mode uid gid
      (mtime.map (·.ms (draw.now 0))) fs r
    rw [hmeta]
  · next size =>
    split
    · rfl
    obtain ⟨backend, htruncate⟩ := LandslideFs.truncate_frame env draw r.bucket path size fs
    split
    · next heq =>
      rw [heq] at htruncate
      exact congrArg (·.state) htruncate
    · next fs' heq =>
      obtain ⟨backend', hmeta⟩ := LandslideFs.setMeta_frame env draw ino path mode uid gid
        (some ((mtime.map (·.ms (draw.now 0))).getD (draw.now 0)))
        (fs'.clipHandles ino size) r
      rw [hmeta]
      rw [heq] at htruncate
      exact congrArg (·.state) htruncate

/-- A commit keeps the tables. -/
theorem LandslideFs.commit_state (env : Outside D S B) (draw : Draw) (deltas : List Delta)
    (fs : LandslideFs) (r : Remote D S B) :
    (fs.commit env draw deltas r).2.1.state = fs.state := by
  obtain ⟨backend, hcommit⟩ := LandslideFs.commit_frame env draw deltas fs r
  rw [hcommit]

theorem LandslideFs.make_state (env : Outside D S B) (draw : Draw) (parent : Nat) (name : String)
    (deltas : String → List Delta) (fs : LandslideFs) (r : Remote D S B) :
    ∃ paths, (fs.make env draw parent name deltas r).2.1.state = fs.state.seen paths := by
  rw [LandslideFs.make]
  split
  · exact ⟨[], rfl⟩
  next parentPath hparent =>
  dsimp only
  split
  · exact ⟨[], rfl⟩
  split
  · exact ⟨[], rfl⟩
  have hstate := LandslideFs.commit_state env draw (deltas (join parentPath name)) fs r
  split
  · next heq =>
    rw [heq] at hstate
    exact ⟨[], hstate⟩
  · next heq =>
    rw [heq] at hstate
    refine ⟨[join parentPath name], ?_⟩
    rw [← hstate]
    rfl

theorem LandslideFs.create_state (env : Outside D S B) (draw : Draw) (parent : Nat) (name : String)
    (mode umask uid gid : UInt32) (fs : LandslideFs) (r : Remote D S B) :
    ∃ paths, (fs.create env draw parent name mode umask uid gid r).2.1.state =
      fs.state.seen paths := by
  rw [LandslideFs.create]
  split
  · exact ⟨[], rfl⟩
  next parentPath hparent =>
  dsimp only
  split
  · exact ⟨[], rfl⟩
  split
  · exact ⟨[join parentPath name], by rw [created_state, fetchFile_state]⟩
  · exact ⟨[], rfl⟩
  · exact ⟨[], rfl⟩
  have hstate := LandslideFs.commit_state env draw
    [.write (join parentPath name) 0 (.inline []),
      .setAttr (join parentPath name) (some (newMode mode umask)) (some uid) (some gid) none] fs r
  split
  · next heq =>
    rw [heq] at hstate
    exact ⟨[], hstate⟩
  · next heq =>
    rw [heq] at hstate
    exact ⟨[join parentPath name], by rw [created_state, hstate]⟩

theorem LandslideFs.flushFh_state (env : Outside D S B) (draw : Draw) (fh : Nat)
    (fs : LandslideFs) (r : Remote D S B) :
    (fs.flushFh env draw fh r).2.1.state = fs.state := by
  obtain ⟨backend, handles, hflush⟩ := LandslideFs.flushFh_frame env draw fh fs r
  rw [hflush]

/-- A request re-keys the subtree that it renames, or it only sees paths. -/
theorem LandslideFs.serve_state (env : Outside D S B) (draw : Draw) (req : Request)
    (fs : LandslideFs) (r : Remote D S B) :
    (∃ source dest, fs.renames env draw req r = some (source, dest) ∧
      (fs.serve env draw req r).2.1.state = fs.state.renameSubtree draw.order source dest) ∨
    (fs.renames env draw req r = none ∧
      ∃ paths, (fs.serve env draw req r).2.1.state = fs.state.seen paths) := by
  cases req with
  | rename parent name newparent newname flags =>
      rw [LandslideFs.serve, LandslideFs.rename, LandslideFs.renames]
      cases fs.renamePaths parent name newparent newname flags with
      | error e => exact .inr ⟨rfl, [], rfl⟩
      | ok paths =>
          obtain ⟨source, dest⟩ := paths
          dsimp only
          have hstate := LandslideFs.commit_state env draw [.rename source dest] fs r
          cases hcommit : fs.commit env draw [.rename source dest] r with
          | mk res rest =>
          obtain ⟨fs', r'⟩ := rest
          rw [hcommit] at hstate
          cases res with
          | error e => exact .inr ⟨rfl, [], hstate⟩
          | ok u =>
              refine .inl ⟨source, dest, rfl, ?_⟩
              dsimp only at hstate ⊢
              rw [hstate]
  | lookup parent name =>
      refine .inr ⟨rfl, ?_⟩
      rw [LandslideFs.serve, LandslideFs.lookup]
      split
      · exact ⟨[], rfl⟩
      next parentPath hparent =>
      dsimp only
      split
      · exact ⟨[], rfl⟩
      split
      · exact ⟨[], rfl⟩
      · exact ⟨[join parentPath name], rfl⟩
  | readdir ino offset =>
      refine .inr ⟨rfl, ?_⟩
      rw [LandslideFs.serve, LandslideFs.readdir]
      split
      · exact ⟨[], rfl⟩
      next dir hdir =>
      dsimp only
      split
      · exact ⟨[], rfl⟩
      · exact ⟨parentPath dir :: (children fs.image dir).map fun kid => join dir kid.1,
          LandslideFs.listChildren_state dir _ _ _⟩
  | setattr ino mode uid gid size mtime =>
      exact .inr ⟨rfl, [], LandslideFs.setattr_state env draw ino mode uid gid size mtime fs r⟩
  | symlink parent name target uid gid =>
      exact .inr ⟨rfl, LandslideFs.make_state env draw parent name _ fs r⟩
  | mkdir parent name mode umask uid gid =>
      exact .inr ⟨rfl, LandslideFs.make_state env draw parent name _ fs r⟩
  | create parent name mode umask uid gid =>
      exact .inr ⟨rfl, LandslideFs.create_state env draw parent name mode umask uid gid fs r⟩
  | «open» ino =>
      refine .inr ⟨rfl, [], ?_⟩
      rw [LandslideFs.serve, LandslideFs.open]
      split
      · rfl
      · split <;> rfl
  | read ino fh offset size =>
      exact .inr ⟨rfl, [], LandslideFs.read_state env r.bucket ino fh offset size fs⟩
  | write fh offset data =>
      refine .inr ⟨rfl, [], ?_⟩
      rw [LandslideFs.serve, LandslideFs.write]
      split <;> rfl
  | flush fh =>
      refine .inr ⟨rfl, [], ?_⟩
      rw [LandslideFs.serve, LandslideFs.flush, LandslideFs.replies_snd]
      exact LandslideFs.flushFh_state env draw fh fs r
  | fsync fh =>
      refine .inr ⟨rfl, [], ?_⟩
      rw [LandslideFs.serve, LandslideFs.fsync, LandslideFs.replies_snd]
      exact LandslideFs.flushFh_state env draw fh fs r
  | release fh =>
      refine .inr ⟨rfl, [], ?_⟩
      rw [LandslideFs.serve, LandslideFs.release]
      dsimp only
      rw [LandslideFs.replies_snd]
      exact LandslideFs.flushFh_state env draw fh fs r
  | unlink parent name =>
      refine .inr ⟨rfl, [], ?_⟩
      rw [LandslideFs.serve, LandslideFs.unlink]
      split
      · rfl
      dsimp only
      split
      · rfl
      · rw [LandslideFs.replies_snd]
        exact LandslideFs.commit_state env draw _ fs r
      · rw [LandslideFs.replies_snd]
        exact LandslideFs.commit_state env draw _ fs r
      · rfl
  | rmdir parent name =>
      refine .inr ⟨rfl, [], ?_⟩
      rw [LandslideFs.serve, LandslideFs.rmdir]
      split
      · rfl
      dsimp only
      split
      · split
        · rfl
        · rw [LandslideFs.replies_snd]
          exact LandslideFs.commit_state env draw _ fs r
      · rfl
  | setxattr ino name value =>
      refine .inr ⟨rfl, [], ?_⟩
      rw [LandslideFs.serve, LandslideFs.setxattr]
      split
      · rfl
      split
      · rfl
      · rw [LandslideFs.replies_snd]
        exact LandslideFs.commit_state env draw _ fs r
  | removexattr ino name =>
      refine .inr ⟨rfl, [], ?_⟩
      rw [LandslideFs.serve, LandslideFs.removexattr]
      split
      · rfl
      split
      · rfl
      split
      · rw [LandslideFs.replies_snd]
        exact LandslideFs.commit_state env draw _ fs r
      · rfl

/-! ## Runs -/

/-- If a turn carries out a rename, it lands on paths without an inode. -/
def Session.Lands (env : Outside D S B) (s : Session D S B) (t : Turn D S B) : Prop :=
  ∀ req draw source dest, t = .request req draw →
    s.fs.renames env draw req s.remote = some (source, dest) →
      s.fs.state.Lands draw.order source dest

/-- A turn keeps the tables inverse exactly if its rename lands as it should. -/
theorem Session.turn_inverse_iff (env : Outside D S B) {s : Session D S B}
    (h : s.fs.state.Inverse) (t : Turn D S B) :
    (s.turn env t).fs.state.Inverse ↔ s.Lands env t := by
  cases t with
  | request req draw =>
      show (s.fs.serve env draw req s.remote).2.1.state.Inverse ↔ _
      rcases s.fs.serve_state env draw req s.remote with
        ⟨source, dest, hrenames, hstate⟩ | ⟨hnone, paths, hstate⟩
      · rw [hstate, Inodes.renameSubtree_inverse_iff h]
        constructor
        · rintro hlands req' draw' source' dest' ⟨⟩ hrenames'
          rw [hrenames] at hrenames'
          cases hrenames'
          exact hlands
        · exact fun hlands => hlands req draw source dest rfl hrenames
      · rw [hstate]
        refine iff_of_true (h.seen paths) ?_
        rintro req' draw' source' dest' ⟨⟩ hrenames'
        rw [hnone] at hrenames'
        cases hrenames'
  | outside remote => exact iff_of_true h (by rintro req draw source dest ⟨⟩)
  | synced replica =>
      refine iff_of_true ?_ (by rintro req draw source dest ⟨⟩)
      rw [Session.turn]
      split <;> exact h

theorem Session.run_inverse_iff (env : Outside D S B) (turns : List (Turn D S B)) :
    ∀ {s : Session D S B}, s.fs.state.Inverse →
      ((∀ n, (Session.run env s (turns.take n)).fs.state.Inverse) ↔
        ∀ n t, turns[n]? = some t → (Session.run env s (turns.take n)).Lands env t) := by
  induction turns with
  | nil =>
      intro s h
      refine iff_of_true (fun n => ?_) (by simp)
      rw [List.take_nil]
      exact h
  | cons t turns ih =>
      intro s h
      have hstep := Session.turn_inverse_iff env h t
      constructor
      · intro hall n t' ht'
        have hnext : (s.turn env t).fs.state.Inverse := hall 1
        cases n with
        | zero =>
            rw [List.getElem?_cons_zero] at ht'
            cases ht'
            exact hstep.mp hnext
        | succ n => exact (ih hnext).mp (fun m => hall (m + 1)) n t' ht'
      · intro hlands n
        cases n with
        | zero => exact h
        | succ n =>
            exact (ih (hstep.mpr (hlands 0 t rfl))).mpr
              (fun m t' ht' => hlands (m + 1) t' ht') n

/-- In every run of a mount, whatever its requests, their failures and the order in which
the tables are listed: `path_of` and `ino_of` are inverse to each other, and every inode
below the next one has a path, in every state that is reached exactly if each rename that
is committed lands on paths without an inode. -/
theorem tables_inverse_iff (env : Outside D S B) (backend : Backend) (r : Remote D S B)
    (turns : List (Turn D S B)) :
    let start : Session D S B := { fs := { backend := backend }, remote := r }
    (∀ n, (Session.run env start (turns.take n)).fs.state.Inverse) ↔
      ∀ n t, turns[n]? = some t → (Session.run env start (turns.take n)).Lands env t :=
  Session.run_inverse_iff env turns Inodes.inverse_new

end

/-! ## A rename over a file -/

/-- A mount of a new volume. -/
def newSession : Session Delta Manifest (Segment ⊕ Bytes) where
  fs := { backend := .volume firstHandle }
  remote := (runActs named "v" {} mounted).remote

/-- Draws of a request that does not fail. -/
def drawn : Draw where
  now := fun _ => 5
  stamps := stamps
  fault := none
  order := .sorted
  add := fun _ => true

/-- Two files are created and one is renamed over the other. -/
def renamedOver : List (Turn Delta Manifest (Segment ⊕ Bytes)) :=
  [.request (.create 1 "a" 0o644 0 0 0) drawn, .request (.create 1 "b" 0o644 0 0 0) drawn,
    .request (.rename 1 "a" 1 "b" 0) drawn]

/-- The two inodes then have one path, which leads to the first of them only. -/
theorem rename_over_shares_path :
    let t := (Session.run named newSession renamedOver).fs.state
    t.pathOf[2]? = some "/b" ∧ t.pathOf[3]? = some "/b" ∧ t.inoOf["/b"]? = some 2 ∧
      ¬ t.Inverse := by
  intro t
  have htwo : t.pathOf[2]? = some "/b" := by decide +kernel
  have hthree : t.pathOf[3]? = some "/b" := by decide +kernel
  refine ⟨htwo, hthree, by decide +kernel, fun h => ?_⟩
  have heq := h.tables.key_inj htwo hthree
  cases heq

end Landslide.Fuse
