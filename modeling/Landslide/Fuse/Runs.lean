import Landslide.Fuse.Volumes

/-!
# Mounts find what was committed

A volume is mounted, changed, committed, checkpointed and mounted again, in any
order, and any call may fail.  Mounting drops the handle before.  Whatever the run,
a mount builds the image of all committed deltas in order
(`mount_replays_committed`), wherever the checkpoints cut them.
-/

namespace Landslide.Fuse

open Std TxnKv

/-! ## Runs -/

/-- One operation of a run, with what it reads from the clock and draws. -/
inductive Op where
  | mount (clock : Nat → Int)
  | mutate (now : Int) (d : Delta)
  | truncate (now : Int) (path : String) (size : Nat)
  | commit (now : Int) (stamps : Nat → Nat → Stamp) (fault : Option Fault)
  | checkpoint (now : Int) (stamps : Nat → Nat → Stamp) (clock : Nat → Int) (ulid : String)
      (fault : Option Fault)

/-- A state of a run.  `committed` is recorded for the statements only. -/
structure State (D S B : Type) where
  remote : Remote D S B := {}
  volume : Option Volume := none
  /-- The deltas of the commits that succeeded, as they were appended. -/
  committed : List Delta := []

section

variable {D S B : Type} [Payload D] (env : Outside D S B) (vol : String)

def step (st : State D S B) (op : Op) : State D S B :=
  match op, st.volume with
  | .mount clock, _ =>
      let out := mount env vol clock st.remote
      { st with remote := out.2, volume := out.1.toOption }
  | .mutate now d, some v => { st with volume := some (v.mutate now d) }
  | .truncate now path size, some v =>
      { st with volume := some (v.truncate env now st.remote.bucket path size).2 }
  | .commit now stamps fault, some v =>
      let out := v.commit env now stamps fault st.remote
      { remote := out.2.2
        volume := some out.2.1
        committed := st.committed ++ if out.1.isOk then v.upgraded env else [] }
  | .checkpoint now stamps clock ulid fault, some v =>
      let out := v.checkpoint env now stamps clock ulid fault st.remote
      -- the commit that the checkpoint starts with
      let committed := (v.commit env now stamps fault st.remote).1.isOk
      { remote := out.2.2
        volume := some out.2.1
        committed := st.committed ++ if committed then v.upgraded env else [] }
  | _, none => st

/-- The state after some operations on an empty store. -/
def run (ops : List Op) : State D S B := ops.foldl (step env vol) {}

end

section

variable {D S B : Type} {env : Outside D S B} {vol : String}

/-! ## The invariant -/

/-- What holds in every state of a run. -/
structure Inv (env : Outside D S B) (vol : String) (st : State D S B) : Prop where
  stored : Stored env vol st.remote st.committed
  attached : ∀ v, st.volume = some v → Attached vol st.remote v

theorem Inv.start (env : Outside D S B) (vol : String) : Inv env vol {} where
  stored := .empty env vol
  attached := by simp

/-- Changing the buffer of a handle leaves it attached. -/
theorem Attached.truncate {r : Remote D S B} {v : Volume} (h : Attached vol r v) (now : Int)
    (bucket : Bucket B) (path : String) (size : Nat) :
    Attached vol r (v.truncate env now bucket path size).2 := by
  rw [Volume.truncate]
  split
  · exact h.congr rfl rfl rfl
  · exact h.congr rfl rfl rfl

theorem committed_step [Payload D] (env : Outside D S B) (vol : String) (st : State D S B) (op : Op) :
    ∃ more, (step env vol st op).committed = st.committed ++ more := by
  cases op with
  | mount clock => exact ⟨[], by simp [step]⟩
  | mutate | truncate | commit | checkpoint =>
      cases hv : st.volume with
      | none => exact ⟨[], by simp [step, hv]⟩
      | some v =>
          simp only [step, hv]
          first
            | exact ⟨_, rfl⟩
            | exact ⟨[], by simp⟩

/-- Every operation keeps the invariant. -/
theorem Inv.step [Payload D] {st : State D S B} (h : Inv env vol st) (henv : env.Lawful vol)
    (op : Op) (hn : ∀ d ∈ (step env vol st op).committed, ¬ d.NestedRename) :
    Inv env vol (step env vol st op) := by
  cases op with
  | mount clock =>
      obtain ⟨v, r', hmount, hst, hatt, -⟩ := h.stored.mount henv clock
      simp only [Fuse.step, hmount]
      refine ⟨hst, ?_⟩
      rintro v' ⟨⟩
      exact hatt
  | mutate now d =>
      cases hv : st.volume with
      | none => simpa only [Fuse.step, hv] using h
      | some v =>
          simp only [Fuse.step, hv]
          refine ⟨h.stored, ?_⟩
          rintro v' ⟨⟩
          exact (h.attached v hv).congr rfl rfl rfl
  | truncate now path size =>
      cases hv : st.volume with
      | none => simpa only [Fuse.step, hv] using h
      | some v =>
          simp only [Fuse.step, hv]
          refine ⟨h.stored, ?_⟩
          rintro v' ⟨⟩
          exact (h.attached v hv).truncate now st.remote.bucket path size
  | commit now stamps fault =>
      cases hv : st.volume with
      | none => simpa only [Fuse.step, hv] using h
      | some v =>
          simp only [Fuse.step, hv]
          obtain ⟨hst, hatt⟩ := h.stored.commit henv (h.attached v hv) now stamps fault
          refine ⟨hst, ?_⟩
          rintro v' ⟨⟩
          exact hatt
  | checkpoint now stamps clock ulid fault =>
      cases hv : st.volume with
      | none => simpa only [Fuse.step, hv] using h
      | some v =>
          simp only [Fuse.step, hv] at hn ⊢
          obtain ⟨hst, hatt⟩ :=
            h.stored.checkpoint henv (h.attached v hv) now stamps clock ulid fault hn
          refine ⟨hst, ?_⟩
          rintro v' ⟨⟩
          exact hatt

/-- Every run keeps the invariant, as long as no rename between nested paths was
committed. -/
theorem Inv.run [Payload D] (henv : env.Lawful vol) (ops : List Op)
    (hn : ∀ d ∈ (run env vol ops).committed, ¬ d.NestedRename) :
    Inv env vol (Fuse.run env vol ops) := by
  -- the last operation comes on top, so that what it commits is what is committed last
  induction ops using List.reverseRecOn with
  | nil => exact .start env vol
  | append_singleton ops op ih =>
      rw [Fuse.run, List.foldl_concat] at hn ⊢
      refine Inv.step (ih fun d hd => ?_) henv op hn
      obtain ⟨more, hmore⟩ := committed_step env vol (Fuse.run env vol ops) op
      exact hn d (by rw [Fuse.run] at hd hmore; rw [hmore]; exact List.mem_append_left _ hd)

end

/-! ## Concrete runs -/

/-- Codecs that keep the value, ULIDs of distinct lengths, bytes that are their own
hash, and paths as they are. -/
def plain : Outside Delta Manifest (Segment ⊕ Bytes) where
  delta := ⟨.ok, .ok⟩
  segment := ⟨fun s => .ok (.inl s), fun object => object.elim .ok fun _ => .error ioError⟩
  manifest := ⟨.ok, .ok⟩
  object := .inr
  bytes object := object.elim (fun _ => []) id
  sha256 b := String.ofList (b.map fun x => Char.ofNat x.toNat)
  ulid i := String.ofList (List.replicate i 'u')
  path := id

/-- The size of the file data of a delta. -/
def dataSize : Delta → Nat
  | .write _ _ (.inline bytes) => bytes.length
  | .write _ _ (.blocks blocks) => 64 * blocks.length
  | _ => 0

instance : Payload Delta := ⟨fun d => 100 + dataSize d⟩

theorem plain_lawful (vol : String) : plain.Lawful vol where
  delta a := ⟨a, rfl, rfl⟩
  segment a := ⟨.inl a, rfl, rfl⟩
  manifest a := ⟨a, rfl, rfl⟩
  fresh i j h := by
    have hlen := congrArg String.length h
    simpa [Outside.segmentPath, plain, toString] using hlen
  apart i hash h := by
    have hhead := congrArg (fun s => s.toList.head?) h
    simp [Outside.segmentPath, Outside.blockPath, plain, toString] at hhead
  stable _ := rfl

/-- The stamps of the concrete runs. -/
def stamps : Nat → Nat → Stamp := fun _ _ => { ulid := "e", nowMs := 5 }

section

variable {D S B : Type}

/-- After every run, wherever its checkpoints stand, a mount succeeds and builds the
image of all committed deltas applied in order to the empty image, at some readings
of the clock. -/
theorem mount_replays_committed [Payload D] (env : Outside D S B) (vol : String)
    (henv : env.Lawful vol) (ops : List Op)
    (hn : ∀ d ∈ (Fuse.run env vol ops).committed, ¬ d.NestedRename) (clock : Nat → Int) :
    ∃ v r, mount env vol clock (Fuse.run env vol ops).remote = (.ok v, r) ∧
      ∃ readings : Nat → Int,
        v.image = FsImage.applied readings 0 {} (Fuse.run env vol ops).committed := by
  obtain ⟨v, r, hmount, -, -, himage⟩ := (Inv.run henv ops hn).stored.mount henv clock
  exact ⟨v, r, hmount, himage⟩

/-- A directory is filled, sealed and renamed, its old name is used again, and one of
its files is removed, over two checkpoints and a remount. -/
def renamed : List Op :=
  [.mount fun _ => 1, .mutate 1 (.mkdir "/a"), .mutate 1 (.write "/a/x" 0 (.inline [1])),
    .mutate 1 (.write "/a/y" 0 (.inline [2])), .commit 1 stamps none,
    .checkpoint 2 stamps (fun _ => 2) "c" none, .mutate 3 (.rename "/a" "/b"),
    .mutate 3 (.write "/a" 0 (.inline [3])), .mutate 3 (.remove "/b/y"), .commit 3 stamps none,
    .checkpoint 4 stamps (fun _ => 4) "c" none, .mutate 5 (.symlink "/b/z" "/a"),
    .commit 5 stamps none, .mount fun _ => 6]

theorem mount_replays_committed_renamed :
    (Fuse.run plain "v" renamed).committed.length = 7 ∧
      ∃ v r, mount plain "v" (fun _ => 7) (Fuse.run plain "v" renamed).remote = (.ok v, r) ∧
        ∃ readings : Nat → Int,
          v.image = FsImage.applied readings 0 {} (Fuse.run plain "v" renamed).committed :=
  ⟨by decide +kernel, mount_replays_committed plain "v" (plain_lawful "v") renamed
    (by decide +kernel) fun _ => 7⟩

end

end Landslide.Fuse
