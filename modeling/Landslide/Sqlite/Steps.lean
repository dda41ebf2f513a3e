import Landslide.Script
import Landslide.Sqlite.Sync

/-!
# The steps of a checkpoint

The part of `checkpoint_with` after its sync, as a script of single calls into the bucket
and the store (`sealScript`).  Every call can fail, a failed write can have landed, and
the process can stop between any two calls.  A failed delete is dropped, as the source
drops its result.

Without failures the script does what `sealPending` does (`run_sealScript`).
-/

namespace Landslide.Sqlite

open Std Overlay TxnKv

/-! ## Commands -/

/-- One call of a checkpoint, and the two steps that are its own: taking the pending
fold and drawing a ULID. -/
inductive Io (S B : Type) where
  | latest
  | take
  | draw
  | put (path : String) (bytes : B)
  | get (path : String)
  | delete (path : String)
  | publish (entry : CompactionRecord) (state : S) (ulid : String)
  | purge (floor : Nat)

/-- What a call replies. -/
@[reducible] def Io.Reply {S B : Type} : Io S B → Type
  | .latest => Except Error (Option (SnapshotRecord S))
  | .take => LtxBuilder
  | .draw => Nat
  | .put _ _ => Except Error Unit
  | .get _ => Except Error B
  | .delete _ => Unit
  | .publish _ _ _ => Except Error Unit
  | .purge _ => Except Error Unit

/-- A process with an open database, and what outlives it. -/
structure Machine (D S B : Type) where
  remote : Remote D S B
  db : Db

/-- A script of a checkpoint. -/
abbrev IoM (S B α : Type) : Type := Script (Io S B) Io.Reply Error α

section

variable {D S B : Type} (env : Outside D S B) (name : String)

/-- The object at a path, or the error of one that is not there. -/
def objectAt (bucket : Bucket B) (path : String) : Except Error B :=
  (bucket path).elim (.error ioError) .ok

variable [Payload D]

/-- The outcome of a call that does not fail. -/
def exec : (c : Io S B) → Machine D S B → c.Reply × Machine D S B
  | .latest, s => ((latestSnapshot name : KvM D S Error _).eval s.remote.store, s)
  | .take, s => (s.db.pending, { s with db := { s.db with pending := {} } })
  | .draw, s => (s.remote.draws, { s with remote := { s.remote with draws := s.remote.draws + 1 } })
  | .put path bytes, s =>
      (.ok (), { s with remote := { s.remote with
        bucket := Function.update s.remote.bucket path (some bytes) } })
  | .get path, s => (objectAt s.remote.bucket path, s)
  | .delete path, s =>
      ((), { s with remote := { s.remote with
        bucket := Function.update s.remote.bucket path none } })
  | .publish entry state ulid, s =>
      let out := (Call.publishSnapshot name entry state ulid : Call D S).exec s.remote.store
      (out.1.map fun _ => (), { s with remote := { s.remote with store := out.2 } })
  | .purge floor, s =>
      let out := (Call.purgeBelow name floor : Call D S).exec s.remote.store
      (out.1.map fun _ => (), { s with remote := { s.remote with store := out.2 } })

/-- The outcomes of a call: it succeeds, or it fails and may have landed.  A purge that
fails may have removed some of the records. -/
inductive Does : (c : Io S B) → Machine D S B → c.Reply → Machine D S B → Prop where
  | ok (c : Io S B) (s : Machine D S B) : Does c s (exec name c s).1 (exec name c s).2
  | latest (s : Machine D S B) (e : Error) : Does .latest s (.error e) s
  | put (path : String) (bytes : B) (s : Machine D S B) (e : Error) (landed : Bool) :
      Does (.put path bytes) s (.error e) (if landed then (exec name (.put path bytes) s).2 else s)
  | get (path : String) (s : Machine D S B) (e : Error) : Does (.get path) s (.error e) s
  | delete (path : String) (s : Machine D S B) : Does (.delete path) s () s
  | publish (entry : CompactionRecord) (state : S) (ulid : String) (s : Machine D S B) (e : Error)
      (landed : Bool) : Does (.publish entry state ulid) s (.error e)
        (if landed then (exec name (.publish entry state ulid) s).2 else s)
  | purge (floor : Nat) (s : Machine D S B) (e : Error) (versions : List Nat) :
      (∀ v ∈ versions, v < floor) → Does (.purge floor) s (.error e)
        { s with remote := { s.remote with store := purged s.remote.store name versions } }

end

/-! ## Scripts -/

namespace IoM

variable {D S B : Type}

def latest : IoM S B (Option (SnapshotRecord S)) := .call .latest .lift

def take : IoM S B LtxBuilder := .call .take .done

def draw : IoM S B Nat := .call .draw .done

def put (path : String) (bytes : B) : IoM S B Unit := .call (.put path bytes) .lift

def get (path : String) : IoM S B B := .call (.get path) .lift

def delete (path : String) : IoM S B Unit := .call (.delete path) .done

def publish (entry : CompactionRecord) (state : S) (ulid : String) : IoM S B Unit :=
  .call (.publish entry state ulid) .lift

def purge (floor : Nat) : IoM S B Unit := .call (.purge floor) .lift

variable (env : Outside D S B)

/-- The manifest of the latest snapshot, or the empty one. -/
def latestManifest : IoM S B Manifest := do
  match ← latest with
  | none => return {}
  | some s => .lift (env.manifest.decode s.state)

def putLtx (name : String) (l : Ltx) : IoM S B String := do
  let i ← draw
  let bytes ← .lift (env.ltx.encode l)
  put (env.segmentPath name i) bytes
  return env.segmentPath name i

def fetchLtx (path : String) : IoM S B Ltx := do
  let bytes ← get (env.path path)
  .lift (env.ltx.decode bytes)

def fetchAll : List SegmentRef → IoM S B (List Ltx)
  | [] => return []
  | seg :: segments => do
      let l ← fetchLtx env seg.path
      let ls ← fetchAll segments
      return l :: ls

def deleteAll : List String → IoM S B Unit
  | [] => return ()
  | path :: paths => do
      delete (env.path path)
      deleteAll paths

def coalesce (name : String) (segments : List SegmentRef) (newRef : SegmentRef) (ltx : Ltx) :
    IoM S B (List SegmentRef × List String) := do
  let older ← fetchAll env (segments.filter fun seg => seg.path ≠ newRef.path)
  let merged := mergedLtx (segments.head?.elim 0 (·.txidStart)) older ltx
  let path ← putLtx env name merged
  return ([SegmentRef.of merged path], segments.map (·.path))

def nextSegments (name : String) (opts : CheckpointOpts) (manifest : Manifest)
    (newRef : SegmentRef) (ltx : Ltx) : IoM S B (List SegmentRef × List String) :=
  let segments := manifest.segments ++ [newRef]
  if segments.length > opts.coalesceAt then coalesce env name segments newRef ltx
  else return (segments, [])

def installManifest (name : String) (opts : CheckpointOpts) (through : Nat)
    (retired : List String) (manifest : Manifest) (nowMs : Int) (ulid : String) :
    IoM S B CompactionRecord := do
  deleteAll env retired
  let entry := record name through nowMs
  let state ← .lift (env.manifest.encode manifest)
  publish entry state ulid
  if opts.purge then
    purge (through + 1)
  return entry

end IoM

section

variable {D S B : Type} (env : Outside D S B)

/-- The part of a checkpoint after its sync, of a handle with this tail and this pending
fold. -/
def sealScript (name : String) (opts : CheckpointOpts) (nowMs : Int) (ulid : String)
    (tail : Option Nat) (pending : LtxBuilder) : IoM S B (Option CompactionRecord) :=
  match tail with
  | none => return none
  | some through => do
      let manifest ← IoM.latestManifest env
      if pending.txidStart.isNone then
        return none
      let taken ← IoM.take
      let ltx := taken.intoLtx
      let path ← IoM.putLtx env name ltx
      let next ← IoM.nextSegments env name opts manifest (SegmentRef.of ltx path) ltx
      let entry ← IoM.installManifest env name opts through manifest.retire
        { segments := next.1, retire := next.2 } nowMs ulid
      return some entry

end

/-! ## Without failures -/

section

variable {D S B : Type} [Payload D] (env : Outside D S B) (name : String)
variable (r : Remote D S B) (db : Db)

theorem run_latestManifest :
    (IoM.latestManifest env).run (exec name) ⟨r, db⟩ =
      (latestManifest env r.store name, ⟨r, db⟩) := by
  have hlatest : (IoM.latest : IoM S B _).run (exec name) ⟨r, db⟩ =
      ((latestSnapshot name : KvM D S Error _).eval r.store, ⟨r, db⟩) := Script.run_lift _ _
  rw [IoM.latestManifest, latestManifest]
  cases hsnap : (latestSnapshot name : KvM D S Error _).eval r.store with
  | error e =>
      rw [hsnap] at hlatest
      exact Script.run_bind_error hlatest
  | ok o =>
      rw [hsnap] at hlatest
      rw [Script.run_bind_ok hlatest]
      cases o with
      | none => rfl
      | some s => exact Script.run_lift _ _

theorem run_putLtx (l : Ltx) :
    (IoM.putLtx env name l).run (exec name) ⟨r, db⟩ =
      ((putLtx env name l none r).1, ⟨(putLtx env name l none r).2, db⟩) := by
  show Script.run _ (Script.bind (.lift (env.ltx.encode l)) _) _ = _
  rw [putLtx]
  cases env.ltx.encode l with
  | error e => rfl
  | ok bytes => rfl

theorem run_fetchLtx (path : String) :
    (IoM.fetchLtx env path).run (exec name) ⟨r, db⟩ = (fetchLtx env r.bucket path, ⟨r, db⟩) := by
  have hget : (IoM.get (env.path path) : IoM S B B).run (exec name) ⟨r, db⟩ =
      (objectAt r.bucket (env.path path), ⟨r, db⟩) := Script.run_lift _ _
  rw [IoM.fetchLtx, fetchLtx]
  cases hobj : r.bucket (env.path path) with
  | none =>
      rw [objectAt, hobj] at hget
      exact Script.run_bind_error hget
  | some bytes =>
      rw [objectAt, hobj] at hget
      rw [Script.run_bind_ok hget]
      exact Script.run_lift _ _

theorem run_fetchAll : ∀ segments : List SegmentRef,
    (IoM.fetchAll env segments).run (exec name) ⟨r, db⟩ =
      (fetchAll env r.bucket segments, ⟨r, db⟩)
  | [] => rfl
  | seg :: segments => by
      have hfetch := run_fetchLtx env name r db seg.path
      have ih := run_fetchAll segments
      rw [IoM.fetchAll, fetchAll]
      cases hseg : fetchLtx env r.bucket seg.path with
      | error e =>
          rw [hseg] at hfetch
          exact Script.run_bind_error hfetch
      | ok l =>
          rw [hseg] at hfetch
          rw [Script.run_bind_ok hfetch]
          dsimp only
          cases hrest : fetchAll env r.bucket segments with
          | error e =>
              rw [hrest] at ih
              exact Script.run_bind_error ih
          | ok ls =>
              rw [hrest] at ih
              exact Script.run_bind_ok ih

theorem run_deleteAll : ∀ (paths : List String) (r : Remote D S B),
    (IoM.deleteAll env paths).run (exec name) ⟨r, db⟩ =
      (.ok (), ⟨{ r with bucket := deleteAll env r.bucket paths }, db⟩)
  | [], _ => rfl
  | _ :: paths, _ => run_deleteAll paths _

theorem run_coalesce (segments : List SegmentRef) (newRef : SegmentRef) (ltx : Ltx) :
    (IoM.coalesce env name segments newRef ltx).run (exec name) ⟨r, db⟩ =
      ((coalesce env name segments newRef ltx none r).1,
        ⟨(coalesce env name segments newRef ltx none r).2, db⟩) := by
  have hfetch := run_fetchAll env name r db (segments.filter fun seg => seg.path ≠ newRef.path)
  rw [IoM.coalesce, coalesce]
  simp only [Fault.atFetch, Option.any_none, Bool.false_eq_true, if_false]
  cases hall : fetchAll env r.bucket (segments.filter fun seg => seg.path ≠ newRef.path) with
  | error e =>
      rw [hall] at hfetch
      exact Script.run_bind_error hfetch
  | ok older =>
      rw [hall] at hfetch
      rw [Script.run_bind_ok hfetch]
      have hput := run_putLtx env name r db
        (mergedLtx (segments.head?.elim 0 (·.txidStart)) older ltx)
      simp only [Fault.atPutMerged]
      cases hout : putLtx env name
          (mergedLtx (segments.head?.elim 0 (·.txidStart)) older ltx) none r with
      | mk res r' =>
      rw [hout] at hput
      cases res with
      | error e => exact Script.run_bind_error hput
      | ok path => exact Script.run_bind_ok hput

theorem run_nextSegments (opts : CheckpointOpts) (manifest : Manifest) (newRef : SegmentRef)
    (ltx : Ltx) : (IoM.nextSegments env name opts manifest newRef ltx).run (exec name) ⟨r, db⟩ =
      ((nextSegments env name opts manifest newRef ltx none r).1,
        ⟨(nextSegments env name opts manifest newRef ltx none r).2, db⟩) := by
  unfold IoM.nextSegments nextSegments
  dsimp only
  split
  · exact run_coalesce env name r db _ newRef ltx
  · rfl

theorem run_publish (entry : CompactionRecord) (state : S) (ulid : String) :
    (IoM.publish entry state ulid : IoM S B Unit).run (exec name) ⟨r, db⟩ =
      (.ok (), ⟨{ r with store := published r.store name entry state ulid }, db⟩) := by
  refine (Script.run_lift _ _).trans ?_
  simp only [exec, publishSnapshot_exec]
  rfl

theorem run_purge (floor : Nat) :
    (IoM.purge floor : IoM S B Unit).run (exec name) ⟨r, db⟩ =
      (.ok (), ⟨{ r with store := ((Call.purgeBelow name floor : Call D S).exec r.store).2 },
        db⟩) := by
  refine (Script.run_lift _ _).trans ?_
  simp only [exec, purgeBelow_exec]
  rfl

theorem run_installManifest (opts : CheckpointOpts) (through : Nat) (retired : List String)
    (manifest : Manifest) (nowMs : Int) (ulid : String) :
    (IoM.installManifest env name opts through retired manifest nowMs ulid).run (exec name)
        ⟨r, db⟩ =
      ((installManifest env name opts through retired manifest nowMs ulid none r).1,
        ⟨(installManifest env name opts through retired manifest nowMs ulid none r).2, db⟩) := by
  rw [IoM.installManifest, Script.run_bind_ok (run_deleteAll env name db retired r),
    installManifest, publishManifest]
  dsimp only
  cases henc : env.manifest.encode manifest with
  | error e => rfl
  | ok state =>
      simp only [Fault.atPublish, publishSnapshot_exec]
      refine (Script.run_bind_ok (run_publish name _ db _ state ulid)).trans ?_
      split
      · refine (Script.run_bind_ok (run_purge name _ db (through + 1))).trans ?_
        simp only [purgeBelow_exec]
        rfl
      · rfl

/-- Without failures, the script of a checkpoint does what the checkpoint does. -/
theorem run_sealScript (opts : CheckpointOpts) (nowMs : Int) (ulid : String) :
    (sealScript env db.name opts nowMs ulid db.tail db.pending).run (exec db.name) ⟨r, db⟩ =
      ((sealPending env opts nowMs ulid none db r).1,
        ⟨(sealPending env opts nowMs ulid none db r).2.2,
          (sealPending env opts nowMs ulid none db r).2.1⟩) := by
  obtain ⟨name, token, image, tail, cursor, pending⟩ := db
  cases tail with
  | none => rfl
  | some through =>
      have hlatest := run_latestManifest env name r
        ⟨name, token, image, some through, cursor, pending⟩
      rw [sealScript, sealPending]
      dsimp only
      cases hm : latestManifest env r.store name with
      | error e =>
          rw [hm] at hlatest
          exact Script.run_bind_error hlatest
      | ok manifest =>
          rw [hm] at hlatest
          rw [Script.run_bind_ok hlatest]
          dsimp only
          split
          · rfl
          · have htake : (IoM.take : IoM S B LtxBuilder).run (exec name)
                ⟨r, name, token, image, some through, cursor, pending⟩ =
                  (.ok pending, ⟨r, name, token, image, some through, cursor, {}⟩) := rfl
            refine (Script.run_bind_ok htake).trans ?_
            have hput := run_putLtx env name r ⟨name, token, image, some through, cursor, {}⟩
              pending.intoLtx
            simp only [Fault.atPutSegment]
            cases hout : putLtx env name pending.intoLtx none r with
            | mk res r₁ =>
            rw [hout] at hput
            cases res with
            | error e => exact Script.run_bind_error hput
            | ok path =>
                refine (Script.run_bind_ok hput).trans ?_
                have hnext := run_nextSegments env name r₁
                  ⟨name, token, image, some through, cursor, {}⟩ opts manifest
                  (SegmentRef.of pending.intoLtx path) pending.intoLtx
                dsimp only
                cases hout : nextSegments env name opts manifest
                    (SegmentRef.of pending.intoLtx path) pending.intoLtx none r₁ with
                | mk res r₂ =>
                rw [hout] at hnext
                cases res with
                | error e => exact Script.run_bind_error hnext
                | ok next =>
                    refine (Script.run_bind_ok hnext).trans ?_
                    have hinstall := run_installManifest env name r₂
                      ⟨name, token, image, some through, cursor, {}⟩ opts through manifest.retire
                      { segments := next.1, retire := next.2 } nowMs ulid
                    dsimp only
                    cases hout : installManifest env name opts through manifest.retire
                        { segments := next.1, retire := next.2 } nowMs ulid none r₂ with
                    | mk res r₃ =>
                    rw [hout] at hinstall
                    cases res with
                    | error e => exact Script.run_bind_error hinstall
                    | ok entry => exact Script.run_bind_ok hinstall

end

end Landslide.Sqlite
