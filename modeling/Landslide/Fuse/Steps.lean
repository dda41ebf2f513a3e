import Landslide.Fuse.Effects
import Landslide.Pool

/-!
# The steps of a volume

`mount`, `commit` and `checkpoint` of `landslide-fuse/src/store.rs` as scripts of single calls:
a read of one key or range of the store, a transaction, or a call into the bucket.  Every call
can fail, a failed write can have landed, and whatever other processes do may come between two
calls.

Without failures and without others a script does what `mount`, `Volume.commit` and
`Volume.checkpoint` do (`run_mountScript`, `run_commitScript`, `run_checkpointScript`).
-/

namespace Landslide.Fuse

open Std TxnKv

/-! ## Commands -/

/-- One call of a volume.  A new token or segment path is drawn where it is used. -/
inductive Io (D S B : Type) where
  | get (k : Key)
  | scan (range : Key → Bool)
  | fence (vol : String)
  | append (vol token : String) (expected : ExpectedVersion) (events : List (NewEvent D))
      (stamps : Nat → Nat → Stamp)
  | publish (vol : String) (entry : CompactionRecord) (state : S) (ulid : String)
  | fetch (path : String)
  | put (path : String) (object : B)
  | upload (vol : String) (object : B)

/-- What a call replies: also reads can fail. -/
@[reducible] def Io.Reply {D S B : Type} : Io D S B → Type
  | .get k => Except Error (Option (Val D S k))
  | .scan _ => Except Error (List ((k : Key) × Val D S k))
  | .fence _ => Except Error String
  | .append .. => Except Error CommitInfo
  | .publish .. => Except Error Unit
  | .fetch _ => Except Error B
  | .put _ _ => Except Error Unit
  | .upload _ _ => Except Error String

/-- A script of a volume. -/
abbrev IoM (D S B α : Type) : Type := Script (Io D S B) Io.Reply Error α

/-- What an append was told. -/
def toldInfo : Result → Except Error CommitInfo
  | .ok (.infos [info]) => .ok info
  | .ok _ => .error .depth
  | .error e => .error e

section

variable {D S B : Type} (env : Outside D S B)

/-- The object at a path, or the error of one that is not there. -/
def objectAt (bucket : Bucket B) (path : String) : Except Error B :=
  (bucket path).elim (.error ioError) .ok

variable [Payload D]

/-- The outcome of a call that does not fail. -/
def exec : (c : Io D S B) → Remote D S B → c.Reply × Remote D S B
  | .get k, r => (.ok (r.store.get k), r)
  | .scan range, r => (.ok (r.store.scan range), r)
  | .fence vol, r =>
      let token := env.ulid r.draws
      let out := (Call.fence vol (some token) : Call D S).exec r.store
      (out.1.map fun _ => token, { r with store := out.2, draws := r.draws + 1 })
  | .append vol token expected events stamps, r =>
      let out := (Call.appendWithToken vol token expected events false stamps :
        Call D S).exec r.store
      (toldInfo out.1, { r with store := out.2 })
  | .publish vol entry state ulid, r =>
      let out := (Call.publishSnapshot vol entry state ulid : Call D S).exec r.store
      (out.1.map fun _ => (), { r with store := out.2 })
  | .fetch path, r => (objectAt r.bucket path, r)
  | .put path object, r => (.ok (), { r with bucket := Function.update r.bucket path (some object) })
  | .upload vol object, r =>
      let path := env.segmentPath vol r.draws
      (.ok path, { r with
        bucket := Function.update r.bucket path (some object)
        draws := r.draws + 1 })

/-- The outcomes of a call: it does its work, or it fails and may have done it. -/
inductive Does : (c : Io D S B) → Remote D S B → c.Reply → Remote D S B → Prop where
  | ok (c : Io D S B) (r : Remote D S B) : Does c r (exec env c r).1 (exec env c r).2
  | get (k : Key) (r : Remote D S B) (e : Error) : Does (.get k) r (.error e) r
  | scan (range : Key → Bool) (r : Remote D S B) (e : Error) : Does (.scan range) r (.error e) r
  | fence (vol : String) (r : Remote D S B) (e : Error) (landed : Bool) :
      Does (.fence vol) r (.error e)
        (if landed then (exec env (.fence vol) r).2 else { r with draws := r.draws + 1 })
  | append (vol token : String) (expected : ExpectedVersion) (events : List (NewEvent D))
      (stamps : Nat → Nat → Stamp) (r : Remote D S B) (e : Error) (landed : Bool) :
      Does (.append vol token expected events stamps) r (.error e)
        (if landed then (exec env (.append vol token expected events stamps) r).2 else r)
  | publish (vol : String) (entry : CompactionRecord) (state : S) (ulid : String)
      (r : Remote D S B) (e : Error) (landed : Bool) :
      Does (.publish vol entry state ulid) r (.error e)
        (if landed then (exec env (.publish vol entry state ulid) r).2 else r)
  | fetch (path : String) (r : Remote D S B) (e : Error) : Does (.fetch path) r (.error e) r
  | put (path : String) (object : B) (r : Remote D S B) (e : Error) (landed : Bool) :
      Does (.put path object) r (.error e)
        (if landed then (exec env (.put path object) r).2 else r)
  | upload (vol : String) (object : B) (r : Remote D S B) (e : Error) (landed : Bool) :
      Does (.upload vol object) r (.error e)
        (if landed then (exec env (.upload vol object) r).2 else { r with draws := r.draws + 1 })

end

/-! ## Scripts -/

namespace IoM

variable {D S B : Type}

/-- The reads of a program on the store, each a call of its own.  Writes are skipped. -/
def reads {α : Type} : KvM D S Error α → IoM D S B α
  | .pure a => .done a
  | .throw e => .fail e
  | .get k next => .call (.get k) fun
      | .ok o => reads (next o)
      | .error e => .fail e
  | .scan range next => .call (.scan range) fun
      | .ok es => reads (next es)
      | .error e => .fail e
  | .put _ _ next => reads next
  | .delete _ next => reads next
  | .unmark _ next => reads next

def fence (vol : String) : IoM D S B String := .call (.fence vol) .lift

def append (vol token : String) (expected : ExpectedVersion) (events : List (NewEvent D))
    (stamps : Nat → Nat → Stamp) : IoM D S B CommitInfo :=
  .call (.append vol token expected events stamps) .lift

def publish (vol : String) (entry : CompactionRecord) (state : S) (ulid : String) :
    IoM D S B Unit :=
  .call (.publish vol entry state ulid) .lift

def fetch (path : String) : IoM D S B B := .call (.fetch path) .lift

def put (path : String) (object : B) : IoM D S B Unit := .call (.put path object) .lift

def upload (vol : String) (object : B) : IoM D S B String := .call (.upload vol object) .lift

variable (env : Outside D S B)

def mergeSegments : FsImage → List String → IoM D S B FsImage
  | image, [] => return image
  | image, path :: segments => do
      let object ← fetch (env.path path)
      let segment ← .lift (env.segment.decode object)
      mergeSegments (image.mergeSegment segment) segments

def loadBase (vol : String) : IoM D S B (FsImage × Nat) := do
  match ← reads (latestSnapshot vol) with
  | none => return ({}, 0)
  | some snap =>
      let manifest ← .lift (env.manifest.decode snap.state)
      let image ← mergeSegments env {} manifest.segments
      return (image, snap.throughVersion + 1)

/-- The manifest of the latest snapshot, or the empty one. -/
def latestManifest (vol : String) : IoM D S B Manifest := do
  match ← reads (latestSnapshot vol) with
  | none => return {}
  | some snap => .lift (env.manifest.decode snap.state)

/-- `EventStore::fold` from a version on, over a fork chain of this depth. -/
def fold {T : Type} (depth : Nat) (vol : String) (start : Nat) (init : T)
    (apply : T → Event D → T) : IoM D S B (T × Option Nat) := do
  let events ← reads (resolveHistory depth vol [] start none)
  return (events.foldl apply init, events.getLast?.map (·.version))

/-- The blocks that are not found. -/
def missing : List Bytes → IoM D S B (List Bytes)
  | [] => return []
  | b :: bs => do
      let found ← (fetch (env.blockPath (env.sha256 b))).attempt
      let rest ← missing bs
      return if found.isOk then rest else b :: rest

def putBlocks : List Bytes → IoM D S B Unit
  | [] => return ()
  | b :: bs => do
      put (env.blockPath (env.sha256 b)) (env.object b)
      putBlocks bs

/-- Uploads a segment and publishes a manifest with it. -/
def install (vol : String) (through : Nat) (segment : Segment) (nowMs : Int) (ulid : String) :
    IoM D S B CompactionRecord := do
  let object ← .lift (env.segment.encode segment)
  let path ← upload vol object
  let manifest ← latestManifest env vol
  let entry := record vol through nowMs
  let state ← .lift (env.manifest.encode { segments := manifest.segments ++ [path] })
  publish vol entry state ulid
  return entry

end IoM

/-- The chunks of the large files that the deltas write. -/
def toStore (image : FsImage) : List String → List Delta → List Bytes
  | _, [] => []
  | chunked, .write path _ _ :: deltas =>
      if path ∈ chunked then toStore image chunked deltas
      else
        match large image path with
        | none => toStore image chunked deltas
        | some content => chunks content ++ toStore image (path :: chunked) deltas
  | chunked, _ :: deltas => toStore image chunked deltas

section

variable {D S B : Type} (env : Outside D S B)

/-- `Volume::mount`, over a fork chain of this depth. -/
def mountScript (vol : String) (clock : Nat → Int) (depth : Nat) : IoM D S B Volume := do
  let token ← IoM.fence vol
  let (image, start) ← IoM.loadBase env vol
  let (image, tail) ← IoM.fold depth vol start image (replayEvent env clock)
  return { vol := vol, token := token, image := image, tail := tail }

namespace Volume

/-- `Volume::commit`, with the handle that it leaves. -/
def commitScript (now : Int) (stamps : Nat → Nat → Stamp) (v : Volume) :
    IoM D S B (Except Error Unit × Volume) :=
  if v.pending = [] then return (.ok (), v)
  else do
    let uploads ← IoM.missing env (toStore v.image [] v.pending)
    match ← (IoM.putBlocks env uploads).attempt with
    | .error e => return (.error e, v)
    | .ok () =>
        let deltas := v.upgraded env
        let v := { v with image := restated now v.image deltas }
        match encodeDeltas env deltas with
        | .error e => return (.error e, v)
        | .ok events =>
            match ← (IoM.append v.vol v.token (expected v.tail) events stamps).attempt with
            | .error e => return (.error e, v)
            | .ok info => return (.ok (), { v with tail := some info.lastVersion, pending := [] })

/-- The part of a checkpoint after its commit. -/
def sealScript (now : Int) (clock : Nat → Int) (ulid : String) (depth : Nat) (v : Volume) :
    IoM D S B CompactionRecord :=
  match v.tail with
  | none => .fail (.invalidInput "nothing to checkpoint")
  | some through => do
      let (base, start) ← IoM.loadBase env v.vol
      let (delta, _) ← IoM.fold depth v.vol start { live := base }
        (DeltaImage.replayEvent env clock)
      IoM.install env v.vol through { entries := delta.entries } now ulid

/-- `Volume::checkpoint`, with the handle that it leaves. -/
def checkpointScript (now : Int) (stamps : Nat → Nat → Stamp) (clock : Nat → Int) (ulid : String)
    (depth : Nat) (v : Volume) : IoM D S B (Except Error CompactionRecord × Volume) := do
  match ← v.commitScript env now stamps with
  | (.error e, v) => return (.error e, v)
  | (.ok (), v) =>
      let entry ← (v.sealScript env now clock ulid depth).attempt
      return (entry, v)

end Volume

end

/-! ## Without failures -/

/-- What a commit uploads are the chunks to store that the bucket has not got. -/
theorem uploads_eq_filter {D S B : Type} (env : Outside D S B) (bucket : Bucket B)
    (image : FsImage) : ∀ (deltas : List Delta) (chunked : List String),
    uploads env bucket image chunked deltas =
      (toStore image chunked deltas).filter fun b =>
        (bucket (env.blockPath (env.sha256 b))).isNone
  | [], _ => rfl
  | .write path _ _ :: deltas, chunked => by
      simp only [uploads, toStore]
      split
      · exact uploads_eq_filter env bucket image deltas chunked
      · cases large image path with
        | none => exact uploads_eq_filter env bucket image deltas chunked
        | some content =>
            rw [List.filter_append, ← uploads_eq_filter env bucket image deltas (path :: chunked)]
  | .mkdir _ :: deltas, chunked => uploads_eq_filter env bucket image deltas chunked
  | .remove _ :: deltas, chunked => uploads_eq_filter env bucket image deltas chunked
  | .rename _ _ :: deltas, chunked => uploads_eq_filter env bucket image deltas chunked
  | .symlink _ _ :: deltas, chunked => uploads_eq_filter env bucket image deltas chunked
  | .setAttr _ _ _ _ _ :: deltas, chunked => uploads_eq_filter env bucket image deltas chunked
  | .setXattr _ _ _ :: deltas, chunked => uploads_eq_filter env bucket image deltas chunked

section

variable {D S B : Type} [Payload D] (env : Outside D S B) (r : Remote D S B)

theorem run_reads {α : Type} (p : KvM D S Error α) :
    (IoM.reads p : IoM D S B α).run (exec env) r = (p.eval r.store, r) := by
  induction p with
  | pure a => rfl
  | throw e => rfl
  | get k next ih =>
      rw [IoM.reads, Script.run]
      exact ih _
  | scan range next ih =>
      rw [IoM.reads, Script.run]
      exact ih _
  | put k v next ih => exact ih
  | delete k next ih => exact ih
  | unmark k next ih => exact ih

theorem run_mergeSegments : ∀ (segments : List String) (image : FsImage),
    (IoM.mergeSegments env image segments : IoM D S B FsImage).run (exec env) r =
      (mergeSegments env r.bucket image segments, r)
  | [], image => rfl
  | path :: segments, image => by
      rw [IoM.mergeSegments, mergeSegments]
      have hfetch : (IoM.fetch (env.path path) : IoM D S B B).run (exec env) r =
          (objectAt r.bucket (env.path path), r) := Script.run_lift _ _
      cases hobj : r.bucket (env.path path) with
      | none =>
          rw [objectAt, hobj] at hfetch
          exact Script.run_bind_error hfetch
      | some object =>
          rw [objectAt, hobj] at hfetch
          refine (Script.run_bind_ok hfetch).trans ?_
          dsimp only
          have hlift : (Script.lift (env.segment.decode object) : IoM D S B Segment).run
              (exec env) r = (env.segment.decode object, r) := Script.run_lift _ _
          cases hdec : env.segment.decode object with
          | error e =>
              rw [hdec] at hlift
              exact Script.run_bind_error hlift
          | ok segment =>
              rw [hdec] at hlift
              exact (Script.run_bind_ok hlift).trans (run_mergeSegments segments _)

theorem run_loadBase (vol : String) :
    (IoM.loadBase env vol : IoM D S B (FsImage × Nat)).run (exec env) r =
      (loadBase env r vol, r) := by
  have hreads := run_reads env r (latestSnapshot vol : KvM D S Error _)
  rw [latestSnapshot_eval] at hreads
  rw [IoM.loadBase, loadBase, latestSnapshot_eval, Script.run_bind_ok hreads]
  cases snapshotAt r.store vol with
  | none => rfl
  | some snap =>
      dsimp only
      rw [loadSegments]
      have hlift : (Script.lift (env.manifest.decode snap.state) : IoM D S B Manifest).run
          (exec env) r = (env.manifest.decode snap.state, r) := Script.run_lift _ _
      cases hdec : env.manifest.decode snap.state with
      | error e =>
          rw [hdec] at hlift
          exact Script.run_bind_error hlift
      | ok manifest =>
          rw [hdec] at hlift
          refine (Script.run_bind_ok hlift).trans ?_
          dsimp only
          have hmerge := run_mergeSegments env r manifest.segments {}
          cases hout : mergeSegments env r.bucket {} manifest.segments with
          | error e =>
              rw [hout] at hmerge
              exact Script.run_bind_error hmerge
          | ok image =>
              rw [hout] at hmerge
              exact Script.run_bind_ok hmerge

theorem run_latestManifest (vol : String) :
    (IoM.latestManifest env vol : IoM D S B Manifest).run (exec env) r =
      (latestManifest env r.store vol, r) := by
  have hreads := run_reads env r (latestSnapshot vol : KvM D S Error _)
  rw [latestSnapshot_eval] at hreads
  rw [IoM.latestManifest, latestManifest, latestSnapshot_eval, Script.run_bind_ok hreads]
  cases snapshotAt r.store vol with
  | none => rfl
  | some snap => exact Script.run_lift _ _

/-- With the depth of the fork chains of the state, the events are those of the history. -/
theorem run_fold {T : Type} {depth : Nat} (hdepth : depth = (forkRefs r.store).length + 1)
    (vol : String) (start : Nat) (init : T) (apply : T → Event D → T) :
    (IoM.fold depth vol start init apply : IoM D S B (T × Option Nat)).run (exec env) r =
      (fold r.store vol (.included start) .unbounded init apply, r) := by
  have hreads := run_reads env r (resolveHistory depth vol [] start none)
  rw [hdepth] at hreads
  rw [IoM.fold, Landslide.fold, hdepth]
  cases hread : readHistory r.store vol (.included start) .unbounded with
  | error e => exact Script.run_bind_error (hreads.trans (congrArg (·, r) hread))
  | ok events => exact Script.run_bind_ok (hreads.trans (congrArg (·, r) hread))

theorem run_missing : ∀ bs : List Bytes,
    (IoM.missing env bs : IoM D S B (List Bytes)).run (exec env) r =
      (.ok (bs.filter fun b => (r.bucket (env.blockPath (env.sha256 b))).isNone), r)
  | [] => rfl
  | b :: bs => by
      have hfetch :
          (IoM.fetch (env.blockPath (env.sha256 b)) : IoM D S B B).attempt.run (exec env) r =
            (.ok (objectAt r.bucket (env.blockPath (env.sha256 b))), r) :=
        (Script.run_attempt _ _ _).trans
          (by
            rw [show (IoM.fetch _ : IoM D S B B).run (exec env) r = _ from Script.run_lift _ _]
            rfl)
      rw [IoM.missing, Script.run_bind_ok hfetch, Script.run_bind_ok (run_missing bs),
        List.filter_cons, objectAt]
      cases r.bucket (env.blockPath (env.sha256 b)) <;> rfl

theorem run_putBlocks : ∀ (bs : List Bytes) (i : Nat) (r : Remote D S B),
    (IoM.putBlocks env bs : IoM D S B Unit).run (exec env) r =
      ((putBlocks env none i bs r.bucket).1,
        { r with bucket := (putBlocks env none i bs r.bucket).2 })
  | [], _, _ => rfl
  | _ :: bs, i, _ => (run_putBlocks bs (i + 1) _).trans rfl

theorem run_append (v : Volume) (events : List (NewEvent D)) (stamps : Nat → Nat → Stamp) :
    (IoM.append v.vol v.token (expected v.tail) events stamps : IoM D S B CommitInfo).run
        (exec env) r =
      let out := (Call.appendWithToken v.vol v.token (expected v.tail) events false stamps :
        Call D S).exec r.store
      (toldInfo out.1, { r with store := out.2 }) :=
  Script.run_lift _ _

/-- A commit alone does what `Volume.commit` does. -/
theorem run_commitScript (now : Int) (stamps : Nat → Nat → Stamp) (v : Volume) :
    (v.commitScript env now stamps).run (exec env) r =
      (.ok ((v.commit env now stamps none r).1, (v.commit env now stamps none r).2.1),
        (v.commit env now stamps none r).2.2) := by
  rw [Volume.commitScript, Volume.commit]
  split
  · rfl
  · rw [Script.run_bind_ok (run_missing env r _), ← uploads_eq_filter]
    have hput := run_putBlocks env (uploads env r.bucket v.image [] v.pending) 0 r
    rw [Script.run_bind_ok ((Script.run_attempt _ _ _).trans (by rw [hput]))]
    cases putBlocks env none 0 (uploads env r.bucket v.image [] v.pending) r.bucket with
    | mk res bucket =>
    cases res with
    | error e => rfl
    | ok u =>
        dsimp only
        cases encodeDeltas env (v.upgraded env) with
        | error e => rfl
        | ok events =>
            dsimp only
            have happend := run_append env { r with bucket := bucket }
              { v with image := restated now v.image (v.upgraded env) } events stamps
            rw [Script.run_bind_ok ((Script.run_attempt _ _ _).trans (by rw [happend]))]
            simp only [reduceCtorEq, if_false]
            cases (Call.appendWithToken v.vol v.token (expected v.tail) events false stamps :
                Call D S).exec r.store with
            | mk reply store =>
            rcases reply with e | (infos | _ | _ | _)
            · rfl
            · rcases infos with _ | ⟨info, _ | ⟨_, _⟩⟩ <;> rfl
            · rfl
            · rfl
            · rfl

theorem run_upload (vol : String) (object : B) :
    (IoM.upload vol object : IoM D S B String).run (exec env) r =
      (.ok (env.segmentPath vol r.draws),
        { r with
          bucket := Function.update r.bucket (env.segmentPath vol r.draws) (some object)
          draws := r.draws + 1 }) :=
  Script.run_lift _ _

theorem run_publish (vol : String) (entry : CompactionRecord) (state : S) (ulid : String) :
    (IoM.publish vol entry state ulid : IoM D S B Unit).run (exec env) r =
      (.ok (), { r with store := published r.store vol entry state ulid }) := by
  refine (Script.run_lift _ _).trans ?_
  simp only [exec, publishSnapshot_exec]
  rfl

theorem run_install {vol : String} (henv : env.Lawful vol) (through : Nat) (segment : Segment)
    (nowMs : Int) (ulid : String) :
    (IoM.install env vol through segment nowMs ulid : IoM D S B _).run (exec env) r =
      install env vol through segment nowMs ulid none r := by
  obtain ⟨object, henc, -⟩ := henv.segment segment
  have hlift : (.lift (env.segment.encode segment) : IoM D S B B).run (exec env) r =
      (.ok object, r) := by rw [Script.run_lift, henc]
  rw [IoM.install, Script.run_bind_ok hlift, Script.run_bind_ok (run_upload env r vol object),
    install, putSegment]
  simp only [henc, reduceCtorEq, if_false]
  generalize hr' : ({ r with
    bucket := Function.update r.bucket (env.segmentPath vol r.draws) (some object)
    draws := r.draws + 1 } : Remote D S B) = r'
  have hstore : r'.store = r.store := by rw [← hr']
  have hlatest := run_latestManifest env r' vol
  rw [hstore] at hlatest
  cases hm : latestManifest env r.store vol with
  | error e =>
      rw [hm] at hlatest
      exact Script.run_bind_error hlatest
  | ok manifest =>
      rw [hm] at hlatest
      refine (Script.run_bind_ok hlatest).trans ?_
      obtain ⟨state, henc', -⟩ := henv.manifest
        { segments := manifest.segments ++ [env.segmentPath vol r.draws] }
      have hlift' : (.lift (env.manifest.encode
          { segments := manifest.segments ++ [env.segmentPath vol r.draws] }) :
            IoM D S B S).run (exec env) r' = (.ok state, r') := by rw [Script.run_lift, henc']
      refine (Script.run_bind_ok hlift').trans ?_
      refine (Script.run_bind_ok (run_publish env r' vol _ state ulid)).trans ?_
      simp only [publishManifest, henc', publishSnapshot_exec, reduceCtorEq, if_false]
      rfl

/-- A checkpoint alone does what `Volume.checkpoint` does. -/
theorem run_checkpointScript {v : Volume} (henv : env.Lawful v.vol) (now : Int)
    (stamps : Nat → Nat → Stamp) (clock : Nat → Int) (ulid : String) {depth : Nat}
    (hdepth : depth = (forkRefs (v.commit env now stamps none r).2.2.store).length + 1) :
    (v.checkpointScript env now stamps clock ulid depth).run (exec env) r =
      (.ok ((v.checkpoint env now stamps clock ulid none r).1,
          (v.checkpoint env now stamps clock ulid none r).2.1),
        (v.checkpoint env now stamps clock ulid none r).2.2) := by
  have hvol : (v.commit env now stamps none r).2.1.vol = v.vol :=
    (Volume.commit_frame env now stamps none v r).1
  rw [Volume.checkpointScript, Script.run_bind_ok (run_commitScript env r now stamps v),
    Volume.checkpoint]
  generalize v.commit env now stamps none r = out at hdepth hvol
  obtain ⟨res, v', r'⟩ := out
  cases res with
  | error e => rfl
  | ok u =>
      dsimp only at hdepth hvol ⊢
      rw [← hvol] at henv
      refine (Script.run_bind_ok (Script.run_attempt _ _ _)).trans ?_
      rw [Volume.sealScript]
      cases htail : v'.tail with
      | none => rfl
      | some through =>
          dsimp only
          have hbase := run_loadBase env r' v'.vol
          cases hout : loadBase env r' v'.vol with
          | error e =>
              rw [hout] at hbase
              rw [Script.run_bind_error hbase]
              rfl
          | ok base =>
              rw [hout] at hbase
              rw [Script.run_bind_ok hbase]
              dsimp only
              have hfold := run_fold env r' hdepth v'.vol base.2 { live := base.1 }
                (DeltaImage.replayEvent env clock)
              cases hread : Landslide.fold r'.store v'.vol (.included base.2) .unbounded
                  { live := base.1 } (DeltaImage.replayEvent env clock) with
              | error e =>
                  rw [hread] at hfold
                  rw [Script.run_bind_error hfold]
                  rfl
              | ok folded =>
                  rw [hread] at hfold
                  rw [Script.run_bind_ok hfold, run_install env r' henv]
                  dsimp only
                  rcases install env v'.vol through { entries := folded.1.entries } now ulid none
                    r' with ⟨_ | _, r''⟩ <;> rfl

end

end Landslide.Fuse
