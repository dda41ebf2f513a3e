import Landslide.Snapshots
import Landslide.Sqlite.Steps

/-!
# Checkpoints that are cut off

Runs of a database in which every call of a checkpoint may fail and the process may stop
between any two calls (`Run`).

`Intact` is what such runs keep: the segments of the latest manifest are in the bucket, and
none of them is on its retire list.  Every checkpoint keeps it wherever it is cut off, and
deletes only what the latest manifest retires (`safe_sealScript`).  For this a checkpoint
uploads to paths of its own, deletes retired paths only, and publishes segments that it
has found or uploaded.
-/

namespace Landslide.Sqlite

open Std Overlay TxnKv

/-! ## Runs with interruptions -/

/-- The store and the bucket, and the process that has the database open, with the rest
of the checkpoint it is in. -/
structure Site (D S B : Type) where
  remote : Remote D S B := {}
  process : Option (Db × Option (IoM S B (Option CompactionRecord))) := none

/-- The handle after the WAL was scanned, when the append then failed. -/
def Db.scanned (db : Db) (wal : Option Bytes) : Db :=
  match scan db.cursor db.image.txid wal with
  | none => db
  | some s => { db with cursor := s.cursor }

section

variable {D S B : Type} [Payload D] (env : Outside D S B) (name : String)

/-- One step of a run. -/
inductive Step : Site D S B → Site D S B → Prop where
  /-- A process opens the database; the one before is gone. -/
  | open (w : Site D S B) : Step w
      ⟨(openDb env name w.remote).2, (openDb env name w.remote).1.toOption.map (·, none)⟩
  | sync (r : Remote D S B) (db : Db) (coalesce : Bool) (wal : Option Bytes)
      (stamps : Nat → Nat → Stamp) : Step ⟨r, some (db, none)⟩
        ⟨(syncInner env coalesce wal stamps db r).2.2,
          some ((syncInner env coalesce wal stamps db r).2.1, none)⟩
  /-- The append of a sync fails, and may have landed. -/
  | syncFails (r : Remote D S B) (db : Db) (coalesce : Bool) (wal : Option Bytes)
      (stamps : Nat → Nat → Stamp) (landed : Bool) : Step ⟨r, some (db, none)⟩
        ⟨if landed then (syncInner env coalesce wal stamps db r).2.2 else r,
          some (db.scanned wal, none)⟩
  /-- A checkpoint has synced. -/
  | checkpoint (r : Remote D S B) (db : Db) (opts : CheckpointOpts) (wal : Option Bytes)
      (stamps : Nat → Nat → Stamp) (nowMs : Int) (ulid : String) {n : Nat} {db' : Db}
      {r' : Remote D S B} : syncInner env false wal stamps db r = (.ok n, db', r') →
        Step ⟨r, some (db, none)⟩
          ⟨r', some (db', some (sealScript env db'.name opts nowMs ulid db'.tail db'.pending))⟩
  /-- A call of a checkpoint. -/
  | call (r : Remote D S B) (db : Db) (c : Io S B)
      (next : c.Reply → IoM S B (Option CompactionRecord)) {reply : c.Reply}
      {s : Machine D S B} : Does db.name c ⟨r, db⟩ reply s →
        Step ⟨r, some (db, some (.call c next))⟩ ⟨s.remote, some (s.db, some (next reply))⟩
  | done (r : Remote D S B) (db : Db) (a : Option CompactionRecord) :
      Step ⟨r, some (db, some (.done a))⟩ ⟨r, some (db, none)⟩
  | fail (r : Remote D S B) (db : Db) (e : Error) :
      Step ⟨r, some (db, some (.fail e))⟩ ⟨r, some (db, none)⟩
  /-- The process stops. -/
  | stop (w : Site D S B) : Step w { w with process := none }

/-- A run from nothing, with the states it went through, the last one first. -/
inductive Run : List (Site D S B) → Prop where
  | start : Run [{}]
  | step {w w' : Site D S B} {ws : List (Site D S B)} : Run (w :: ws) → Step env name w w' →
      Run (w' :: w :: ws)

end

section

variable {D S B : Type}

/-- The object that the next call of the process deletes. -/
def Site.nextDelete (w : Site D S B) : Option String :=
  match w.process with
  | some (_, some (.call (.delete path) _)) => some path
  | _ => none

/-- The next call of the process deletes an object. -/
def Site.Deletes (w : Site D S B) (path : String) : Prop := w.nextDelete = some path

theorem Site.Deletes.process {w : Site D S B} {path : String} (h : w.Deletes path) :
    ∃ db next, w.process = some (db, some (.call (.delete path) next)) := by
  unfold Deletes nextDelete at h
  split at h
  · next db _ next hprocess =>
    cases h
    exact ⟨db, next, hprocess⟩
  · cases h

/-! ## What a bucket holds -/

/-- A path that was drawn, with its object. -/
def HeldPath (env : Outside D S B) (name : String) (r : Remote D S B) (path : String) : Prop :=
  (∃ i, i < r.draws ∧ path = env.segmentPath name i) ∧ (r.bucket path).isSome = true

/-- The segments of a manifest are in the bucket, and what it retires is not among
them. -/
structure Listed (env : Outside D S B) (name : String) (r : Remote D S B) (m : Manifest) :
    Prop where
  segments : ∀ seg ∈ m.segments, HeldPath env name r seg.path
  retire : ∀ path ∈ m.retire, Retired env name r m path

/-- What runs keep of the manifests of a database.  `tidy` asks that nothing was ever
deleted. -/
structure Intact (env : Outside D S B) (name : String) (tidy : Prop) (r : Remote D S B) : Prop where
  latest : ∃ m, latestManifest env r.store name = .ok m ∧ Listed env name r m
  all : tidy → ∀ n s, r.store.get (.snap name n) = some s →
    ∃ m, env.manifest.decode s.state = .ok m ∧ ∀ seg ∈ m.segments, HeldPath env name r seg.path

variable {env : Outside D S B} {name : String} {tidy : Prop} {r r' : Remote D S B}

theorem HeldPath.mono {path : String} (h : HeldPath env name r path) (hdraws : r.draws ≤ r'.draws)
    (hbucket : (r.bucket path).isSome = true → (r'.bucket path).isSome = true) :
    HeldPath env name r' path := by
  obtain ⟨⟨i, hi, rfl⟩, hsome⟩ := h
  exact ⟨⟨i, hi.trans_le hdraws, rfl⟩, hbucket hsome⟩

theorem Listed.mono {m : Manifest} (h : Listed env name r m) (hdraws : r.draws ≤ r'.draws)
    (hbucket : ∀ seg ∈ m.segments, (r.bucket seg.path).isSome = true →
      (r'.bucket seg.path).isSome = true) : Listed env name r' m where
  segments seg hseg := (h.segments seg hseg).mono hdraws (hbucket seg hseg)
  retire path hpath := by
    obtain ⟨⟨i, hi, rfl⟩, hne⟩ := h.retire path hpath
    exact ⟨⟨i, hi.trans_le hdraws, rfl⟩, hne⟩

theorem latestManifest_congr
    (hsnap : ∀ n, r'.store.get (.snap name n) = r.store.get (.snap name n)) :
    latestManifest env r'.store name = latestManifest env r.store name := by
  rw [latestManifest_eq, latestManifest_eq, snapshotAt_congr hsnap]

namespace Intact

theorem empty (env : Outside D S B) (name : String) (tidy : Prop) :
    Intact env name tidy ({} : Remote D S B) where
  latest := ⟨{}, rfl, ⟨by simp, by simp⟩⟩
  all _ n s h := by
    rw [Store.get_empty] at h
    cases h

/-- A state that keeps the snapshots and the objects. -/
theorem frame (h : Intact env name tidy r)
    (hsnap : ∀ n, r'.store.get (.snap name n) = r.store.get (.snap name n))
    (hdraws : r.draws ≤ r'.draws)
    (hbucket : ∀ path, (r.bucket path).isSome = true → (r'.bucket path).isSome = true) :
    Intact env name tidy r' where
  latest := by
    obtain ⟨m, hm, hlisted⟩ := h.latest
    exact ⟨m, (latestManifest_congr hsnap).trans hm, hlisted.mono hdraws fun seg _ => hbucket _⟩
  all ht n s hs := by
    rw [hsnap] at hs
    obtain ⟨m, hm, hheld⟩ := h.all ht n s hs
    exact ⟨m, hm, fun seg hseg => (hheld seg hseg).mono hdraws (hbucket _)⟩

/-- A path that the latest manifest retires is deleted. -/
theorem delete (h : Intact env name tidy r) (htidy : ¬ tidy) {m : Manifest}
    (hm : latestManifest env r.store name = .ok m) {path : String} (hpath : path ∈ m.retire) :
    Intact env name tidy { r with bucket := Function.update r.bucket path none } where
  latest := by
    obtain ⟨m', hm', hlisted⟩ := h.latest
    rw [hm] at hm'
    cases hm'
    refine ⟨m, hm, hlisted.mono le_rfl fun seg hseg hsome => ?_⟩
    have hkept := Function.update_of_ne ((hlisted.retire path hpath).2 seg hseg) none r.bucket
    exact (congrArg Option.isSome hkept).trans hsome
  all ht := absurd ht htidy

/-- A manifest whose segments are in the bucket is published. -/
theorem publish (h : Intact env name tidy r) {m : Manifest} {state : S}
    (hdec : env.manifest.decode state = .ok m) (hlisted : Listed env name r m)
    (entry : CompactionRecord) (ulid : String) :
    Intact env name tidy { r with store := published r.store name entry state ulid } where
  latest := by
    -- the new manifest is the latest one, or the one before still is
    have latest_of : ∀ {k : Nat} {rec : SnapshotRecord S} {m' : Manifest},
        Highest (published r.store name entry state ulid) name k rec →
          env.manifest.decode rec.state = .ok m' → Listed env name r m' →
            ∃ m', latestManifest env (published r.store name entry state ulid) name = .ok m' ∧
              Listed env name { r with store := published r.store name entry state ulid } m' := by
      intro k rec m' hhigh hdec' hlisted'
      refine ⟨m', ?_, hlisted'.mono le_rfl fun _ _ hsome => hsome⟩
      rw [latestManifest_eq, hhigh.snapshotAt_eq]
      exact hdec'
    rcases highest_cases r.store name with hnone | ⟨k, rec, hhigh⟩
    · exact latest_of (highest_first hnone entry state ulid) hdec hlisted
    · have hpub := hhigh.publish entry state ulid
      split at hpub
      · exact latest_of hpub hdec hlisted
      · obtain ⟨m₀, hm₀, hlisted₀⟩ := h.latest
        rw [latestManifest_eq, hhigh.snapshotAt_eq] at hm₀
        exact latest_of hpub hm₀ hlisted₀
  all ht n s hs := by
    by_cases hn : n = seqOf r.store + 1
    · subst hn
      rw [get_published_self] at hs
      cases hs
      exact ⟨m, hdec, hlisted.segments⟩
    · rw [get_published_snap_of_ne entry state ulid (by simp [hn])] at hs
      exact h.all ht n s hs

end Intact

/-! ## Along a checkpoint -/

/-- The calls that only read, draw or upload. -/
def Io.Quiet : Io S B → Prop
  | .latest => True
  | .take => True
  | .draw => True
  | .put _ _ => True
  | .get _ => True
  | _ => False

/-- What a machine keeps when nothing is deleted and the store stays. -/
structure Carried (s s' : Machine D S B) : Prop where
  store : s'.remote.store = s.remote.store
  draws : s.remote.draws ≤ s'.remote.draws
  bucket : ∀ path, (s.remote.bucket path).isSome = true → (s'.remote.bucket path).isSome = true
  handle : s'.db.name = s.db.name

theorem Carried.refl (s : Machine D S B) : Carried s s := ⟨rfl, le_rfl, fun _ h => h, rfl⟩

/-- What holds between the calls of a checkpoint. -/
def Between (env : Outside D S B) (name : String) (tidy : Prop) (s : Machine D S B) : Prop :=
  Intact env name tidy s.remote ∧ s.db.name = name

/-- A delete is of a path that the latest manifest retires. -/
def OfRetired (env : Outside D S B) (name : String) (c : Io S B) (s : Machine D S B) : Prop :=
  ∀ path, c = .delete path → ∃ m, latestManifest env s.remote.store name = .ok m ∧ path ∈ m.retire

/-- The latest manifest is `m`, and the segments are in the bucket and not retired. -/
structure Ready (env : Outside D S B) (name : String) (m : Manifest) (segments : List SegmentRef)
    (s : Machine D S B) : Prop where
  latest : latestManifest env s.remote.store name = .ok m
  held : ∀ seg ∈ segments, HeldPath env name s.remote seg.path ∧ seg.path ∉ m.retire

variable {m : Manifest} {segments : List SegmentRef} {s s' : Machine D S B}

theorem Between.carried (h : Between env name tidy s) (hon : Carried s s') :
    Between env name tidy s' :=
  ⟨h.1.frame (fun _ => by rw [hon.store]) hon.draws hon.bucket, hon.handle.trans h.2⟩

theorem Ready.carried (h : Ready env name m segments s) (hon : Carried s s') :
    Ready env name m segments s' where
  latest := by
    rw [hon.store]
    exact h.latest
  held seg hseg := ⟨(h.held seg hseg).1.mono hon.draws (hon.bucket _), (h.held seg hseg).2⟩

theorem Between.ready (h : Between env name tidy s) :
    ∃ m, Ready env name m m.segments s ∧ Listed env name s.remote m := by
  obtain ⟨m, hm, hlisted⟩ := h.1.latest
  refine ⟨m, ⟨hm, fun seg hseg => ⟨hlisted.segments seg hseg, fun hmem => ?_⟩⟩, hlisted⟩
  exact (hlisted.retire seg.path hmem).2 seg hseg rfl

variable [Payload D]

theorem Does.carried {c : Io S B} {s s' : Machine D S B} {reply : c.Reply}
    (h : Does name c s reply s') (hc : c.Quiet) : Carried s s' := by
  have put_carried : ∀ (path : String) (bytes : B) (s : Machine D S B),
      Carried s (exec name (.put path bytes) s).2 := by
    intro path bytes s
    refine ⟨rfl, le_rfl, fun path' hsome => ?_, rfl⟩
    by_cases hpath : path' = path
    · subst hpath
      simp [exec]
    · simpa [exec, Function.update_of_ne hpath] using hsome
  cases h with
  | ok =>
      cases c with
      | latest => exact .refl s
      | take => exact ⟨rfl, le_rfl, fun _ h => h, rfl⟩
      | draw => exact ⟨rfl, Nat.le_succ _, fun _ h => h, rfl⟩
      | put path bytes => exact put_carried path bytes s
      | get path => exact .refl s
      | delete | publish | purge => exact hc.elim
  | latest => exact .refl s
  | put path bytes _ e landed =>
      cases landed with
      | true => exact put_carried path bytes s
      | false => exact .refl s
  | get => exact .refl s
  | delete | publish | purge => exact hc.elim

/-- The outcomes of the calls, without deletes if the run is tidy. -/
def Outcomes (name : String) (tidy : Prop) (c : Io S B) (s : Machine D S B) (reply : c.Reply)
    (s' : Machine D S B) : Prop :=
  Does name c s reply s' ∧ (tidy → ∀ path, c ≠ .delete path)

/-- Wherever the script is cut off, the manifests are kept. -/
def Safe {α : Type} (env : Outside D S B) (name : String) (tidy : Prop)
    (Q : α → Machine D S B → Prop) (p : IoM S B α) (s : Machine D S B) : Prop :=
  p.Along (Outcomes name tidy) (Between env name tidy) (OfRetired env name) Q s

/-- A quiet call, and then what its reply calls for. -/
theorem Safe.call {α : Type} {Q : α → Machine D S B → Prop} {c : Io S B}
    {next : c.Reply → IoM S B α} (h : Between env name tidy s) (hc : c.Quiet)
    (hnext : ∀ reply s', Does name c s reply s' → Between env name tidy s' → Carried s s' →
      Safe env name tidy Q (next reply) s') : Safe env name tidy Q (.call c next) s := by
  refine ⟨h, ?_, fun reply s' hdoes => ?_⟩
  · rintro path rfl
    exact hc.elim
  · have hon := hdoes.1.carried hc
    exact hnext reply s' hdoes.1 (h.carried hon) hon

theorem safe_latestManifest (h : Between env name tidy s) :
    Safe env name tidy (fun m s' => Ready env name m m.segments s') (IoM.latestManifest env) s := by
  obtain ⟨m, hready, -⟩ := h.ready
  have hlatest : Safe env name tidy
      (fun o s' => Ready env name m m.segments s' ∧ o = snapshotAt s'.remote.store name)
      (IoM.latest : IoM S B _) s := by
    refine Safe.call h trivial fun reply s' hdoes hs' hcar => Script.Along.lift hs' fun o hok => ?_
    refine ⟨hready.carried hcar, ?_⟩
    cases hdoes with
    | ok =>
        simp only [exec, latestSnapshot_eval] at hok
        exact (Except.ok.inj hok).symm
    | latest => cases hok
  refine Script.Along.bind hlatest fun o s' hs' hq => ?_
  obtain ⟨hready', rfl⟩ := hq
  have hm := hready'.latest
  rw [latestManifest_eq] at hm
  cases hsnap : snapshotAt s'.remote.store name with
  | none =>
      rw [hsnap] at hm
      cases hm
      exact ⟨hs', hready'⟩
  | some snap =>
      rw [hsnap] at hm
      refine Script.Along.lift hs' fun m' hm' => ?_
      rw [show env.manifest.decode snap.state = .ok m from hm] at hm'
      cases hm'
      exact hready'

/-- An uploaded segment is at a path of its own. -/
theorem safe_putLtx (henv : env.Lawful name) (h : Between env name tidy s)
    (hready : Ready env name m segments s) (l : Ltx) :
    Safe env name tidy (fun path s' => Ready env name m segments s' ∧
      HeldPath env name s'.remote path ∧ path ∉ m.retire ∧ ∀ seg ∈ segments, seg.path ≠ path)
      (IoM.putLtx env name l) s := by
  obtain ⟨m', hready', hlisted⟩ := h.ready
  obtain rfl : m' = m := Except.ok.inj (hready'.latest.symm.trans hready.latest)
  -- a path drawn before is another one
  have fresh : ∀ path, (∃ i, i < s.remote.draws ∧ path = env.segmentPath name i) →
      path ≠ env.segmentPath name s.remote.draws := by
    rintro _ ⟨i, hi, rfl⟩ heq
    have := henv.fresh _ _ heq
    omega
  have hretire : env.segmentPath name s.remote.draws ∉ m'.retire := fun hmem =>
    fresh _ (hlisted.retire _ hmem).1 rfl
  have hsegs : ∀ seg ∈ segments, seg.path ≠ env.segmentPath name s.remote.draws := fun seg hseg =>
    fresh _ (hready.held seg hseg).1.1
  have hdraw : Safe env name tidy (fun i s' => i = s.remote.draws ∧ s.remote.draws < s'.remote.draws ∧
      Ready env name m' segments s') (IoM.draw : IoM S B Nat) s := by
    refine Safe.call h trivial fun reply s' hdoes hs' hcar => ⟨hs', ?_⟩
    cases hdoes with
    | ok => exact ⟨rfl, Nat.lt_succ_self _, hready.carried hcar⟩
  refine Script.Along.bind hdraw fun i s₁ hs₁ hq => ?_
  obtain ⟨rfl, hlt, hready₁⟩ := hq
  refine Script.Along.bind (Q := fun _ s' => s' = s₁) (Script.Along.lift hs₁ fun _ _ => rfl)
    fun bytes s₂ hs₂ hq => ?_
  subst hq
  refine Script.Along.bind (Q := fun _ s' => Ready env name m' segments s' ∧
    HeldPath env name s'.remote (env.segmentPath name s.remote.draws)) ?_
    fun _ s₃ hs₃ hq => ⟨hs₃, hq.1, hq.2, hretire, hsegs⟩
  refine Safe.call hs₂ trivial fun reply s' hdoes hs' hcar => Script.Along.lift hs' fun _ hok => ?_
  refine ⟨hready₁.carried hcar, ⟨s.remote.draws, hlt.trans_le hcar.draws, rfl⟩, ?_⟩
  cases hdoes with
  | ok => simp [exec]
  | put => cases hok

theorem safe_fetchLtx (h : Between env name tidy s) (hready : Ready env name m segments s)
    (path : String) :
    Safe env name tidy (fun _ s' => Ready env name m segments s') (IoM.fetchLtx env path) s := by
  refine Script.Along.bind (Q := fun _ s' => Ready env name m segments s') ?_
    fun bytes s' hs' hready' => Script.Along.lift hs' fun _ _ => hready'
  exact Safe.call h trivial fun reply s' _ hs' hcar =>
    Script.Along.lift hs' fun _ _ => hready.carried hcar

theorem safe_fetchAll : ∀ {s : Machine D S B} (refs : List SegmentRef), Between env name tidy s →
    Ready env name m segments s →
      Safe env name tidy (fun _ s' => Ready env name m segments s') (IoM.fetchAll env refs) s
  | _, [], h, hready => ⟨h, hready⟩
  | _, seg :: refs, h, hready => by
      refine Script.Along.bind (safe_fetchLtx h hready seg.path) fun l s₁ hs₁ hready₁ => ?_
      refine Script.Along.bind (safe_fetchAll refs hs₁ hready₁) fun ls s₂ hs₂ hready₂ => ?_
      exact ⟨hs₂, hready₂⟩

/-- The next manifest lists segments that are in the bucket, and retires others. -/
def NextReady (env : Outside D S B) (name : String) (m : Manifest)
    (next : List SegmentRef × List String) (s : Machine D S B) : Prop :=
  Ready env name m next.1 s ∧ ∀ path ∈ next.2,
    (∃ i, i < s.remote.draws ∧ path = env.segmentPath name i) ∧ ∀ seg ∈ next.1, seg.path ≠ path

theorem safe_coalesce (henv : env.Lawful name) (h : Between env name tidy s)
    (hready : Ready env name m segments s) (newRef : SegmentRef) (ltx : Ltx) :
    Safe env name tidy (NextReady env name m) (IoM.coalesce env name segments newRef ltx) s := by
  refine Script.Along.bind (safe_fetchAll _ h hready) fun older s₁ hs₁ hready₁ => ?_
  refine Script.Along.bind (safe_putLtx henv hs₁ hready₁ _) fun path s₂ hs₂ hq => ?_
  obtain ⟨hready₂, hheld, hretire, hne⟩ := hq
  refine ⟨hs₂, ⟨hready₂.latest, fun seg hseg => ?_⟩, fun path' hpath' => ?_⟩
  · rw [List.mem_singleton.mp hseg]
    exact ⟨hheld, hretire⟩
  · obtain ⟨seg, hseg, rfl⟩ := List.mem_map.mp hpath'
    refine ⟨(hready₂.held seg hseg).1.1, fun seg' hseg' => ?_⟩
    rw [List.mem_singleton.mp hseg']
    exact (hne seg hseg).symm

theorem safe_nextSegments (henv : env.Lawful name) (h : Between env name tidy s)
    (opts : CheckpointOpts) (newRef : SegmentRef) (ltx : Ltx)
    (hready : Ready env name m (m.segments ++ [newRef]) s) :
    Safe env name tidy (NextReady env name m) (IoM.nextSegments env name opts m newRef ltx) s := by
  unfold IoM.nextSegments
  dsimp only
  split
  · exact safe_coalesce henv h hready newRef ltx
  · exact ⟨h, hready, fun path hpath => absurd hpath List.not_mem_nil⟩

theorem safe_deleteAll (henv : env.Lawful name) : ∀ {s : Machine D S B} (paths : List String),
    (∀ path ∈ paths, path ∈ m.retire) → Between env name tidy s → Ready env name m segments s →
      Safe env name tidy
        (fun _ s' => Ready env name m segments s' ∧ s'.remote.draws = s.remote.draws)
        (IoM.deleteAll env paths) s
  | _, [], _, h, hready => ⟨h, hready, rfl⟩
  | s, path :: paths, hpaths, h, hready => by
      have hpath := hpaths path List.mem_cons_self
      have hrest := fun p hp => hpaths p (List.mem_cons_of_mem _ hp)
      have hstable : env.path path = path := by
        obtain ⟨m', hready', hlisted⟩ := h.ready
        obtain rfl : m' = m := Except.ok.inj (hready'.latest.symm.trans hready.latest)
        obtain ⟨⟨i, -, rfl⟩, -⟩ := hlisted.retire path hpath
        exact henv.stable i
      show Safe env name tidy _ (.call (.delete (env.path path)) fun _ => IoM.deleteAll env paths) s
      rw [hstable]
      refine ⟨h, ?_, fun reply s' hdoes => ?_⟩
      · rintro _ ⟨⟩
        exact ⟨m, hready.latest, hpath⟩
      · have htidy : ¬ tidy := fun ht => hdoes.2 ht path rfl
        cases hdoes.1 with
        | ok =>
            have hgone : Between env name tidy (exec name (.delete path) s).2 :=
              ⟨h.1.delete htidy hready.latest hpath, h.2⟩
            refine safe_deleteAll henv paths hrest hgone ⟨hready.latest, fun seg hseg => ?_⟩
            obtain ⟨hheld, hnot⟩ := hready.held seg hseg
            refine ⟨hheld.mono le_rfl fun hsome => ?_, hnot⟩
            have hne : seg.path ≠ path := fun heq => hnot (heq ▸ hpath)
            exact (congrArg Option.isSome
              (Function.update_of_ne hne none s.remote.bucket)).trans hsome
        | delete => exact safe_deleteAll henv paths hrest h hready

theorem safe_publish {m' : Manifest} {state : S} (h : Between env name tidy s)
    (hdec : env.manifest.decode state = .ok m') (hlisted : Listed env name s.remote m')
    (entry : CompactionRecord) (ulid : String) :
    Safe env name tidy (fun _ _ => True) (IoM.publish entry state ulid) s := by
  have landed : Between env name tidy (exec name (.publish entry state ulid) s).2 :=
    ⟨h.1.publish hdec hlisted entry ulid, h.2⟩
  refine ⟨h, ?_, fun reply s' hdoes => Script.Along.lift ?_ fun _ _ => trivial⟩
  · rintro path ⟨⟩
  · cases hdoes.1 with
    | ok => exact landed
    | publish _ _ _ _ e lands =>
        cases lands with
        | true => exact landed
        | false => exact h

theorem safe_purge (h : Between env name tidy s) (floor : Nat) :
    Safe env name tidy (fun _ _ => True) (IoM.purge floor : IoM S B Unit) s := by
  refine ⟨h, ?_, fun reply s' hdoes => Script.Along.lift ?_ fun _ _ => trivial⟩
  · rintro path ⟨⟩
  · cases hdoes.1 with
    | ok =>
        refine ⟨h.1.frame (fun n => ?_) le_rfl fun _ hsome => hsome, h.2⟩
        exact Call.exec_snap (.purgeBelow name floor) rfl s.remote.store name n
    | purge _ _ e versions _ =>
        refine ⟨h.1.frame (fun n => ?_) le_rfl fun _ hsome => hsome, h.2⟩
        exact get_purged_of_ne versions s.remote.store (by simp)

theorem safe_installManifest (henv : env.Lawful name) (h : Between env name tidy s)
    {next : List SegmentRef × List String} (hnext : NextReady env name m next s)
    (opts : CheckpointOpts) (through : Nat) (nowMs : Int) (ulid : String) :
    Safe env name tidy (fun _ _ => True) (IoM.installManifest env name opts through m.retire
      { segments := next.1, retire := next.2 } nowMs ulid) s := by
  refine Script.Along.bind (safe_deleteAll henv m.retire (fun _ hp => hp) h hnext.1)
    fun _ s₁ hs₁ hq => ?_
  obtain ⟨hready₁, hdraws⟩ := hq
  have hlisted : Listed env name s₁.remote { segments := next.1, retire := next.2 } := by
    refine ⟨fun seg hseg => (hready₁.held seg hseg).1, fun path hpath => ?_⟩
    obtain ⟨hdrawn, hne⟩ := hnext.2 path hpath
    exact ⟨hdraws ▸ hdrawn, hne⟩
  obtain ⟨state, henc, hdec⟩ := henv.manifest { segments := next.1, retire := next.2 }
  refine Script.Along.bind (Q := fun a s' => a = state ∧ s' = s₁) ?_ fun _ s₂ hs₂ hq => ?_
  · refine Script.Along.lift hs₁ fun a ha => ⟨?_, rfl⟩
    rw [henc] at ha
    exact (Except.ok.inj ha).symm
  · obtain ⟨rfl, rfl⟩ := hq
    refine Script.Along.bind (safe_publish hs₂ hdec hlisted _ ulid) fun _ s₃ hs₃ _ => ?_
    split
    · exact Script.Along.bind (safe_purge hs₃ (through + 1)) fun _ s₄ hs₄ _ => ⟨hs₄, trivial⟩
    · exact ⟨hs₃, trivial⟩

/-- Wherever a checkpoint is cut off and whatever fails, the manifests are kept, and what
it deletes the latest manifest has retired. -/
theorem safe_sealScript (henv : env.Lawful name) (h : Between env name tidy s)
    (opts : CheckpointOpts) (nowMs : Int) (ulid : String) (tail : Option Nat)
    (pending : LtxBuilder) :
    Safe env name tidy (fun _ _ => True) (sealScript env name opts nowMs ulid tail pending) s := by
  unfold sealScript
  cases tail with
  | none => exact ⟨h, trivial⟩
  | some through =>
      refine Script.Along.bind (safe_latestManifest h) fun m s₁ hs₁ hready₁ => ?_
      split
      · exact ⟨hs₁, trivial⟩
      · refine Script.Along.bind (Q := fun _ s' => Ready env name m m.segments s') ?_
          fun taken s₂ hs₂ hready₂ => ?_
        · exact Safe.call hs₁ trivial fun _ s' _ hs' hcar => ⟨hs', hready₁.carried hcar⟩
        · refine Script.Along.bind (safe_putLtx henv hs₂ hready₂ _) fun path s₃ hs₃ hq => ?_
          obtain ⟨hready₃, hheld, hretire, -⟩ := hq
          refine Script.Along.bind (safe_nextSegments henv hs₃ opts _ _ ⟨hready₃.latest, ?_⟩)
            fun next s₄ hs₄ hnext => ?_
          · intro seg hseg
            rcases List.mem_append.mp hseg with hseg | hseg
            · exact hready₃.held seg hseg
            · rw [List.mem_singleton.mp hseg]
              exact ⟨hheld, hretire⟩
          · exact Script.Along.bind (safe_installManifest henv hs₄ hnext opts through nowMs ulid)
              fun entry s₅ hs₅ _ => ⟨hs₅, trivial⟩

end

end Landslide.Sqlite
