import Landslide.Sqlite.Interrupts
import Landslide.Sqlite.Runs

/-!
# The segments of a manifest

A process opens a database, syncs it and makes checkpoints, any call may fail, and the
process may stop at any point.  Whatever the run, the objects of the segments that the
latest manifest lists are in the bucket, and none of them is on its retire list
(`manifest_segments_present`).

The retire list of a manifest is deleted by the next checkpoint before that checkpoint
publishes.  So the manifest is still the latest one while its retire list is deleted
(`retired_deleted_early`), and a run deletes only what a newer manifest has superseded
exactly if it deletes nothing (`deletes_superseded_iff`).
-/

namespace Landslide.Sqlite

open Std Overlay TxnKv

section

variable {D S B : Type} {env : Outside D S B} {name : String} {tidy : Prop} [Payload D]

/-! ## Runs -/

/-- What runs keep. -/
structure Sound (env : Outside D S B) (name : String) (tidy : Prop) (w : Site D S B) : Prop where
  kept : Intact env name tidy w.remote
  process : ∀ db p, w.process = some (db, p) → db.name = name ∧
    ∀ q, p = some q → Safe env name tidy (fun _ _ => True) q ⟨w.remote, db⟩

/-- A sync appends to the store and leaves the snapshots and the bucket. -/
theorem syncInner_carried (name : String) (env : Outside D S B) (coalesce : Bool)
    (wal : Option Bytes) (stamps : Nat → Nat → Stamp) (db : Db) (r : Remote D S B) :
    let out := syncInner env coalesce wal stamps db r
    (∀ n, out.2.2.store.get (.snap name n) = r.store.get (.snap name n)) ∧
      out.2.2.draws = r.draws ∧ out.2.2.bucket = r.bucket ∧ out.2.1.name = db.name := by
  intro out
  dsimp only [out]
  unfold syncInner
  cases scan db.cursor db.image.txid wal with
  | none => exact ⟨fun _ => rfl, rfl, rfl, rfl⟩
  | some found =>
      dsimp only
      split
      · exact ⟨fun _ => rfl, rfl, rfl, rfl⟩
      · cases encodeDeltas env (batch coalesce found.deltas) with
        | error e => exact ⟨fun _ => rfl, rfl, rfl, rfl⟩
        | ok events =>
            have hsnap := fun n => Call.exec_snap (.appendWithToken db.name db.token
              (expected db.tail) events false stamps) rfl r.store name n
            dsimp only
            split
            · next hexec => exact ⟨fun n => by rw [← hsnap n, hexec], rfl, rfl, rfl⟩
            · next hexec => exact ⟨fun n => by rw [← hsnap n, hexec], rfl, rfl, rfl⟩
            · next hexec => exact ⟨fun n => by rw [← hsnap n, hexec], rfl, rfl, rfl⟩

/-- Opening takes the fence and a ULID. -/
theorem openDb_carried (name : String) (env : Outside D S B) (r : Remote D S B) :
    let out := openDb env name r
    (∀ n, out.2.store.get (.snap name n) = r.store.get (.snap name n)) ∧
      out.2.draws = r.draws + 1 ∧ out.2.bucket = r.bucket ∧
      ∀ db, out.1 = .ok db → db.name = name := by
  intro out
  dsimp only [out]
  unfold openDb
  have hsnap := fun n => Call.exec_snap (.fence name (some (env.ulid r.draws))) rfl
    r.store name n
  dsimp only
  split
  · exact ⟨hsnap, rfl, rfl, fun db hdb => by cases hdb⟩
  · split
    · exact ⟨hsnap, rfl, rfl, fun db hdb => by cases hdb⟩
    · refine ⟨hsnap, rfl, rfl, fun db hdb => ?_⟩
      cases hdb
      rfl

namespace Sound

theorem start (env : Outside D S B) (name : String) (tidy : Prop) :
    Sound env name tidy ({} : Site D S B) where
  kept := .empty env name tidy
  process := by
    rintro db p ⟨⟩

theorem step {w w' : Site D S B} (h : Sound env name tidy w) (henv : env.Lawful name)
    (hstep : Step env name w w') (htidy : tidy → ∀ path, ¬ w.Deletes path) :
    Sound env name tidy w' := by
  have idle : ∀ {r : Remote D S B} {db : Db}, Intact env name tidy r → db.name = name →
      Sound env name tidy ⟨r, some (db, none)⟩ := by
    intro r db hkept hname
    refine ⟨hkept, ?_⟩
    rintro _ _ ⟨⟩
    exact ⟨hname, fun q hq => by cases hq⟩
  cases hstep with
  | «open» =>
      obtain ⟨hsnap, hdraws, hbucket, hname⟩ := openDb_carried name env w.remote
      have hkept := h.kept.frame hsnap (hdraws ▸ Nat.le_succ _) fun _ hsome => hbucket ▸ hsome
      refine ⟨hkept, fun db p hp => ?_⟩
      obtain ⟨db', hdb', heq⟩ := Option.map_eq_some_iff.mp hp
      cases heq
      refine ⟨hname db ?_, fun q hq => by cases hq⟩
      cases hout : (openDb env name w.remote).1 with
      | error e =>
          rw [hout] at hdb'
          cases hdb'
      | ok found =>
          rw [hout] at hdb'
          cases hdb'
          rfl
  | sync r db coalesce wal stamps =>
      obtain ⟨hsnap, hdraws, hbucket, hname⟩ :=
        syncInner_carried name env coalesce wal stamps db r
      exact idle (h.kept.frame hsnap hdraws.ge fun _ hsome => hbucket ▸ hsome)
        (hname.trans (h.process db none rfl).1)
  | syncFails r db coalesce wal stamps landed =>
      obtain ⟨hsnap, hdraws, hbucket, -⟩ := syncInner_carried name env coalesce wal stamps db r
      have hscanned : (db.scanned wal).name = name := by
        refine Eq.trans ?_ (h.process db none rfl).1
        unfold Db.scanned
        split <;> rfl
      cases landed with
      | true =>
          exact idle (h.kept.frame hsnap hdraws.ge fun _ hsome => hbucket ▸ hsome) hscanned
      | false => exact idle h.kept hscanned
  | checkpoint r db opts wal stamps nowMs ulid hsync =>
      obtain ⟨hsnap, hdraws, hbucket, hname⟩ := syncInner_carried name env false wal stamps db r
      rw [hsync] at hsnap hdraws hbucket hname
      have hkept := h.kept.frame hsnap hdraws.ge fun _ hsome => hbucket ▸ hsome
      have hdb := hname.trans (h.process db none rfl).1
      refine ⟨hkept, ?_⟩
      rintro _ _ ⟨⟩
      refine ⟨hdb, ?_⟩
      rintro _ ⟨⟩
      rw [show _ = name from hdb]
      exact safe_sealScript henv ⟨hkept, hdb⟩ opts nowMs ulid _ _
  | call r db c next hdoes =>
      obtain ⟨hname, hsafe⟩ := h.process db _ rfl
      have hafter := (hsafe _ rfl).2.2 _ _ ⟨hname ▸ hdoes, fun ht path hc => ?_⟩
      · obtain ⟨hkept, hname'⟩ := hafter.inv
        refine ⟨hkept, ?_⟩
        rintro _ _ ⟨⟩
        refine ⟨hname', ?_⟩
        rintro _ ⟨⟩
        exact hafter
      · subst hc
        exact htidy ht path rfl
  | done r db a => exact idle h.kept (h.process db _ rfl).1
  | fail r db e => exact idle h.kept (h.process db _ rfl).1
  | stop => exact ⟨h.kept, by rintro db p ⟨⟩⟩

end Sound

/-- Every state of a run is sound, also with nothing deleted if it deletes nothing. -/
theorem Run.sound {ws : List (Site D S B)} (h : Run env name ws) (tidy : Prop)
    (henv : env.Lawful name) (htidy : tidy → ∀ w ∈ ws, ∀ path, ¬ w.Deletes path) :
    ∀ w ∈ ws, Sound env name tidy w := by
  induction h with
  | start =>
      intro w hw
      rw [List.mem_singleton.mp hw]
      exact .start env name tidy
  | @step w w' ws _ hstep ih =>
      have hbefore := ih fun ht v hv => htidy ht v (List.mem_cons_of_mem _ hv)
      intro v hv
      rcases List.mem_cons.mp hv with rfl | hv
      · exact (hbefore w List.mem_cons_self).step henv hstep fun ht =>
          htidy ht w (List.mem_cons_of_mem _ List.mem_cons_self)
      · exact hbefore v hv

/-! ## Runs without failures -/

theorem exec_name (c : Io S B) (s : Machine D S B) : (exec name c s).2.db.name = s.db.name := by
  cases c <;> rfl

/-- A call of a checkpoint that succeeds. -/
theorem Run.exec {s : Machine D S B} {c : Io S B}
    {next : c.Reply → IoM S B (Option CompactionRecord)} {ws : List (Site D S B)}
    (hname : s.db.name = name)
    (h : Run env name (⟨s.remote, some (s.db, some (.call c next))⟩ :: ws)) :
    Run env name (⟨(Sqlite.exec name c s).2.remote,
      some ((Sqlite.exec name c s).2.db, some (next (Sqlite.exec name c s).1))⟩ ::
        ⟨s.remote, some (s.db, some (.call c next))⟩ :: ws) :=
  .step h (.call s.remote s.db c next (hname ▸ .ok c s))

/-- The first calls of a checkpoint succeed. -/
theorem Run.advance {p : IoM S B (Option CompactionRecord)} {s : Machine D S B}
    (hname : s.db.name = name) (h : ∃ ws, Run env name (⟨s.remote, some (s.db, some p)⟩ :: ws))
    (n : Nat) : ∃ ws, Run env name (⟨(p.advance (Sqlite.exec name) n s).2.remote,
      some ((p.advance (Sqlite.exec name) n s).2.db,
        some (p.advance (Sqlite.exec name) n s).1)⟩ :: ws) := by
  refine (Script.advance_induct (P := fun p (s : Machine D S B) =>
    s.db.name = name ∧ ∃ ws, Run env name (⟨s.remote, some (s.db, some p)⟩ :: ws)) ?_ n ⟨hname, h⟩).2
  rintro c next s ⟨hname, ws, h⟩
  exact ⟨(exec_name c s).trans hname, _, h.exec hname⟩

/-- All calls of a checkpoint succeed. -/
theorem Run.finish {p : IoM S B (Option CompactionRecord)} : ∀ {s : Machine D S B},
    s.db.name = name → (∃ ws, Run env name (⟨s.remote, some (s.db, some p)⟩ :: ws)) →
      ∃ ws, Run env name (⟨(p.run (Sqlite.exec name) s).2.remote,
        some ((p.run (Sqlite.exec name) s).2.db, none)⟩ :: ws) := by
  induction p with
  | done a =>
      rintro s - ⟨ws, h⟩
      exact ⟨_, h.step (.done _ _ a)⟩
  | fail e =>
      rintro s - ⟨ws, h⟩
      exact ⟨_, h.step (.fail _ _ e)⟩
  | call c next ih =>
      rintro s hname ⟨ws, h⟩
      exact ih _ ((exec_name c s).trans hname) ⟨_, h.exec hname⟩

/-- A state of runs without failures as one of runs with interruptions. -/
def State.site (st : State D S B) : Site D S B := ⟨st.remote, st.db.map (·, none)⟩

/-- The states of runs without failures are states of runs with interruptions. -/
theorem Run.of_reached {st : State D S B} (henv : env.Lawful name)
    (h : Reached env name (fun _ op => op.Faultless) st) : ∃ ws, Run env name (st.site :: ws) := by
  induction h with
  | start => exact ⟨[], .start⟩
  | @step st op _ hop ih =>
      obtain ⟨ws, hrun⟩ := ih
      cases op with
      | «open» => exact ⟨_, hrun.step (.open _)⟩
      | sync coalesce wal stamps =>
          cases hdb : st.db with
          | none =>
              simp only [Sqlite.step, hdb]
              exact ⟨ws, hrun⟩
          | some db =>
              rw [State.site, hdb] at hrun
              simp only [Sqlite.step, hdb]
              exact ⟨_, hrun.step (.sync st.remote db coalesce wal stamps)⟩
      | checkpoint opts wal stamps nowMs ulid fault =>
          cases hop
          cases hdb : st.db with
          | none =>
              simp only [Sqlite.step, hdb]
              exact ⟨ws, hrun⟩
          | some db =>
              rw [State.site, hdb] at hrun
              simp only [Sqlite.step, hdb]
              show ∃ ws, Run env name (⟨(checkpointWith env opts wal stamps nowMs ulid none db
                st.remote).2.2, some ((checkpointWith env opts wal stamps nowMs ulid none db
                  st.remote).2.1, none)⟩ :: ws)
              rw [checkpointWith]
              cases hsync : syncInner env false wal stamps db st.remote with
              | mk res rest =>
              obtain ⟨db₁, r₁⟩ := rest
              cases res with
              | error e =>
                  have hstep := hrun.step (.sync st.remote db false wal stamps)
                  rw [hsync] at hstep
                  exact ⟨_, hstep⟩
              | ok n =>
                  have hstep := hrun.step (.checkpoint st.remote db opts wal stamps nowMs ulid hsync)
                  have hname := ((hstep.sound False henv (fun hf => hf.elim) _
                    List.mem_cons_self).process db₁ _ rfl).1
                  have hfinish := Run.finish (s := ⟨r₁, db₁⟩) hname ⟨_, hstep⟩
                  rw [← hname, run_sealScript, hname] at hfinish
                  exact hfinish

/-- After `n` calls of a checkpoint that succeed, and before the next. -/
def State.midCheckpoint (env : Outside D S B) (st : State D S B) (opts : CheckpointOpts)
    (wal : Option Bytes) (stamps : Nat → Nat → Stamp) (nowMs : Int) (ulid : String) (n : Nat) :
    Site D S B :=
  match st.db with
  | none => st.site
  | some db =>
      match syncInner env false wal stamps db st.remote with
      | (.error _, db, r) => ⟨r, some (db, none)⟩
      | (.ok _, db, r) =>
          let left := (sealScript env db.name opts nowMs ulid db.tail db.pending).advance
            (exec db.name) n ⟨r, db⟩
          ⟨left.2.remote, some (left.2.db, some left.1)⟩

theorem Run.midCheckpoint {st : State D S B} (henv : env.Lawful name)
    (h : Reached env name (fun _ op => op.Faultless) st) (opts : CheckpointOpts)
    (wal : Option Bytes) (stamps : Nat → Nat → Stamp) (nowMs : Int) (ulid : String) (n : Nat) :
    ∃ ws, Run env name (st.midCheckpoint env opts wal stamps nowMs ulid n :: ws) := by
  obtain ⟨ws, hrun⟩ := Run.of_reached henv h
  unfold State.midCheckpoint
  cases hdb : st.db with
  | none => exact ⟨ws, hrun⟩
  | some db =>
      rw [State.site, hdb] at hrun
      dsimp only
      cases hsync : syncInner env false wal stamps db st.remote with
      | mk res rest =>
      obtain ⟨db₁, r₁⟩ := rest
      cases res with
      | error e =>
          have hstep := hrun.step (.sync st.remote db false wal stamps)
          rw [hsync] at hstep
          exact ⟨_, hstep⟩
      | ok k =>
          have hstep := hrun.step (.checkpoint st.remote db opts wal stamps nowMs ulid hsync)
          have hname := ((hstep.sound False henv (fun hf => hf.elim) _
            List.mem_cons_self).process db₁ _ rfl).1
          have hadvance := Run.advance (s := ⟨r₁, db₁⟩) hname ⟨_, hstep⟩ n
          rw [← hname] at hadvance ⊢
          exact hadvance

end

/-! ## A coalesced manifest -/

/-- A transaction is sealed, then a second one, and the two segments are coalesced. -/
def coalesced : State (List Delta) Manifest Ltx :=
  run plain "d" [.open, .checkpoint {} (walOf [(1, 1, 10)]) stamps 5 "c" none, .open,
    .checkpoint { coalesceAt := 0 } (walOf [(2, 2, 20)]) stamps 5 "d" none, .open]

/-- After `n` calls of a third checkpoint. -/
def collecting (n : Nat) : Site (List Delta) Manifest Ltx :=
  coalesced.midCheckpoint plain {} (walOf [(1, 2, 30)]) stamps 5 "e" n

theorem run_collecting (n : Nat) : ∃ ws, Run plain "d" (collecting n :: ws) := by
  have hreached : Reached plain "d" (fun _ op => op.Faultless) coalesced :=
    .run ⟨trivial, rfl, trivial, rfl, trivial, trivial⟩
  exact Run.midCheckpoint (plain_lawful "d") hreached {} (walOf [(1, 2, 30)]) stamps 5 "e" n

/-- The third checkpoint stops after it has deleted the segments that were coalesced. -/
def abandoned : Site (List Delta) Manifest Ltx := { collecting 6 with process := none }

section

variable {D S B : Type} {env : Outside D S B} {name : String} {tidy : Prop} [Payload D]

/-- In every state of every run of opens, syncs and checkpoints, in which any call may
fail and the process may stop at any point, the objects of the segments of the latest
manifest are in the bucket, and none of them is retired. -/
theorem manifest_segments_present (env : Outside D S B) (name : String) (henv : env.Lawful name)
    {ws : List (Site D S B)} (h : Run env name ws) : ∀ w ∈ ws,
      ∃ m, latestManifest env w.remote.store name = .ok m ∧
        (∀ seg ∈ m.segments, (w.remote.bucket (env.path seg.path)).isSome = true) ∧
        ∀ seg ∈ m.segments, seg.path ∉ m.retire := by
  intro w hw
  obtain ⟨m, hm, hlisted⟩ := (h.sound False henv (fun hf => hf.elim) w hw).kept.latest
  refine ⟨m, hm, fun seg hseg => ?_, fun seg hseg hmem => ?_⟩
  · obtain ⟨⟨i, -, hi⟩, hsome⟩ := hlisted.segments seg hseg
    rw [hi, henv.stable i, ← hi]
    exact hsome
  · exact (hlisted.retire seg.path hmem).2 seg hseg rfl

end

theorem manifest_segments_present_abandoned :
    ∃ m, latestManifest plain abandoned.remote.store "d" = .ok m ∧
      (∀ seg ∈ m.segments, (abandoned.remote.bucket (plain.path seg.path)).isSome = true) ∧
      ∀ seg ∈ m.segments, seg.path ∉ m.retire := by
  obtain ⟨ws, h⟩ := run_collecting 6
  exact manifest_segments_present plain "d" (plain_lawful "d") (h.step (.stop _)) abandoned
    List.mem_cons_self

section

variable {D S B : Type} {env : Outside D S B} {name : String} {tidy : Prop} [Payload D]

/-! ## Deletes -/

/-- Every manifest that retires the path is followed by a newer one. -/
def Superseded (env : Outside D S B) (name : String) (r : Remote D S B) (path : String) : Prop :=
  ∀ n s m, r.store.get (.snap name n) = some s → env.manifest.decode s.state = .ok m →
    path ∈ m.retire → ∃ n', n < n' ∧ (r.store.get (.snap name n')).isSome = true

/-- A manifest that is the latest or the one before it has the objects of its segments in
the bucket. -/
def PrecedingFound (env : Outside D S B) (name : String) (r : Remote D S B) : Prop :=
  ∀ n s m, r.store.get (.snap name n) = some s → env.manifest.decode s.state = .ok m →
    (∀ k k', n < k → k < k' → (r.store.get (.snap name k)).isSome = true →
      r.store.get (.snap name k') = none) →
      ∀ seg ∈ m.segments, (r.bucket (env.path seg.path)).isSome = true

/-- What is about to be deleted has been superseded, and a restore from the manifest
before the latest finds its segments. -/
def Site.Orderly (env : Outside D S B) (name : String) (w : Site D S B) : Prop :=
  (∀ path, w.Deletes path → Superseded env name w.remote path) ∧
    PrecedingFound env name w.remote

/-- What a checkpoint deletes is retired by the latest manifest, so it has not been
superseded. -/
theorem Sound.not_superseded {w : Site D S B} (h : Sound env name tidy w) {path : String}
    (hdel : w.Deletes path) : ¬ Superseded env name w.remote path := by
  obtain ⟨db, next, hprocess⟩ := hdel.process
  obtain ⟨m, hm, hpath⟩ := ((h.process db _ hprocess).2 _ rfl).2.1 path rfl
  intro hsuper
  rw [latestManifest_eq] at hm
  rcases highest_cases w.remote.store name with hnone | ⟨k, s, hhigh⟩
  · cases hs : snapshotAt w.remote.store name with
    | none =>
        rw [hs] at hm
        cases hm
        cases hpath
    | some s =>
        obtain ⟨n, hn⟩ := get_of_snapshotAt hs
        rw [hnone n] at hn
        cases hn
  · rw [hhigh.snapshotAt_eq] at hm
    obtain ⟨n', hlt, hsome⟩ := hsuper k s m hhigh.get hm hpath
    exact absurd (hhigh.le n' hsome) (Nat.not_le.mpr hlt)

/-- A run deletes only what a newer manifest has superseded, and keeps the segments of
the manifest before the latest, exactly if it deletes nothing: if no checkpoint that got
past its uploads found paths to collect in the latest manifest. -/
theorem deletes_superseded_iff (env : Outside D S B) (name : String) (henv : env.Lawful name)
    {ws : List (Site D S B)} (h : Run env name ws) :
    (∀ w ∈ ws, w.Orderly env name) ↔ ∀ w ∈ ws, ∀ path, ¬ w.Deletes path := by
  constructor
  · intro horderly w hw path hdel
    have hsound := h.sound False henv (fun hf => hf.elim) w hw
    exact hsound.not_superseded hdel ((horderly w hw).1 path hdel)
  · intro hnone w hw
    refine ⟨fun path hdel => absurd hdel (hnone w hw path), ?_⟩
    have hsound := h.sound True henv (fun _ => hnone) w hw
    intro n s m hs hm _ seg hseg
    obtain ⟨m', hm', hheld⟩ := hsound.kept.all trivial n s hs
    rw [hm] at hm'
    cases hm'
    obtain ⟨⟨i, -, hi⟩, hsome⟩ := hheld seg hseg
    rw [hi, henv.stable i, ← hi]
    exact hsome

end

/-- A run that only opens the database deletes nothing and is orderly.  The run up to the
deletes of the third checkpoint is not. -/
theorem deletes_superseded_collecting :
    (∀ w ∈ [⟨(openDb plain "d" {}).2, (openDb plain "d" {}).1.toOption.map (·, none)⟩, {}],
        Site.Orderly plain "d" w) ∧
      ∃ ws, Run plain "d" (collecting 4 :: ws) ∧
        ¬ ∀ w ∈ collecting 4 :: ws, w.Orderly plain "d" := by
  constructor
  · refine (deletes_superseded_iff plain "d" (plain_lawful "d") (.step .start (.open {}))).mpr ?_
    intro w hw path hdel
    rcases List.mem_pair.mp hw with rfl | rfl
    · cases hdel
    · cases hdel
  · obtain ⟨ws, h⟩ := run_collecting 4
    refine ⟨ws, h, fun horderly => ?_⟩
    refine (deletes_superseded_iff plain "d" (plain_lawful "d") h).mp horderly (collecting 4)
      List.mem_cons_self "ltx/d/u" ?_
    unfold Site.Deletes
    decide +kernel

/-- The third checkpoint is about to delete a segment that the latest manifest retires.
It deletes the two and stops, and the manifest before the latest has lost its segment. -/
theorem retired_deleted_early :
    (∃ ws, Run plain "d" (collecting 4 :: ws)) ∧ (collecting 4).Deletes "ltx/d/u" ∧
      ¬ Superseded plain "d" (collecting 4).remote "ltx/d/u" ∧
      (∃ ws, Run plain "d" (abandoned :: ws)) ∧ ¬ PrecedingFound plain "d" abandoned.remote := by
  obtain ⟨ws, h⟩ := run_collecting 4
  obtain ⟨ws', h'⟩ := run_collecting 6
  have hdel : (collecting 4).Deletes "ltx/d/u" := by
    unfold Site.Deletes
    decide +kernel
  have hsound := h.sound False (plain_lawful "d") (fun hf => hf.elim) _ List.mem_cons_self
  refine ⟨⟨ws, h⟩, hdel, hsound.not_superseded hdel, ⟨_, h'.step (.stop _)⟩, fun hfound => ?_⟩
  obtain ⟨s, hs, hpaths⟩ : ∃ s, abandoned.remote.store.get (.snap "d" 2) = some s ∧
      s.state.segments.map (·.path) = ["ltx/d/u"] := by
    refine Option.map_eq_some_iff.mp ?_
    decide +kernel
  -- the snapshots are those at 2 and 4
  have hkeys : (snapshotsOf abandoned.remote.store "d").map (·.1) =
      [.snap "d" 2, .snap "d" 4] := by decide +kernel
  have only : ∀ n, (abandoned.remote.store.get (.snap "d" n)).isSome = true → n = 2 ∨ n = 4 := by
    intro n hn
    obtain ⟨r, hr⟩ := Option.isSome_iff_exists.mp hn
    have hmem : Key.snap "d" n ∈ (snapshotsOf abandoned.remote.store "d").map (·.1) :=
      List.mem_map.mpr ⟨⟨_, r⟩, Store.mem_scan.mpr ⟨by simp [snapRange], hr⟩, rfl⟩
    rw [hkeys] at hmem
    simpa using hmem
  obtain ⟨seg, hseg, hpath⟩ : ∃ seg ∈ s.state.segments, seg.path = "ltx/d/u" := by
    have hmem : "ltx/d/u" ∈ s.state.segments.map (·.path) := by
      rw [hpaths]
      exact List.mem_singleton_self _
    exact List.mem_map.mp hmem
  have hsome := hfound 2 s s.state hs rfl (fun k k' hk hkk' hsome => ?_) seg hseg
  · rw [hpath] at hsome
    revert hsome
    decide +kernel
  · cases hnone : abandoned.remote.store.get (.snap "d" k') with
    | none => rfl
    | some r =>
        have := only k hsome
        have := only k' (by rw [hnone]; rfl)
        omega

end Landslide.Sqlite
