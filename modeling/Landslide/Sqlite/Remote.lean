import Landslide.Log
import Landslide.Sqlite.Store

/-!
# What the store and the bucket hold

The state outside a handle, related to the transactions that were appended.
`batches` are the transactions of the events of the stream, one list per version,
also of those that a purge removed.  `parts` are the transactions of the segments
of the latest manifest, in order.  `Stored` says that the events past the manifest
are all there, that the segments hold the rest, and that the objects that the
manifest needs are not among those that the next one deletes.

A restore replays the segments and then the events, so it shows the image of all
batches (`Stored.restoreImpl_eq`).
-/

namespace Landslide.Sqlite

open Std Overlay TxnKv

section

variable {D S B : Type} {env : Outside D S B} {name : String}

/-! ## Events and batches -/

/-- Replaying events applies their batches to the image and to the builder. -/
theorem replayEvent_foldl {events : List (Event D)} {batches : List (List Delta)}
    (h : List.Forall₂ (fun e ds => deltaEvents env e = .ok ds) events batches) :
    ∀ (image : DbImage) (pending : LtxBuilder),
      events.foldl (replayEvent env) (image, pending, none) =
        (image.applied batches.flatten, batches.flatten.foldl LtxBuilder.apply pending, none) := by
  induction h with
  | nil => exact fun _ _ => rfl
  | @cons e ds events batches hdec _ ih =>
      intro image pending
      have hstep : replayEvent env (image, pending, none) e =
          (image.applied ds, ds.foldl LtxBuilder.apply pending, none) := by
        rw [replayEvent, hdec]
      rw [List.foldl_cons, hstep, ih, List.flatten_cons, DbImage.applied_append, List.foldl_append]

/-! ## Segments and objects -/

/-- The bucket holds the segment of a reference, and it stands for these
transactions. -/
def Held (env : Outside D S B) (name : String) (r : Remote D S B) (seg : SegmentRef)
    (part : List Delta) : Prop :=
  ∃ i l b, i < r.draws ∧ seg = SegmentRef.of l (env.segmentPath name i) ∧
    r.bucket (env.segmentPath name i) = some b ∧ env.ltx.decode b = .ok l ∧ Seals l part

/-- A path that was drawn and that no segment of the manifest uses. -/
def Retired (env : Outside D S B) (name : String) (r : Remote D S B) (m : Manifest)
    (path : String) : Prop :=
  (∃ i, i < r.draws ∧ path = env.segmentPath name i) ∧ ∀ seg ∈ m.segments, seg.path ≠ path

/-- The segments of a manifest are held, and what it retires is not among them. -/
structure Holds (env : Outside D S B) (name : String) (r : Remote D S B) (m : Manifest)
    (parts : List (List Delta)) : Prop where
  segments : List.Forall₂ (Held env name r) m.segments parts
  retire : ∀ path ∈ m.retire, Retired env name r m path

/-- A bucket that keeps the object of a segment holds it. -/
theorem Held.mono {r r' : Remote D S B} {seg : SegmentRef} {part : List Delta}
    (h : Held env name r seg part) (hdraws : r.draws ≤ r'.draws)
    (hbucket : r'.bucket seg.path = r.bucket seg.path) : Held env name r' seg part := by
  obtain ⟨i, l, b, hi, rfl, hb, hdec, hs⟩ := h
  exact ⟨i, l, b, hi.trans_le hdraws, rfl, hbucket.trans hb, hdec, hs⟩

theorem Holds.mono {r r' : Remote D S B} {m : Manifest} {parts : List (List Delta)}
    (h : Holds env name r m parts) (hdraws : r.draws ≤ r'.draws)
    (hbucket : ∀ seg ∈ m.segments, r'.bucket seg.path = r.bucket seg.path) :
    Holds env name r' m parts where
  segments := by
    refine (List.forall₂_iff_zip.mpr ⟨h.segments.length_eq, fun hmem => ?_⟩)
    exact ((List.forall₂_iff_zip.mp h.segments).2 hmem).mono hdraws
      (hbucket _ (List.of_mem_zip hmem).1)
  retire path hp := by
    obtain ⟨⟨i, hi, rfl⟩, hne⟩ := h.retire path hp
    exact ⟨⟨i, hi.trans_le hdraws, rfl⟩, hne⟩

/-- Held segments are fetched, and stand for the transactions of their references. -/
theorem fetchAll_eq (henv : env.Lawful name) {r : Remote D S B} {segments : List SegmentRef}
    {parts : List (List Delta)} (h : List.Forall₂ (Held env name r) segments parts) :
    ∃ ls, fetchAll env r.bucket segments = .ok ls ∧ List.Forall₂ Seals ls parts ∧
      segments.map (·.txidStart) = ls.map (·.txidStart) := by
  induction h with
  | nil => exact ⟨[], rfl, .nil, rfl⟩
  | @cons seg part segments parts hseg _ ih =>
      obtain ⟨i, l, b, -, rfl, hb, hdec, hs⟩ := hseg
      obtain ⟨ls, hls, hseals, hstart⟩ := ih
      refine ⟨l :: ls, ?_, .cons hs hseals, by rw [List.map_cons, List.map_cons, hstart]; rfl⟩
      have hfetch : fetchLtx env r.bucket (env.segmentPath name i) = .ok l := by
        rw [fetchLtx, henv.stable, hb]
        exact hdec
      rw [fetchAll]
      simp only [SegmentRef.of, hfetch, hls]

/-- Uploading a segment leaves the objects at earlier draws. -/
theorem update_bucket (henv : env.Lawful name) {r : Remote D S B} (b : Option B) {i : Nat}
    (hi : i < r.draws) :
    Function.update r.bucket (env.segmentPath name r.draws) b (env.segmentPath name i) =
      r.bucket (env.segmentPath name i) := by
  refine Function.update_of_ne (fun heq => ?_) _ _
  have := henv.fresh _ _ heq
  omega

theorem deleteAll_of_notMem (henv : env.Lawful name) {paths : List String}
    (hpaths : ∀ path ∈ paths, ∃ i, path = env.segmentPath name i) {path : String}
    (hne : ∀ p ∈ paths, path ≠ p) : ∀ bucket : Bucket B,
      deleteAll env bucket paths path = bucket path := by
  induction paths with
  | nil => exact fun _ => rfl
  | cons p paths ih =>
      intro bucket
      obtain ⟨i, rfl⟩ := hpaths p List.mem_cons_self
      rw [deleteAll, List.foldl_cons]
      refine (ih (fun q hq => hpaths q (List.mem_cons_of_mem _ hq))
        (fun q hq => hne q (List.mem_cons_of_mem _ hq)) _).trans ?_
      rw [henv.stable]
      exact Function.update_of_ne (hne _ List.mem_cons_self) _ _

/-! ## The invariant -/

/-- The records of a stream are those of the versions from `gone` on. -/
def Present (σ : Landslide.Db D S) (name : String) (gone n : Nat) : Prop :=
  ∀ v, (σ.get (.record name v)).isSome = true ↔ gone ≤ v ∧ v < n

/-- What the store and the bucket hold of a database.  `tight` asks that the purged
events end where a segment does. -/
structure Stored (env : Outside D S B) (name : String) (tight : Prop) (r : Remote D S B)
    (batches parts : List (List Delta)) : Prop where
  log : Logged (deltaEvents env) r.store name batches
  pins : ∀ child, r.store.get (.forks name child) = none
  floor : floorOf r.store name = 0
  parts_eq : parts.flatten = (batches.take (covered r.store name)).flatten
  manifest : ∃ m, latestManifest env r.store name = .ok m ∧ Holds env name r m parts
  purge : ∃ gone, Present r.store name gone batches.length ∧ gone ≤ covered r.store name ∧
    (tight → ∃ k, (parts.take k).flatten = (batches.take gone).flatten)

theorem latestManifest_eq (σ : Landslide.Db D S) (name : String) :
    latestManifest env σ name = (snapshotAt σ name).elim (.ok {}) (env.manifest.decode ·.state) := by
  rw [latestManifest, latestSnapshot_eval]
  cases snapshotAt σ name <;> rfl

/-- A restore applies the batches past the latest snapshot to its base, and ends at the
tail. -/
theorem restoreImpl_of_base {r : Remote D S B} {batches : List (List Delta)}
    (h : Logged (deltaEvents env) r.store name batches) {image : DbImage} {through : Option Nat}
    (hbase : restoreBase env r name = .ok (image, covered r.store name, through))
    (hthrough : through.elim 0 (· + 1) = covered r.store name) :
    restoreImpl env r name =
      .ok (image.applied (batches.drop (covered r.store name)).flatten,
        .built (batches.drop (covered r.store name)).flatten, tailVersion r.store name) := by
  obtain ⟨events, hevents, hreads, hlast⟩ := h.read
  have htail : (if covered r.store name < batches.length then some (batches.length - 1)
      else none).or through = tailVersion r.store name := by
    have hnext := h.next
    have hle := h.covered_le
    unfold nextVersion at hnext
    split
    · next hlt =>
      cases ht : tailVersion r.store name with
      | none =>
          rw [ht] at hnext
          simp only [Option.elim_none] at hnext
          omega
      | some v =>
          rw [ht] at hnext
          simp only [Option.elim_some] at hnext
          simp [← hnext]
    · next hge =>
      cases ht : tailVersion r.store name with
      | none =>
          rw [ht] at hnext
          cases through with
          | none => rfl
          | some v => simp only [Option.elim_some, Option.elim_none] at hthrough hnext; omega
      | some v =>
          rw [ht] at hnext
          cases through with
          | none => simp only [Option.elim_some, Option.elim_none] at hthrough hnext; omega
          | some w =>
              simp only [Option.elim_some] at hthrough hnext
              simp only [Option.none_or, Option.some.injEq]
              omega
  rw [restoreImpl, hbase]
  dsimp only
  rw [Landslide.fold, hevents]
  simp only [Except.map, replayEvent_foldl hreads.forall₂, hlast, htail]
  rfl

namespace Stored

variable {tight : Prop} {r r' : Remote D S B} {batches parts : List (List Delta)}

theorem covered_le (h : Stored env name tight r batches parts) :
    covered r.store name ≤ batches.length := h.log.covered_le

theorem next (h : Stored env name tight r batches parts) :
    nextVersion r.store name = batches.length := h.log.next

/-- Nothing is stored of a database that was never opened. -/
theorem empty (env : Outside D S B) (name : String) (tight : Prop) :
    Stored env name tight {} [] [] where
  log := .empty name
  pins := by simp
  floor := by simp [floorOf]
  parts_eq := by simp
  manifest := ⟨{}, rfl, .nil, by simp⟩
  purge := ⟨0, by simp [Present], Nat.zero_le _, fun _ => ⟨0, rfl⟩⟩

/-- A state that keeps the stream, and the objects of the manifest. -/
theorem frame (h : Stored env name tight r batches parts)
    (hstore : ∀ k, k ≠ .fence name → r'.store.get k = r.store.get k)
    (hdraws : r.draws ≤ r'.draws)
    (hbucket : ∀ m, latestManifest env r.store name = .ok m →
      ∀ seg ∈ m.segments, r'.bucket seg.path = r.bucket seg.path) :
    Stored env name tight r' batches parts := by
  have hsnap : ∀ m, r'.store.get (.snap name m) = r.store.get (.snap name m) :=
    fun m => hstore _ (by simp)
  have hcov := covered_congr hsnap
  have hmanifest : latestManifest env r'.store name = latestManifest env r.store name := by
    rw [latestManifest_eq, latestManifest_eq, snapshotAt_congr hsnap]
  obtain ⟨m, hm, hholds⟩ := h.manifest
  obtain ⟨gone, hpres, hle, htight⟩ := h.purge
  refine ⟨h.log.congr (fun k hk => hstore k ?_) ?_,
    fun child => (hstore _ (by simp)).trans (h.pins child), ?_, hcov ▸ h.parts_eq,
    ⟨m, hmanifest.trans hm, hholds.mono hdraws (hbucket m hm)⟩, gone, ?_, hcov ▸ hle, htight⟩
  · rintro rfl
    exact hk
  · rw [seqOf, seqOf, hstore _ (by simp)]
  · rw [floorOf, hstore _ (by simp)]
    exact h.floor
  · intro v
    rw [hstore _ (by simp)]
    exact hpres v

/-! ## Restore -/

/-- The segments of the manifest show the batches that it covers. -/
theorem restoreBase_eq (h : Stored env name tight r batches parts) (henv : env.Lawful name)
    (hg : Grows 0 batches.flatten) :
    ∃ image through, restoreBase env r name = .ok (image, covered r.store name, through) ∧
      image.view = (DbImage.applied {} (batches.take (covered r.store name)).flatten).view ∧
      through.elim 0 (· + 1) = covered r.store name := by
  have hparts := h.parts_eq
  obtain ⟨m, hm, hholds⟩ := h.manifest
  rw [latestManifest_eq] at hm
  rw [covered] at hparts ⊢
  cases hs : snapshotAt r.store name with
  | none =>
      refine ⟨{}, none, ?_, ?_, rfl⟩
      · rw [restoreBase, latestSnapshot_eval, hs]
        rfl
      · rw [Option.elim_none, List.take_zero]
        rfl
  | some s =>
      rw [hs] at hm hparts
      obtain ⟨ls, hls, hseals, -⟩ := fetchAll_eq henv hholds.segments
      refine ⟨ls.foldl DbImage.mergeLtx {}, some s.throughVersion, ?_, ?_, rfl⟩
      · rw [restoreBase, latestSnapshot_eval, hs]
        have hdec : env.manifest.decode s.state = .ok m := hm
        simp only [hdec, mergeSegments, hls]
        rfl
      · have hg' : Grows 0 parts.flatten := by
          rw [hparts]
          rw [← List.take_append_drop (s.throughVersion + 1) batches, List.flatten_append,
            Grows.append] at hg
          exact hg.1
        rw [view_merge_all hseals {} hg', hparts]

/-- A restore shows all batches, and its builder holds those past the manifest. -/
theorem restoreImpl_eq (h : Stored env name tight r batches parts) (henv : env.Lawful name)
    (hg : Grows 0 batches.flatten) :
    ∃ image, restoreImpl env r name =
        .ok (image, .built (batches.drop (covered r.store name)).flatten,
          tailVersion r.store name) ∧
      image.view = (DbImage.applied {} batches.flatten).view := by
  obtain ⟨image, through, hbase, hview, hthrough⟩ := h.restoreBase_eq henv hg
  refine ⟨image.applied (batches.drop (covered r.store name)).flatten,
    restoreImpl_of_base h.log hbase hthrough, ?_⟩
  rw [← List.take_append_drop (covered r.store name) batches, List.flatten_append,
    Grows.append] at hg
  have hd := DbImage.view_applied_congr hview (by rw [DbImage.dbSize_applied]; exact hg.2)
  rw [hd, ← DbImage.applied_append, ← List.flatten_append, List.take_append_drop]

end Stored

end

end Landslide.Sqlite
