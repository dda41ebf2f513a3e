import Landslide.Sqlite.Remote

/-!
# Syncs and checkpoints

What a sync and a checkpoint do to the store, the bucket and the handle, as one
lemma each (`Stored.sync`, `Stored.sealPending`).  A sync appends its transactions in
chunks, or leaves everything but the cursor.  A checkpoint publishes a manifest
whose segments stand for every batch, or fails and loses the pending fold of the
handle, with the manifest as it was or already replaced.
-/

namespace Landslide.Sqlite

open Std Overlay TxnKv

section

variable {D S B : Type} {env : Outside D S B} {name : String}

/-! ## Chunks -/

theorem chunks_flatten : ∀ (deltas chunk : List Delta) (size : Nat),
    (chunks chunk size deltas).flatten = chunk ++ deltas
  | [], chunk, size => by
      rw [chunks]
      split
      · next h => simp [h]
      · simp
  | d :: deltas, chunk, size => by
      rw [chunks]
      split
      · rw [List.flatten_cons, chunks_flatten deltas]
        simp
      · rw [chunks_flatten deltas]
        simp

/-- The events of some chunks decode to them. -/
theorem packChunks_eq (henv : env.Lawful name) : ∀ cs : List (List Delta), ∃ events,
    packChunks env cs = .ok events ∧ List.Forall₂ (Stands (deltaEvents env)) events cs
  | [] => ⟨[], rfl, .nil⟩
  | c :: cs => by
      obtain ⟨data, henc, hdec⟩ := henv.deltas c
      obtain ⟨events, hev, hall⟩ := packChunks_eq henv cs
      refine ⟨{ eventType := txb, data := data } :: events, ?_, .cons ?_ hall⟩
      · rw [packChunks, henc]
        simp only [hev]
      · intro ev hty hdata
        rw [deltaEvents, if_pos hty, hdata]
        exact hdec

/-! ## Appends -/

/-- A store with the same snapshots of a stream, and all of its records. -/
structure Extends (name : String) (σ σ' : Landslide.Db D S) : Prop where
  snaps : ∀ m, σ'.get (.snap name m) = σ.get (.snap name m)
  records : ∀ v, (σ.get (.record name v)).isSome = true →
    (σ'.get (.record name v)).isSome = true

theorem Extends.refl (σ : Landslide.Db D S) : Extends name σ σ := ⟨fun _ => rfl, fun _ h => h⟩

namespace Stored

variable {tight : Prop} {r : Remote D S B} {batches parts : List (List Delta)}

/-- Appending the events of some chunks adds them to the batches. -/
theorem append (h : Stored env name tight r batches parts) {req : AppendReq D}
    {info : CommitInfo} {σ₁ : Landslide.Db D S} {cs : List (List Delta)}
    (happ : Appended req (seqOf r.store) r.store info σ₁) (hs : req.stream = name)
    (hfrom : req.fromVersion = none)
    (hevents : List.Forall₂ (Stands (deltaEvents env)) req.events cs) :
    let σ' := σ₁.put .seq (seqOf r.store + req.events.length)
    Stored env name tight { r with store := σ' } (batches ++ cs) parts ∧
      Extends name r.store σ' := by
  dsimp only
  obtain ⟨hlog, hsnap, -⟩ := h.log.append happ hs hfrom hevents
  have hput : ∀ k, k ≠ .seq →
      (σ₁.put .seq (seqOf r.store + req.events.length)).get k = σ₁.get k :=
    fun k hk => Store.get_put_of_ne _ _ hk
  have hframe : ∀ k, k ≠ .seq → k ≠ .tail req.stream → (∀ v, k ≠ .record req.stream v) →
      (∀ t v, k ≠ .ts req.stream t v) →
      (σ₁.put .seq (seqOf r.store + req.events.length)).get k = r.store.get k :=
    fun k h₀ h₁ h₂ h₃ => (hput k h₀).trans (happ.frame k h₁ (fun v _ _ => h₂ v) h₃)
  have hcov := covered_congr hsnap
  have hrecord : ∀ v, v < batches.length →
      (σ₁.put .seq (seqOf r.store + req.events.length)).get (.record name v) =
        r.store.get (.record name v) := by
    intro v hv
    rw [hput _ (by simp), happ.frame _ (by simp) (fun w hw _ hk => ?_) (by simp)]
    cases hk
    have hfirst := (happ.nextVersion_eq hfrom).1
    rw [hs, h.next] at hfirst
    omega
  have hlen : req.events.length = cs.length := hevents.length_eq
  have hbatches : (batches ++ cs).length = batches.length + req.events.length := by
    rw [List.length_append, hlen]
  obtain ⟨m, hm, hholds⟩ := h.manifest
  obtain ⟨gone, hpres, hle, htight⟩ := h.purge
  have htake : ∀ {k}, k ≤ batches.length → (batches ++ cs).take k = batches.take k :=
    fun hk => List.take_append_of_le_length hk
  refine ⟨⟨hlog, ?_, ?_, ?_, ⟨m, ?_, hholds.mono le_rfl fun _ _ => rfl⟩, gone, ?_, hcov ▸ hle,
    fun ht => ?_⟩, hsnap, fun v hv => ?_⟩
  · exact fun child => (hframe _ (by simp) (by simp) (by simp) (by simp)).trans (h.pins child)
  · rw [floorOf, hframe _ (by simp) (by simp) (by simp) (by simp)]
    exact h.floor
  · rw [hcov, htake h.covered_le]
    exact h.parts_eq
  · rw [latestManifest_eq, snapshotAt_congr hsnap, ← latestManifest_eq]
    exact hm
  · intro v
    obtain ⟨hist', hr', -⟩ := hlog.history
    by_cases hv : v < batches.length
    · rw [hrecord v hv, hpres v, hbatches]
      omega
    · have hcovered := h.covered_le
      constructor
      · intro hsome
        obtain ⟨env', henv'⟩ := Option.isSome_iff_exists.mp hsome
        have := (hr'.record v env' henv').1
        omega
      · rintro ⟨-, hhi⟩
        exact hr'.present v (by omega) hhi
  · obtain ⟨k, hk⟩ := htight ht
    refine ⟨k, ?_⟩
    rw [htake (hle.trans h.covered_le)]
    exact hk
  · rw [hrecord v ((hpres v).mp hv).2]
    exact hv

end Stored

/-! ## Handles -/

/-- A handle is at the tail of its stream and shows its batches.  Its pending fold
holds what the manifest does not cover, unless a checkpoint dropped it. -/
structure Attached (name : String) (r : Remote D S B) (batches : List (List Delta))
    (dropped : Bool) (db : Db) : Prop where
  name_eq : db.name = name
  tail : db.tail = tailVersion r.store name
  image : db.image.view = (DbImage.applied {} batches.flatten).view
  pending : dropped = false →
    db.pending = .built (batches.drop (covered r.store name)).flatten

theorem Attached.cursor {r : Remote D S B} {batches : List (List Delta)} {dropped : Bool} {db : Db}
    (h : Attached name r batches dropped db) (cursor : WalCursor) :
    Attached name r batches dropped { db with cursor := cursor } :=
  ⟨h.name_eq, h.tail, h.image, h.pending⟩

/-- A sync appends the transactions that it found, in chunks, or leaves the store and all
of the handle but its cursor. -/
theorem syncInner_cases [Payload D] (henv : env.Lawful name) (coalesce : Bool)
    (wal : Option Bytes) (stamps : Nat → Nat → Stamp) {db : Db} (hname : db.name = name)
    (r : Remote D S B) :
    let found := found db.cursor db.image.txid wal
    let out := syncInner env coalesce wal stamps db r
    (out.2.2 = r ∧ (∃ cursor, out.2.1 = { db with cursor := cursor }) ∧
        (out.1.isOk = true → found = [])) ∨
      ∃ events info σ₁ cursor next, found ≠ [] ∧ out.1.isOk = true ∧
        encodeDeltas env (batch coalesce found) = .ok events ∧ checkBatch events = .ok () ∧
        List.Forall₂ (Stands (deltaEvents env)) events (chunks [] 0 (batch coalesce found)) ∧
        Appended
          { stream := name, expected := expected db.tail, fenceToken := some db.token,
            events := events } (seqOf r.store) r.store info σ₁ ∧
        out.2.2 = { r with store := σ₁.put .seq (seqOf r.store + events.length) } ∧
        out.2.1 = { db with cursor := cursor }.advance (batch coalesce found) info.lastVersion
          next := by
  subst hname
  dsimp only
  cases hscan : scan db.cursor db.image.txid wal with
  | none =>
      simp only [syncInner, hscan, found, Option.elim_none]
      exact .inl ⟨trivial, ⟨_, rfl⟩, fun _ => trivial⟩
  | some s =>
      have hfound : found db.cursor db.image.txid wal = s.deltas := by rw [found, hscan]; rfl
      rw [hfound]
      by_cases hnil : s.deltas = []
      · simp only [syncInner, hscan, hnil, if_true]
        exact .inl ⟨trivial, ⟨_, rfl⟩, fun _ => trivial⟩
      obtain ⟨events, hevents, hall⟩ := packChunks_eq henv (chunks [] 0 (batch coalesce s.deltas))
      have hrefused : ∀ e, (Call.appendWithToken db.name db.token (expected db.tail) events false
          stamps : Call D S).exec r.store = (.error e, r.store) →
          (syncInner env coalesce wal stamps db r).2.2 = r ∧
            (∃ cursor, (syncInner env coalesce wal stamps db r).2.1 = { db with cursor := cursor }) ∧
              ((syncInner env coalesce wal stamps db r).1.isOk = true → s.deltas = []) := by
        intro e hexec
        simp only [syncInner, hscan, if_neg hnil, encodeDeltas, hevents, hexec]
        exact ⟨trivial, ⟨_, rfl⟩, fun hok => by cases hok⟩
      cases hcheck : checkBatch events with
      | error e =>
          refine .inl (hrefused e ?_)
          rw [Call.exec, Call.proc, appendWithToken, commitAppends, hcheck]
          rfl
      | ok u =>
          rcases commitAppends_exec_cases
              { stream := db.name, expected := expected db.tail, fenceToken := some db.token,
                events := events } false stamps r.store with ⟨e, he⟩ | ⟨info, σ₁, happ, he⟩
          · exact .inl (hrefused e he)
          · have hexec : (Call.appendWithToken db.name db.token (expected db.tail) events false
                stamps : Call D S).exec r.store =
                  (.ok (.infos [info]), σ₁.put .seq (seqOf r.store + events.length)) := he
            refine .inr ⟨events, info, σ₁, s.cursor, s.nextFrame, hnil, ?_⟩
            simp only [syncInner, hscan, if_neg hnil, encodeDeltas, hevents, hexec]
            exact ⟨rfl, trivial, hcheck, hall, happ, trivial, trivial⟩

namespace Stored

variable {tight : Prop} {r : Remote D S B} {batches parts : List (List Delta)}

/-- A sync that succeeds adds the transactions it found to the batches, and one
that fails adds none.  The handle follows. -/
theorem sync [Payload D] (h : Stored env name tight r batches parts) (henv : env.Lawful name)
    {dropped : Bool} {db : Db} (ha : Attached name r batches dropped db) (coalesce : Bool)
    (wal : Option Bytes) (stamps : Nat → Nat → Stamp) :
    let out := syncInner env coalesce wal stamps db r
    ∃ batches', Stored env name tight out.2.2 batches' parts ∧
      Extends name r.store out.2.2.store ∧
      batches'.flatten = batches.flatten ++
        (if out.1.isOk then batch coalesce (found db.cursor db.image.txid wal) else []) ∧
      (found db.cursor db.image.txid wal = [] → out.2.1.pending = db.pending) ∧
      (Grows 0 batches'.flatten → Attached name out.2.2 batches' dropped out.2.1) := by
  have hcases := syncInner_cases henv coalesce wal stamps ha.name_eq r
  dsimp only at hcases ⊢
  rcases hcases with ⟨hr, ⟨cursor, hdb⟩, hnil⟩ |
    ⟨events, info, σ₁, cursor, next, hne, hok, -, -, hall, happ, hr, hdb⟩
  · refine ⟨batches, ?_⟩
    rw [hr, hdb]
    refine ⟨h, .refl _, ?_, fun _ => rfl, fun _ => ha.cursor _⟩
    split
    · next hok =>
      rw [hnil hok]
      cases coalesce <;> simp [batch]
    · rw [List.append_nil]
  · have hflat : (chunks [] 0 (batch coalesce (found db.cursor db.image.txid wal))).flatten =
        batch coalesce (found db.cursor db.image.txid wal) := chunks_flatten _ _ _
    obtain ⟨hst, hext⟩ := h.append happ rfl rfl hall
    refine ⟨batches ++ chunks [] 0 (batch coalesce (found db.cursor db.image.txid wal)), ?_⟩
    rw [hr, hdb, hok, if_pos rfl]
    refine ⟨hst, hext, by rw [List.flatten_append, hflat], fun h₀ => absurd h₀ hne, fun hg => ?_⟩
    rw [List.flatten_append, hflat] at hg
    refine ⟨ha.name_eq, ?_, ?_, fun hd => ?_⟩
    · rw [tailVersion_congr (Store.get_put_of_ne _ _ (by simp)), (happ.nextVersion_eq rfl).2]
      rfl
    · rw [List.flatten_append, hflat, DbImage.applied_append]
      refine DbImage.view_applied_congr ha.image ?_
      rw [DbImage.dbSize_applied]
      exact (Grows.append.mp hg).2
    · rw [covered_congr hext.snaps, List.drop_append_of_le_length h.covered_le,
        List.flatten_append, hflat, LtxBuilder.built_append, ← ha.pending hd]
      rfl

/-! ## Uploads and deletes -/

theorem manifest_paths (h : Stored env name tight r batches parts) {m : Manifest}
    (hm : latestManifest env r.store name = .ok m) {seg : SegmentRef} (hseg : seg ∈ m.segments) :
    ∃ i, i < r.draws ∧ seg.path = env.segmentPath name i := by
  obtain ⟨m', hm', hholds⟩ := h.manifest
  rw [hm] at hm'
  cases hm'
  obtain ⟨n, hn, hget⟩ := List.getElem_of_mem hseg
  have hlen := hholds.segments.length_eq
  have hheld := hholds.segments.get hn (hlen ▸ hn)
  rw [List.get_eq_getElem, hget] at hheld
  obtain ⟨i, l, b, hi, rfl, -⟩ := hheld
  exact ⟨i, hi, rfl⟩

end Stored

/-- An upload leaves the store and the objects at earlier draws, whether it lands or
not, and without a fault it succeeds. -/
theorem putLtx_frame (henv : env.Lawful name) (l : Ltx) (fault : Option Bool)
    (r : Remote D S B) :
    let out := putLtx env name l fault r
    out.2.store = r.store ∧ out.2.draws = r.draws + 1 ∧
      (∀ i, i < r.draws →
        out.2.bucket (env.segmentPath name i) = r.bucket (env.segmentPath name i)) ∧
      (fault = none → out.1.isOk) := by
  obtain ⟨b, henc, -⟩ := henv.ltx l
  rw [putLtx, henc]
  dsimp only
  cases fault with
  | none => exact ⟨rfl, rfl, fun i hi => update_bucket henv _ hi, fun _ => rfl⟩
  | some landed =>
      cases landed with
      | true => exact ⟨rfl, rfl, fun i hi => update_bucket henv _ hi, by simp⟩
      | false => exact ⟨rfl, rfl, fun _ _ => rfl, by simp⟩

/-- A successful upload puts the segment under the next path. -/
theorem putLtx_ok (henv : env.Lawful name) {l : Ltx} {fault : Option Bool} {r r' : Remote D S B}
    {path : String} (h : putLtx env name l fault r = (.ok path, r')) {part : List Delta}
    (hs : Seals l part) :
    path = env.segmentPath name r.draws ∧ Held env name r' (SegmentRef.of l path) part := by
  obtain ⟨b, henc, hdec⟩ := henv.ltx l
  rw [putLtx, henc] at h
  dsimp only at h
  cases fault with
  | none =>
      cases h
      refine ⟨rfl, ?_⟩
      exact ⟨r.draws, l, b, Nat.lt_succ_self _, rfl, Function.update_self .., hdec, hs⟩
  | some landed => cases h

namespace Stored

variable {tight : Prop} {r : Remote D S B} {batches parts : List (List Delta)}

/-- An upload leaves what the manifest needs. -/
theorem putLtx (h : Stored env name tight r batches parts) (henv : env.Lawful name) (l : Ltx)
    (fault : Option Bool) :
    Stored env name tight (Sqlite.putLtx env name l fault r).2 batches parts := by
  obtain ⟨hstore, hdraws, hbucket, -⟩ := putLtx_frame henv l fault r
  refine h.frame (fun _ _ => by rw [hstore]) (by omega) fun m hm seg hseg => ?_
  obtain ⟨i, hi, hpath⟩ := h.manifest_paths hm hseg
  rw [hpath]
  exact hbucket i hi

/-- Deleting what the manifest retires leaves what it needs. -/
theorem deleteAll (h : Stored env name tight r batches parts) (henv : env.Lawful name) {m : Manifest}
    (hm : latestManifest env r.store name = .ok m) :
    Stored env name tight { r with bucket := Sqlite.deleteAll env r.bucket m.retire } batches
      parts := by
  refine h.frame (fun _ _ => rfl) le_rfl fun m' hm' seg hseg => ?_
  obtain ⟨m'', hm'', hholds⟩ := h.manifest
  rw [hm'] at hm
  rw [hm'] at hm''
  cases hm
  cases hm''
  refine deleteAll_of_notMem henv (fun path hp => ?_) (fun path hp => ?_) r.bucket
  · obtain ⟨⟨i, -, hi⟩, -⟩ := hholds.retire path hp
    exact ⟨i, hi⟩
  · exact (hholds.retire path hp).2 seg hseg

/-! ## Publishing and purging -/

/-- Publishing a manifest whose segments stand for every batch. -/
theorem publish (h : Stored env name tight r batches parts) {m : Manifest} {state : S}
    (hdec : env.manifest.decode state = .ok m) {parts' : List (List Delta)}
    (hholds : Holds env name r m parts') (hparts : parts'.flatten = batches.flatten)
    (entry : CompactionRecord) (hthrough : entry.throughVersion + 1 = batches.length)
    (ulid : String) (tight' : Prop)
    (htight : ∀ gone, Present r.store name gone batches.length →
      (tight → ∃ k, (parts.take k).flatten = (batches.take gone).flatten) → tight' →
        ∃ k, (parts'.take k).flatten = (batches.take gone).flatten) :
    Stored env name tight' { r with store := published r.store name entry state ulid } batches
        parts' ∧
      covered (published r.store name entry state ulid) name = batches.length := by
  obtain ⟨gone, hpres, hle, hk⟩ := h.purge
  have hsnap := snapshotAt_published entry state ulid h.log.numbered
  have hcov : covered (published r.store name entry state ulid) name = batches.length := by
    rw [covered, hsnap]
    exact hthrough
  refine ⟨⟨h.log.publish state ulid hthrough, ?_, ?_, ?_, ⟨m, ?_, hholds.mono le_rfl fun _ _ => rfl⟩,
    gone, ?_, ?_, htight gone hpres hk⟩, hcov⟩
  · exact fun child => (get_published_of_ne (by simp) (by simp) (by simp)).trans (h.pins child)
  · rw [floorOf, get_published_of_ne (by simp) (by simp) (by simp)]
    exact h.floor
  · rw [hparts, hcov, List.take_length]
  · rw [latestManifest_eq, hsnap]
    exact hdec
  · intro v
    rw [get_published_of_ne (by simp) (by simp) (by simp)]
    exact hpres v
  · rw [hcov]
    exact hle.trans h.covered_le

/-- A purge of everything that the manifest covers. -/
theorem purgeAll (h : Stored env name tight r batches parts)
    (hcov : covered r.store name = batches.length) (tight' : Prop) :
    let σ' := purged r.store name
      (versionsOf r.store name (purgeFrom r.store name) batches.length)
    Stored env name tight' { r with store := σ' } batches parts ∧
      covered σ' name = batches.length := by
  dsimp only
  obtain ⟨hist, hr, hc⟩ := h.log.history
  obtain ⟨m, hm, hholds⟩ := h.manifest
  obtain ⟨gone, hpres, hle, -⟩ := h.purge
  have hfrom : purgeFrom r.store name = 0 := by
    rw [purgeFrom]
    cases hceil : ceilingOf r.store name with
    | none => rfl
    | some v =>
        obtain ⟨child, hpin, -⟩ := exists_pin_of_ceilingOf hceil
        rw [h.pins child] at hpin
        cases hpin
  have hsnap : ∀ versions m, (purged r.store name versions).get (.snap name m) =
      r.store.get (.snap name m) := fun versions m => get_purged_of_ne _ _ (by simp)
  have hcov' : ∀ versions, covered (purged r.store name versions) name = batches.length :=
    fun versions => (covered_congr (hsnap versions)).trans hcov
  refine ⟨⟨⟨⟨hist, hr.purge fun v hv => ?_, hc⟩, h.log.numbered.congr (hsnap _) ?_⟩, ?_, ?_, ?_,
    ⟨m, ?_, hholds.mono le_rfl fun _ _ => rfl⟩, batches.length, ?_, ?_, fun _ => ?_⟩, hcov' _⟩
  · rw [hcov]
    exact (mem_versionsOf.mp hv).1.2
  · rw [seqOf, seqOf, get_purged_of_ne _ _ (by simp)]
  · exact fun child => (get_purged_of_ne _ _ (by simp)).trans (h.pins child)
  · rw [floorOf, get_purged_of_ne _ _ (by simp)]
    exact h.floor
  · rw [hcov', ← hcov]
    exact h.parts_eq
  · rw [latestManifest_eq, snapshotAt_congr (hsnap _), ← latestManifest_eq]
    exact hm
  · intro v
    constructor
    · intro hsome
      by_cases hv : v < batches.length
      · rw [get_purged_of_mem] at hsome
        · cases hsome
        · rw [mem_versionsOf, hfrom]
          refine ⟨⟨Nat.zero_le v, hv⟩, ?_⟩
          rw [get_purged] at hsome
          split at hsome
          · cases hsome
          · exact hsome
      · rw [get_purged] at hsome
        split at hsome
        · cases hsome
        · have := ((hpres v).mp hsome).2
          omega
    · omega
  · rw [hcov']
  · refine ⟨parts.length, ?_⟩
    rw [List.take_length, h.parts_eq, hcov]

/-! ## Coalescing -/

/-- The merged segment stands for the transactions of all segments. -/
theorem seals_mergedLtx {older : List Ltx} {ltx : Ltx} {parts : List (List Delta)}
    {part : List Delta} (h : List.Forall₂ Seals older parts) (hs : Seals ltx part)
    (hg : Grows 0 (parts.flatten ++ part)) {start : Nat}
    (hstart : (older ++ [ltx]).head?.map (·.txidStart) = some start) :
    Seals (mergedLtx start older ltx) (parts.flatten ++ part) := by
  have hall : List.Forall₂ Seals (older ++ [ltx]) (parts ++ [part]) :=
    List.rel_append h (.cons hs .nil)
  have hflat : (parts ++ [part]).flatten = parts.flatten ++ part := by simp
  obtain ⟨first, hfirst, hst⟩ := Option.map_eq_some_iff.mp hstart
  have hpages : (write (write ∅ (writes (older.flatMap (·.pages)))) (writes ltx.pages) : Pages) =
      write ∅ (writes ((older ++ [ltx]).flatMap (·.pages))) := by
    rw [List.flatMap_append, writes_append, write, write, write, ← List.foldl_append]
    simp
  rw [← hflat] at hg ⊢
  refine seals_coalesced hall hg hfirst (List.getLast?_concat ..) hst.symm rfl rfl rfl ?_
  rw [mergedLtx]
  dsimp only
  rw [hpages]

variable {m : Manifest} {newRef : SegmentRef} {ltx : Ltx} {part : List Delta}

/-- Coalescing fails with the manifest still held, or uploads one segment that
stands for all. -/
theorem coalesce (h : Stored env name tight r batches parts) (henv : env.Lawful name)
    (hm : latestManifest env r.store name = .ok m) (hnew : newRef.txidStart = ltx.txidStart)
    (hs : Seals ltx part) (hne : ∀ seg ∈ m.segments, seg.path ≠ newRef.path)
    (hg : Grows 0 (parts.flatten ++ part)) (fault : Option Fault) :
    let out := Sqlite.coalesce env name (m.segments ++ [newRef]) newRef ltx fault r
    Stored env name tight out.2 batches parts ∧ out.2.store = r.store ∧
      (fault = none → out.1.isOk) ∧ ∀ segments retire, out.1 = .ok (segments, retire) →
        retire = (m.segments ++ [newRef]).map (·.path) ∧ out.2.draws = r.draws + 1 ∧
        ∃ seg, segments = [seg] ∧ seg.path = env.segmentPath name r.draws ∧
          Held env name out.2 seg (parts.flatten ++ part) := by
  obtain ⟨m', hm', hholds⟩ := h.manifest
  rw [hm] at hm'
  cases hm'
  have hothers : (m.segments ++ [newRef]).filter (fun seg => seg.path ≠ newRef.path) =
      m.segments := by
    rw [List.filter_append, List.filter_eq_self.mpr fun seg hseg => by simpa using hne seg hseg]
    simp
  obtain ⟨older, hfetch, hseals, hstart⟩ := fetchAll_eq henv hholds.segments
  have hhead : (older ++ [ltx]).head?.map (·.txidStart) =
      some ((m.segments ++ [newRef]).head?.elim 0 (·.txidStart)) := by
    have hmap : (m.segments ++ [newRef]).map (·.txidStart) =
        (older ++ [ltx]).map (·.txidStart) := by
      rw [List.map_append, List.map_append, hstart, List.map_cons, List.map_cons, hnew]
      rfl
    rw [← List.head?_map, ← hmap, List.head?_map]
    cases hh : (m.segments ++ [newRef]).head? with
    | none => simp at hh
    | some seg => rfl
  have hmerged := seals_mergedLtx hseals hs hg hhead
  dsimp only
  simp only [Sqlite.coalesce, hothers]
  split
  · next hfault =>
    refine ⟨h, rfl, fun hnone => ?_, fun _ _ hok => by cases hok⟩
    rw [hnone] at hfault
    cases hfault
  · rw [hfetch]
    dsimp only
    generalize mergedLtx _ older ltx = merged at hmerged ⊢
    obtain ⟨hstore, hdraws, -, hok⟩ := putLtx_frame henv merged (Fault.atPutMerged fault) r
    have hst := h.putLtx henv merged (Fault.atPutMerged fault)
    cases hput : Sqlite.putLtx env name merged (Fault.atPutMerged fault) r with
    | mk res r' =>
        rw [hput] at hst hstore hdraws hok
        cases res with
        | error e =>
            refine ⟨hst, hstore, fun hnone => ?_, fun _ _ hres => by cases hres⟩
            rw [hnone] at hok
            cases hok rfl
        | ok path =>
            obtain ⟨hpath, hheld⟩ := putLtx_ok henv hput hmerged
            refine ⟨hst, hstore, fun _ => rfl, fun segments retire hres => ?_⟩
            cases hres
            exact ⟨rfl, hdraws, _, rfl, hpath, hheld⟩

/-- The next manifest holds every transaction, in one more segment or in one. -/
theorem nextSegments (h : Stored env name tight r batches parts) (henv : env.Lawful name)
    (hm : latestManifest env r.store name = .ok m) (hnew : newRef.txidStart = ltx.txidStart)
    (hs : Seals ltx part) (hheld : Held env name r newRef part)
    (hne : ∀ seg ∈ m.segments, seg.path ≠ newRef.path)
    (hretire : ∀ path ∈ m.retire, newRef.path ≠ path)
    (hg : Grows 0 (parts.flatten ++ part)) (opts : CheckpointOpts) (fault : Option Fault) :
    let out := Sqlite.nextSegments env name opts m newRef ltx fault r
    Stored env name tight out.2 batches parts ∧ out.2.store = r.store ∧
      (fault = none → out.1.isOk) ∧ ∀ segments retire, out.1 = .ok (segments, retire) →
        ∃ parts', Holds env name out.2 { segments := segments, retire := retire } parts' ∧
          (∀ path ∈ m.retire, ∀ seg ∈ segments, seg.path ≠ path) ∧
          parts'.flatten = parts.flatten ++ part ∧
          (parts' = parts ++ [part] ∨ opts.coalesceAt ≤ m.segments.length) := by
  obtain ⟨m', hm', hholds⟩ := h.manifest
  rw [hm] at hm'
  cases hm'
  dsimp only
  rw [Sqlite.nextSegments]
  split
  · next hlen =>
    obtain ⟨hst, hstore, hok, hres⟩ := h.coalesce henv hm hnew hs hne hg fault
    refine ⟨hst, hstore, hok, fun segments retire hout => ?_⟩
    obtain ⟨rfl, hdraws, seg, rfl, hpath, hseg⟩ := hres segments retire hout
    -- the merged segment has a path that was never used before
    have hfresh : ∀ i, i < r.draws → seg.path ≠ env.segmentPath name i := by
      intro i hi heq
      rw [hpath] at heq
      have := henv.fresh _ _ heq
      omega
    refine ⟨[parts.flatten ++ part], ⟨.cons hseg .nil, fun path hp => ?_⟩, fun path hp seg' hseg' => ?_,
      by simp, .inr ?_⟩
    · obtain ⟨old, hold, rfl⟩ := List.mem_map.mp hp
      obtain ⟨i, hi, hi'⟩ : ∃ i, i < r.draws ∧ old.path = env.segmentPath name i := by
        rcases List.mem_append.mp hold with hold | hold
        · exact h.manifest_paths hm hold
        · rw [List.mem_singleton.mp hold]
          obtain ⟨i, l, b, hi, heq, -⟩ := hheld
          exact ⟨i, hi, by rw [heq]; rfl⟩
      refine ⟨⟨i, by omega, hi'⟩, fun seg' hseg' => ?_⟩
      rw [List.mem_singleton.mp hseg', hi']
      exact hfresh i hi
    · obtain ⟨⟨i, hi, rfl⟩, -⟩ := hholds.retire path hp
      rw [List.mem_singleton.mp hseg']
      exact hfresh i hi
    · rw [List.length_append] at hlen
      exact Nat.le_of_lt_succ hlen
  · refine ⟨h, rfl, fun _ => rfl, fun segments retire hout => ?_⟩
    cases hout
    refine ⟨parts ++ [part], ⟨List.rel_append hholds.segments (.cons hheld .nil), by simp⟩,
      fun path hp seg hseg => ?_, by simp, .inl rfl⟩
    rcases List.mem_append.mp hseg with hseg | hseg
    · exact (hholds.retire path hp).2 seg hseg
    · rw [List.mem_singleton.mp hseg]
      exact hretire path hp

end Stored

/-! ## Checkpoints -/

/-- A checkpoint keeps the purge boundary: it purges itself, or it does not
coalesce, or nothing was purged yet. -/
def Keeps (env : Outside D S B) (name : String) (opts : CheckpointOpts) (σ : Landslide.Db D S) :
    Prop :=
  opts.purge = true ∨
    (∀ m, latestManifest env σ name = .ok m → m.segments.length < opts.coalesceAt) ∨
    ∀ v, v < nextVersion σ name → (σ.get (.record name v)).isSome = true

/-- With a checkpoint that keeps the boundary, the new segments have a cut where the purged
events end, if the segments before had one. -/
theorem Keeps.cut {opts : CheckpointOpts} {σ : Landslide.Db D S} {m : Manifest}
    {batches parts parts' : List (List Delta)} {part : List Delta} (hk : Keeps env name opts σ)
    (hm : latestManifest env σ name = .ok m) (hnext : nextVersion σ name = batches.length)
    (hshape : parts' = parts ++ [part] ∨ opts.coalesceAt ≤ m.segments.length) :
    opts.purge = true ∨ ∀ gone, Present σ name gone batches.length →
      (∃ k, (parts.take k).flatten = (batches.take gone).flatten) →
        ∃ k, (parts'.take k).flatten = (batches.take gone).flatten := by
  rcases hk with hpurge | hlen | hall
  · exact .inl hpurge
  · refine .inr fun gone _ hcut => ?_
    obtain ⟨k, hk⟩ := hcut
    have hlt := hlen m hm
    rcases hshape with rfl | hge
    · refine ⟨min k parts.length, ?_⟩
      rw [List.take_append_of_le_length (Nat.min_le_right _ _), ← List.take_eq_take_min, hk]
    · omega
  · refine .inr fun gone hgone _ => ⟨0, ?_⟩
    rcases Nat.eq_zero_or_pos batches.length with hnil | hpos
    · rw [List.length_eq_zero_iff.mp hnil, List.take_nil]
      rfl
    · have hle := ((hgone 0).mp (hall 0 (hnext ▸ hpos))).1
      rw [Nat.le_zero.mp hle]
      rfl

/-- A sync does not change whether a checkpoint keeps the boundary. -/
theorem Keeps.extend {tight : Prop} {r r' : Remote D S B} {batches batches' parts : List (List Delta)}
    {opts : CheckpointOpts} (hk : Keeps env name opts r.store)
    (h : Stored env name tight r batches parts) (h' : Stored env name tight r' batches' parts)
    (hext : Extends name r.store r'.store) : Keeps env name opts r'.store := by
  rcases hk with hp | hlen | hall
  · exact .inl hp
  · refine .inr (.inl fun m hm => hlen m ?_)
    rw [latestManifest_eq, ← snapshotAt_congr hext.snaps, ← latestManifest_eq]
    exact hm
  · refine .inr (.inr fun v hv => ?_)
    obtain ⟨gone, hpres, hle, -⟩ := h'.purge
    have hcov := h.covered_le
    have hgone : gone = 0 := by
      rw [covered_congr hext.snaps] at hle
      rw [h.next] at hall
      by_cases hz : batches.length = 0
      · omega
      · have := (hpres 0).mp (hext.records 0 (hall 0 (by omega)))
        omega
    rw [h'.next] at hv
    exact (hpres v).mpr ⟨by omega, hv⟩

/-- The manifest is published, or the call fails before or after it landed. -/
theorem publishManifest_cases [Payload D] (henv : env.Lawful name) (entry : CompactionRecord)
    (m : Manifest) (ulid : String) (fault : Option Bool) (r : Remote D S B) :
    ∃ state, env.manifest.decode state = .ok m ∧
      let r' : Remote D S B := { r with store := published r.store name entry state ulid }
      let out := publishManifest env name entry m ulid fault r
      out = (.ok (), r') ∨ (fault ≠ none ∧ ∃ e, out = (.error e, r) ∨ out = (.error e, r')) := by
  obtain ⟨state, henc, hdec⟩ := henv.manifest m
  refine ⟨state, hdec, ?_⟩
  dsimp only
  rw [publishManifest, henc]
  simp only [publishSnapshot_exec]
  cases fault with
  | none => exact .inl rfl
  | some landed =>
      refine .inr ⟨by simp, ioError, ?_⟩
      cases landed with
      | true => exact .inr rfl
      | false => exact .inl rfl

/-- How the part of a checkpoint after its sync ends.  It has nothing to seal, or one of the
upload, the coalescing and the install fails, or none does. -/
theorem sealPending_cases [Payload D] (env : Outside D S B) {name : String}
    (opts : CheckpointOpts) (nowMs : Int) (ulid : String) (fault : Option Fault) {db : Db}
    {r : Remote D S B} {m : Manifest} (hname : db.name = name)
    (hm : latestManifest env r.store name = .ok m) :
    let out := sealPending env opts nowMs ulid fault db r
    let db' : Db := { db with pending := {} }
    let ltx := db.pending.intoLtx
    out = (.ok none, db, r) ∧ (db.tail = none ∨ db.pending.txidStart = none) ∨
    ∃ through, db.tail = some through ∧ db.pending.txidStart ≠ none ∧
      ((∃ e r₁, putLtx env name ltx (Fault.atPutSegment fault) r = (.error e, r₁) ∧
          out = (.error e, db', r₁)) ∨
        ∃ path r₁, putLtx env name ltx (Fault.atPutSegment fault) r = (.ok path, r₁) ∧
          ((∃ e r₂, nextSegments env name opts m (SegmentRef.of ltx path) ltx fault r₁ =
              (.error e, r₂) ∧ out = (.error e, db', r₂)) ∨
            ∃ segments retire r₂,
              nextSegments env name opts m (SegmentRef.of ltx path) ltx fault r₁ =
                (.ok (segments, retire), r₂) ∧
              ∃ res r₃, installManifest env name opts through m.retire
                  { segments := segments, retire := retire } nowMs ulid fault r₂ = (res, r₃) ∧
                out = (res.map some, db', r₃))) := by
  subst hname
  dsimp only
  rw [sealPending]
  cases htail : db.tail with
  | none => exact .inl ⟨rfl, .inl rfl⟩
  | some through =>
  simp only [hm]
  split
  · next hidle => exact .inl ⟨rfl, .inr (Option.isNone_iff_eq_none.mp hidle)⟩
  · next hpend =>
    refine .inr ⟨through, rfl, fun hnone => hpend (Option.isNone_iff_eq_none.mpr hnone), ?_⟩
    cases hput : putLtx env db.name db.pending.intoLtx (Fault.atPutSegment fault) r with
    | mk res r₁ =>
    cases res with
    | error e => exact .inl ⟨e, r₁, rfl, rfl⟩
    | ok path =>
    refine .inr ⟨path, r₁, rfl, ?_⟩
    dsimp only
    cases hnext : nextSegments env db.name opts m (SegmentRef.of db.pending.intoLtx path)
        db.pending.intoLtx fault r₁ with
    | mk res r₂ =>
    cases res with
    | error e => exact .inl ⟨e, r₂, rfl, rfl⟩
    | ok pair =>
    refine .inr ⟨pair.1, pair.2, r₂, rfl, ?_⟩
    dsimp only
    cases hinst : installManifest env db.name opts through m.retire
        { segments := pair.1, retire := pair.2 } nowMs ulid fault r₂ with
    | mk res r₃ =>
    refine ⟨res, r₃, rfl, ?_⟩
    cases res with
    | error e => rfl
    | ok entry => rfl

/-- A handle whose pending fold left it, over a store with the same tail. -/
theorem Attached.dropPending {r r' : Remote D S B} {batches : List (List Delta)} {dropped : Bool}
    {db : Db} (h : Attached name r batches dropped db)
    (hstore : tailVersion r'.store name = tailVersion r.store name) :
    Attached name r' batches true { db with pending := {} } :=
  ⟨h.name_eq, h.tail.trans hstore.symm, h.image, by simp⟩

/-- The same once the manifest covers every batch. -/
theorem Attached.sealed {r r' : Remote D S B} {batches : List (List Delta)} {dropped dropped' : Bool}
    {db : Db} (h : Attached name r batches dropped db)
    (hstore : tailVersion r'.store name = tailVersion r.store name)
    (hcov : covered r'.store name = batches.length) :
    Attached name r' batches dropped' { db with pending := {} } := by
  refine ⟨h.name_eq, h.tail.trans hstore.symm, h.image, fun _ => ?_⟩
  rw [hcov, List.drop_length]
  rfl

theorem tailVersion_published (σ : Landslide.Db D S) (stream : String) (entry : CompactionRecord)
    (state : S) (ulid : String) :
    tailVersion (published σ stream entry state ulid) stream = tailVersion σ stream :=
  tailVersion_congr (get_published_of_ne (by simp) (by simp) (by simp))

namespace Stored

variable {tight : Prop} {r : Remote D S B} {batches parts parts' : List (List Delta)}
variable {m m' : Manifest}

/-- Installing a manifest that holds every batch.  It fails with the old manifest or
the new one in force, and otherwise the new one is. -/
theorem installManifest [Payload D] (h : Stored env name tight r batches parts)
    (henv : env.Lawful name) (hm : latestManifest env r.store name = .ok m)
    (hholds : Holds env name r m' parts')
    (hretire : ∀ path ∈ m.retire, ∀ seg ∈ m'.segments, seg.path ≠ path)
    (hparts : parts'.flatten = batches.flatten) {through : Nat}
    (hthrough : through + 1 = batches.length) (opts : CheckpointOpts) (nowMs : Int)
    (ulid : String) (fault : Option Fault)
    (htight : tight → fault = none ∧ (opts.purge = true ∨
      ∀ gone, Present r.store name gone batches.length →
        (∃ k, (parts.take k).flatten = (batches.take gone).flatten) →
          ∃ k, (parts'.take k).flatten = (batches.take gone).flatten)) :
    let out := Sqlite.installManifest env name opts through m.retire m' nowMs ulid fault r
    (fault = none → out.1.isOk) ∧ tailVersion out.2.store name = tailVersion r.store name ∧
      ∃ parts'', Stored env name tight out.2 batches parts'' ∧
        (out.1.isOk → covered out.2.store name = batches.length) := by
  obtain ⟨m₀, hm₀, hholds₀⟩ := h.manifest
  rw [hm] at hm₀
  cases hm₀
  have hdel := h.deleteAll henv hm
  have hholds' : Holds env name { r with bucket := Sqlite.deleteAll env r.bucket m.retire } m'
      parts' := by
    refine hholds.mono le_rfl fun seg hseg => ?_
    refine deleteAll_of_notMem henv (fun path hp => ?_) (fun path hp => ?_) r.bucket
    · obtain ⟨⟨i, -, hi⟩, -⟩ := hholds₀.retire path hp
      exact ⟨i, hi⟩
    · exact hretire path hp seg hseg
  obtain ⟨state, hdec, hout⟩ := publishManifest_cases henv (record name through nowMs) m' ulid
    (Fault.atPublish fault) { r with bucket := Sqlite.deleteAll env r.bucket m.retire }
  have hcases := fun tight' htight' => hdel.publish hdec hholds' hparts
    (record name through nowMs) hthrough ulid tight' htight'
  dsimp only at hout ⊢
  rw [Sqlite.installManifest]
  rcases hout with hout | ⟨hfault, e, hout | hout⟩
  · rw [hout]
    dsimp only
    split
    · next hpurge =>
      obtain ⟨hst, hcov⟩ := hcases False (fun _ _ _ hf => hf.elim)
      obtain ⟨hst', hcov'⟩ := hst.purgeAll hcov tight
      rw [purgeBelow_exec]
      refine ⟨fun _ => rfl, ?_, parts', ?_, fun _ => ?_⟩
      · exact (tailVersion_congr (get_purged_of_ne _ _ (by simp))).trans (tailVersion_published ..)
      · rw [hthrough]
        exact hst'
      · rw [hthrough]
        exact hcov'
    · next hpurge =>
      obtain ⟨hst, hcov⟩ := hcases tight fun gone hpres hk ht => by
        rcases (htight ht).2 with hp | hall
        · exact absurd hp hpurge
        · exact hall gone hpres (hk ht)
      exact ⟨fun _ => rfl, tailVersion_published .., parts', hst, fun _ => hcov⟩
  · rw [hout]
    refine ⟨fun hnone => ?_, rfl, parts, hdel, fun hok => by cases hok⟩
    rw [hnone] at hfault
    exact absurd rfl hfault
  · rw [hout]
    obtain ⟨hst, -⟩ := hcases tight fun gone hpres hk ht => by
      rw [(htight ht).1] at hfault
      exact absurd rfl hfault
    refine ⟨fun hnone => ?_, tailVersion_published .., parts', hst, fun hok => by cases hok⟩
    rw [hnone] at hfault
    exact absurd rfl hfault

/-- Sealing keeps what the store and the bucket hold.  If it fails, the pending fold
of the handle is lost, and without a fault it does not fail. -/
theorem sealPending [Payload D] (h : Stored env name tight r batches parts) (henv : env.Lawful name)
    (hg : Grows 0 batches.flatten) {dropped : Bool} {db : Db}
    (ha : Attached name r batches dropped db) (opts : CheckpointOpts) (nowMs : Int)
    (ulid : String) (fault : Option Fault)
    (hclean : dropped = true → db.pending.txidStart = none)
    (htight : tight → fault = none ∧ Keeps env name opts r.store) :
    let out := Sqlite.sealPending env opts nowMs ulid fault db r
    (fault = none → out.1.isOk) ∧ ∃ parts', Stored env name tight out.2.2 batches parts' ∧
      Attached name out.2.2 batches (dropped || !out.1.isOk) out.2.1 := by
  obtain ⟨m, hm, hholds⟩ := h.manifest
  have hcases := sealPending_cases env opts nowMs ulid fault ha.name_eq hm
  dsimp only at hcases ⊢
  rcases hcases with ⟨hout, -⟩ | ⟨through, htail, hpend, hcases⟩
  · rw [hout]
    exact ⟨fun _ => rfl, parts, h, (Bool.or_false dropped).symm ▸ ha⟩
  have hd : dropped = false := by
    cases dropped with
    | false => rfl
    | true => exact absurd (hclean rfl) hpend
  -- the transactions that the pending fold stands for
  have hs := LtxBuilder.seals_started (ha.pending hd) hpend
  generalize hpart : (batches.drop (covered r.store name)).flatten = part at hs
  have hall : parts.flatten ++ part = batches.flatten := by
    rw [h.parts_eq, ← hpart, ← List.flatten_append, List.take_append_drop]
  have hthrough : through + 1 = batches.length := by
    rw [← h.next, nextVersion, ← ha.tail, htail]
    rfl
  obtain ⟨hstore₁, hdraws₁, -, hok₁⟩ :=
    putLtx_frame henv db.pending.intoLtx (Fault.atPutSegment fault) r
  have h₁ := h.putLtx henv db.pending.intoLtx (Fault.atPutSegment fault)
  rcases hcases with ⟨e, r₁, hput, hout⟩ | ⟨path, r₁, hput, hcases⟩
  · rw [hput] at hstore₁ hok₁ h₁
    rw [hout, hd]
    refine ⟨fun hnone => ?_, parts, h₁, ha.dropPending (by rw [hstore₁])⟩
    rw [hnone] at hok₁
    cases hok₁ rfl
  rw [hput] at hstore₁ hdraws₁ h₁
  dsimp only at hstore₁ hdraws₁ h₁
  obtain ⟨hpath, hheld⟩ := putLtx_ok henv hput hs
  -- the new segment has a path that was never used before
  have hfresh : ∀ i, i < r.draws → env.segmentPath name i ≠ path := by
    rintro i hi rfl
    have := henv.fresh _ _ hpath
    omega
  have hm₁ : latestManifest env r₁.store name = .ok m := by rw [hstore₁]; exact hm
  obtain ⟨h₂, hstore₂, hok₂, hres₂⟩ := h₁.nextSegments henv hm₁
    (show (SegmentRef.of db.pending.intoLtx path).txidStart = _ from rfl) hs hheld
    (fun seg hseg => by
      obtain ⟨i, hi, hi'⟩ := h.manifest_paths hm hseg
      rw [hi']
      exact hfresh i hi)
    (fun p hp => by
      obtain ⟨⟨i, hi, rfl⟩, -⟩ := hholds.retire p hp
      exact (hfresh i hi).symm)
    (hall ▸ hg) opts fault
  rcases hcases with ⟨e, r₂, hnext, hout⟩ | ⟨segments, retire, r₂, hnext, res, r₃, hinst, hout⟩
  · rw [hnext] at h₂ hstore₂ hok₂
    rw [hout, hd]
    exact ⟨fun hnone => (by cases hok₂ hnone), parts, h₂,
      ha.dropPending (by rw [hstore₂, hstore₁])⟩
  rw [hnext] at h₂ hstore₂ hres₂
  dsimp only at h₂ hstore₂ hres₂
  obtain ⟨parts', hholds', hretire, hflat, hshape⟩ := hres₂ segments retire rfl
  have hstore : r₂.store = r.store := hstore₂.trans hstore₁
  obtain ⟨hok₃, htail₃, parts'', h₃, hcov₃⟩ := h₂.installManifest henv
    (by rw [hstore]; exact hm) hholds' hretire (hflat.trans hall) hthrough opts nowMs ulid fault
    fun ht => ⟨(htight ht).1, by
      rw [hstore]
      exact (htight ht).2.cut hm h.next hshape⟩
  rw [hinst] at hok₃ htail₃ h₃ hcov₃
  dsimp only at hok₃ htail₃ h₃ hcov₃
  rw [hout]
  cases res with
  | error e =>
      rw [hd]
      exact ⟨hok₃, parts'', h₃, ha.dropPending (by rw [htail₃, hstore])⟩
  | ok entry =>
      refine ⟨fun _ => rfl, parts'', h₃, ?_⟩
      exact ha.sealed (by rw [htail₃, hstore]) (hcov₃ rfl)

end Stored

end

end Landslide.Sqlite
