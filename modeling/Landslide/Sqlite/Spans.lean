import Landslide.Snapshots
import Landslide.Sqlite.PointInTime

/-!
# The ranges of the segments

A segment names the first and the last transaction that it stands for.  The first one is
that of the first delta folded into it, and a delta that a coalescing sync folds from many
transactions has the number of the last.  If such a delta is the first one past the latest
manifest, the next segment skips the transactions before it (`manifest_skips_folded`).

If no sync folds transactions while the latest manifest covers everything, the segments of
every published manifest continue one another from transaction 1 to the one of the image
(`manifests_contiguous`).  Nothing is asked of the pages here, so the invariant is one of
transaction numbers only (`Spans`).
-/

namespace Landslide.Sqlite

open Std Overlay TxnKv

/-! ## Contiguous segments -/

/-- The segments continue one another from past transaction `txid` on. -/
def Contiguous : Nat → List SegmentRef → Prop
  | _, [] => True
  | txid, seg :: segments =>
      seg.txidStart = txid + 1 ∧ seg.txidStart ≤ seg.txidEnd ∧ Contiguous seg.txidEnd segments

/-- The last transaction of some segments. -/
def lastEnd (txid : Nat) (segments : List SegmentRef) : Nat :=
  segments.foldl (fun _ seg => seg.txidEnd) txid

theorem lastEnd_concat (txid : Nat) (segments : List SegmentRef) (seg : SegmentRef) :
    lastEnd txid (segments ++ [seg]) = seg.txidEnd := List.foldl_concat ..

namespace Contiguous

variable {txid : Nat} {segments : List SegmentRef} {seg : SegmentRef}

theorem concat : Contiguous txid (segments ++ [seg]) ↔
    Contiguous txid segments ∧ seg.txidStart = lastEnd txid segments + 1 ∧
      seg.txidStart ≤ seg.txidEnd := by
  induction segments generalizing txid with
  | nil => simp [Contiguous, lastEnd]
  | cons first segments ih =>
      rw [List.cons_append, Contiguous, Contiguous, ih, and_assoc, and_assoc]
      rfl

/-- Segments of which there are some start with the next transaction. -/
theorem head (h : Contiguous txid segments) {last : Nat}
    (hlast : segments.getLast?.map (·.txidEnd) = some last) :
    segments.head?.map (·.txidStart) = some (txid + 1) := by
  cases segments with
  | nil => cases hlast
  | cons first segments => exact congrArg some h.1

theorem le_lastEnd (h : Contiguous txid segments) : txid ≤ lastEnd txid segments := by
  induction segments generalizing txid with
  | nil => exact le_rfl
  | cons first segments ih =>
      have := ih h.2.2
      have hstart := h.1
      have hle := h.2.1
      rw [lastEnd, List.foldl_cons]
      rw [lastEnd] at this
      omega

/-- One segment from the start of the first to the end of the last. -/
theorem merged (h : Contiguous txid segments) (hne : segments ≠ [])
    (hstart : seg.txidStart = segments.head?.elim 0 (·.txidStart))
    (hend : seg.txidEnd = lastEnd txid segments) : Contiguous txid [seg] := by
  cases segments with
  | nil => exact absurd rfl hne
  | cons first segments =>
      have hle : first.txidEnd ≤ lastEnd first.txidEnd segments := le_lastEnd h.2.2
      have hfirst := h.1
      have hrange := h.2.1
      rw [lastEnd, List.foldl_cons, ← lastEnd] at hend
      have hseg : seg.txidStart = first.txidStart := hstart
      exact ⟨hseg.trans hfirst, by omega, trivial⟩

end Contiguous

/-! ## Transactions past a manifest -/

/-- The first transaction of the list is the next one. -/
def Joins (txid : Nat) (deltas : List Delta) : Prop :=
  ∀ d, deltas.head? = some d → d.txid = txid + 1

theorem Consecutive.joins {txid : Nat} {deltas : List Delta} (h : Consecutive txid deltas) :
    Joins txid deltas := by
  cases deltas with
  | nil => exact fun _ hd => by cases hd
  | cons d deltas =>
      rintro _ ⟨⟩
      exact h.1

theorem lastTxid_append (txid : Nat) (deltas deltas' : List Delta) :
    lastTxid txid (deltas ++ deltas') = lastTxid (lastTxid txid deltas) deltas' :=
  List.foldl_append

/-- All transactions end where those of the later batches do. -/
theorem lastTxid_take_drop (txid n : Nat) (batches : List (List Delta)) :
    lastTxid txid batches.flatten =
      lastTxid (lastTxid txid (batches.take n).flatten) (batches.drop n).flatten := by
  rw [← lastTxid_append, ← List.flatten_append, List.take_append_drop]

theorem chunks_ne_nil : ∀ (deltas chunk : List Delta) (size : Nat),
    ∀ c ∈ chunks chunk size deltas, c ≠ []
  | [], chunk, size => by
      rw [chunks]
      split
      · simp
      · next h => simpa using h
  | d :: deltas, chunk, size => by
      rw [chunks]
      split
      · next h =>
        intro c hc
        rcases List.mem_cons.mp hc with rfl | hc
        · exact h.2
        · exact chunks_ne_nil deltas [d] _ c hc
      · exact chunks_ne_nil deltas (chunk ++ [d]) _

theorem txid_merge_all (ls : List Ltx) (image : DbImage) :
    (ls.foldl DbImage.mergeLtx image).txid = ls.foldl (fun _ l => l.txidEnd) image.txid := by
  induction ls generalizing image with
  | nil => rfl
  | cons l ls ih => exact ih _

section

variable {D S B : Type} {env : Outside D S B} {name : String}

/-! ## Uploaded segments -/

/-- The path of the reference was drawn, and the object there, if any, ends where the
reference says. -/
def Uploaded (env : Outside D S B) (name : String) (r : Remote D S B) (seg : SegmentRef) : Prop :=
  ∃ i, i < r.draws ∧ seg.path = env.segmentPath name i ∧
    ∀ b l, r.bucket seg.path = some b → env.ltx.decode b = .ok l → l.txidEnd = seg.txidEnd

/-- Objects at earlier draws are not replaced. -/
def Onward (env : Outside D S B) (name : String) (r r' : Remote D S B) : Prop :=
  r.draws ≤ r'.draws ∧ ∀ i, i < r.draws → ∀ b, r'.bucket (env.segmentPath name i) = some b →
    r.bucket (env.segmentPath name i) = some b

theorem Onward.of_eq {r r' : Remote D S B} (hdraws : r.draws ≤ r'.draws)
    (hbucket : ∀ i, i < r.draws →
      r'.bucket (env.segmentPath name i) = r.bucket (env.segmentPath name i)) :
    Onward env name r r' := ⟨hdraws, fun i hi _ hb => (hbucket i hi).symm.trans hb⟩

theorem Onward.refl (r : Remote D S B) : Onward env name r r := .of_eq le_rfl fun _ _ => rfl

theorem Onward.trans {r r' r'' : Remote D S B} (h : Onward env name r r')
    (h' : Onward env name r' r'') : Onward env name r r'' :=
  ⟨h.1.trans h'.1, fun i hi b hb => h.2 i hi b (h'.2 i (hi.trans_le h.1) b hb)⟩

theorem Uploaded.mono {r r' : Remote D S B} {seg : SegmentRef} (h : Uploaded env name r seg)
    (hr : Onward env name r r') : Uploaded env name r' seg := by
  obtain ⟨i, hi, hpath, hends⟩ := h
  refine ⟨i, hi.trans_le hr.1, hpath, fun b l hb hl => hends b l ?_ hl⟩
  rw [hpath] at hb ⊢
  exact hr.2 i hi b hb

/-- An upload goes onward, and its segment is uploaded if it succeeds. -/
theorem putLtx_onward (henv : env.Lawful name) (l : Ltx) (fault : Option Bool)
    (r : Remote D S B) :
    let out := putLtx env name l fault r
    out.2.store = r.store ∧ Onward env name r out.2 ∧
      ∀ path, out.1 = .ok path → Uploaded env name out.2 (SegmentRef.of l path) := by
  obtain ⟨hstore, hdraws, hbucket, -⟩ := putLtx_frame henv l fault r
  refine ⟨hstore, .of_eq (by omega) hbucket, fun path hpath => ?_⟩
  obtain ⟨b, henc, hdec⟩ := henv.ltx l
  rw [putLtx, henc] at hpath ⊢
  dsimp only at hpath ⊢
  cases fault with
  | none =>
      cases hpath
      refine ⟨r.draws, Nat.lt_succ_self _, rfl, fun b' l' hb' hl' => ?_⟩
      have hself : Function.update r.bucket (env.segmentPath name r.draws) (some b)
          (env.segmentPath name r.draws) = some b' := hb'
      rw [Function.update_self] at hself
      cases hself
      rw [hdec] at hl'
      cases hl'
      rfl
  | some landed => cases hpath

/-- A delete replaces nothing. -/
theorem deleteAll_onward (env : Outside D S B) (name : String) (r : Remote D S B)
    (paths : List String) :
    Onward env name r { r with bucket := deleteAll env r.bucket paths } := by
  have removes : ∀ (paths : List String) (bucket : Bucket B) (path : String) b,
      deleteAll env bucket paths path = some b → bucket path = some b := by
    intro paths
    induction paths with
    | nil => exact fun _ _ _ h => h
    | cons p paths ih =>
        intro bucket path b h
        have hrest : Function.update bucket (env.path p) none path = some b := ih _ path b h
        by_cases hp : path = env.path p
        · rw [hp, Function.update_self] at hrest
          cases hrest
        · rwa [Function.update_of_ne hp] at hrest
  exact ⟨le_rfl, fun i _ b hb => removes paths r.bucket _ b hb⟩

/-- Fetched segments end where their references say. -/
theorem fetchAll_ends (henv : env.Lawful name) {r : Remote D S B} :
    ∀ {segments : List SegmentRef} {ls : List Ltx} (txid : Nat),
      (∀ seg ∈ segments, Uploaded env name r seg) → fetchAll env r.bucket segments = .ok ls →
        ls.foldl (fun _ l => l.txidEnd) txid = lastEnd txid segments
  | [], ls, txid, _, hfetch => by
      cases hfetch
      rfl
  | seg :: segments, ls, txid, hup, hfetch => by
      obtain ⟨i, -, hpath, hends⟩ := hup seg List.mem_cons_self
      rw [fetchAll] at hfetch
      split at hfetch
      · cases hfetch
      next l hl =>
      split at hfetch
      · cases hfetch
      next rest hrest =>
      cases hfetch
      rw [fetchLtx, hpath, henv.stable, ← hpath] at hl
      split at hl
      · cases hl
      next b hb =>
      rw [List.foldl_cons, lastEnd, List.foldl_cons, hends b l hb hl]
      exact fetchAll_ends henv _ (fun s hs => hup s (List.mem_cons_of_mem _ hs)) hrest

/-! ## The invariant -/

/-- What the store and the bucket hold of a database, as far as transaction numbers go.
The segments of the latest manifest span what it covers, and the batches past it go on
from there. -/
structure Spans (env : Outside D S B) (name : String) (r : Remote D S B)
    (batches : List (List Delta)) : Prop where
  log : Logged (deltaEvents env) r.store name batches
  filled : ∀ batch ∈ batches, batch ≠ []
  ascends : Ascends 0 batches.flatten
  joins : Joins (lastTxid 0 (batches.take (covered r.store name)).flatten)
    (batches.drop (covered r.store name)).flatten
  manifest : ∃ m, latestManifest env r.store name = .ok m ∧ Contiguous 0 m.segments ∧
    lastEnd 0 m.segments = lastTxid 0 (batches.take (covered r.store name)).flatten ∧
    ∀ seg ∈ m.segments, Uploaded env name r seg

/-- A handle is at the tail of its stream and at its last transaction.  Its pending fold
holds what the manifest does not cover, unless a checkpoint dropped it. -/
structure Follows (name : String) (r : Remote D S B) (batches : List (List Delta))
    (dropped : Bool) (db : Db) : Prop where
  name_eq : db.name = name
  tail : db.tail = tailVersion r.store name
  txid : db.image.txid = lastTxid 0 batches.flatten
  pending : dropped = false →
    db.pending = .built (batches.drop (covered r.store name)).flatten

/-- A snapshot record holds a manifest whose segments run from the first transaction to
this one. -/
def Fits (env : Outside D S B) (s : SnapshotRecord S) (txid : Nat) : Prop :=
  ∃ m, env.manifest.decode s.state = .ok m ∧ Contiguous 0 m.segments ∧
    m.segments.getLast?.map (·.txidEnd) = some txid

namespace Spans

variable {r r' : Remote D S B} {batches : List (List Delta)}

theorem empty (env : Outside D S B) (name : String) : Spans env name {} [] where
  log := .empty name
  filled := by simp
  ascends := trivial
  joins := by simp [Joins]
  manifest := ⟨{}, rfl, trivial, rfl, by simp⟩

/-- A state with the same log and the same snapshots. -/
theorem frame (h : Spans env name r batches)
    (hlog : Logged (deltaEvents env) r'.store name batches)
    (hsnap : ∀ m, r'.store.get (.snap name m) = r.store.get (.snap name m))
    (hr : Onward env name r r') : Spans env name r' batches := by
  obtain ⟨m, hm, hcont, hend, hup⟩ := h.manifest
  have hcov := covered_congr hsnap
  refine ⟨hlog, h.filled, h.ascends, hcov ▸ h.joins, m, ?_, hcont, hcov ▸ hend,
    fun seg hseg => (hup seg hseg).mono hr⟩
  rw [latestManifest_eq, snapshotAt_congr hsnap, ← latestManifest_eq]
  exact hm

/-- The same over the same store. -/
theorem onward (h : Spans env name r batches) (hstore : r'.store = r.store)
    (hr : Onward env name r r') : Spans env name r' batches :=
  h.frame (hstore ▸ h.log) (fun _ => by rw [hstore]) hr

/-- Appending chunks whose first transaction is the next one, or that follow others past
the manifest. -/
theorem append (h : Spans env name r batches) {req : AppendReq D} {info : CommitInfo}
    {σ₁ : Landslide.Db D S} {cs : List (List Delta)}
    (happ : Appended req (seqOf r.store) r.store info σ₁) (hs : req.stream = name)
    (hfrom : req.fromVersion = none)
    (hevents : List.Forall₂ (Stands (deltaEvents env)) req.events cs)
    (hfilled : ∀ c ∈ cs, c ≠ []) (hascends : Ascends (lastTxid 0 batches.flatten) cs.flatten)
    (hjoins : covered r.store name < batches.length ∨
      Joins (lastTxid 0 batches.flatten) cs.flatten) :
    Spans env name { r with store := σ₁.put .seq (seqOf r.store + req.events.length) }
      (batches ++ cs) := by
  obtain ⟨hlog, hsnap, -⟩ := h.log.append happ hs hfrom hevents
  obtain ⟨m, hm, hcont, hend, hup⟩ := h.manifest
  have hcov := covered_congr hsnap
  have hle := h.log.covered_le
  refine ⟨hlog, fun batch hb => ?_, ?_, ?_, m, ?_, hcont, ?_, fun seg hseg => hup seg hseg⟩
  · rcases List.mem_append.mp hb with hb | hb
    · exact h.filled batch hb
    · exact hfilled batch hb
  · rw [List.flatten_append, Ascends.append]
    exact ⟨h.ascends, hascends⟩
  · dsimp only
    rw [hcov, List.take_append_of_le_length hle, List.drop_append_of_le_length hle,
      List.flatten_append]
    intro d hd
    rcases Nat.lt_or_ge (covered r.store name) batches.length with hlt | hge
    · -- the first batch past the manifest is there already
      have hne : (batches.drop (covered r.store name)).flatten ≠ [] := by
        rw [List.drop_eq_getElem_cons hlt, List.flatten_cons]
        exact List.append_ne_nil_of_left_ne_nil (h.filled _ (List.getElem_mem hlt)) _
      rw [List.head?_append_of_ne_nil _ hne] at hd
      exact h.joins d hd
    · rcases hjoins with hlt | hjoins
      · omega
      · rw [List.drop_eq_nil_of_le hge, List.flatten_nil, List.nil_append] at hd
        rw [List.take_of_length_le hge]
        exact hjoins d hd
  · rw [latestManifest_eq, snapshotAt_congr hsnap, ← latestManifest_eq]
    exact hm
  · dsimp only
    rw [hcov, List.take_append_of_le_length hle]
    exact hend

/-- Publishing a manifest that spans all batches. -/
theorem publish (h : Spans env name r batches) {m : Manifest} {state : S}
    (hdec : env.manifest.decode state = .ok m) (hcont : Contiguous 0 m.segments)
    (hend : lastEnd 0 m.segments = lastTxid 0 batches.flatten)
    (hup : ∀ seg ∈ m.segments, Uploaded env name r seg) {entry : CompactionRecord}
    (hthrough : entry.throughVersion + 1 = batches.length) (ulid : String) :
    Spans env name { r with store := published r.store name entry state ulid } batches ∧
      covered (published r.store name entry state ulid) name = batches.length := by
  have hsnap := snapshotAt_published entry state ulid h.log.numbered
  have hcov : covered (published r.store name entry state ulid) name = batches.length := by
    rw [covered, hsnap]
    exact hthrough
  refine ⟨⟨h.log.publish state ulid hthrough, h.filled, h.ascends, ?_, m, ?_, hcont, ?_,
    fun seg hseg => hup seg hseg⟩, hcov⟩
  · rw [hcov, List.drop_length]
    exact fun _ hd => by cases hd
  · rw [latestManifest_eq, hsnap]
    exact hdec
  · rw [hcov, List.take_length]
    exact hend

/-- Removing events that the manifest covers. -/
theorem purge (h : Spans env name r batches) {versions : List Nat}
    (hv : ∀ v ∈ versions, v < covered r.store name) :
    Spans env name { r with store := purged r.store name versions } batches :=
  h.frame (h.log.purge hv) (fun _ => get_purged_of_ne _ _ (by simp)) (.refl r)

/-- A restore that succeeds is at the last transaction, and its builder holds those past
the manifest. -/
theorem restoreImpl (h : Spans env name r batches) (henv : env.Lawful name) {image : DbImage}
    {pending : LtxBuilder} {tail : Option Nat}
    (hrestore : Sqlite.restoreImpl env r name = .ok (image, pending, tail)) :
    image.txid = lastTxid 0 batches.flatten ∧
      pending = .built (batches.drop (covered r.store name)).flatten ∧
      tail = tailVersion r.store name := by
  obtain ⟨m, hm, -, hend, hup⟩ := h.manifest
  rw [latestManifest_eq] at hm
  -- the base of the restore ends where the manifest does
  have hbase : ∀ base start through, restoreBase env r name = .ok (base, start, through) →
      start = covered r.store name ∧ base.txid = lastEnd 0 m.segments ∧
        through.elim 0 (· + 1) = covered r.store name := by
    intro base start through hbase
    rw [restoreBase, latestSnapshot_eval] at hbase
    rw [covered]
    cases hs : snapshotAt r.store name with
    | none =>
        rw [hs] at hbase hm
        cases hbase
        cases hm
        exact ⟨rfl, rfl, rfl⟩
    | some s =>
        rw [hs] at hbase hm
        have hdec : env.manifest.decode s.state = .ok m := hm
        simp only [hdec, mergeSegments] at hbase
        cases hfetch : fetchAll env r.bucket m.segments with
        | error e =>
            rw [hfetch] at hbase
            cases hbase
        | ok ls =>
            rw [hfetch] at hbase
            cases hbase
            refine ⟨rfl, ?_, rfl⟩
            rw [txid_merge_all]
            exact fetchAll_ends henv 0 hup hfetch
  cases hb : restoreBase env r name with
  | error e =>
      rw [Sqlite.restoreImpl, hb] at hrestore
      cases hrestore
  | ok out =>
      obtain ⟨base, start, through⟩ := out
      obtain ⟨rfl, htxid, hthrough⟩ := hbase base start through hb
      rw [restoreImpl_of_base h.log hb hthrough] at hrestore
      cases hrestore
      refine ⟨?_, rfl, rfl⟩
      rw [DbImage.txid_applied, htxid, hend, ← lastTxid_take_drop]

end Spans

/-! ## Syncs -/

theorem Follows.cursor {r : Remote D S B} {batches : List (List Delta)} {dropped : Bool} {db : Db}
    (h : Follows name r batches dropped db) (cursor : WalCursor) :
    Follows name r batches dropped { db with cursor := cursor } :=
  ⟨h.name_eq, h.tail, h.txid, h.pending⟩

/-- The next append starts with the next transaction: nothing is folded, or something is
past the manifest already, or the fold is refused. -/
def Starts [Payload D] (env : Outside D S B) (σ : Landslide.Db D S) (name : String)
    (deltas : List Delta) : Prop :=
  deltas.length ≤ 1 ∨ covered σ name < nextVersion σ name ∨
    ∀ events, encodeDeltas env [fold deltas] = .ok events → checkBatch events ≠ .ok ()

/-- A sync adds what it found to the batches or leaves them, and the handle follows. -/
theorem Spans.sync [Payload D] {r : Remote D S B} {batches : List (List Delta)}
    (h : Spans env name r batches) (henv : env.Lawful name) {dropped : Bool} {db : Db}
    (hf : Follows name r batches dropped db) (coalesce : Bool) (wal : Option Bytes)
    (stamps : Nat → Nat → Stamp)
    (hstarts : coalesce = true → Starts env r.store name (db.captures wal)) :
    let out := syncInner env coalesce wal stamps db r
    (∀ m, out.2.2.store.get (.snap name m) = r.store.get (.snap name m)) ∧
      (db.captures wal = [] → out.2.1.pending = db.pending) ∧
      ∃ batches', Spans env name out.2.2 batches' ∧ Follows name out.2.2 batches' dropped out.2.1 := by
  have hcases := syncInner_cases henv coalesce wal stamps hf.name_eq r
  dsimp only at hcases ⊢
  rw [← Db.captures] at hcases
  rcases hcases with ⟨hr, ⟨cursor, hdb⟩, -⟩ |
    ⟨events, info, σ₁, cursor, next, hne, -, henc, hcheck, hall, happ, hr, hdb⟩
  · rw [hr, hdb]
    exact ⟨fun _ => rfl, fun _ => rfl, batches, h, hf.cursor cursor⟩
  · have hfound : Consecutive (lastTxid 0 batches.flatten) (db.captures wal) :=
      hf.txid ▸ (found_deltas db.cursor db.image.txid wal).1
    have hflat : (chunks [] 0 (batch coalesce (db.captures wal))).flatten =
        batch coalesce (db.captures wal) := chunks_flatten _ _ _
    have hfolded : Folded (db.captures wal) (batch coalesce (db.captures wal)) :=
      Folded.nil.batch coalesce _
    have hjoins : covered r.store name < batches.length ∨
        Joins (lastTxid 0 batches.flatten) (batch coalesce (db.captures wal)) := by
      rw [Sqlite.batch] at henc ⊢
      by_cases hfolds : coalesce = true ∧ (db.captures wal).length > 1
      · rw [if_pos hfolds] at henc
        rcases hstarts hfolds.1 with hshort | hpast | hrefused
        · exact absurd hfolds.2 (Nat.not_lt.mpr hshort)
        · exact .inl (h.log.next ▸ hpast)
        · exact absurd hcheck (hrefused events henc)
      · rw [if_neg hfolds]
        exact .inr hfound.joins
    have hnext := h.append happ rfl rfl hall (chunks_ne_nil _ _ _)
      (hflat.symm ▸ hfolded.ascends hfound.ascends) (hflat.symm ▸ hjoins)
    obtain ⟨-, hsnap, htail⟩ := h.log.append happ rfl rfl hall
    rw [hr, hdb]
    refine ⟨hsnap, fun hnil => absurd hnil hne, _, hnext, hf.name_eq, htail.symm, ?_, fun hd => ?_⟩
    · rw [List.flatten_append, hflat, lastTxid_append, ← hf.txid]
      exact DbImage.txid_applied _ _
    · rw [covered_congr hsnap, List.drop_append_of_le_length h.log.covered_le,
        List.flatten_append, hflat, LtxBuilder.built_append, ← hf.pending hd]
      rfl

/-! ## Checkpoints -/

/-- The next manifest lists the segments and the new one, or one that spans them. -/
theorem nextSegments_cases (henv : env.Lawful name) (opts : CheckpointOpts) (m : Manifest)
    (newRef : SegmentRef) (ltx : Ltx) (fault : Option Fault) (r : Remote D S B) :
    let out := nextSegments env name opts m newRef ltx fault r
    out.2.store = r.store ∧ Onward env name r out.2 ∧
      ∀ segments retire, out.1 = .ok (segments, retire) →
        segments = m.segments ++ [newRef] ∨
          ∃ seg, segments = [seg] ∧ Uploaded env name out.2 seg ∧
            seg.txidStart = (m.segments ++ [newRef]).head?.elim 0 (·.txidStart) ∧
            seg.txidEnd = ltx.txidEnd := by
  dsimp only
  rw [nextSegments]
  split
  · rw [coalesce]
    dsimp only
    split
    · exact ⟨rfl, .refl r, fun _ _ h => by cases h⟩
    split
    · exact ⟨rfl, .refl r, fun _ _ h => by cases h⟩
    next older _ =>
    obtain ⟨hstore, hon, hup⟩ := putLtx_onward henv
      (mergedLtx ((m.segments ++ [newRef]).head?.elim 0 (·.txidStart)) older ltx)
      (Fault.atPutMerged fault) r
    split
    · next heq =>
      rw [heq] at hstore hon
      exact ⟨hstore, hon, fun _ _ h => by cases h⟩
    · next path r' heq =>
      rw [heq] at hstore hon hup
      refine ⟨hstore, hon, fun segments retire h => ?_⟩
      cases h
      exact .inr ⟨_, rfl, hup path rfl, rfl, rfl⟩
  · refine ⟨rfl, .refl r, fun segments retire h => ?_⟩
    cases h
    exact .inl rfl

/-- The next manifest is contiguous if the new segment continues the others. -/
theorem contiguous_next {m : Manifest} {newRef : SegmentRef} {segments : List SegmentRef}
    (hcont : Contiguous 0 (m.segments ++ [newRef]))
    (hcases : segments = m.segments ++ [newRef] ∨ ∃ seg, segments = [seg] ∧
      seg.txidStart = (m.segments ++ [newRef]).head?.elim 0 (·.txidStart) ∧
      seg.txidEnd = newRef.txidEnd) :
    Contiguous 0 segments ∧ segments.getLast?.map (·.txidEnd) = some newRef.txidEnd := by
  rcases hcases with rfl | ⟨seg, rfl, hstart, hend⟩
  · exact ⟨hcont, by rw [List.getLast?_concat]; rfl⟩
  · exact ⟨hcont.merged (by simp) hstart (by rw [hend, lastEnd_concat]), congrArg some hend⟩

theorem lastEnd_of_getLast {txid last : Nat} {segments : List SegmentRef}
    (h : segments.getLast?.map (·.txidEnd) = some last) : lastEnd txid segments = last := by
  obtain ⟨seg, hseg, rfl⟩ := Option.map_eq_some_iff.mp h
  obtain ⟨init, rfl⟩ := List.getLast?_eq_some_iff.mp hseg
  exact lastEnd_concat ..

/-- Installing a manifest that spans all batches.  What it publishes fits, and if it
succeeds the manifest is in force. -/
theorem Spans.installManifest [Payload D] {r : Remote D S B} {batches : List (List Delta)}
    (h : Spans env name r batches) (henv : env.Lawful name) {m : Manifest}
    (hcont : Contiguous 0 m.segments)
    (hlast : m.segments.getLast?.map (·.txidEnd) = some (lastTxid 0 batches.flatten))
    (hup : ∀ seg ∈ m.segments, Uploaded env name r seg) {through : Nat}
    (hthrough : through + 1 = batches.length) (opts : CheckpointOpts) (retired : List String)
    (nowMs : Int) (ulid : String) (fault : Option Fault) :
    let out := Sqlite.installManifest env name opts through retired m nowMs ulid fault r
    Spans env name out.2 batches ∧ tailVersion out.2.store name = tailVersion r.store name ∧
      (out.1.isOk = true → covered out.2.store name = batches.length) ∧
      ∀ n s, out.2.store.get (.snap name n) = some s →
        r.store.get (.snap name n) = some s ∨ Fits env s (lastTxid 0 batches.flatten) := by
  have hdel := deleteAll_onward env name r retired
  have h₁ : Spans env name { r with bucket := deleteAll env r.bucket retired } batches :=
    h.onward rfl hdel
  obtain ⟨state, hdec, hout⟩ := publishManifest_cases henv (record name through nowMs) m ulid
    (Fault.atPublish fault) { r with bucket := deleteAll env r.bucket retired }
  obtain ⟨h₂, hcov⟩ := h₁.publish hdec hcont (lastEnd_of_getLast hlast)
    (fun seg hseg => (hup seg hseg).mono hdel)
    (show (record name through nowMs).throughVersion + 1 = _ from hthrough) ulid
  have hnew : ∀ n s, (published r.store name (record name through nowMs) state ulid).get
      (.snap name n) = some s →
        r.store.get (.snap name n) = some s ∨ Fits env s (lastTxid 0 batches.flatten) := by
    intro n s hs
    by_cases hn : n = seqOf r.store + 1
    · rw [hn, get_published_self] at hs
      cases hs
      exact .inr ⟨m, hdec, hcont, hlast⟩
    · rw [get_published_snap_of_ne _ _ _ (by simpa using hn)] at hs
      exact .inl hs
  have htail := tailVersion_published r.store name (record name through nowMs) state ulid
  dsimp only at hout ⊢
  rw [Sqlite.installManifest]
  rcases hout with hout | ⟨-, e, hout | hout⟩
  · rw [hout]
    dsimp only
    split
    · rw [purgeBelow_exec]
      have hsnap : ∀ versions n, (purged (published r.store name (record name through nowMs) state
          ulid) name versions).get (.snap name n) = (published r.store name
            (record name through nowMs) state ulid).get (.snap name n) :=
        fun versions n => get_purged_of_ne _ _ (by simp)
      refine ⟨h₂.purge fun v hv => ?_, ?_, fun _ => ?_, fun n s hs => ?_⟩
      · rw [hcov, ← hthrough]
        exact (mem_versionsOf.mp hv).1.2
      · exact (tailVersion_congr (get_purged_of_ne _ _ (by simp))).trans htail
      · exact (covered_congr (hsnap _)).trans hcov
      · rw [hsnap] at hs
        exact hnew n s hs
    · exact ⟨h₂, htail, fun _ => hcov, hnew⟩
  · rw [hout]
    exact ⟨h₁, rfl, fun hok => (by cases hok), fun n s hs => .inl hs⟩
  · rw [hout]
    exact ⟨h₂, htail, fun hok => (by cases hok), hnew⟩

/-- A handle whose pending fold left it, over a store with the same tail. -/
theorem Follows.dropPending {r r' : Remote D S B} {batches : List (List Delta)} {dropped : Bool}
    {db : Db} (h : Follows name r batches dropped db)
    (hstore : tailVersion r'.store name = tailVersion r.store name) :
    Follows name r' batches true { db with pending := {} } :=
  ⟨h.name_eq, h.tail.trans hstore.symm, h.txid, by simp⟩

/-- The fold of what the manifest does not cover goes on where the manifest ends, up to the
last transaction. -/
theorem Spans.seals_joins {r : Remote D S B} {batches : List (List Delta)}
    (h : Spans env name r batches) {ltx : Ltx}
    (hs : Seals ltx (batches.drop (covered r.store name)).flatten) :
    ltx.txidStart = lastTxid 0 (batches.take (covered r.store name)).flatten + 1 ∧
      ltx.txidEnd = lastTxid 0 batches.flatten ∧ ltx.txidStart ≤ ltx.txidEnd := by
  obtain ⟨first, hfirst, hstart⟩ := Option.map_eq_some_iff.mp hs.first
  obtain ⟨last, hlast, hends⟩ := Option.map_eq_some_iff.mp hs.last
  simp only [Prod.mk.injEq] at hends
  have htake := lastTxid_take_drop 0 (covered r.store name) batches
  have hend : ltx.txidEnd = lastTxid 0 batches.flatten := by
    rw [htake, lastTxid_of_getLast _ hlast, hends.1]
  refine ⟨?_, hend, ?_⟩
  · rw [← hstart]
    exact h.joins first hfirst
  · have hasc := h.ascends
    rw [← List.take_append_drop (covered r.store name) batches, List.flatten_append,
      Ascends.append] at hasc
    rw [hend, htake, ← hstart]
    exact (hasc.2.mem (List.mem_of_mem_head? hfirst)).2

/-- Sealing keeps the spans, and what it publishes fits the image of the handle.  If it
fails, the pending fold of the handle is lost. -/
theorem Spans.sealPending [Payload D] {r : Remote D S B} {batches : List (List Delta)}
    (h : Spans env name r batches) (henv : env.Lawful name) {dropped : Bool} {db : Db}
    (hf : Follows name r batches dropped db) (opts : CheckpointOpts) (nowMs : Int)
    (ulid : String) (fault : Option Fault)
    (hclean : dropped = true → db.pending.txidStart = none) :
    let out := Sqlite.sealPending env opts nowMs ulid fault db r
    Spans env name out.2.2 batches ∧
      Follows name out.2.2 batches (dropped || !out.1.isOk) out.2.1 ∧
      ∀ n s, out.2.2.store.get (.snap name n) = some s →
        r.store.get (.snap name n) = some s ∨ Fits env s out.2.1.image.txid := by
  obtain ⟨m, hm, hcont, hend, hup⟩ := h.manifest
  have hcases := sealPending_cases env opts nowMs ulid fault hf.name_eq hm
  dsimp only at hcases ⊢
  rcases hcases with ⟨hout, -⟩ | ⟨through, htail, hpend, hcases⟩
  · rw [hout]
    exact ⟨h, (Bool.or_false dropped).symm ▸ hf, fun n s hs => .inl hs⟩
  have hd : dropped = false := by
    cases dropped with
    | false => rfl
    | true => exact absurd (hclean rfl) hpend
  have hthrough : through + 1 = batches.length := by
    rw [← h.log.next, nextVersion, ← hf.tail, htail]
    rfl
  obtain ⟨hstart, hlastEnd, hrange⟩ :=
    h.seals_joins (LtxBuilder.seals_started (hf.pending hd) hpend)
  have hjoin : db.pending.intoLtx.txidStart = lastEnd 0 m.segments + 1 := by rw [hstart, hend]
  obtain ⟨hstore₁, hon₁, hup₁⟩ :=
    putLtx_onward henv db.pending.intoLtx (Fault.atPutSegment fault) r
  rcases hcases with ⟨e, r₁, hput, hout⟩ | ⟨path, r₁, hput, hcases⟩
  · rw [hput] at hstore₁ hon₁
    rw [hout, hd]
    exact ⟨h.onward hstore₁ hon₁, hf.dropPending (by rw [hstore₁]),
      fun n s hs => .inl (hstore₁ ▸ hs)⟩
  rw [hput] at hstore₁ hon₁ hup₁
  dsimp only at hstore₁ hon₁ hup₁
  have hcont' : Contiguous 0 (m.segments ++ [SegmentRef.of db.pending.intoLtx path]) :=
    Contiguous.concat.mpr ⟨hcont, hjoin, hrange⟩
  obtain ⟨hstore₂, hon₂, hres₂⟩ := nextSegments_cases henv opts m
    (SegmentRef.of db.pending.intoLtx path) db.pending.intoLtx fault r₁
  rcases hcases with ⟨e, r₂, hnext, hout⟩ | ⟨segments, retire, r₂, hnext, res, r₃, hinst, hout⟩
  · rw [hnext] at hstore₂ hon₂
    have hstore : r₂.store = r.store := hstore₂.trans hstore₁
    rw [hout, hd]
    exact ⟨h.onward hstore (hon₁.trans hon₂), hf.dropPending (by rw [hstore]),
      fun n s hs => .inl (hstore ▸ hs)⟩
  rw [hnext] at hstore₂ hon₂ hres₂
  dsimp only at hstore₂ hon₂ hres₂
  have hstore : r₂.store = r.store := hstore₂.trans hstore₁
  have h₂ := h.onward hstore (hon₁.trans hon₂)
  have hsegments := hres₂ segments retire rfl
  obtain ⟨hcont₂, hlast₂⟩ := contiguous_next hcont'
    (hsegments.imp id fun h => h.imp fun _ h => ⟨h.1, h.2.2⟩)
  have hup₂ : ∀ seg ∈ segments, Uploaded env name r₂ seg := by
    intro seg hseg
    rcases hsegments with rfl | ⟨merged, rfl, hmerged, -⟩
    · rcases List.mem_append.mp hseg with hseg | hseg
      · exact (hup seg hseg).mono (hon₁.trans hon₂)
      · rw [List.mem_singleton.mp hseg]
        exact (hup₁ path rfl).mono hon₂
    · rw [List.mem_singleton.mp hseg]
      exact hmerged
  obtain ⟨h₃, htail₃, hcov₃, hnew₃⟩ := h₂.installManifest henv
    (m := { segments := segments, retire := retire }) hcont₂
    (hlast₂.trans (congrArg some hlastEnd)) hup₂ hthrough opts m.retire nowMs ulid fault
  rw [hinst] at h₃ htail₃ hcov₃ hnew₃
  dsimp only at h₃ htail₃ hcov₃ hnew₃
  have hnew : ∀ n s, r₃.store.get (.snap name n) = some s →
      r.store.get (.snap name n) = some s ∨ Fits env s db.image.txid := by
    intro n s hs
    rw [hf.txid]
    exact hstore ▸ hnew₃ n s hs
  have htail' : tailVersion r₃.store name = tailVersion r.store name := by rw [htail₃, hstore]
  rw [hout, hd]
  cases res with
  | error e => exact ⟨h₃, hf.dropPending htail', hnew⟩
  | ok entry =>
      refine ⟨h₃, ⟨hf.name_eq, hf.tail.trans htail'.symm, hf.txid, fun _ => ?_⟩, hnew⟩
      rw [hcov₃ rfl, List.drop_length]
      rfl

/-! ## Opening -/

/-- A database that opens is at the last transaction, with what the manifest does not
cover pending. -/
theorem Spans.openDb [Payload D] {r : Remote D S B} {batches : List (List Delta)}
    (h : Spans env name r batches) (henv : env.Lawful name) :
    let out := Sqlite.openDb env name r
    Spans env name out.2 batches ∧
      (∀ m, out.2.store.get (.snap name m) = r.store.get (.snap name m)) ∧
      ∀ db, out.1.toOption = some db → Follows name out.2 batches false db := by
  obtain ⟨infos, hfence⟩ := fence_exec name (some (env.ulid r.draws)) r.store
  have hsnap : ∀ m, (fenced r.store name (some (env.ulid r.draws))).get (.snap name m) =
      r.store.get (.snap name m) := fun m => get_fenced_of_ne _ _ _ (by simp)
  have hlog : Logged (deltaEvents env) (fenced r.store name (some (env.ulid r.draws))) name
      batches := by
    refine h.log.congr (fun k hk => get_fenced_of_ne _ _ _ ?_) ?_
    · rintro rfl
      exact hk
    · rw [seqOf, seqOf, get_fenced_of_ne _ _ _ (by simp)]
  have hst : Spans env name
      { r with store := fenced r.store name (some (env.ulid r.draws)), draws := r.draws + 1 }
      batches :=
    h.frame hlog hsnap (.of_eq (Nat.le_succ _) fun _ _ => rfl)
  dsimp only
  simp only [Sqlite.openDb, hfence]
  cases hrestore : Sqlite.restoreImpl env
      { r with store := fenced r.store name (some (env.ulid r.draws)), draws := r.draws + 1 }
      name with
  | error e => exact ⟨hst, hsnap, fun db hdb => by cases hdb⟩
  | ok out =>
      obtain ⟨image, pending, tail⟩ := out
      obtain ⟨htxid, rfl, rfl⟩ := hst.restoreImpl henv hrestore
      refine ⟨hst, hsnap, fun db hdb => ?_⟩
      cases hdb
      exact ⟨rfl, rfl, htxid, fun _ => rfl⟩

/-! ## Runs -/

/-- A sync folds transactions only where the next append starts with the next one, and a
checkpoint has nothing to seal after a failed one. -/
def Op.Joins [Payload D] (env : Outside D S B) (name : String) (st : State D S B) (op : Op) :
    Prop :=
  match op with
  | .sync true wal _ =>
      ∀ db, st.db = some db → Starts env st.remote.store name (db.captures wal)
  | op => op.Clean st

/-- The operation publishes the snapshot record. -/
def Publishes [Payload D] (env : Outside D S B) (name : String) (st : State D S B) (op : Op)
    (s : SnapshotRecord S) : Prop :=
  ∃ n, (step env name st op).remote.store.get (.snap name n) = some s ∧
    st.remote.store.get (.snap name n) ≠ some s

/-- What holds in every state of a run. -/
structure Spanned (env : Outside D S B) (name : String) (st : State D S B)
    (batches : List (List Delta)) : Prop where
  spans : Spans env name st.remote batches
  follows : ∀ db, st.db = some db → Follows name st.remote batches st.dropped db

/-- Every operation that joins keeps the spans, and what it publishes fits the image of the
handle. -/
theorem Spanned.step [Payload D] {st : State D S B} {batches : List (List Delta)}
    (h : Spanned env name st batches) (henv : env.Lawful name) {op : Op}
    (hop : op.Joins env name st) :
    (∃ batches', Spanned env name (Sqlite.step env name st op) batches') ∧
      ∀ s, Publishes env name st op s →
        ∃ db, (Sqlite.step env name st op).db = some db ∧ Fits env s db.image.txid := by
  cases op with
  | «open» =>
      obtain ⟨hst, hsnap, hdb⟩ := h.spans.openDb henv
      refine ⟨⟨batches, hst, hdb⟩, ?_⟩
      rintro s ⟨n, hs, hne⟩
      exact absurd ((hsnap n).symm.trans hs) hne
  | sync coalesce wal stamps =>
      cases hdb : st.db with
      | none =>
          simp only [Sqlite.step, hdb, Publishes]
          refine ⟨⟨batches, h⟩, ?_⟩
          rintro s ⟨n, hs, hne⟩
          exact absurd hs hne
      | some db =>
          have hstarts : coalesce = true → Starts env st.remote.store name (db.captures wal) := by
            rintro rfl
            exact hop db hdb
          obtain ⟨hsnap, -, batches', hst, hf⟩ :=
            h.spans.sync henv (h.follows db hdb) coalesce wal stamps hstarts
          simp only [Sqlite.step, hdb, Publishes]
          refine ⟨⟨batches', hst, ?_⟩, ?_⟩
          · rintro _ ⟨⟩
            exact hf
          · rintro s ⟨n, hs, hne⟩
            exact absurd ((hsnap n).symm.trans hs) hne
  | checkpoint opts wal stamps nowMs ulid fault =>
      cases hdb : st.db with
      | none =>
          simp only [Sqlite.step, hdb, Publishes]
          refine ⟨⟨batches, h⟩, ?_⟩
          rintro s ⟨n, hs, hne⟩
          exact absurd hs hne
      | some db =>
          obtain ⟨hsnap, hpend, batches', hst, hf⟩ :=
            h.spans.sync henv (h.follows db hdb) false wal stamps fun hc => by cases hc
          cases hsync : syncInner env false wal stamps db st.remote with
          | mk res rest =>
          obtain ⟨db₁, r₁⟩ := rest
          rw [hsync] at hsnap hpend hst hf
          dsimp only at hsnap hpend hst hf
          cases res with
          | error e =>
              simp only [Sqlite.step, hdb, Publishes, checkpointWith, hsync]
              refine ⟨⟨batches', hst, ?_⟩, ?_⟩
              · rintro _ ⟨⟩
                exact (Bool.or_false st.dropped).symm ▸ hf
              · rintro s ⟨n, hs, hne⟩
                exact absurd ((hsnap n).symm.trans hs) hne
          | ok m =>
              have hclean : st.dropped = true → db₁.pending.txidStart = none := by
                intro hd
                obtain ⟨hnone, hnil⟩ := hop db hdb hd
                rw [hpend hnil]
                exact hnone
              obtain ⟨hst', hf', hnew⟩ := hst.sealPending henv hf opts nowMs ulid fault hclean
              simp only [Sqlite.step, hdb, Publishes, checkpointWith, hsync]
              refine ⟨⟨batches', hst', ?_⟩, ?_⟩
              · rintro _ ⟨⟩
                exact hf'
              · rintro s ⟨n, hs, hne⟩
                refine ⟨_, rfl, (hnew n s hs).resolve_left fun hold => hne ?_⟩
                exact (hsnap n).symm.trans hold

theorem Reached.spanned [Payload D] {st : State D S B}
    (h : Reached env name (fun st op => op.Joins env name st) st) (henv : env.Lawful name) :
    ∃ batches, Spanned env name st batches := by
  induction h with
  | start => exact ⟨[], .empty env name, by simp⟩
  | step op _ hop ih =>
      obtain ⟨batches, hst⟩ := ih
      exact (hst.step henv hop).1

/-- The operations before one that meets the condition reach the state where it runs. -/
theorem Reached.of_meets [Payload D] {P : State D S B → Op → Prop} {before after : List Op}
    {op : Op} : ∀ {st : State D S B}, Reached env name P st →
      Meets env name P st (before ++ op :: after) →
        Reached env name P (before.foldl (Sqlite.step env name) st) ∧
          P (before.foldl (Sqlite.step env name) st) op := by
  induction before with
  | nil => exact fun h hops => ⟨h, hops.1⟩
  | cons first before ih => exact fun h hops => ih (h.step first hops.1) hops.2

/-- In every run whose operations all join, with calls that may fail, every manifest that
an operation publishes lists segments that continue one another from transaction 1 to the
one of the image. -/
theorem manifests_contiguous [Payload D] (env : Outside D S B) (name : String)
    (henv : env.Lawful name) {ops : List Op}
    (hops : Meets env name (fun st op => op.Joins env name st) {} ops) {before after : List Op}
    {op : Op} (hsplit : ops = before ++ op :: after) {s : SnapshotRecord S}
    (hs : Publishes env name (run env name before) op s) :
    ∃ m db, env.manifest.decode s.state = .ok m ∧
      (run env name (before ++ [op])).db = some db ∧ Contiguous 0 m.segments ∧
      m.segments.head?.map (·.txidStart) = some 1 ∧
      m.segments.getLast?.map (·.txidEnd) = some db.image.txid := by
  subst hsplit
  obtain ⟨hreached, hop⟩ := Reached.start.of_meets hops
  obtain ⟨batches, hst⟩ := hreached.spanned henv
  obtain ⟨db, hdb, m, hdec, hcont, hlast⟩ := (hst.step henv hop).2 s hs
  refine ⟨m, db, hdec, ?_, hcont, hcont.head hlast, hlast⟩
  rw [run, List.foldl_concat]
  exact hdb

end

/-! ## Concrete runs -/

/-- Three transactions, of which the second and the third are folded into one after the
first was appended. -/
def foldedLate : List Op :=
  [.open, .sync false (walOf [(1, 1, 10)]) stamps,
    .sync true (walOf [(1, 1, 10), (1, 1, 11), (1, 1, 12)]) stamps,
    .checkpoint {} (walOf [(1, 1, 10), (1, 1, 11), (1, 1, 12)]) stamps 5 "c" none, .open]

/-- The database is reopened, and its next checkpoint publishes two segments that
continue one another. -/
theorem manifests_contiguous_foldedLate :
    ∃ s m, ∃ db : Db, Publishes plain "d" (run plain "d" foldedLate)
        (.checkpoint {} (walOf [(1, 1, 20)]) stamps 6 "e" none) s ∧
      plain.manifest.decode s.state = .ok m ∧ Contiguous 0 m.segments ∧
      m.segments.head?.map (·.txidStart) = some 1 ∧
      m.segments.getLast?.map (·.txidEnd) = some db.image.txid := by
  have hget : ((step plain "d" (run plain "d" foldedLate) (.checkpoint {} (walOf [(1, 1, 20)])
      stamps 6 "e" none)).remote.store.get (.snap "d" 5)).isSome = true := by
    decide +kernel
  have hnone : ((run plain "d" foldedLate).remote.store.get (.snap "d" 5)).isNone = true := by
    decide +kernel
  obtain ⟨s, hs⟩ := Option.isSome_iff_exists.mp hget
  have hpub : Publishes plain "d" (run plain "d" foldedLate)
      (.checkpoint {} (walOf [(1, 1, 20)]) stamps 6 "e" none) s := by
    refine ⟨5, hs, ?_⟩
    rw [Option.isNone_iff_eq_none.mp hnone]
    rintro ⟨⟩
  have hops : Meets plain "d" (fun st op => op.Joins plain "d" st) {}
      (foldedLate ++ [.checkpoint {} (walOf [(1, 1, 20)]) stamps 6 "e" none]) :=
    ⟨trivial, trivial, fun _ _ => .inr (.inl (by decide +kernel)),
      fun _ _ hd => absurd hd (by decide +kernel), trivial,
      fun _ _ hd => absurd hd (by decide +kernel), trivial⟩
  obtain ⟨m, db, hdec, -, hcont, hhead, hlast⟩ :=
    manifests_contiguous plain "d" (plain_lawful "d") hops rfl hpub
  exact ⟨s, m, db, hpub, hdec, hcont, hhead, hlast⟩

/-- The first two transactions are folded into one, and the segment of the next checkpoint
starts with the second. -/
theorem manifest_skips_folded :
    ∃ s m, Publishes plain "d"
        (run plain "d" [.open, .sync true (walOf [(1, 1, 10), (1, 1, 11)]) stamps])
        (.checkpoint {} (walOf [(1, 1, 10), (1, 1, 11)]) stamps 5 "c" none) s ∧
      plain.manifest.decode s.state = .ok m ∧
      m.segments.map (fun seg => (seg.txidStart, seg.txidEnd)) = [(2, 2)] ∧
      ¬ Contiguous 0 m.segments := by
  have hget : ((step plain "d"
      (run plain "d" [.open, .sync true (walOf [(1, 1, 10), (1, 1, 11)]) stamps])
      (.checkpoint {} (walOf [(1, 1, 10), (1, 1, 11)]) stamps 5 "c" none)).remote.store.get
        (.snap "d" 2)).map (fun s => s.state.segments.map fun seg => (seg.txidStart, seg.txidEnd)) =
      some [(2, 2)] := by
    decide +kernel
  have hnone : ((run plain "d"
      [.open, .sync true (walOf [(1, 1, 10), (1, 1, 11)]) stamps]).remote.store.get
        (.snap "d" 2)).isNone = true := by
    decide +kernel
  obtain ⟨s, hs, hranges⟩ := Option.map_eq_some_iff.mp hget
  refine ⟨s, s.state, ⟨2, hs, ?_⟩, rfl, hranges, fun hcont => ?_⟩
  · rw [Option.isNone_iff_eq_none.mp hnone]
    rintro ⟨⟩
  · cases hsegs : s.state.segments with
    | nil =>
        rw [hsegs] at hranges
        cases hranges
    | cons seg segments =>
        rw [hsegs] at hranges hcont
        have hstart := hcont.1
        have hfirst : seg.txidStart = 2 :=
          congrArg Prod.fst (List.cons.inj hranges).1
        omega

end Landslide.Sqlite
