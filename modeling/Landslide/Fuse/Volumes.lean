import Landslide.Log
import Landslide.Fuse.Checkpoint

/-!
# Runs of a volume

What the store and the bucket hold of a volume, and what mounts, commits and
checkpoints do to it, in any order.  `committed` are the deltas of the volume stream.
The segments of the latest manifest hold the image of the deltas that it covers, as
some readings of the clock gave it (`Stored`).  A commit adds deltas, a checkpoint
adds a segment for those that were not covered, and whatever else a call does, or
where it fails, the manifest and its segments stay.

So a mount finds the image of all committed deltas, up to the readings of the clock
(`mount_replays_committed`).
-/

namespace Landslide.Fuse

open Std TxnKv

section

variable {D S B : Type} {env : Outside D S B} {vol : String}

/-! ## Replays -/

/-- The delta of an event. -/
def deltaOf (env : Outside D S B) (e : Event D) : Except Error Delta := env.delta.decode e.data

/-- A mount applies the deltas of the events. -/
theorem replayEvent_foldl (clock : Nat → Int) : ∀ {v : Nat} {events : List (Event D)}
    {ds : List Delta} (_ : ReadsAs (deltaOf env) v events ds) (image : FsImage),
      events.foldl (replayEvent env clock) image = FsImage.applied clock v image ds
  | _, [], [], _, _ => rfl
  | v, e :: events, d :: ds, ⟨hver, hof, h⟩, image => by
      have hstep : replayEvent env clock image e = image.apply (clock v) d := by
        have hof : env.delta.decode e.data = .ok d := hof
        rw [replayEvent, hof, hver]
      rw [List.foldl_cons, hstep, FsImage.applied]
      exact replayEvent_foldl clock h _

/-- The fold of a checkpoint applies them to its running image, and its entries
follow. -/
theorem DeltaImage.replayEvent_foldl (clock : Nat → Int) {base : FsImage} :
    ∀ {v : Nat} {events : List (Event D)} {ds : List Delta}
      (_ : ReadsAs (deltaOf env) v events ds) {delta : DeltaImage} (_ : Sound base delta)
      (_ : ∀ d ∈ ds, ¬ d.NestedRename),
      Sound base (events.foldl (replayEvent env clock) delta) ∧
        (events.foldl (replayEvent env clock) delta).live = FsImage.applied clock v delta.live ds
  | _, [], [], _, _, hs, _ => ⟨hs, rfl⟩
  | v, e :: events, d :: ds, ⟨hver, hof, h⟩, delta, hs, hn => by
      have hstep : replayEvent env clock delta e = delta.apply (clock v) d := by
        have hof : env.delta.decode e.data = .ok d := hof
        rw [replayEvent, hof, hver]
      obtain ⟨hs', hlive⟩ := replayEvent_foldl clock h (hs.apply (hn d List.mem_cons_self) (clock v))
        fun d hd => hn d (List.mem_cons_of_mem _ hd)
      rw [List.foldl_cons, hstep]
      refine ⟨hs', ?_⟩
      rw [hlive, live_apply, FsImage.applied]

/-- Deltas applied with one clock and then with another are applied with one that
changes in between. -/
theorem applied_two_clocks (clock clock' : Nat → Int) (n : Nat) {ds ds' : List Delta}
    (hn : ds.length = n) (image : FsImage) :
    FsImage.applied clock' n (FsImage.applied clock 0 image ds) ds' =
      FsImage.applied (fun v => if v < n then clock v else clock' v) 0 image (ds ++ ds') := by
  have hfirst : FsImage.applied (fun v => if v < n then clock v else clock' v) 0 image ds =
      FsImage.applied clock 0 image ds :=
    FsImage.applied_congr (fun w _ hw => by simp [show w < n by omega]) image
  rw [FsImage.applied_append, Nat.zero_add, hn, hfirst]
  exact FsImage.applied_congr (fun w hw _ => by simp [show ¬ w < n by omega]) _

/-! ## What the store and the bucket hold -/

/-- The bucket holds a segment at a path that was drawn. -/
def Held (env : Outside D S B) (vol : String) (r : Remote D S B) (path : String)
    (segment : Segment) : Prop :=
  ∃ i object, i < r.draws ∧ path = env.segmentPath vol i ∧
    r.bucket (env.segmentPath vol i) = some object ∧ env.segment.decode object = .ok segment

/-- The segments of the latest manifest are held, and merge to the image of the
deltas that it covers. -/
structure Stored (env : Outside D S B) (vol : String) (r : Remote D S B) (committed : List Delta) :
    Prop where
  log : Logged (deltaOf env) r.store vol committed
  manifest : ∃ m segments clock, latestManifest env r.store vol = .ok m ∧
    List.Forall₂ (Held env vol r) m.segments segments ∧
    segments.foldl FsImage.mergeSegment {} =
      FsImage.applied clock 0 {} (committed.take (covered r.store vol))

theorem latestManifest_eq (σ : Db D S) (vol : String) :
    latestManifest env σ vol = (snapshotAt σ vol).elim (.ok {}) (env.manifest.decode ·.state) := by
  rw [latestManifest, latestSnapshot_eval]
  cases snapshotAt σ vol <;> rfl

theorem Held.mono {r r' : Remote D S B} {path : String} {segment : Segment}
    (h : Held env vol r path segment) (hdraws : r.draws ≤ r'.draws)
    (hbucket : ∀ i, i < r.draws →
      r'.bucket (env.segmentPath vol i) = r.bucket (env.segmentPath vol i)) :
    Held env vol r' path segment := by
  obtain ⟨i, object, hi, rfl, hobject, hdec⟩ := h
  exact ⟨i, object, hi.trans_le hdraws, rfl, (hbucket i hi).trans hobject, hdec⟩

/-- Held segments are fetched and merged. -/
theorem mergeSegments_eq (henv : env.Lawful vol) {r : Remote D S B} {paths : List String}
    {segments : List Segment} (h : List.Forall₂ (Held env vol r) paths segments)
    (image : FsImage) :
    mergeSegments env r.bucket image paths = .ok (segments.foldl FsImage.mergeSegment image) := by
  induction h generalizing image with
  | nil => rfl
  | @cons path segment paths segments hpath _ ih =>
      obtain ⟨i, object, -, rfl, hobject, hdec⟩ := hpath
      rw [mergeSegments, henv.stable, hobject]
      simp only [hdec]
      exact ih _

namespace Stored

variable {r r' : Remote D S B} {committed : List Delta}

/-- Nothing is stored of a volume that was never mounted. -/
theorem empty (env : Outside D S B) (vol : String) : Stored env vol {} [] where
  log := .empty vol
  manifest := ⟨{}, [], fun _ => 0, rfl, .nil, by rw [List.take_nil]; rfl⟩

/-- A state that keeps the snapshots of the stream and the objects drawn so far. -/
theorem frame (h : Stored env vol r committed) {more : List Delta}
    (hlog : Logged (deltaOf env) r'.store vol (committed ++ more))
    (hsnap : ∀ m, r'.store.get (.snap vol m) = r.store.get (.snap vol m))
    (hdraws : r.draws ≤ r'.draws)
    (hbucket : ∀ i, i < r.draws →
      r'.bucket (env.segmentPath vol i) = r.bucket (env.segmentPath vol i)) :
    Stored env vol r' (committed ++ more) := by
  obtain ⟨m, segments, clock, hm, hheld, himage⟩ := h.manifest
  refine ⟨hlog, m, segments, clock, ?_, hheld.imp fun _ _ hs => hs.mono hdraws hbucket, ?_⟩
  · rw [latestManifest_eq, snapshotAt_congr hsnap, ← latestManifest_eq]
    exact hm
  · rw [covered_congr hsnap, List.take_append_of_le_length h.log.covered_le]
    exact himage

/-- A state with the same keys of the stream, and the objects drawn so far. -/
theorem congr (h : Stored env vol r committed)
    (hσ : ∀ k, OfStream vol k → r'.store.get k = r.store.get k)
    (hseq : seqOf r.store ≤ seqOf r'.store) (hdraws : r.draws ≤ r'.draws)
    (hbucket : ∀ i, i < r.draws →
      r'.bucket (env.segmentPath vol i) = r.bucket (env.segmentPath vol i)) :
    Stored env vol r' committed := by
  have hlog : Logged (deltaOf env) r'.store vol (committed ++ []) := by
    rw [List.append_nil]
    exact h.log.congr hσ hseq
  have hframe := h.frame hlog (fun m => hσ _ rfl) hdraws hbucket
  rwa [List.append_nil] at hframe

/-- The segments of the manifest are loaded. -/
theorem loadBase_merge (henv : env.Lawful vol) {m : Manifest} {segments : List Segment}
    (hm : latestManifest env r.store vol = .ok m)
    (hheld : List.Forall₂ (Held env vol r) m.segments segments) :
    loadBase env r vol = .ok (segments.foldl FsImage.mergeSegment {}, covered r.store vol) := by
  rw [latestManifest_eq] at hm
  rw [covered, loadBase, latestSnapshot_eval]
  cases hs : snapshotAt r.store vol with
  | none =>
      rw [hs] at hm
      cases hm
      cases hheld
      rfl
  | some snap =>
      rw [hs] at hm
      have hdec : env.manifest.decode snap.state = .ok m := hm
      simp only [loadSegments, hdec, mergeSegments_eq henv hheld]
      rfl

/-- The segments show the deltas that the manifest covers. -/
theorem loadBase_eq (h : Stored env vol r committed) (henv : env.Lawful vol) :
    ∃ clock, loadBase env r vol = .ok
      (FsImage.applied clock 0 {} (committed.take (covered r.store vol)), covered r.store vol) := by
  obtain ⟨m, segments, clock, hm, hheld, himage⟩ := h.manifest
  exact ⟨clock, himage ▸ loadBase_merge henv hm hheld⟩

/-- A replay from the manifest on shows all deltas. -/
theorem replay_eq (h : Stored env vol r committed) (henv : env.Lawful vol) (clock : Nat → Int) :
    ∃ image start readings, loadBase env r vol = .ok (image, start) ∧
      fold r.store vol (.included start) .unbounded image (replayEvent env clock) =
        .ok (FsImage.applied readings 0 {} committed,
          if start < committed.length then some (committed.length - 1) else none) := by
  obtain ⟨before, hbase⟩ := h.loadBase_eq henv
  obtain ⟨events, hevents, hreads, hlast⟩ := h.log.read
  have hlen : (committed.take (covered r.store vol)).length = covered r.store vol :=
    List.length_take_of_le h.log.covered_le
  refine ⟨_, _, fun v => if v < covered r.store vol then before v else clock v, hbase, ?_⟩
  rw [fold, hevents, Except.map, replayEvent_foldl clock hreads, hlast, applied_two_clocks _ _ _ hlen,
    List.take_append_drop]

end Stored

/-! ## Handles -/

/-- A handle knows the tail of its stream, or none. -/
structure Attached (vol : String) (r : Remote D S B) (v : Volume) : Prop where
  vol_eq : v.vol = vol
  tail : v.tail = none ∨ v.tail = tailVersion r.store vol

theorem Attached.congr {r r' : Remote D S B} {v v' : Volume} (h : Attached vol r v)
    (hvol : v'.vol = v.vol) (htail : v'.tail = v.tail) (hstore : r'.store = r.store) :
    Attached vol r' v' where
  vol_eq := hvol.trans h.vol_eq
  tail := by rw [htail, hstore]; exact h.tail

namespace Stored

variable {r r' : Remote D S B} {committed : List Delta}

/-- A mount finds all deltas, as some readings of the clock give them, and takes the
fence of the volume. -/
theorem mount [Payload D] (h : Stored env vol r committed) (henv : env.Lawful vol)
    (clock : Nat → Int) :
    ∃ v r', mount env vol clock r = (.ok v, r') ∧ Stored env vol r' committed ∧
      Attached vol r' v ∧ ∃ readings, v.image = FsImage.applied readings 0 {} committed := by
  obtain ⟨infos, hfence⟩ := fence_exec vol (some (env.ulid r.draws)) r.store
  have hget : ∀ k, k ≠ .fence vol →
      (fenced r.store vol (some (env.ulid r.draws))).get k = r.store.get k :=
    fun k hk => get_fenced_of_ne _ _ _ hk
  have hst : Stored env vol
      { r with store := fenced r.store vol (some (env.ulid r.draws)), draws := r.draws + 1 }
      committed := by
    refine h.congr (fun k hk => hget k ?_) ?_ (Nat.le_succ _) (fun _ _ => rfl)
    · rintro rfl
      exact hk
    · rw [seqOf, seqOf, hget _ (by simp)]
  obtain ⟨image, start, readings, hbase, hfold⟩ := hst.replay_eq henv clock
  simp only [Fuse.mount, hfence, hbase, hfold]
  refine ⟨_, _, rfl, hst, ⟨rfl, ?_⟩, readings, rfl⟩
  dsimp only
  split
  · next hlt =>
    right
    have hnext := hst.log.next
    rw [nextVersion] at hnext
    cases ht : tailVersion (fenced r.store vol (some (env.ulid r.draws))) vol with
    | none =>
        rw [ht] at hnext
        simp only [Option.elim_none] at hnext
        omega
    | some w =>
        rw [ht] at hnext
        simp only [Option.elim_some] at hnext
        simp [← hnext]
  · exact .inl rfl

end Stored

/-! ## Commits -/

/-- The events of some deltas stand for them. -/
theorem encodeDeltas_eq (henv : env.Lawful vol) : ∀ ds : List Delta, ∃ events,
    encodeDeltas env ds = .ok events ∧ List.Forall₂ (Stands (deltaOf env)) events ds
  | [] => ⟨[], rfl, .nil⟩
  | d :: ds => by
      obtain ⟨data, henc, hdec⟩ := henv.delta d
      obtain ⟨events, hev, hall⟩ := encodeDeltas_eq henv ds
      refine ⟨{ eventType := "delta", data := data } :: events, ?_, .cons ?_ hall⟩
      · rw [encodeDeltas, henc]
        simp only [hev]
      · intro ev _ hdata
        rw [deltaOf, hdata]
        exact hdec

/-- Uploads of blocks leave the segments. -/
theorem putBlocks_segment (henv : env.Lawful vol) (fault : Option Fault) (j : Nat) :
    ∀ (bs : List Bytes) (i : Nat) (bucket : Bucket B),
      (putBlocks env fault i bs bucket).2 (env.segmentPath vol j) = bucket (env.segmentPath vol j)
  | [], _, _ => rfl
  | b :: bs, i, bucket => by
      have hput : Function.update bucket (env.blockPath (env.sha256 b)) (some (env.object b))
          (env.segmentPath vol j) = bucket (env.segmentPath vol j) :=
        Function.update_of_ne (henv.apart j _) _ _
      rw [putBlocks]
      split
      · exact hput
      · split
        · rfl
        · exact (putBlocks_segment henv fault j bs (i + 1) _).trans hput

namespace Stored

variable {r r' : Remote D S B} {committed : List Delta}

/-- A commit that succeeds adds its deltas, and one that fails adds none. -/
theorem commit [Payload D] (h : Stored env vol r committed) (henv : env.Lawful vol) {v : Volume}
    (ha : Attached vol r v) (now : Int) (stamps : Nat → Nat → Stamp) (fault : Option Fault) :
    let out := v.commit env now stamps fault r
    Stored env vol out.2.2 (committed ++ if out.1.isOk then v.upgraded env else []) ∧
      Attached vol out.2.2 out.2.1 := by
  dsimp only
  rw [Volume.commit]
  split
  · next hnil =>
    have hnone : v.upgraded env = [] := by rw [Volume.upgraded, hnil]; rfl
    rw [hnone, ite_self, List.append_nil]
    exact ⟨h, ha⟩
  · cases hput : putBlocks env fault 0 (uploads env r.bucket v.image [] v.pending) r.bucket with
    | mk res bucket =>
    have hst : Stored env vol { r with bucket := bucket } committed := by
      refine h.congr (fun _ _ => rfl) le_rfl le_rfl fun i _ => ?_
      have hi := putBlocks_segment henv fault i (uploads env r.bucket v.image [] v.pending) 0 r.bucket
      rw [hput] at hi
      exact hi
    cases res with
    | error e =>
        refine ⟨?_, ha.congr rfl rfl rfl⟩
        simpa [Except.isOk, Except.toBool] using hst
    | ok u =>
        obtain ⟨events, hevents, hall⟩ := encodeDeltas_eq henv (v.upgraded env)
        simp only [hevents]
        split
        · refine ⟨?_, ha.congr rfl rfl rfl⟩
          simpa [Except.isOk, Except.toBool] using hst
        · rcases commitAppends_exec_cases
              { stream := vol, expected := expected v.tail, fenceToken := some v.token,
                events := events } false stamps r.store with ⟨e, he⟩ | ⟨info, σ₁, happ, he⟩
          · have hexec : (Call.appendWithToken v.vol v.token (expected v.tail) events false
                stamps : Call D S).exec r.store = (.error e, r.store) := by
              rw [ha.vol_eq]
              exact he
            simp only [hexec]
            refine ⟨?_, ha.congr rfl rfl rfl⟩
            simpa [Except.isOk, Except.toBool] using hst
          · have hexec : (Call.appendWithToken v.vol v.token (expected v.tail) events false
                stamps : Call D S).exec r.store =
                  (.ok (.infos [info]), σ₁.put .seq (seqOf r.store + events.length)) := by
              rw [ha.vol_eq]
              exact he
            simp only [hexec]
            obtain ⟨hlog, hsnap, htail⟩ := h.log.append happ rfl rfl hall
            exact ⟨hst.frame hlog hsnap le_rfl fun _ _ => rfl, ha.vol_eq, .inr htail.symm⟩

end Stored

/-! ## Checkpoints -/

/-- An upload of a segment leaves the store and the objects at earlier draws.  When it
succeeds, the bucket holds the segment. -/
theorem putSegment_cases (henv : env.Lawful vol) (segment : Segment) (fault : Option Fault)
    (r : Remote D S B) :
    let out := putSegment env vol segment fault r
    (out.2.store = r.store ∧ out.2.draws = r.draws + 1 ∧
      ∀ i, i < r.draws →
        out.2.bucket (env.segmentPath vol i) = r.bucket (env.segmentPath vol i)) ∧
    ∀ path, out.1 = .ok path → Held env vol out.2 path segment := by
  obtain ⟨object, henc, hdec⟩ := henv.segment segment
  have hearlier : ∀ i, i < r.draws →
      Function.update r.bucket (env.segmentPath vol r.draws) (some object)
        (env.segmentPath vol i) = r.bucket (env.segmentPath vol i) := by
    intro i hi
    refine Function.update_of_ne (fun heq => ?_) _ _
    have := henv.fresh _ _ heq
    omega
  simp only [putSegment, henc]
  split
  · exact ⟨⟨rfl, rfl, hearlier⟩, by simp⟩
  · split
    · exact ⟨⟨rfl, rfl, fun _ _ => rfl⟩, by simp⟩
    · refine ⟨⟨rfl, rfl, hearlier⟩, ?_⟩
      rintro path ⟨⟩
      exact ⟨r.draws, object, Nat.lt_succ_self _, rfl, Function.update_self .., hdec⟩

namespace Stored

variable {r r' : Remote D S B} {committed : List Delta}

/-- Publishing a manifest whose segments merge to the image of all deltas. -/
theorem publish (h : Stored env vol r committed) {m : Manifest} {state : S}
    (hdec : env.manifest.decode state = .ok m) {segments : List Segment}
    (hheld : List.Forall₂ (Held env vol r) m.segments segments) {readings : Nat → Int}
    (himage : segments.foldl FsImage.mergeSegment {} = FsImage.applied readings 0 {} committed)
    {entry : CompactionRecord} (hthrough : entry.throughVersion + 1 = committed.length)
    (ulid : String) :
    Stored env vol { r with store := published r.store vol entry state ulid } committed := by
  have hsnap := snapshotAt_published entry state ulid h.log.numbered
  refine ⟨h.log.publish state ulid hthrough, m, segments, readings, ?_, hheld, ?_⟩
  · rw [latestManifest_eq, hsnap]
    exact hdec
  · rw [covered, hsnap]
    dsimp only [Option.elim_some]
    rw [hthrough, List.take_length]
    exact himage

/-- Publishing a manifest, also with a fault. -/
theorem publishManifest [Payload D] (h : Stored env vol r committed) (henv : env.Lawful vol)
    {m : Manifest} {segments : List Segment}
    (hheld : List.Forall₂ (Held env vol r) m.segments segments) {readings : Nat → Int}
    (himage : segments.foldl FsImage.mergeSegment {} = FsImage.applied readings 0 {} committed)
    {entry : CompactionRecord} (hthrough : entry.throughVersion + 1 = committed.length)
    (ulid : String) (fault : Option Fault) :
    let out := publishManifest env vol entry m ulid fault r
    Stored env vol out.2 committed ∧
      tailVersion out.2.store vol = tailVersion r.store vol := by
  obtain ⟨state, henc, hdec⟩ := henv.manifest m
  have hst := h.publish hdec hheld himage hthrough ulid
  have htail : tailVersion (published r.store vol entry state ulid) vol =
      tailVersion r.store vol :=
    tailVersion_congr (get_published_of_ne (by simp) (by simp) (by simp))
  simp only [Fuse.publishManifest, henc, publishSnapshot_exec]
  split
  · exact ⟨hst, htail⟩
  · split
    · exact ⟨h, rfl⟩
    · exact ⟨hst, htail⟩

/-- Sealing a segment that leads from the image of the manifest to that of all
deltas. -/
theorem install [Payload D] (h : Stored env vol r committed) (henv : env.Lawful vol)
    {base : FsImage} {start : Nat} (hbase : loadBase env r vol = .ok (base, start))
    {segment : Segment} {readings : Nat → Int}
    (hseg : base.mergeSegment segment = FsImage.applied readings 0 {} committed) {through : Nat}
    (hthrough : through + 1 = committed.length) (nowMs : Int) (ulid : String)
    (fault : Option Fault) :
    let out := install env vol through segment nowMs ulid fault r
    Stored env vol out.2 committed ∧
      tailVersion out.2.store vol = tailVersion r.store vol := by
  obtain ⟨⟨hstore, hdraws, hearlier⟩, hput⟩ := putSegment_cases henv segment fault r
  have hst : Stored env vol (putSegment env vol segment fault r).2 committed :=
    h.congr (fun k _ => by rw [hstore]) (by rw [hstore]) (by omega) hearlier
  simp only [Fuse.install]
  cases hres : putSegment env vol segment fault r with
  | mk res r₁ =>
  rw [hres] at hstore hdraws hearlier hput hst
  dsimp only at hstore hdraws hearlier hput hst ⊢
  cases res with
  | error e => exact ⟨hst, by rw [hstore]⟩
  | ok path =>
      obtain ⟨m, segments, clock, hm, hheld, -⟩ := h.manifest
      have hsame := loadBase_merge henv hm hheld
      rw [hbase] at hsame
      cases hsame
      have hm₁ : latestManifest env r₁.store vol = .ok m := by rw [hstore, hm]
      simp only [hm₁]
      have hall : List.Forall₂ (Held env vol r₁) (m.segments ++ [path]) (segments ++ [segment]) :=
        List.rel_append (hheld.imp fun _ _ hs => hs.mono (by omega) hearlier)
          (.cons (hput path rfl) .nil)
      obtain ⟨hst', htail⟩ := hst.publishManifest henv (m := { segments := m.segments ++ [path] })
        hall (by rw [List.foldl_append]; exact hseg)
        (show (record vol through nowMs).throughVersion + 1 = _ from hthrough) ulid fault
      rw [hstore] at htail
      split
      · next heq => rw [heq] at hst' htail; exact ⟨hst', htail⟩
      · next heq => rw [heq] at hst' htail; exact ⟨hst', htail⟩

/-- A checkpoint commits, and then it seals the deltas that the manifest does not
cover, or leaves the manifest. -/
theorem checkpoint [Payload D] (h : Stored env vol r committed) (henv : env.Lawful vol) {v : Volume}
    (ha : Attached vol r v) (now : Int) (stamps : Nat → Nat → Stamp) (clock : Nat → Int)
    (ulid : String) (fault : Option Fault)
    (hn : ∀ d ∈ committed ++
      (if (v.commit env now stamps fault r).1.isOk then v.upgraded env else []),
        ¬ d.NestedRename) :
    let out := v.checkpoint env now stamps clock ulid fault r
    Stored env vol out.2.2 (committed ++
        if (v.commit env now stamps fault r).1.isOk then v.upgraded env else []) ∧
      Attached vol out.2.2 out.2.1 := by
  dsimp only
  obtain ⟨hst, hatt⟩ := h.commit henv ha now stamps fault
  generalize (if (v.commit env now stamps fault r).1.isOk then v.upgraded env else []) = more
    at hst hn ⊢
  rw [Volume.checkpoint]
  cases hcommit : v.commit env now stamps fault r with
  | mk res rest =>
  obtain ⟨v₁, r₁⟩ := rest
  rw [hcommit] at hst hatt
  dsimp only at hst hatt ⊢
  cases res with
  | error e => exact ⟨hst, hatt⟩
  | ok u =>
      dsimp only
      cases htail : v₁.tail with
      | none => exact ⟨hst, hatt⟩
      | some through =>
          obtain ⟨before, hbase⟩ := hst.loadBase_eq henv
          obtain ⟨events, hevents, hreads, -⟩ := hst.log.read
          simp only [hatt.vol_eq, hbase, fold, hevents, Except.map]
          obtain ⟨hsound, hlive⟩ := DeltaImage.replayEvent_foldl clock hreads
            (.start (FsImage.applied before 0 {} ((committed ++ more).take (covered r₁.store vol))))
            fun d hd => hn d (List.mem_of_mem_drop hd)
          have hseg := hsound.mergeSegment_eq
          rw [hlive, applied_two_clocks _ _ _ (List.length_take_of_le hst.log.covered_le),
            List.take_append_drop] at hseg
          have hthrough : through + 1 = (committed ++ more).length := by
            have hnext := hst.log.next
            rcases hatt.tail with hnone | hsome
            · rw [hnone] at htail
              cases htail
            · rw [htail] at hsome
              rw [nextVersion, ← hsome] at hnext
              exact hnext
          obtain ⟨hst', htail'⟩ := hst.install henv hbase hseg hthrough now ulid fault
          have hatt' : ∀ r₂ : Remote D S B, tailVersion r₂.store vol = tailVersion r₁.store vol →
              Attached vol r₂ v₁ :=
            fun r₂ heq => ⟨hatt.vol_eq, by rw [heq]; exact hatt.tail⟩
          split
          · next heq => rw [heq] at hst' htail'; exact ⟨hst', hatt' _ htail'⟩
          · next heq => rw [heq] at hst' htail'; exact ⟨hst', hatt' _ htail'⟩

end Stored

end

end Landslide.Fuse
