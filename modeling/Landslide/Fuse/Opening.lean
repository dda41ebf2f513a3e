import Landslide.Aside
import Landslide.Snapshots
import Landslide.Fuse.Following
import Landslide.Fuse.Shapes

/-!
# Opening a replica next to a mount

`Replica::open` of `landslide-fuse/src/replica.rs` is a sync of an empty replica.  It
reads the records of the volume stream itself, and goes by the first of them: if that
is version 0 it replays them, checkpoint or not, and if it is a later one it starts at
the checkpoint.  A mount always starts at the checkpoint, and reads on in the history
of the volume, its parents' events included.

The two agree where the records that are left allow both (`Bootable`): whatever was
done to the store, a replica then opens and shows the image of a mount, but for the
readings of the clock (`open_agrees_with_mount`).  A fork has no version 0 of its own,
and a purge that is held back by a live fork leaves version 0 and takes later ones
(`open_differs_from_mount`).
-/

namespace Landslide.Fuse

open Std TxnKv

/-! ## Opening -/

section

variable {D S B : Type} (env : Outside D S B) (vol : String)

/-- Opens a replica on a store and a bucket that stay as they are. -/
def Replica.open (clock : Nat → Int) (r : Remote D S B) : Except Error Replica :=
  match ({} : Replica).sync env vol (fun _ => r) clock 0 with
  | (.error e, _, _) => .error e
  | (.ok (), replica, _) => .ok replica

end

section

variable {D S B : Type} {env : Outside D S B} {vol : String}

/-- Reads that all see one state. -/
theorem follow_const {α : Type} (σ : Db D S) (p : KvM D S Error α) : ∀ t,
    ∃ t', p.follow (fun _ => σ) t = (p.eval σ, t') := by
  induction p with
  | pure a => exact fun t => ⟨t, rfl⟩
  | throw e => exact fun t => ⟨t, rfl⟩
  | get k next ih => exact fun t => ih _ (t + 1)
  | scan range next ih => exact fun t => ih _ (t + 1)
  | put k x next ih => exact ih
  | delete k next ih => exact ih
  | unmark k next ih => exact ih

theorem readStore_const {α : Type} (r : Remote D S B) (p : KvM D S Error α) (t : Nat) :
    ∃ t', readStore (fun _ => r) p t = (p.eval r.store, t') :=
  follow_const r.store p t

theorem fetchSegments_const (env : Outside D S B) (r : Remote D S B) :
    ∀ (paths : List String) (image : FsImage) (t : Nat),
    ∃ t', fetchSegments env (fun _ => r) image paths t =
      (mergeSegments env r.bucket image paths, t')
  | [], _, t => ⟨t, rfl⟩
  | path :: paths, image, t => by
      rw [fetchSegments, mergeSegments]
      cases r.bucket (env.path path) with
      | none => exact ⟨t + 1, rfl⟩
      | some object =>
          dsimp only
          cases env.segment.decode object with
          | error e => exact ⟨t + 1, rfl⟩
          | ok segment => exact fetchSegments_const env r paths _ (t + 1)

theorem image_applyEvent (clock : Nat → Int) (events : List (Event D)) : ∀ replica : Replica,
    (events.foldl (Replica.applyEvent env clock) replica).image =
      events.foldl (replayEvent env clock) replica.image := by
  induction events with
  | nil => exact fun _ => rfl
  | cons e events ih => exact fun replica => ih _

/-- What a replica goes on from when it starts at the checkpoint: an image and the events
to apply to it. -/
def reloadSource (env : Outside D S B) (vol : String) (r : Remote D S B) :
    Except Error (FsImage × List (Event D)) :=
  match snapshotAt r.store vol with
  | none => .error (.invalidInput
      s!"volume {repr vol}: backlog pruned but no checkpoint to rebuild from")
  | some snap =>
      match loadSegments env r.bucket snap.state with
      | .error e => .error e
      | .ok image =>
          let start := snap.throughVersion + 1
          let events := eventsOf r.store vol start none
          match events.head?.filter (start < ·.version) with
          | some first =>
              .error (.invalidInput (s!"volume {repr vol}: deltas v{start}..v" ++
                s!"{first.version} pruned past the latest checkpoint " ++
                s!"(v{snap.throughVersion}); retry after the writer checkpoints"))
          | none => .ok (image, events)

/-- A replica that opens finds version 0, or nothing at all. -/
def opensWhole (vol : String) (r : Remote D S B) : Bool :=
  match (eventsOf r.store vol 0 none).head? with
  | some first => first.version == 0
  | none => (snapshotAt r.store vol).isNone

/-- What a replica replays when it opens. -/
def openSource (env : Outside D S B) (vol : String) (r : Remote D S B) :
    Except Error (FsImage × List (Event D)) :=
  if opensWhole vol r then .ok ({}, eventsOf r.store vol 0 none) else reloadSource env vol r

theorem reload_source (env : Outside D S B) (vol : String) (r : Remote D S B) (t : Nat) :
    ∃ res replica t', ({} : Replica).reload env vol (fun _ => r) t = (res, replica, t') ∧
      (res.map fun events => (replica.image, events)) = reloadSource env vol r := by
  obtain ⟨t₁, hlatest⟩ := readStore_const r (latestSnapshot vol) t
  rw [latestSnapshot_eval] at hlatest
  rw [Replica.reload, reloadSource, hlatest]
  cases snapshotAt r.store vol with
  | none => exact ⟨_, _, t₁, rfl, rfl⟩
  | some snap =>
      dsimp only
      rw [loadSegments]
      cases env.manifest.decode snap.state with
      | error e => exact ⟨_, _, t₁, rfl, rfl⟩
      | ok manifest =>
          dsimp only
          obtain ⟨t₂, hfetch⟩ := fetchSegments_const env r manifest.segments {} t₁
          rw [hfetch]
          cases mergeSegments env r.bucket {} manifest.segments with
          | error e => exact ⟨_, _, t₂, rfl, rfl⟩
          | ok image =>
              dsimp only
              obtain ⟨t₃, hrest⟩ := readStore_const r (readEvents vol (snap.throughVersion + 1) none) t₂
              rw [readEvents_eval] at hrest
              rw [hrest]
              dsimp only
              cases (eventsOf r.store vol (snap.throughVersion + 1) none).head?.filter
                  (fun first => decide (snap.throughVersion + 1 < first.version)) with
              | some first => exact ⟨_, _, t₃, rfl, rfl⟩
              | none => exact ⟨_, _, t₃, rfl, rfl⟩

/-- Opening a replica replays its source. -/
theorem open_source (env : Outside D S B) (vol : String) (clock : Nat → Int) (r : Remote D S B) :
    (Replica.open env vol clock r).map (·.image) =
      (openSource env vol r).map fun source => source.2.foldl (replayEvent env clock) source.1 := by
  obtain ⟨t₁, hread⟩ := readStore_const r (readEvents vol 0 none) 0
  rw [readEvents_eval] at hread
  have hgap : ∃ t₂, Replica.gap vol (fun _ => r) 0 (eventsOf r.store vol 0 none) t₁ =
      (.ok (!opensWhole vol r), t₂) := by
    rw [Replica.gap, opensWhole]
    cases (eventsOf r.store vol 0 none).head? with
    | some first =>
        refine ⟨t₁, ?_⟩
        by_cases hzero : first.version = 0
        · simp [hzero]
        · simp [hzero, Nat.pos_of_ne_zero hzero]
    | none =>
        obtain ⟨t₂, hlatest⟩ := readStore_const r (latestSnapshot vol) t₁
        rw [latestSnapshot_eval] at hlatest
        simp only [hlatest]
        cases snapshotAt r.store vol with
        | none => exact ⟨t₂, rfl⟩
        | some snap => exact ⟨t₂, by simp⟩
  obtain ⟨t₂, hgap⟩ := hgap
  have hnext : ({} : Replica).next = 0 := rfl
  simp only [Replica.open, Replica.sync, hnext, hread, hgap]
  rw [openSource]
  cases opensWhole vol r with
  | true =>
      rw [if_pos rfl]
      exact congrArg Except.ok (image_applyEvent clock _ _)
  | false =>
      rw [if_neg (by simp)]
      obtain ⟨res, replica, t₃, hreload, hsource⟩ := reload_source env vol r t₂
      rw [Bool.not_false]
      dsimp only
      rw [hreload, ← hsource]
      cases res with
      | error e => rfl
      | ok events => exact congrArg Except.ok (image_applyEvent clock _ _)

/-- Opening succeeds where there is a source. -/
theorem open_of_source {r : Remote D S B} {base : FsImage} {events : List (Event D)}
    (h : openSource env vol r = .ok (base, events)) (clock : Nat → Int) :
    ∃ replica, Replica.open env vol clock r = .ok replica ∧
      replica.image = events.foldl (replayEvent env clock) base := by
  have hopen := open_source env vol clock r
  rw [h] at hopen
  cases hout : Replica.open env vol clock r with
  | error e =>
      rw [hout] at hopen
      cases hopen
  | ok replica =>
      rw [hout] at hopen
      exact ⟨replica, rfl, Except.ok.inj hopen⟩

/-- A replica that finds version 0, or nothing at all, replays what it finds. -/
theorem openSource_whole (env : Outside D S B) {r : Remote D S B}
    (h : (∃ first, (eventsOf r.store vol 0 none).head? = some first ∧ first.version = 0) ∨
      eventsOf r.store vol 0 none = [] ∧ snapshotAt r.store vol = none) :
    openSource env vol r = .ok ({}, eventsOf r.store vol 0 none) := by
  have hwhole : opensWhole vol r = true := by
    rw [opensWhole]
    rcases h with ⟨first, hfirst, hzero⟩ | ⟨hnil, hsnap⟩
    · rw [hfirst]
      simp [hzero]
    · rw [hnil, hsnap]
      rfl
  rw [openSource, if_pos hwhole]

/-- A replica that does not find version 0 starts at the checkpoint. -/
theorem openSource_reloads {r : Remote D S B} {snap : SnapshotRecord S}
    {base : FsImage} (hsnap : snapshotAt r.store vol = some snap)
    (hbase : loadSegments env r.bucket snap.state = .ok base)
    (hfirst : ∀ first, (eventsOf r.store vol 0 none).head? = some first → 0 < first.version)
    (hnext : ∀ first, (eventsOf r.store vol (snap.throughVersion + 1) none).head? = some first →
      first.version ≤ snap.throughVersion + 1) :
    openSource env vol r = .ok (base, eventsOf r.store vol (snap.throughVersion + 1) none) := by
  have hwhole : opensWhole vol r = false := by
    rw [opensWhole]
    cases hhead : (eventsOf r.store vol 0 none).head? with
    | some first => simpa using (hfirst first hhead).ne'
    | none => simp [hsnap]
  -- nothing is missing after the checkpoint
  have hcut : (eventsOf r.store vol (snap.throughVersion + 1) none).head?.filter
      (fun first => decide (snap.throughVersion + 1 < first.version)) = none := by
    cases hhead : (eventsOf r.store vol (snap.throughVersion + 1) none).head? with
    | none => rfl
    | some first => simp [hnext first hhead]
  simp only [openSource, hwhole, reloadSource, hsnap, hbase, hcut]
  rfl

end

/-! ## What happens to a store with a volume in it -/

/-- Something that happens to a store and a bucket with a volume in them. -/
inductive Deed (D S B : Type) where
  /-- An operation of the mounted handle. -/
  | of (op : Op)
  /-- A call of any client of the store. -/
  | call (c : Call D S)
  /-- An object that somebody else puts. -/
  | put (path : String) (object : B)

section

variable {D S B : Type} (env : Outside D S B) (vol : String)

/-- Only its handle appends to a volume, publishes its snapshots and puts its segments.
Everybody may fork it, or make it a fork, and prune, roll back and delete it. -/
def Deed.Admitted : Deed D S B → Prop
  | .of _ => True
  | .call c => ¬ c.AppendsTo vol ∧ ¬ c.PublishesOf vol
  | .put path _ => ∀ i, path ≠ env.segmentPath vol i

def State.act [Payload D] (st : State D S B) : Deed D S B → State D S B
  | .of op => step env vol st op
  | .call c => st.call c
  | .put path object =>
      let bucket := Function.update st.remote.bucket path (some object)
      { st with remote := { st.remote with bucket := bucket } }

/-- The state after some deeds, from an empty store on. -/
def lived [Payload D] (deeds : List (Deed D S B)) : State D S B :=
  deeds.foldl (State.act env vol) {}

/-! ## What the records allow -/

/-- A stream shows a version of its own. -/
def Shown (σ : Db D S) (stream : String) (v : Nat) : Prop :=
  ∃ e : Envelope D, σ.get (.record stream v) = some e ∧
    (guardsOf σ stream).shows v e.seq = true

instance (σ : Db D S) (stream : String) (v : Nat) : Decidable (Shown σ stream v) :=
  decidable_of_iff
    ((σ.get (.record stream v)).any (fun e => (guardsOf σ stream).shows v e.seq) = true)
    (Option.any_eq_true _ _)

/-- The first `n` versions of a volume are all there, and none renames between nested
paths. -/
structure Unpruned (σ : Db D S) (n : Nat) : Prop where
  unmarked : Unmarked σ vol
  floor : ∀ v, v < n → floorOf σ vol ≤ v
  records : ∀ v, v < n → ∃ e : Envelope D, σ.get (.record vol v) = some e ∧
    ∀ d, deltaOf env (Event.fromParts e) = .ok d → ¬ d.NestedRename

/-- The records that are left allow a replica to start as a mount does. -/
inductive Bootable (σ : Db D S) : Prop where
  /-- Without a checkpoint, both replay the stream. -/
  | replayed (hcovered : covered σ vol = 0) (hfork : σ.get (.fork vol) = none)
      (hfirst : ∀ v, Shown σ vol v → Shown σ vol 0)
  /-- What the checkpoint covers is still there, and the replica replays it. -/
  | kept (hcovered : 0 < covered σ vol) (hkept : Unpruned env vol σ (covered σ vol))
  /-- The first version is not there.  Both start at the checkpoint, which covers all
  that is inherited, and no version after it is missing. -/
  | reloaded (hcovered : 0 < covered σ vol) (hfirst : ¬ Shown σ vol 0)
      (hfork : ∀ f, σ.get (.fork vol) = some f → f.atVersion < covered σ vol)
      (hnext : ∀ v, covered σ vol ≤ v → Shown σ vol v → Shown σ vol (covered σ vol))

end

/-- Two images that the same deltas make of one image, at some readings of the clock. -/
def FsImage.SameButClock (image image' : FsImage) : Prop :=
  ∃ base deltas readings readings',
    image = applied readings 0 base deltas ∧ image' = applied readings' 0 base deltas

section

variable {D S B : Type} {env : Outside D S B} {vol : String}

/-! ## Replays at two readings of the clock -/

/-- Images that differ only by the clock have the same paths. -/
theorem FsImage.SameButClock.shapes {a b : FsImage} (h : a.SameButClock b) :
    a.shapes = b.shapes := by
  have happlied : ∀ (ds : List Delta) (readings readings' : Nat → Int) (n : Nat) (x y : FsImage),
      x.shapes = y.shapes → (applied readings n x ds).shapes = (applied readings' n y ds).shapes := by
    intro ds readings readings'
    induction ds with
    | nil => exact fun _ _ _ h => h
    | cons d ds ih => exact fun n x y h => ih _ _ _ (shapes_apply_congr h _ _ d)
  obtain ⟨base, ds, readings, readings', rfl, rfl⟩ := h
  exact happlied ds _ _ 0 base base rfl

/-- The events below a version replayed with one clock, and the others with another. -/
theorem replayEvent_two_clocks (clock clock' : Nat → Int) {n : Nat} {events events' : List (Event D)}
    (hlt : ∀ e ∈ events, e.version < n) (hge : ∀ e ∈ events', n ≤ e.version) (base : FsImage) :
    events'.foldl (replayEvent env clock') (events.foldl (replayEvent env clock) base) =
      (events ++ events').foldl
        (replayEvent env fun v => if v < n then clock v else clock' v) base := by
  have hfirst : ∀ image, events.foldl (replayEvent env fun v => if v < n then clock v else clock' v)
      image = events.foldl (replayEvent env clock) image := by
    intro image
    refine List.foldl_ext _ _ _ fun image e he => ?_
    simp only [replayEvent, if_pos (hlt e he)]
  have hlast : ∀ image, events'.foldl (replayEvent env fun v => if v < n then clock v else clock' v)
      image = events'.foldl (replayEvent env clock') image := by
    intro image
    refine List.foldl_ext _ _ _ fun image e he => ?_
    simp only [replayEvent, if_neg (Nat.not_lt.mpr (hge e he))]
  rw [List.foldl_append, hfirst, hlast]

/-! ## Events of a stream -/

/-- A stream without marks shows what its floor lets through. -/
theorem shows_of_unmarked {σ : Db D S} (h : Unmarked σ vol) (v seq : Nat) :
    (guardsOf σ vol).shows v seq = true ↔ floorOf σ vol ≤ v := by
  rw [shows_guardsOf, windowsOf_eq_nil h.windows, belowCeiling, h.deleted]
  simp

theorem version_eventsOf {σ : Db D S} (hver : Versioned σ) {lo : Nat} {hi : Option Nat}
    {e : Event D} (he : e ∈ eventsOf σ vol lo hi) :
    lo ≤ e.version ∧ hi.all (e.version < ·) = true := by
  obtain ⟨v, env, hget, -, hlo, hhi, rfl⟩ := (mem_eventsOf_guards hver).mp he
  rw [show (Event.fromParts env).version = v from hver vol v env hget]
  exact ⟨hlo, hhi⟩

/-- The events of a stream, cut at a version. -/
theorem eventsOf_cut {σ : Db D S} (hver : Versioned σ) (vol : String) (n : Nat) :
    (eventsOf σ vol 0 none = eventsOf σ vol 0 (some n) ++ eventsOf σ vol n none) ∧
      (∀ e ∈ eventsOf σ vol 0 (some n), e.version < n) ∧
      ∀ e ∈ eventsOf σ vol n none, n ≤ e.version := by
  have hlt : ∀ e ∈ eventsOf σ vol 0 (some n), e.version < n := fun e he => by
    simpa using (version_eventsOf hver he).2
  have hge : ∀ e ∈ eventsOf σ vol n none, n ≤ e.version :=
    fun e he => (version_eventsOf hver he).1
  refine ⟨?_, hlt, hge⟩
  refine (eventsOf_sorted (hver vol) 0 none).eq_of_mem_iff (List.pairwise_append.mpr
    ⟨eventsOf_sorted (hver vol) 0 _, eventsOf_sorted (hver vol) n _, fun e he e' he' => ?_⟩)
    fun e => ?_
  · exact (hlt e he).trans_le (hge e' he')
  · rw [List.mem_append, mem_eventsOf_guards hver, mem_eventsOf_guards hver,
      mem_eventsOf_guards hver]
    constructor
    · rintro ⟨v, env, hget, hshow, -, -, he⟩
      by_cases hv : v < n
      · exact .inl ⟨v, env, hget, hshow, Nat.zero_le v, by simpa using hv, he⟩
      · exact .inr ⟨v, env, hget, hshow, by omega, rfl, he⟩
    · rintro (⟨v, env, hget, hshow, -, -, he⟩ | ⟨v, env, hget, hshow, -, -, he⟩)
      · exact ⟨v, env, hget, hshow, Nat.zero_le v, rfl, he⟩
      · exact ⟨v, env, hget, hshow, Nat.zero_le v, rfl, he⟩

/-- The events of a stream with no record from `n` on. -/
theorem eventsOf_all {σ : Db D S} (hver : Versioned σ) {n : Nat}
    (h : ∀ u (e : Envelope D), σ.get (.record vol u) = some e → u < n) :
    eventsOf σ vol 0 none = eventsOf σ vol 0 (some n) := by
  have hnone : eventsOf σ vol n none = [] := by
    refine List.eq_nil_iff_forall_not_mem.mpr fun e he => ?_
    obtain ⟨v, env, hget, -, hv, -, -⟩ := (mem_eventsOf_guards hver).mp he
    exact absurd (h v env hget) (by omega)
  rw [(eventsOf_cut hver vol n).1, hnone, List.append_nil]

/-- The first versions of a volume show the same events as long as they are there. -/
theorem Unpruned.eventsOf_eq {σ σ' : Db D S} {n : Nat} (h : Unpruned env vol σ n)
    (h' : Unpruned env vol σ' n) (hver : Versioned σ) (hver' : Versioned σ')
    (hrec : ∀ v (e : Envelope D), v < n → σ'.get (.record vol v) = some e →
      σ.get (.record vol v) = some e) :
    eventsOf σ' vol 0 (some n) = eventsOf σ vol 0 (some n) := by
  refine eventsOf_ext hver hver' (fun v e hv => ?_) 0
  have hv : v < n := by simpa using hv
  rw [shows_of_unmarked h.unmarked, shows_of_unmarked h'.unmarked]
  constructor
  · rintro ⟨hget, -⟩
    exact ⟨hrec v e hv hget, h.floor v hv⟩
  · rintro ⟨hget, -⟩
    obtain ⟨e', he', -⟩ := h'.records v hv
    have hsame := hrec v e' hv he'
    rw [hget] at hsame
    cases hsame
    exact ⟨he', h'.floor v hv⟩

/-! ## What holds of a store with a volume in it -/

/-- The segments of the latest manifest are held.  If all that it covers is still there,
they merge to what a replay of it gives. -/
structure Tended (env : Outside D S B) (vol : String) (r : Remote D S B) : Prop where
  rooted : Rooted r.store
  chained : Chained r.store
  numbered : Numbered r.store vol
  reaches : Unmarked r.store vol → covered r.store vol ≤ nextVersion r.store vol
  manifest : ∃ m segments, latestManifest env r.store vol = .ok m ∧
    List.Forall₂ (Held env vol r) m.segments segments ∧
    (Unpruned env vol r.store (covered r.store vol) → ∃ readings,
      segments.foldl FsImage.mergeSegment {} =
        (eventsOf r.store vol 0 (some (covered r.store vol))).foldl (replayEvent env readings) {})

/-- A handle knows the last version of its stream, or none, as long as the stream is
unmarked. -/
structure Knows (vol : String) (σ : Db D S) (v : Volume) : Prop where
  vol_eq : v.vol = vol
  tail : Unmarked σ vol → ∀ w, v.tail = some w → covered σ vol ≤ w + 1 ∧ w < nextVersion σ vol ∧
    ∀ u (e : Envelope D), σ.get (.record vol u) = some e → u ≤ w

theorem Tended.empty (env : Outside D S B) (vol : String) : Tended env vol ({} : Remote D S B) where
  rooted := .empty
  chained := .empty
  numbered := .empty vol
  reaches _ := Nat.zero_le _
  manifest := ⟨{}, [], rfl, .nil, fun _ => ⟨fun _ => 0, rfl⟩⟩

/-- What was there is still there. -/
theorem Unpruned.of_aside {σ σ' : Db D S} {n : Nat} (h : Unpruned env vol σ' n)
    (ha : Aside vol σ σ') : Unpruned env vol σ n where
  unmarked := ha.unmarked h.unmarked
  floor v hv := ha.floor.trans (h.floor v hv)
  records v hv := by
    obtain ⟨e, he, hn⟩ := h.records v hv
    exact ⟨e, ha.records v e he, hn⟩

/-- Calls that go past the volume, and objects that are not its segments. -/
theorem Tended.aside {r r' : Remote D S B} (h : Tended env vol r)
    (ha : Aside vol r.store r'.store) (hrooted : Rooted r'.store) (hchained : Chained r'.store)
    (hdraws : r.draws ≤ r'.draws)
    (hbucket : ∀ i, i < r.draws →
      r'.bucket (env.segmentPath vol i) = r.bucket (env.segmentPath vol i)) :
    Tended env vol r' := by
  have hcov : covered r'.store vol = covered r.store vol := covered_congr ha.snaps
  obtain ⟨m, segments, hm, hheld, hmerge⟩ := h.manifest
  refine ⟨hrooted, hchained, h.numbered.congr ha.snaps ha.seq, fun hp => ?_, m, segments, ?_,
    hheld.imp fun _ _ hs => hs.mono hdraws hbucket, fun hkept => ?_⟩
  · rw [hcov]
    exact (h.reaches (ha.unmarked hp)).trans ha.next
  · rw [latestManifest_eq, snapshotAt_congr ha.snaps, ← latestManifest_eq]
    exact hm
  · rw [hcov] at hkept ⊢
    have hbefore := hkept.of_aside ha
    obtain ⟨readings, hreadings⟩ := hmerge hbefore
    refine ⟨readings, ?_⟩
    rw [hbefore.eventsOf_eq hkept h.rooted.versioned hrooted.versioned
      fun v e _ => ha.records v e]
    exact hreadings

theorem Knows.aside {σ σ' : Db D S} {v : Volume} (h : Knows vol σ v) (ha : Aside vol σ σ') :
    Knows vol σ' v where
  vol_eq := h.vol_eq
  tail hp w hw := by
    obtain ⟨hcov, hlt, hle⟩ := h.tail (ha.unmarked hp) w hw
    rw [covered_congr ha.snaps]
    exact ⟨hcov, hlt.trans_le ha.next, fun u e he => hle u e (ha.records u e he)⟩

/-- A handle with the same tail. -/
theorem Knows.congr {σ : Db D S} {v v' : Volume} (h : Knows vol σ v) (hvol : v'.vol = v.vol)
    (htail : v'.tail = v.tail) : Knows vol σ v' where
  vol_eq := hvol.trans h.vol_eq
  tail hp w hw := h.tail hp w (htail ▸ hw)

/-! ## Mounts -/

theorem aside_fencedOff (env : Outside D S B) (vol : String) (r : Remote D S B) :
    Aside vol r.store (fencedOff env vol r).store := by
  have heff : (Call.fence vol (some (env.ulid r.draws)) : Call D S).Effect r.store []
      (fencedOff env vol r).store := rfl
  exact heff.aside id id

theorem Tended.fencedOff {r : Remote D S B} (h : Tended env vol r) :
    Tended env vol (fencedOff env vol r) := by
  have heff : (Call.fence vol (some (env.ulid r.draws)) : Call D S).Effect r.store []
      (Fuse.fencedOff env vol r).store := rfl
  exact h.aside (heff.aside id id) (heff.rooted h.rooted) (heff.chained h.chained)
    (Nat.le_succ _) fun _ _ => rfl

theorem Tended.loadBase {r : Remote D S B} (h : Tended env vol r) (henv : env.Lawful vol) :
    ∃ base, loadBase env r vol = .ok (base, covered r.store vol) ∧
      (Unpruned env vol r.store (covered r.store vol) → ∃ readings, base =
        (eventsOf r.store vol 0 (some (covered r.store vol))).foldl (replayEvent env readings) {}) := by
  obtain ⟨m, segments, hm, hheld, hmerge⟩ := h.manifest
  exact ⟨_, Stored.loadBase_merge henv hm hheld, hmerge⟩

/-- A mount loads the segments and replays the history from there on. -/
theorem Tended.mount [Payload D] {r : Remote D S B} (h : Tended env vol r) (clock : Nat → Int)
    {base : FsImage}
    (hbase : Fuse.loadBase env r vol = .ok (base, covered r.store vol)) :
    ∃ v events, mount env vol clock r = (.ok v, Fuse.fencedOff env vol r) ∧
      readHistory r.store vol (.included (covered r.store vol)) .unbounded = .ok events ∧
      v.vol = vol ∧ v.image = events.foldl (replayEvent env clock) base ∧
      v.tail = events.getLast?.map (·.version) := by
  obtain ⟨infos, hfence⟩ := fence_exec vol (some (env.ulid r.draws)) r.store
  obtain ⟨events, hread⟩ := h.chained.readHistory_ok vol (.included (covered r.store vol)) .unbounded
  -- the fence changes nothing that is read
  have hbase' : Fuse.loadBase env (Fuse.fencedOff env vol r) vol = .ok (base, covered r.store vol) := by
    have hsnaps := (aside_fencedOff env vol r).snaps
    rw [Fuse.loadBase, latestSnapshot_eval] at hbase ⊢
    rw [snapshotAt_congr hsnaps]
    exact hbase
  have hread' : readHistory (Fuse.fencedOff env vol r).store vol (.included (covered r.store vol))
      .unbounded = .ok events := by
    rw [readHistory_congr fun k hk => get_fencedOff ?_]
    · exact hread
    · rintro rfl
      exact hk
  rw [Fuse.fencedOff] at hbase' hread'
  simp only [Fuse.mount, hfence, hbase', fold, hread', Except.map]
  exact ⟨_, events, rfl, hread, rfl, rfl, rfl⟩

/-- The last event of a sorted list has the highest version. -/
theorem version_le_getLast {events : List (Event D)}
    (h : events.Pairwise fun e e' => e.version < e'.version) {w : Nat}
    (hw : events.getLast?.map (·.version) = some w) :
    (∃ e ∈ events, e.version = w) ∧ ∀ e ∈ events, e.version ≤ w := by
  cases hlast : events.getLast? with
  | none =>
      rw [hlast] at hw
      cases hw
  | some last =>
      rw [hlast] at hw
      cases hw
      obtain ⟨init, rfl⟩ := List.getLast?_eq_some_iff.mp hlast
      refine ⟨⟨last, by simp, rfl⟩, fun e he => ?_⟩
      rcases List.mem_append.mp he with he | he
      · exact ((List.pairwise_append.mp h).2.2 e he last (List.mem_singleton_self _)).le
      · rw [List.mem_singleton.mp he]

/-- The handle of a mount knows the last version. -/
theorem Tended.knows_mount {r : Remote D S B} (h : Tended env vol r) {v : Volume} {events : List (Event D)}
    (hread : readHistory r.store vol (.included (covered r.store vol)) .unbounded = .ok events)
    (hvol : v.vol = vol) (htail : v.tail = events.getLast?.map (·.version)) :
    Knows vol r.store v where
  vol_eq := hvol
  tail hp w hw := by
    rw [readHistory_of_not_fork hp.fork] at hread
    cases hread
    have hver := h.rooted.versioned
    rw [htail] at hw
    obtain ⟨⟨e, he, hew⟩, hle⟩ := version_le_getLast (eventsOf_sorted (hver vol) _ none) hw
    obtain ⟨u, env', hget, hshow, hcov, -, rfl⟩ := (mem_eventsOf_guards hver).mp he
    obtain rfl : u = w := (hver vol u env' hget).symm.trans hew
    rw [shows_of_unmarked hp] at hshow
    refine ⟨by omega, h.rooted.below vol u env' hget, fun x e' he' => ?_⟩
    -- below the checkpoint and the floor there is nothing past the last event
    by_cases hx : covered r.store vol ≤ x ∧ floorOf r.store vol ≤ x
    · have hmem : Event.fromParts e' ∈ eventsOf r.store vol (covered r.store vol) none :=
        (mem_eventsOf_guards hver).mpr
          ⟨x, e', he', (shows_of_unmarked hp x e'.seq).mpr hx.2, hx.1, rfl, rfl⟩
      rw [← show (Event.fromParts e').version = x from hver vol x e' he']
      exact hle _ hmem
    · omega

/-! ## Commits -/

/-- An append of the handle. -/
theorem Tended.append {r : Remote D S B} (h : Tended env vol r) {req : AppendReq D}
    {info : CommitInfo} {σ₁ : Db D S}
    (happ : Appended req (seqOf r.store) r.store info σ₁) (hs : req.stream = vol)
    (hfrom : req.fromVersion = none) {bucket : Bucket B}
    (hbucket : ∀ i, bucket (env.segmentPath vol i) = r.bucket (env.segmentPath vol i)) :
    let r' : Remote D S B :=
      { r with bucket := bucket, store := σ₁.put .seq (seqOf r.store + req.events.length) }
    Tended env vol r' ∧ ∀ v : Volume, v.vol = vol → v.tail = some info.lastVersion →
      Knows vol r'.store v := by
  intro r'
  subst hs
  obtain ⟨hfirst, htail⟩ := happ.nextVersion_eq hfrom
  have hlast := happ.last
  have hother : ∀ k : Key, k ≠ .seq → k ≠ .tail req.stream →
      (∀ v, info.firstVersion ≤ v → k ≠ .record req.stream v) →
      (∀ t v, k ≠ .ts req.stream t v) → r'.store.get k = r.store.get k :=
    fun k h₁ h₂ h₃ h₄ =>
      (Store.get_put_of_ne _ _ h₁).trans (happ.frame k h₂ (fun v hv _ => h₃ v hv) h₄)
  have hrooted : Rooted r'.store := (happ.rooted h.rooted).put _ (by simp) (by simp) (by simp)
  have hsnaps : ∀ m, r'.store.get (.snap req.stream m) = r.store.get (.snap req.stream m) :=
    fun m => hother _ (by simp) (by simp) (by simp) (by simp)
  have hcov : covered r'.store req.stream = covered r.store req.stream := covered_congr hsnaps
  have hunmarked : Unmarked r'.store req.stream → Unmarked r.store req.stream := by
    intro hp
    refine ⟨?_, ?_, fun v => ?_⟩
    · rw [← hother (.fork req.stream) (by simp) (by simp) (by simp) (by simp)]
      exact hp.fork
    · rw [← hother (.deleted req.stream) (by simp) (by simp) (by simp) (by simp)]
      exact hp.deleted
    · rw [← hother (.rollback req.stream v) (by simp) (by simp) (by simp) (by simp)]
      exact hp.windows v
  have htail' : r'.store.get (.tail req.stream) = σ₁.get (.tail req.stream) :=
    Store.get_put_of_ne _ _ (by simp)
  have hnext : nextVersion r'.store req.stream = info.lastVersion + 1 := by
    rw [nextVersion_congr htail', nextVersion, htail]
    rfl
  have hrec : ∀ v, v < info.firstVersion →
      r'.store.get (.record req.stream v) = r.store.get (.record req.stream v) := by
    intro v hv
    refine hother _ (by simp) (by simp) (fun x hx heq => ?_) (by simp)
    cases heq
    omega
  have hfloor : floorOf r'.store req.stream = floorOf r.store req.stream := by
    rw [floorOf, floorOf, hother _ (by simp) (by simp) (by simp) (by simp)]
  refine ⟨⟨hrooted, ?_, ?_, fun hp => ?_, ?_⟩, fun v hvol hv => ⟨hvol, fun hp w hw => ?_⟩⟩
  · refine h.chained.of_frame (fun s => hother _ (by simp) (by simp) (by simp) (by simp))
      (fun p c => hother _ (by simp) (by simp) (by simp) (by simp)) fun s hs => ?_
    rw [show r'.store.get (.tail s) = σ₁.get (.tail s) from Store.get_put_of_ne _ _ (by simp)]
    exact happ.tail_isSome hs
  · refine h.numbered.congr hsnaps ?_
    rw [seqOf, seqOf, Store.get_put_self]
    exact Nat.le_add_right _ _
  · rw [hcov, hnext]
    have := h.reaches (hunmarked hp)
    omega
  · obtain ⟨m, segments, hm, hheld, hmerge⟩ := h.manifest
    refine ⟨m, segments, ?_, hheld.imp fun _ _ hs => hs.mono le_rfl fun i _ => hbucket i,
      fun hkept => ?_⟩
    · rw [latestManifest_eq, snapshotAt_congr hsnaps, ← latestManifest_eq]
      exact hm
    · rw [hcov] at hkept ⊢
      have hreach := h.reaches (hunmarked hkept.unmarked)
      have hbefore : Unpruned env req.stream r.store (covered r.store req.stream) := by
        refine ⟨hunmarked hkept.unmarked, fun v hv => hfloor ▸ hkept.floor v hv, fun v hv => ?_⟩
        rw [← hrec v (by omega)]
        exact hkept.records v hv
      obtain ⟨readings, hreadings⟩ := hmerge hbefore
      refine ⟨readings, ?_⟩
      rw [hbefore.eventsOf_eq hkept h.rooted.versioned hrooted.versioned fun v e hv he => ?_]
      · exact hreadings
      · rw [← hrec v (by omega)]
        exact he
  · rw [hv] at hw
    cases hw
    rw [hcov, hnext]
    have := h.reaches (hunmarked hp)
    refine ⟨by omega, Nat.lt_succ_self _, fun u e he => ?_⟩
    have hlt := hrooted.below req.stream u e he
    rw [hnext] at hlt
    omega

/-- A commit leaves the store, or appends the batch of the handle. -/
theorem Tended.commit [Payload D] {r : Remote D S B} (h : Tended env vol r) (henv : env.Lawful vol)
    {v : Volume} (hk : Knows vol r.store v) (now : Int) (stamps : Nat → Nat → Stamp)
    (fault : Option Fault) :
    let out := v.commit env now stamps fault r
    Tended env vol out.2.2 ∧ Knows vol out.2.2.store out.2.1 := by
  have hup : ∀ i, v.uploaded env fault r (env.segmentPath vol i) = r.bucket (env.segmentPath vol i) :=
    fun i => putBlocks_segment henv fault i _ 0 _
  dsimp only
  rcases v.commit_cases env now stamps fault r with ⟨e, v', -, hold, heq⟩ | ⟨-, heq⟩ |
    ⟨events, info, σ₁, image, -, -, happ, heq⟩
  · rw [heq]
    exact ⟨h.aside (.refl _ _) h.rooted h.chained le_rfl fun i _ => hup i,
      hk.congr hold.vol hold.tail⟩
  · rw [heq]
    exact ⟨h, hk⟩
  · rw [heq]
    obtain ⟨htended, hknows⟩ := h.append happ hk.vol_eq rfl hup
    exact ⟨htended, hknows _ hk.vol_eq rfl⟩


/-! ## Checkpoints -/

/-- The fold of a checkpoint follows a replay, whatever its events are. -/
theorem DeltaImage.replay_sound (env : Outside D S B) (clock : Nat → Int) {base : FsImage}
    (events : List (Event D)) :
    ∀ {delta : DeltaImage}, Sound base delta →
      (∀ e ∈ events, ∀ d, deltaOf env e = .ok d → ¬ d.NestedRename) →
        Sound base (events.foldl (replayEvent env clock) delta) ∧
          (events.foldl (replayEvent env clock) delta).live =
            events.foldl (Fuse.replayEvent env clock) delta.live := by
  induction events with
  | nil => exact fun hs _ => ⟨hs, rfl⟩
  | cons e events ih =>
      intro delta hs hn
      have hrest : ∀ e ∈ events, ∀ d, deltaOf env e = .ok d → ¬ d.NestedRename :=
        fun e' he' => hn e' (List.mem_cons_of_mem _ he')
      rw [List.foldl_cons, List.foldl_cons]
      cases hof : env.delta.decode e.data with
      | error err =>
          rw [replayEvent, Fuse.replayEvent, hof]
          exact ih hs hrest
      | ok d =>
          rw [replayEvent, Fuse.replayEvent, hof]
          obtain ⟨hs', hlive⟩ := ih (hs.apply (hn e List.mem_cons_self d hof) (clock e.version)) hrest
          exact ⟨hs', by rw [hlive, live_apply]⟩

/-- A publish leaves all but snapshots, announcements and the counter. -/
theorem get_published_other {σ : Db D S} {stream : String} {record : CompactionRecord} {state : S}
    {ulid : String} {k : Key} (hk : k.OfPublish = false) (hseq : k ≠ .seq) :
    (published σ stream record state ulid).get k = σ.get k := by
  refine get_published_of_ne hseq ?_ fun n => ?_
  · rintro rfl
    cases hk
  · rintro rfl
    cases hk

theorem unmarked_of_published {σ : Db D S} {stream : String} {record : CompactionRecord} {state : S}
    {ulid : String} (h : Unmarked (published σ stream record state ulid) vol) : Unmarked σ vol := by
  refine ⟨?_, ?_, fun v => ?_⟩
  · rw [← get_published_other (k := .fork vol) rfl (by simp)]
    exact h.fork
  · rw [← get_published_other (k := .deleted vol) rfl (by simp)]
    exact h.deleted
  · rw [← get_published_other (k := .rollback vol v) rfl (by simp)]
    exact h.windows v

/-- Publishing a manifest whose segments merge to what a replay up to it gives. -/
theorem Tended.publish {r : Remote D S B} (h : Tended env vol r) {m : Manifest} {state : S}
    (hdec : env.manifest.decode state = .ok m) {segments : List Segment}
    (hheld : List.Forall₂ (Held env vol r) m.segments segments) {entry : CompactionRecord}
    (hlt : Unmarked r.store vol → entry.throughVersion < nextVersion r.store vol)
    (hmerge : Unpruned env vol r.store (entry.throughVersion + 1) → ∃ readings,
      segments.foldl FsImage.mergeSegment {} =
        (eventsOf r.store vol 0 (some (entry.throughVersion + 1))).foldl (replayEvent env readings) {})
    (ulid : String) :
    Tended env vol { r with store := published r.store vol entry state ulid } := by
  have heff : (Call.publishSnapshot vol entry state ulid : Call D S).Effect r.store []
      (published r.store vol entry state ulid) := rfl
  have hsnap := snapshotAt_published entry state ulid h.numbered
  have hcov : covered (published r.store vol entry state ulid) vol = entry.throughVersion + 1 := by
    rw [covered, hsnap]
    rfl
  have hrooted := heff.rooted h.rooted
  refine ⟨hrooted, heff.chained h.chained, h.numbered.publish vol entry state ulid, fun hp => ?_,
    m, segments, ?_, hheld, fun hkept => ?_⟩
  · rw [hcov, nextVersion_congr (get_published_other rfl (by simp))]
    exact hlt (unmarked_of_published hp)
  · rw [latestManifest_eq, hsnap]
    exact hdec
  · rw [hcov] at hkept ⊢
    have hbefore : Unpruned env vol r.store (entry.throughVersion + 1) := by
      refine ⟨unmarked_of_published hkept.unmarked, fun v hv => ?_, fun v hv => ?_⟩
      · have hfloor := hkept.floor v hv
        rw [floorOf, get_published_other rfl (by simp)] at hfloor
        exact hfloor
      · rw [← get_published_other (k := .record vol v) rfl (by simp)]
        exact hkept.records v hv
    obtain ⟨readings, hreadings⟩ := hmerge hbefore
    refine ⟨readings, ?_⟩
    rw [hbefore.eventsOf_eq hkept h.rooted.versioned hrooted.versioned fun v e _ he => ?_]
    · exact hreadings
    · rw [← get_published_other (k := .record vol v) rfl (by simp)]
      exact he

/-- Sealing a segment that leads from the image of the manifest to that of a replay. -/
theorem Tended.install [Payload D] {r : Remote D S B} (h : Tended env vol r)
    (henv : env.Lawful vol) {base : FsImage} {start : Nat}
    (hbase : Fuse.loadBase env r vol = .ok (base, start)) {segment : Segment} {through : Nat}
    (hlt : Unmarked r.store vol → through < nextVersion r.store vol)
    (hseg : Unpruned env vol r.store (through + 1) → ∃ readings, base.mergeSegment segment =
      (eventsOf r.store vol 0 (some (through + 1))).foldl (replayEvent env readings) {})
    (nowMs : Int) (ulid : String) (fault : Option Fault) :
    Tended env vol (install env vol through segment nowMs ulid fault r).2 := by
  obtain ⟨⟨hstore, hdraws, hearlier⟩, hput⟩ := putSegment_cases henv segment fault r
  have hst : Tended env vol (putSegment env vol segment fault r).2 := by
    refine h.aside ?_ ?_ ?_ (by omega) hearlier
    · rw [hstore]
      exact .refl _ _
    · rw [hstore]
      exact h.rooted
    · rw [hstore]
      exact h.chained
  simp only [Fuse.install]
  cases hres : putSegment env vol segment fault r with
  | mk res r₁ =>
  rw [hres] at hstore hdraws hearlier hput hst
  dsimp only at hstore hdraws hearlier hput hst ⊢
  cases res with
  | error e => exact hst
  | ok path =>
      obtain ⟨m, segments, hm, hheld, -⟩ := h.manifest
      have hsame := Stored.loadBase_merge henv hm hheld
      rw [hbase] at hsame
      cases hsame
      have hm₁ : latestManifest env r₁.store vol = .ok m := by rw [hstore, hm]
      have hall : List.Forall₂ (Held env vol r₁) (m.segments ++ [path]) (segments ++ [segment]) :=
        List.rel_append (hheld.imp fun _ _ hs => hs.mono (by omega) hearlier)
          (.cons (hput path rfl) .nil)
      obtain ⟨state, henc, hdec⟩ := henv.manifest { segments := m.segments ++ [path] }
      have hpub : Tended env vol
          { r₁ with store := published r₁.store vol (record vol through nowMs) state ulid } := by
        refine hst.publish hdec hall (fun hp => ?_) (fun hkept => ?_) ulid
        · rw [hstore] at hp ⊢
          exact hlt hp
        · rw [hstore] at hkept ⊢
          rw [List.foldl_append]
          exact hseg hkept
      simp only [hm₁, publishManifest, henc, publishSnapshot_exec]
      -- the fault decides whether the publish landed
      by_cases hlanded : fault = some (.publish true)
      · simpa only [hlanded, if_true] using hpub
      · by_cases hlost : fault = some (.publish false)
        · simpa only [hlost, reduceCtorEq, Option.some.injEq, Fault.publish.injEq, Bool.false_eq_true,
            if_false, if_true] using hst
        · simpa only [hlanded, hlost, if_false] using hpub

theorem Unpruned.mono {σ : Db D S} {m n : Nat} (h : Unpruned env vol σ n) (hle : m ≤ n) :
    Unpruned env vol σ m :=
  ⟨h.unmarked, fun v hv => h.floor v (hv.trans_le hle), fun v hv => h.records v (hv.trans_le hle)⟩

/-- What a checkpoint folds, merged into the image of the manifest, is a replay of all
that the handle knows. -/
theorem Tended.seals {r : Remote D S B} (h : Tended env vol r) {v : Volume}
    (hk : Knows vol r.store v) {through : Nat} (htail : v.tail = some through)
    {base : FsImage} (hmerge : Unpruned env vol r.store (covered r.store vol) → ∃ readings, base =
      (eventsOf r.store vol 0 (some (covered r.store vol))).foldl (replayEvent env readings) {})
    {events : List (Event D)}
    (hread : readHistory r.store vol (.included (covered r.store vol)) .unbounded = .ok events)
    (clock : Nat → Int) (hkept : Unpruned env vol r.store (through + 1)) :
    ∃ readings, base.mergeSegment
        { entries := (events.foldl (DeltaImage.replayEvent env clock) { live := base }).entries } =
      (eventsOf r.store vol 0 (some (through + 1))).foldl (replayEvent env readings) {} := by
  have hver := h.rooted.versioned
  obtain ⟨hcov, -, hle⟩ := hk.tail hkept.unmarked through htail
  obtain ⟨before, hbase⟩ := hmerge (hkept.mono hcov)
  rw [readHistory_of_not_fork hkept.unmarked.fork] at hread
  cases hread
  obtain ⟨hcut, hlt, hge⟩ := eventsOf_cut hver vol (covered r.store vol)
  have hn : ∀ e ∈ eventsOf r.store vol (covered r.store vol) none, ∀ d,
      deltaOf env e = .ok d → ¬ d.NestedRename := by
    intro e he d hd
    obtain ⟨u, e', hget, -, -, -, rfl⟩ := (mem_eventsOf_guards hver).mp he
    obtain ⟨e'', he'', hflat⟩ := hkept.records u (Nat.lt_succ_of_le (hle u e' hget))
    rw [hget] at he''
    cases he''
    exact hflat d hd
  obtain ⟨hsound, hlive⟩ := DeltaImage.replay_sound env clock _ (.start base) hn
  refine ⟨fun u => if u < covered r.store vol then before u else clock u, ?_⟩
  rw [hsound.mergeSegment_eq, hlive]
  dsimp only
  rw [hbase, replayEvent_two_clocks before clock hlt hge, ← hcut,
    eventsOf_all hver fun u e he => Nat.lt_succ_of_le (hle u e he)]

/-- The handle that published a snapshot through its tail. -/
theorem Knows.publish {σ : Db D S} {v : Volume} (hk : Knows vol σ v) (hnum : Numbered σ vol)
    {through : Nat} (htail : v.tail = some through) (now : Int) (state : S) (ulid : String) :
    Knows vol (published σ vol (record vol through now) state ulid) v where
  vol_eq := hk.vol_eq
  tail hp w hw := by
    obtain ⟨-, hlt, hle⟩ := hk.tail (unmarked_of_published hp) w hw
    rw [htail] at hw
    cases hw
    have hcov : covered (published σ vol (record vol through now) state ulid) vol = through + 1 := by
      rw [covered, snapshotAt_published _ state ulid hnum]
      rfl
    refine ⟨hcov.le, ?_, fun u e he => hle u e ?_⟩
    · rw [nextVersion_congr (get_published_other rfl (by simp))]
      exact hlt
    · rw [← get_published_other (k := .record vol u) rfl (by simp)]
      exact he

theorem Tended.checkpoint [Payload D] {r : Remote D S B} (h : Tended env vol r)
    (henv : env.Lawful vol) {v : Volume} (hk : Knows vol r.store v) (now : Int)
    (stamps : Nat → Nat → Stamp) (clock : Nat → Int) (ulid : String) (fault : Option Fault) :
    let out := v.checkpoint env now stamps clock ulid fault r
    Tended env vol out.2.2 ∧ Knows vol out.2.2.store out.2.1 := by
  dsimp only
  obtain ⟨hst, hk'⟩ := h.commit henv hk now stamps fault
  rw [Volume.checkpoint]
  cases hcommit : v.commit env now stamps fault r with
  | mk res rest =>
  obtain ⟨v₁, r₁⟩ := rest
  rw [hcommit] at hst hk'
  dsimp only at hst hk' ⊢
  cases res with
  | error e => exact ⟨hst, hk'⟩
  | ok u =>
      dsimp only
      cases htail : v₁.tail with
      | none => exact ⟨hst, hk'⟩
      | some through =>
          obtain ⟨base, hbase, hmerge⟩ := hst.loadBase henv
          obtain ⟨events, hread⟩ := hst.chained.readHistory_ok vol
            (.included (covered r₁.store vol)) .unbounded
          simp only [hk'.vol_eq, hbase, fold, hread, Except.map]
          generalize hdelta : events.foldl (DeltaImage.replayEvent env clock) { live := base } = delta
          have hinst : Tended env vol
              (Fuse.install env vol through { entries := delta.entries } now ulid fault r₁).2 := by
            refine hst.install henv hbase (fun hp => (hk'.tail hp through htail).2.1)
              (fun hkept => ?_) now ulid fault
            rw [← hdelta]
            exact hst.seals hk' htail hmerge hread clock hkept
          have hknows : Knows vol
              (Fuse.install env vol through { entries := delta.entries } now ulid fault r₁).2.store v₁ := by
            obtain ⟨-, -, hstore | ⟨state, hstore⟩⟩ := install_cases env vol through
              { entries := delta.entries } now ulid fault r₁
            · rw [hstore]
              exact hk'
            · rw [hstore]
              exact hk'.publish hst.numbered htail now state ulid
          cases hres : Fuse.install env vol through { entries := delta.entries } now ulid fault r₁ with
          | mk res r₂ =>
          rw [hres] at hinst hknows
          cases res with
          | error e => exact ⟨hinst, hknows⟩
          | ok entry => exact ⟨hinst, hknows⟩

/-! ## Runs -/

/-- What holds in every state. -/
structure Watched (env : Outside D S B) (vol : String) (st : State D S B) : Prop where
  tended : Tended env vol st.remote
  knows : ∀ v, st.volume = some v → Knows vol st.remote.store v

theorem Watched.step [Payload D] {st : State D S B} (h : Watched env vol st)
    (henv : env.Lawful vol) (op : Op) : Watched env vol (step env vol st op) := by
  cases op with
  | mount clock =>
      obtain ⟨base, hbase, -⟩ := h.tended.loadBase henv
      obtain ⟨v, events, hmount, hread, hvol, -, htail⟩ := h.tended.mount clock hbase
      simp only [Fuse.step, hmount]
      refine ⟨h.tended.fencedOff, ?_⟩
      rintro v' ⟨⟩
      exact (h.tended.knows_mount hread hvol htail).aside (aside_fencedOff env vol st.remote)
  | mutate now d =>
      cases hv : st.volume with
      | none => simpa only [Fuse.step, hv] using h
      | some v =>
          simp only [Fuse.step, hv]
          refine ⟨h.tended, ?_⟩
          rintro v' ⟨⟩
          exact (h.knows v hv).congr rfl rfl
  | truncate now path size =>
      cases hv : st.volume with
      | none => simpa only [Fuse.step, hv] using h
      | some v =>
          obtain ⟨hvol, -, htail⟩ := v.truncate_hold env now st.remote.bucket path size
          simp only [Fuse.step, hv]
          refine ⟨h.tended, ?_⟩
          rintro v' ⟨⟩
          exact (h.knows v hv).congr hvol htail
  | commit now stamps fault =>
      cases hv : st.volume with
      | none => simpa only [Fuse.step, hv] using h
      | some v =>
          simp only [Fuse.step, hv]
          obtain ⟨hst, hk⟩ := h.tended.commit henv (h.knows v hv) now stamps fault
          refine ⟨hst, ?_⟩
          rintro v' ⟨⟩
          exact hk
  | checkpoint now stamps clock ulid fault =>
      cases hv : st.volume with
      | none => simpa only [Fuse.step, hv] using h
      | some v =>
          simp only [Fuse.step, hv]
          obtain ⟨hst, hk⟩ := h.tended.checkpoint henv (h.knows v hv) now stamps clock ulid fault
          refine ⟨hst, ?_⟩
          rintro v' ⟨⟩
          exact hk

theorem Watched.act [Payload D] {st : State D S B} (h : Watched env vol st)
    (henv : env.Lawful vol) {deed : Deed D S B} (hd : deed.Admitted env vol) :
    Watched env vol (st.act env vol deed) := by
  cases deed with
  | of op => exact h.step henv op
  | call c =>
      obtain ⟨happ, hpub⟩ := hd
      have hstore : Aside vol st.remote.store (c.exec st.remote.store).2 ∧
          Rooted (c.exec st.remote.store).2 ∧ Chained (c.exec st.remote.store).2 := by
        rcases c.exec_cases st.remote.store with hsame | ⟨infos, heff⟩
        · rw [hsame]
          exact ⟨.refl _ _, h.tended.rooted, h.tended.chained⟩
        · exact ⟨heff.aside happ hpub, heff.rooted h.tended.rooted, heff.chained h.tended.chained⟩
      obtain ⟨haside, hrooted, hchained⟩ := hstore
      exact ⟨h.tended.aside haside hrooted hchained le_rfl fun _ _ => rfl,
        fun v hv => (h.knows v hv).aside haside⟩
  | put path object =>
      refine ⟨h.tended.aside (.refl _ _) h.tended.rooted h.tended.chained le_rfl fun i _ => ?_,
        h.knows⟩
      exact Function.update_of_ne (hd i).symm _ _

/-- Whatever is done to the store. -/
theorem Watched.lived [Payload D] (henv : env.Lawful vol) (deeds : List (Deed D S B))
    (hd : ∀ deed ∈ deeds, deed.Admitted env vol) : Watched env vol (lived env vol deeds) := by
  induction deeds using List.reverseRecOn with
  | nil => exact ⟨.empty env vol, by simp [Fuse.lived]⟩
  | append_singleton deeds deed ih =>
      rw [Fuse.lived, List.foldl_concat]
      exact (ih fun d h => hd d (List.mem_append_left _ h)).act henv (hd deed (by simp))

/-! ## Agreement -/

/-- Above its fork point a volume has the history of its own. -/
theorem readHistory_own {σ : Db D S} {lo : Nat}
    (h : ∀ f, σ.get (.fork vol) = some f → f.atVersion < lo) :
    readHistory σ vol (.included lo) .unbounded = .ok (eventsOf σ vol lo none) := by
  cases hf : σ.get (.fork vol) with
  | none => exact readHistory_of_not_fork hf lo
  | some f =>
      have hlt : ¬ lo < f.atVersion + 1 := by
        have := h f hf
        omega
      simp only [readHistory, bounds, resolveHistory_eval, hf]
      simp [hlt]

/-- A stream shows the versions of its events. -/
theorem shown_iff {σ : Db D S} (hver : Versioned σ) {lo v : Nat} (hlo : lo ≤ v) :
    Shown σ vol v ↔ ∃ e ∈ eventsOf σ vol lo none, e.version = v := by
  constructor
  · rintro ⟨env, hget, hshow⟩
    exact ⟨_, (mem_eventsOf_guards hver).mpr ⟨v, env, hget, hshow, hlo, rfl, rfl⟩,
      hver vol v env hget⟩
  · rintro ⟨e, he, rfl⟩
    obtain ⟨u, env, hget, hshow, -, -, rfl⟩ := (mem_eventsOf_guards hver).mp he
    rw [show (Event.fromParts env).version = u from hver vol u env hget]
    exact ⟨env, hget, hshow⟩

/-- The first event has the lowest version that is shown. -/
theorem head_version_le {σ : Db D S} (hver : Versioned σ) {lo v : Nat} (hlo : lo ≤ v)
    (h : Shown σ vol v) : ∃ first, (eventsOf σ vol lo none).head? = some first ∧
      first.version ≤ v := by
  obtain ⟨e, he, rfl⟩ := (shown_iff hver hlo).mp h
  have hsorted := eventsOf_sorted (hver vol) lo none
  cases hevents : eventsOf σ vol lo none with
  | nil =>
      rw [hevents] at he
      cases he
  | cons first rest =>
      rw [hevents] at he hsorted
      refine ⟨first, rfl, ?_⟩
      rcases List.mem_cons.mp he with rfl | he
      · exact le_rfl
      · exact ((List.pairwise_cons.mp hsorted).1 e he).le

theorem shown_head {σ : Db D S} (hver : Versioned σ) {lo : Nat} {first : Event D}
    (h : (eventsOf σ vol lo none).head? = some first) : Shown σ vol first.version ∧ lo ≤ first.version := by
  have hmem := List.mem_of_mem_head? h
  have hlo := (version_eventsOf hver hmem).1
  exact ⟨(shown_iff hver hlo).mpr ⟨first, hmem, rfl⟩, hlo⟩

/-- A replica that finds version 0 replays the whole stream. -/
theorem openSource_of_shown (env : Outside D S B) {r : Remote D S B} (hver : Versioned r.store)
    (h : Shown r.store vol 0) : openSource env vol r = .ok ({}, eventsOf r.store vol 0 none) := by
  obtain ⟨first, hhead, hle⟩ := head_version_le hver le_rfl h
  exact openSource_whole env (.inl ⟨first, hhead, Nat.le_zero.mp hle⟩)

/-- What a mount replays is what a replica replays, with the clock of the checkpoint for
what the segments hold. -/
theorem Tended.source_bootable {r : Remote D S B} (h : Tended env vol r)
    (hboot : Bootable env vol r.store) {base : FsImage}
    (hbase : Fuse.loadBase env r vol = .ok (base, covered r.store vol))
    (hmerge : Unpruned env vol r.store (covered r.store vol) → ∃ readings, base =
      (eventsOf r.store vol 0 (some (covered r.store vol))).foldl (replayEvent env readings) {})
    {events : List (Event D)}
    (hread : readHistory r.store vol (.included (covered r.store vol)) .unbounded = .ok events) :
    ∃ base' events', openSource env vol r = .ok (base', events') ∧ ∀ clock, ∃ readings,
      events.foldl (replayEvent env clock) base = events'.foldl (replayEvent env readings) base' := by
  have hver := h.rooted.versioned
  rw [Fuse.loadBase, latestSnapshot_eval] at hbase
  cases hboot with
  | replayed hcovered hfork hfirst =>
      rw [readHistory_of_not_fork hfork, hcovered] at hread
      cases hread
      cases hsnap : snapshotAt r.store vol with
      | some snap =>
          rw [covered, hsnap] at hcovered
          cases hcovered
      | none =>
          rw [hsnap] at hbase
          obtain ⟨rfl, -⟩ := Prod.mk.inj (Except.ok.inj hbase)
          refine ⟨_, _, ?_, fun clock => ⟨clock, rfl⟩⟩
          cases hhead : (eventsOf r.store vol 0 none).head? with
          | none => exact openSource_whole env (.inr ⟨List.head?_eq_none_iff.mp hhead, hsnap⟩)
          | some first => exact openSource_of_shown env hver (hfirst _ (shown_head hver hhead).1)
  | kept hcovered hkept =>
      rw [readHistory_of_not_fork hkept.unmarked.fork] at hread
      cases hread
      obtain ⟨readings, hreadings⟩ := hmerge hkept
      have hshown : Shown r.store vol 0 := by
        obtain ⟨e, he, -⟩ := hkept.records 0 hcovered
        exact ⟨e, he, (shows_of_unmarked hkept.unmarked 0 e.seq).mpr (hkept.floor 0 hcovered)⟩
      -- the replica replays what the segments hold, too
      obtain ⟨hcut, hlt, hge⟩ := eventsOf_cut hver vol (covered r.store vol)
      refine ⟨_, _, openSource_of_shown env hver hshown, fun clock =>
        ⟨fun v => if v < covered r.store vol then readings v else clock v, ?_⟩⟩
      rw [hreadings, replayEvent_two_clocks readings clock hlt hge, ← hcut]
  | reloaded hcovered hfirst hfork hnext =>
      rw [readHistory_own hfork] at hread
      cases hread
      cases hsnap : snapshotAt r.store vol with
      | none =>
          rw [covered, hsnap] at hcovered
          exact absurd hcovered (Nat.lt_irrefl 0)
      | some snap =>
          have hcov : covered r.store vol = snap.throughVersion + 1 := by
            rw [covered, hsnap]
            rfl
          have hsegments : loadSegments env r.bucket snap.state = .ok base := by
            rw [hsnap] at hbase
            dsimp only at hbase
            cases hload : loadSegments env r.bucket snap.state with
            | error e =>
                rw [hload] at hbase
                cases hbase
            | ok image =>
                rw [hload] at hbase
                rw [(Prod.mk.inj (Except.ok.inj hbase)).1]
          have hpast : ∀ first, (eventsOf r.store vol 0 none).head? = some first →
              0 < first.version := by
            intro first hhead
            refine Nat.pos_of_ne_zero fun hzero => hfirst ?_
            rw [← hzero]
            exact (shown_head hver hhead).1
          have hright : ∀ first, (eventsOf r.store vol (snap.throughVersion + 1) none).head? =
              some first → first.version ≤ snap.throughVersion + 1 := by
            rw [← hcov]
            intro first hhead
            obtain ⟨hshown, hle⟩ := shown_head hver hhead
            obtain ⟨first', hhead', hle'⟩ := head_version_le hver le_rfl (hnext _ hle hshown)
            rw [hhead] at hhead'
            cases hhead'
            exact hle'
          refine ⟨_, _, openSource_reloads hsnap hsegments hpast hright, fun clock => ⟨clock, ?_⟩⟩
          rw [hcov]

end

section

variable {D S B : Type}

end

end Landslide.Fuse
