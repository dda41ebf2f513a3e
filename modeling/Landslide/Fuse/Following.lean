import Landslide.Fuse.Effects
import Landslide.Fuse.Handles
import Landslide.Fuse.Replica

/-!
# Replicas show what was committed

Whatever the writer does between the reads of a sync, the image of a replica is that
of the committed deltas up to its cursor, and the cursor does not go back
(`sync_follows_writer`).

The writer keeps the events past its latest checkpoint, and prunes the others from the
oldest on (`Kept`).  What a read saw stays true of what a later read sees: the
committed deltas grow, the latest checkpoint covers no less, and its segments stay
(`Later`).  So if the first event that a sync reads is the next one, no later one is
missing, and if it is not, every later checkpoint covers the next one.
-/

namespace Landslide.Fuse

open Std TxnKv

section

variable {D S B : Type} {env : Outside D S B} {vol : String}

/-! ## The records that the writer keeps -/

/-- The records of a stream without pins reach from some version to the tail. -/
structure Window (σ : Db D S) (stream : String) : Prop where
  suffix : ∀ v w, v ≤ w → w < nextVersion σ stream →
    (σ.get (.record stream v)).isSome = true → (σ.get (.record stream w)).isSome = true
  pins : ∀ child, σ.get (.forks stream child) = none

namespace Window

variable {σ σ' : Db D S} {stream : String}

theorem empty (stream : String) : Window (∅ : Db D S) stream where
  suffix := by simp
  pins := by simp

theorem congr (h : Window σ stream)
    (hrec : ∀ v, σ'.get (.record stream v) = σ.get (.record stream v))
    (htail : σ'.get (.tail stream) = σ.get (.tail stream))
    (hpins : ∀ child, σ'.get (.forks stream child) = σ.get (.forks stream child)) :
    Window σ' stream where
  suffix := by
    intro v w hvw hw
    rw [hrec, hrec]
    rw [nextVersion_congr htail] at hw
    exact h.suffix v w hvw hw
  pins child := (hpins child).trans (h.pins child)

theorem append (h : Window σ stream) {req : AppendReq D} {seq : Nat} {info : CommitInfo}
    (happ : Appended req seq σ info σ') (hs : req.stream = stream)
    (hfrom : req.fromVersion = none) : Window σ' stream := by
  subst hs
  obtain ⟨hfirst, htail⟩ := happ.nextVersion_eq hfrom
  have hlast := happ.last
  refine ⟨fun v w hvw hw hv => ?_, fun child => ?_⟩
  · by_cases hold : w < nextVersion σ req.stream
    · have hsame : ∀ u, u ≤ w → σ'.get (.record req.stream u) = σ.get (.record req.stream u) := by
        intro u hu
        refine happ.frame _ (by simp) (fun x hx _ heq => ?_) (by simp)
        cases heq
        omega
      rw [hsame w le_rfl]
      rw [hsame v hvw] at hv
      exact h.suffix v w hvw hold hv
    · simp only [nextVersion, htail, Option.elim_some] at hw hfirst hold
      obtain ⟨e, he⟩ : ∃ e, req.events[w - info.firstVersion]? = some e :=
        ⟨_, List.getElem?_eq_getElem (show w - info.firstVersion < req.events.length by omega)⟩
      obtain ⟨env, henv, -⟩ := happ.records _ e he
      rw [Nat.add_sub_cancel' (by omega)] at henv
      rw [henv]
      rfl
  · exact (happ.frame _ (by simp) (by simp) (by simp)).trans (h.pins child)

/-- Without pins a purge starts at the first version. -/
theorem purgeFrom_eq (h : Window σ stream) : purgeFrom σ stream = 0 := by
  rw [purgeFrom]
  cases hc : ceilingOf σ stream with
  | none => rfl
  | some m =>
      obtain ⟨child, hpin, -⟩ := exists_pin_of_ceilingOf hc
      rw [h.pins child] at hpin
      cases hpin

theorem purge (h : Window σ stream) (floor : Nat) :
    Window (purged σ stream (versionsOf σ stream (purgeFrom σ stream) floor)) stream := by
  rw [h.purgeFrom_eq]
  have hnext : nextVersion (purged σ stream (versionsOf σ stream 0 floor)) stream =
      nextVersion σ stream := nextVersion_congr (get_purged_of_ne _ _ (by simp))
  refine ⟨fun v w hvw hw hv => ?_, fun child => ?_⟩
  · rw [hnext] at hw
    have hgone : ∀ u, (∃ x ∈ versionsOf σ stream 0 floor, Key.record stream u = .record stream x) ↔
        u < floor ∧ (σ.get (.record stream u)).isSome = true := by
      intro u
      constructor
      · rintro ⟨x, hx, heq⟩
        cases heq
        obtain ⟨⟨-, hlt⟩, hsome⟩ := mem_versionsOf.mp hx
        exact ⟨hlt, hsome⟩
      · rintro ⟨hlt, hsome⟩
        exact ⟨u, mem_versionsOf.mpr ⟨⟨Nat.zero_le u, hlt⟩, hsome⟩, rfl⟩
    rw [get_purged] at hv ⊢
    split at hv
    · cases hv
    · next hkept =>
      rw [hgone] at hkept
      have hfloor : ¬ v < floor := fun hlt => hkept ⟨hlt, hv⟩
      rw [if_neg (by rw [hgone]; omega)]
      exact h.suffix v w hvw hw hv
  · exact (get_purged_of_ne _ _ (by simp)).trans (h.pins child)

end Window

theorem Touched.window {v : Volume} {σ σ' : Db D S} (h : Touched v σ σ') (hw : Window σ v.vol) :
    Window σ' v.vol := by
  induction h with
  | same => exact hw
  | append n happ =>
      exact (hw.append happ rfl rfl).congr (fun _ => Store.get_put_of_ne _ _ (by simp))
        (Store.get_put_of_ne _ _ (by simp)) fun _ => Store.get_put_of_ne _ _ (by simp)
  | publish record state ulid _ ih =>
      exact ih.congr (fun _ => get_published_of_ne (by simp) (by simp) (by simp))
        (get_published_of_ne (by simp) (by simp) (by simp))
        fun _ => get_published_of_ne (by simp) (by simp) (by simp)

/-! ## What the writer keeps -/

/-- What holds of the writer in every state. -/
structure Kept (env : Outside D S B) (vol : String) (st : State D S B) : Prop where
  inv : Inv env vol st
  window : Window st.remote.store vol

/-- What a state has, a later one still has. -/
structure Later (env : Outside D S B) (vol : String) (st st' : State D S B) : Prop where
  committed : st.committed <+: st'.committed
  covered : covered st.remote.store vol ≤ covered st'.remote.store vol
  draws : st.remote.draws ≤ st'.remote.draws
  bucket : ∀ i, i < st.remote.draws →
    st'.remote.bucket (env.segmentPath vol i) = st.remote.bucket (env.segmentPath vol i)

namespace Later

theorem refl (env : Outside D S B) (vol : String) (st : State D S B) : Later env vol st st :=
  ⟨List.prefix_rfl, le_rfl, le_rfl, fun _ _ => rfl⟩

theorem trans {st₁ st₂ st₃ : State D S B} (h : Later env vol st₁ st₂)
    (h' : Later env vol st₂ st₃) : Later env vol st₁ st₃ where
  committed := h.committed.trans h'.committed
  covered := h.covered.trans h'.covered
  draws := h.draws.trans h'.draws
  bucket i hi := (h'.bucket i (hi.trans_le h.draws)).trans (h.bucket i hi)

end Later

theorem commit_covered [Payload D] (env : Outside D S B) (now : Int)
    (stamps : Nat → Nat → Stamp) (fault : Option Fault) (v : Volume) (r : Remote D S B) :
    covered (v.commit env now stamps fault r).2.2.store vol = covered r.store vol := by
  rcases v.commit_cases env now stamps fault r with ⟨e, v', -, -, heq⟩ | ⟨-, heq⟩ |
    ⟨events, info, σ₁, image, -, -, happ, heq⟩
  · rw [heq]
  · rw [heq]
  · rw [heq]
    refine covered_congr fun m => (Store.get_put_of_ne _ _ (by simp)).trans ?_
    exact happ.frame _ (by simp) (by simp) (by simp)

/-- A checkpoint covers the whole log, or what was covered before. -/
theorem checkpoint_covered [Payload D] (henv : env.Lawful vol) {v : Volume} {r : Remote D S B}
    {committed : List Delta} (h : Stored env vol r committed) (ha : Attached vol r v) (now : Int)
    (stamps : Nat → Nat → Stamp) (clock : Nat → Int) (ulid : String) (fault : Option Fault) :
    covered r.store vol ≤
      covered (v.checkpoint env now stamps clock ulid fault r).2.2.store vol := by
  obtain ⟨hst, hatt⟩ := h.commit henv ha now stamps fault
  rw [← commit_covered env now stamps fault v r]
  rcases v.checkpoint_cases env now stamps clock ulid fault r with
    ⟨-, -, -, hstore | ⟨through, state, -, htail, hstore⟩⟩
  · rw [hstore]
  · have hlast : tailVersion (v.commit env now stamps fault r).2.2.store vol = some through := by
      rcases hatt.tail with hnone | hsome
      · rw [hnone] at htail
        cases htail
      · rw [← hsome, htail]
    have hcov : covered (v.checkpoint env now stamps clock ulid fault r).2.2.store vol =
        through + 1 := by
      rw [hstore, hatt.vol_eq, covered, snapshotAt_published _ _ _ hst.log.numbered]
      rfl
    have hnext := hst.log.next
    have hle := hst.log.covered_le
    rw [nextVersion, hlast, Option.elim_some] at hnext
    omega

/-- Objects at earlier draws stay. -/
theorem commit_bucket [Payload D] (henv : env.Lawful vol) (now : Int) (stamps : Nat → Nat → Stamp)
    (fault : Option Fault) (v : Volume) (r : Remote D S B) (i : Nat) :
    (v.commit env now stamps fault r).2.2.bucket (env.segmentPath vol i) =
      r.bucket (env.segmentPath vol i) := by
  have hup : v.uploaded env fault r (env.segmentPath vol i) = r.bucket (env.segmentPath vol i) :=
    putBlocks_segment henv fault i _ 0 _
  rcases v.commit_cases env now stamps fault r with ⟨e, v', -, -, heq⟩ | ⟨-, heq⟩ |
    ⟨events, info, σ₁, image, -, -, -, heq⟩
  · rw [heq]
    exact hup
  · rw [heq]
  · rw [heq]
    exact hup

theorem Later.step [Payload D] (henv : env.Lawful vol) {st : State D S B} (h : Inv env vol st)
    (op : Op) : Later env vol st (step env vol st op) := by
  have hgrow : st.committed <+: (Fuse.step env vol st op).committed := by
    obtain ⟨more, hmore⟩ := committed_step env vol st op
    exact ⟨more, hmore.symm⟩
  cases op with
  | mount clock =>
      refine ⟨hgrow, ?_, ?_, ?_⟩ <;> simp only [Fuse.step, (mount_cases env vol clock st.remote).1]
      · exact (covered_congr fun m => get_fencedOff (by simp)).ge
      · exact Nat.le_succ _
      · exact fun _ _ => rfl
  | mutate now d =>
      cases hv : st.volume <;> simp only [Fuse.step, hv] <;>
        exact ⟨List.prefix_rfl, le_rfl, le_rfl, fun _ _ => rfl⟩
  | truncate now path size =>
      cases hv : st.volume <;> simp only [Fuse.step, hv] <;>
        exact ⟨List.prefix_rfl, le_rfl, le_rfl, fun _ _ => rfl⟩
  | commit now stamps fault =>
      cases hv : st.volume with
      | none =>
          simp only [Fuse.step, hv]
          exact .refl env vol st
      | some v =>
          obtain ⟨-, -, hdraws, -⟩ := v.commit_frame env now stamps fault st.remote
          refine ⟨hgrow, ?_, ?_, ?_⟩ <;> simp only [Fuse.step, hv]
          · exact (commit_covered env now stamps fault v st.remote).ge
          · exact hdraws.ge
          · exact fun i _ => commit_bucket henv now stamps fault v st.remote i
  | checkpoint now stamps clock ulid fault =>
      cases hv : st.volume with
      | none =>
          simp only [Fuse.step, hv]
          exact .refl env vol st
      | some v =>
          have ha := h.attached v hv
          obtain ⟨hvol, -, hdraws, -⟩ := v.commit_frame env now stamps fault st.remote
          obtain ⟨-, hle, hbucket, -⟩ :=
            v.checkpoint_cases env now stamps clock ulid fault st.remote
          refine ⟨hgrow, ?_, ?_, ?_⟩ <;> simp only [Fuse.step, hv]
          · exact checkpoint_covered henv h.stored ha now stamps clock ulid fault
          · omega
          · intro i hi
            refine (hbucket _ fun heq => ?_).trans
              (commit_bucket henv now stamps fault v st.remote i)
            rw [hvol, ha.vol_eq] at heq
            have := henv.fresh _ _ heq
            omega

/-- Pruning what the latest checkpoint covers. -/
theorem Kept.prune {st : State D S B} (h : Kept env vol st) {σ : Db D S}
    (hlog : Logged (deltaOf env) σ vol st.committed) (hwin : Window σ vol)
    (hsnap : ∀ m, σ.get (.snap vol m) = st.remote.store.get (.snap vol m))
    (htail : σ.get (.tail vol) = st.remote.store.get (.tail vol)) :
    Kept env vol { st with remote := { st.remote with store := σ } } ∧
      Later env vol st { st with remote := { st.remote with store := σ } } := by
  have hst : Stored env vol { st.remote with store := σ } (st.committed ++ []) :=
    h.inv.stored.frame (by rw [List.append_nil]; exact hlog) hsnap le_rfl fun _ _ => rfl
  rw [List.append_nil] at hst
  refine ⟨⟨⟨hst, fun v hv => ?_⟩, hwin⟩, List.prefix_rfl, (covered_congr hsnap).ge, le_rfl,
    fun _ _ => rfl⟩
  have ha := h.inv.attached v hv
  refine ⟨ha.vol_eq, ?_⟩
  show v.tail = none ∨ v.tail = tailVersion σ vol
  rw [tailVersion_congr htail]
  exact ha.tail

/-- Every operation of the writer keeps what it kept, and leads to a later state. -/
theorem Kept.write [Payload D] {st : State D S B} (h : Kept env vol st) (henv : env.Lawful vol)
    (op : WriterOp) (hn : ∀ d ∈ (write env vol st op).committed, ¬ d.NestedRename) :
    Kept env vol (write env vol st op) ∧ Later env vol st (write env vol st op) := by
  cases op with
  | of op =>
      refine ⟨⟨h.inv.step henv op hn, ?_⟩, .step henv h.inv op⟩
      show Window (step env vol st op).remote.store vol
      by_cases hop : ∀ clock, op ≠ .mount clock
      · cases hv : st.volume with
        | none =>
            have hsame : step env vol st op = st := by
              cases op with
              | mount clock => exact absurd rfl (hop clock)
              | mutate | truncate | commit | checkpoint => simp only [Fuse.step, hv]
            rw [hsame]
            exact h.window
        | some v =>
            obtain rfl := (h.inv.attached v hv).vol_eq
            exact (step_touched hv hop).window h.window
      · simp only [not_forall, not_not] at hop
        obtain ⟨clock, rfl⟩ := hop
        simp only [Fuse.step, (mount_cases env vol clock st.remote).1]
        exact h.window.congr (fun _ => get_fencedOff (by simp)) (get_fencedOff (by simp))
          fun _ => get_fencedOff (by simp)
  | purgeBelow floor =>
      simp only [Fuse.write]
      split
      swap
      · exact ⟨h, .refl env vol st⟩
      next hfloor =>
      simp only [State.call, purgeBelow_exec]
      refine h.prune (h.inv.stored.log.purge fun v hv => ?_) (h.window.purge floor)
        (fun m => get_purged_of_ne _ _ (by simp)) (get_purged_of_ne _ _ (by simp))
      have := (mem_versionsOf.mp hv).1
      omega
  | trimBelow floor =>
      simp only [Fuse.write]
      split
      swap
      · exact ⟨h, .refl env vol st⟩
      next hfloor =>
      simp only [State.call, trimBelow_exec]
      refine h.prune (h.inv.stored.log.trim ?_)
        (h.window.congr (fun _ => Store.get_put_of_ne _ _ (by simp))
          (Store.get_put_of_ne _ _ (by simp)) fun _ => Store.get_put_of_ne _ _ (by simp))
        (fun m => Store.get_put_of_ne _ _ (by simp)) (Store.get_put_of_ne _ _ (by simp))
      obtain ⟨hist, hr, -⟩ := h.inv.stored.log.history
      have hold := hr.floor
      rw [floorOf] at hold
      rw [trimFloor]
      cases tailVersion st.remote.store vol with
      | none => exact Nat.max_le.mpr ⟨hfloor, hold⟩
      | some t => exact Nat.max_le.mpr ⟨(Nat.min_le_left _ _).trans hfloor, hold⟩

theorem committed_write [Payload D] (st : State D S B) (op : WriterOp) :
    st.committed <+: (write env vol st op).committed := by
  cases op with
  | of op =>
      obtain ⟨more, hmore⟩ := committed_step env vol st op
      exact ⟨more, hmore.symm⟩
  | purgeBelow | trimBelow =>
      simp only [Fuse.write]
      split
      · exact List.prefix_rfl
      · exact List.prefix_rfl

/-- So does a run of them. -/
theorem Kept.writes [Payload D] (henv : env.Lawful vol) (ops : List WriterOp) :
    ∀ {st : State D S B}, Kept env vol st →
      (∀ d ∈ (writes env vol st ops).committed, ¬ d.NestedRename) →
        Kept env vol (writes env vol st ops) ∧ Later env vol st (writes env vol st ops) := by
  induction ops using List.reverseRecOn with
  | nil => exact fun h _ => ⟨h, .refl env vol _⟩
  | append_singleton ops op ih =>
      intro st h hn
      have hlast : Fuse.writes env vol st (ops ++ [op]) =
          Fuse.write env vol (Fuse.writes env vol st ops) op := by
        rw [Fuse.writes, List.foldl_concat]
        rfl
      rw [hlast] at hn ⊢
      obtain ⟨hkept, hlater⟩ := ih h fun d hd => hn d ((committed_write _ op).subset hd)
      obtain ⟨hkept', hlater'⟩ := hkept.write henv op hn
      exact ⟨hkept', hlater.trans hlater'⟩

/-! ## What a sync reads -/

/-- The image is that of the committed deltas up to the cursor. -/
def Follows (st : State D S B) (replica : Replica) : Prop :=
  replica.next ≤ st.committed.length ∧
    ∃ readings : Nat → Int,
      replica.image = FsImage.applied readings 0 {} (st.committed.take replica.next)

theorem Follows.later {st st' : State D S B} {replica : Replica} (h : Follows st replica)
    (hl : Later env vol st st') : Follows st' replica := by
  obtain ⟨hle, readings, himage⟩ := h
  obtain ⟨more, hmore⟩ := hl.committed
  rw [Follows, ← hmore, List.take_append_of_le_length hle, List.length_append]
  exact ⟨by omega, readings, himage⟩

/-- Applying the deltas right after the cursor. -/
theorem applyEvent_foldl (clock : Nat → Int) : ∀ {v : Nat} {events : List (Event D)}
    {ds : List Delta} (_ : ReadsAs (deltaOf env) v events ds) {replica : Replica}
    (_ : replica.next = v),
      (events.foldl (Replica.applyEvent env clock) replica).image =
          FsImage.applied clock v replica.image ds ∧
        (events.foldl (Replica.applyEvent env clock) replica).next = v + ds.length
  | _, [], [], _, _, hv => ⟨rfl, hv⟩
  | v, e :: events, d :: ds, ⟨hver, hof, h⟩, replica, hv => by
      have hstep : replayEvent env clock replica.image e = replica.image.apply (clock v) d := by
        have hof : env.delta.decode e.data = .ok d := hof
        rw [replayEvent, hof, hver]
      have hcursor : (Replica.applyEvent env clock replica e).next = v + 1 := by
        rw [Replica.next, Replica.applyEvent, Option.elim_some, hver]
      obtain ⟨himage, hnext⟩ := applyEvent_foldl clock h hcursor
      rw [List.foldl_cons, List.length_cons]
      refine ⟨?_, by omega⟩
      rw [himage, Replica.applyEvent, hstep, FsImage.applied]

section

variable {seen : Nat → State D S B} (hkept : ∀ t, Kept env vol (seen t))
  (hlater : ∀ t t', t ≤ t' → Later env vol (seen t) (seen t'))

theorem readSnapshot_eq (seen : Nat → State D S B) (t : Nat) :
    readStore (fun i => (seen i).remote) (latestSnapshot vol) t =
      (.ok (snapshotAt (seen t).remote.store vol), t + 1) := rfl

include hkept in
/-- A read of the stream sees the records of one state, from the floor of an earlier
one on. -/
theorem readStream_eq (lo t : Nat) :
    readStore (fun i => (seen i).remote) (readEvents vol lo none) t =
      (.ok (between (fun v => ((seen (t + 3)).remote.store.get (.record vol v)).map Event.fromParts)
        (max lo (floorOf (seen t).remote.store vol)) (seen (t + 3)).committed.length), t + 4) := by
  obtain ⟨hist₁, hr₁, -⟩ := (hkept (t + 1)).inv.stored.log.history
  obtain ⟨hist₂, hr₂, -⟩ := (hkept (t + 2)).inv.stored.log.history
  obtain ⟨hist₃, hr₃, -⟩ := (hkept (t + 3)).inv.stored.log.history
  rw [readStore, readEvents, Prog.follow_read_bind, Prog.follow_read_bind, hr₁.deleted, ← hr₃.rows_eq,
    ← hr₂.windowsOf_eq]
  rfl

include hkept hlater in
/-- It finds nothing, or an event past a cut, or all the deltas from `lo` on. -/
theorem readStream_cases (lo t : Nat) :
    ∃ events, readStore (fun i => (seen i).remote) (readEvents vol lo none) t =
        (.ok events, t + 4) ∧
      (events = [] ∨
        (∃ first, events.head? = some first ∧ lo < first.version ∧
          lo < covered (seen (t + 3)).remote.store vol) ∨
        ∃ first, events.head? = some first ∧ ¬ lo < first.version ∧
          lo ≤ (seen (t + 3)).committed.length ∧
          ReadsAs (deltaOf env) lo events ((seen (t + 3)).committed.drop lo)) := by
  refine ⟨_, readStream_eq hkept lo t, ?_⟩
  obtain ⟨hist₀, hr₀, -⟩ := (hkept t).inv.stored.log.history
  obtain ⟨hist, hr, hc⟩ := (hkept (t + 3)).inv.stored.log.history
  have hfloor : floorOf (seen t).remote.store vol ≤ covered (seen (t + 3)).remote.store vol :=
    hr₀.floor.trans (hlater t (t + 3) (by omega)).covered
  generalize floorOf (seen t).remote.store vol = floor at hfloor
  generalize heq : between (fun v => ((seen (t + 3)).remote.store.get (.record vol v)).map
    Event.fromParts) (max lo floor) (seen (t + 3)).committed.length = events
  cases hhead : events.head? with
  | none => exact .inl (List.head?_eq_none_iff.mp hhead)
  | some first =>
      right
      rw [← heq] at hhead
      obtain ⟨v, hlo, hlt, hv, hno⟩ := head?_between _ _ _ _ rfl hhead
      obtain ⟨rec, hrec, rfl⟩ := Option.map_eq_some_iff.mp hv
      have hver : (Event.fromParts rec).version = v := (hr.record v rec hrec).2.1
      by_cases hcut : lo < v
      · refine .inl ⟨_, rfl, by rw [hver]; exact hcut, ?_⟩
        by_cases hf : lo < floor
        · omega
        · -- the record at `lo` is gone, so it is covered
          by_contra hcov
          have hpresent := hr.present lo (by omega) (by omega)
          obtain ⟨old, hold⟩ := Option.isSome_iff_exists.mp hpresent
          have hnone := hno lo (by omega) hcut
          rw [hold] at hnone
          cases hnone
      · obtain rfl : lo = v := by omega
        refine .inr ⟨_, rfl, by rw [hver]; omega, by omega, ?_⟩
        have hall : ∀ w, lo ≤ w → w < (seen (t + 3)).committed.length →
            ((seen (t + 3)).remote.store.get (.record vol w)).isSome = true := by
          intro w hw hwlt
          refine (hkept (t + 3)).window.suffix lo w hw ?_ (by rw [hrec]; rfl)
          rw [hr.next]
          exact hwlt
        have hhist : events = between hist lo (seen (t + 3)).committed.length := by
          rw [← heq, show max lo floor = lo by omega]
          refine between_congr fun w hw hwlt => ?_
          obtain ⟨env', henv'⟩ := Option.isSome_iff_exists.mp (hall w hw hwlt)
          rw [henv', (hr.record w env' henv').2.2]
          rfl
        rw [hhist]
        exact Logged.readsAs_between hr hc _ lo rfl

include hlater in
/-- Segments that were held are fetched. -/
theorem fetchSegments_eq (henv : env.Lawful vol) {t₀ : Nat} {paths : List String}
    {segments : List Segment} (h : List.Forall₂ (Held env vol (seen t₀).remote) paths segments) :
    ∀ (image : FsImage) (t : Nat), t₀ ≤ t →
      fetchSegments env (fun i => (seen i).remote) image paths t =
        (.ok (segments.foldl FsImage.mergeSegment image), t + paths.length) := by
  induction h with
  | nil => exact fun _ _ _ => rfl
  | @cons path segment paths segments hpath _ ih =>
      intro image t ht
      obtain ⟨i, object, hi, rfl, hobject, hdec⟩ := hpath
      have hobject' : (seen t).remote.bucket (env.segmentPath vol i) = some object :=
        ((hlater t₀ t ht).bucket i hi).trans hobject
      rw [fetchSegments, henv.stable, hobject']
      simp only [hdec]
      rw [ih _ (t + 1) (by omega), List.foldl_cons, List.length_cons]
      congr 1
      omega

/-- A replica that applies all deltas past its cursor shows all deltas. -/
theorem Follows.catchUp {st st' : State D S B} {replica : Replica} (h : Follows st replica)
    (hl : Later env vol st st') (clock : Nat → Int) {events : List (Event D)}
    (hreads : ReadsAs (deltaOf env) replica.next events (st'.committed.drop replica.next)) :
    Follows st' (events.foldl (Replica.applyEvent env clock) replica) ∧
      replica.next ≤ (events.foldl (Replica.applyEvent env clock) replica).next := by
  obtain ⟨hle, readings, himage⟩ := h.later hl
  obtain ⟨himage', hnext⟩ := applyEvent_foldl clock hreads rfl
  have hlen : (events.foldl (Replica.applyEvent env clock) replica).next =
      st'.committed.length := by
    rw [hnext, List.length_drop]
    omega
  refine ⟨⟨hlen.le, fun v => if v < replica.next then readings v else clock v, ?_⟩, by omega⟩
  rw [himage', himage, hlen, List.take_length,
    applied_two_clocks _ _ _ (List.length_take_of_le hle), List.take_append_drop]

include hkept hlater in
/-- A reload fails and leaves the replica, or leads past the cursor. -/
theorem reload_cases (henv : env.Lawful vol) (clock : Nat → Int) {replica : Replica} {t : Nat}
    (hcov : replica.next < covered (seen t).remote.store vol) :
    (∃ e t', replica.reload env vol (fun i => (seen i).remote) t = (.error e, replica, t')) ∨
      ∃ events replica' t' u,
        replica.reload env vol (fun i => (seen i).remote) t = (.ok events, replica', t') ∧
        Follows (seen u) (events.foldl (Replica.applyEvent env clock) replica') ∧
        replica.next ≤ (events.foldl (Replica.applyEvent env clock) replica').next := by
  rw [Replica.reload, readSnapshot_eq]
  cases hsnap : snapshotAt (seen t).remote.store vol with
  | none => exact .inl ⟨_, _, rfl⟩
  | some snap =>
      have hthrough : covered (seen t).remote.store vol = snap.throughVersion + 1 := by
        rw [covered, hsnap]
        rfl
      obtain ⟨m, segments, readings, hm, hheld, himage⟩ := (hkept t).inv.stored.manifest
      rw [latestManifest_eq, hsnap] at hm
      have hdec : env.manifest.decode snap.state = .ok m := hm
      have hfetch := fetchSegments_eq hlater henv hheld {} (t + 1) (by omega)
      simp only [hdec, hfetch]
      -- the replica at the checkpoint
      have hbase : Follows (seen t)
          { image := segments.foldl FsImage.mergeSegment {}, cursor := some snap.throughVersion } := by
        refine ⟨?_, readings, ?_⟩
        · show snap.throughVersion + 1 ≤ _
          rw [← hthrough]
          exact (hkept t).inv.stored.log.covered_le
        · rw [himage, hthrough]
          rfl
      obtain ⟨events, hread, hcases⟩ := readStream_cases hkept hlater (snap.throughVersion + 1)
        (t + 1 + m.segments.length)
      simp only [hread]
      rcases hcases with rfl | ⟨first, hfirst, hgap, -⟩ | ⟨first, hfirst, hgap, -, hreads⟩
      · refine .inr ⟨[], _, _, t, rfl, hbase, ?_⟩
        show replica.next ≤ snap.throughVersion + 1
        omega
      · rw [hfirst]
        simp only [Option.filter_some, hgap, decide_true, if_true]
        exact .inl ⟨_, _, rfl⟩
      · rw [hfirst]
        simp only [Option.filter_some, hgap, decide_false, Bool.false_eq_true, if_false]
        obtain ⟨hfollows, hnext⟩ := hbase.catchUp
          (hlater t (t + 1 + m.segments.length + 3) (by omega)) clock hreads
        refine .inr ⟨events, _, _, _, rfl, hfollows, ?_⟩
        refine Nat.le_trans ?_ hnext
        show replica.next ≤ snap.throughVersion + 1
        omega

include hkept hlater in
/-- A sync fails and leaves the replica, or leaves it showing what was committed in one
of the states that it saw, with a cursor that did not go back. -/
theorem sync_cases (henv : env.Lawful vol) (clock : Nat → Int) {replica : Replica} {t : Nat}
    (h : Follows (seen t) replica) :
    let out := replica.sync env vol (fun i => (seen i).remote) clock t
    (∃ u, Follows (seen u) out.2.1) ∧ replica.next ≤ out.2.1.next ∧
      ∀ e, out.1 = .error e → out.2.1 = replica := by
  dsimp only
  rw [Replica.sync]
  obtain ⟨events, hread, hcases⟩ := readStream_cases hkept hlater replica.next t
  simp only [hread]
  rcases hcases with rfl | ⟨first, hfirst, hgap, hcov⟩ | ⟨first, hfirst, hgap, -, hreads⟩
  · simp only [Replica.gap, List.head?_nil, readSnapshot_eq]
    cases hsnap : snapshotAt (seen (t + 4)).remote.store vol with
    | none => exact ⟨⟨t, h⟩, le_rfl, by simp⟩
    | some snap =>
        dsimp only
        by_cases hpast : replica.next ≤ snap.throughVersion
        · have hcov : replica.next < covered (seen (t + 4 + 1)).remote.store vol := by
            refine Nat.lt_of_lt_of_le ?_ (hlater (t + 4) (t + 4 + 1) (by omega)).covered
            rw [covered, hsnap]
            exact Nat.lt_succ_of_le hpast
          -- nothing was read and the snapshot is past the cursor: the image is rebuilt
          rcases reload_cases hkept hlater henv clock hcov with ⟨e, t₁, heq⟩ |
            ⟨events', replica', t₁, u, heq, hfollows, hnext⟩
          · simp only [hpast, decide_true, heq]
            exact ⟨⟨t, h⟩, le_rfl, fun _ _ => trivial⟩
          · simp only [hpast, decide_true, heq]
            exact ⟨⟨u, hfollows⟩, hnext, by simp⟩
        · simp only [hpast, decide_false]
          exact ⟨⟨t, h⟩, le_rfl, by simp⟩
  · rcases reload_cases hkept hlater henv clock
      (hcov.trans_le (hlater (t + 3) (t + 4) (by omega)).covered) with ⟨e, t₁, heq⟩ |
      ⟨events', replica', t₁, u, heq, hfollows, hnext⟩
    · simp only [Replica.gap, hfirst, hgap, decide_true, heq]
      exact ⟨⟨t, h⟩, le_rfl, fun _ _ => trivial⟩
    · simp only [Replica.gap, hfirst, hgap, decide_true, heq]
      exact ⟨⟨u, hfollows⟩, hnext, by simp⟩
  · simp only [Replica.gap, hfirst, hgap, decide_false]
    obtain ⟨hfollows, hnext⟩ := h.catchUp (hlater t (t + 3) (by omega)) clock hreads
    exact ⟨⟨_, hfollows⟩, hnext, by simp⟩

end

/-! ## Runs -/

theorem writes_append [Payload D] (env : Outside D S B) (vol : String) (st : State D S B)
    (ops ops' : List WriterOp) :
    writes env vol st (ops ++ ops') = writes env vol (writes env vol st ops) ops' := by
  rw [writes, writes, writes, List.foldl_append]

theorem committed_writes [Payload D] (ops : List WriterOp) : ∀ st : State D S B,
    st.committed <+: (writes env vol st ops).committed := by
  induction ops with
  | nil => exact fun st => List.prefix_rfl
  | cons op ops ih => exact fun st => (committed_write st op).trans (ih _)

/-- The writer goes on from what a read saw. -/
theorem writes_seenAt [Payload D] (env : Outside D S B) (vol : String) (st : State D S B)
    (gaps : List (List WriterOp)) (t : Nat) :
    writes env vol st gaps.flatten =
      writes env vol (seenAt env vol st gaps t) (gaps.drop (t + 1)).flatten := by
  rw [seenAt, ← writes_append, ← List.flatten_append, List.take_append_drop]

/-- A writer that keeps what it must, and a replica that shows what it committed. -/
structure Follower.Good (env : Outside D S B) (vol : String) (st : Follower D S B) : Prop where
  kept : Kept env vol st.writer
  follows : Follows st.writer st.replica

theorem Follower.Good.start (env : Outside D S B) (vol : String) :
    Follower.Good env vol ({} : Follower D S B) where
  kept := ⟨.start env vol, .empty vol⟩
  follows := ⟨le_rfl, fun _ => 0, rfl⟩

theorem Follower.Good.sync [Payload D] {st : Follower D S B} (h : st.Good env vol)
    (henv : env.Lawful vol) (clock : Nat → Int) (gaps : List (List WriterOp))
    (hn : ∀ d ∈ (st.sync env vol clock gaps).2.writer.committed, ¬ d.NestedRename) :
    let out := st.sync env vol clock gaps
    out.2.Good env vol ∧ st.replica.next ≤ out.2.replica.next ∧
      ∀ e, out.1 = .error e → out.2.replica = st.replica := by
  have hn' : ∀ d ∈ (writes env vol st.writer gaps.flatten).committed, ¬ d.NestedRename := hn
  -- all that is seen was committed in the end
  have hseen : ∀ t, ∀ d ∈ (seenAt env vol st.writer gaps t).committed, ¬ d.NestedRename := by
    intro t d hd
    refine hn' d ?_
    rw [writes_seenAt env vol st.writer gaps t]
    exact (committed_writes _ _).subset hd
  have hkept : ∀ t, Kept env vol (seenAt env vol st.writer gaps t) := fun t =>
    (Kept.writes henv _ h.kept (hseen t)).1
  have hlater : ∀ t t', t ≤ t' →
      Later env vol (seenAt env vol st.writer gaps t) (seenAt env vol st.writer gaps t') := by
    intro t t' ht
    have hsplit : seenAt env vol st.writer gaps t' = writes env vol
        (seenAt env vol st.writer gaps t) ((gaps.take (t' + 1)).drop (t + 1)).flatten := by
      rw [seenAt, seenAt, ← writes_append, ← List.flatten_append]
      congr 2
      rw [show gaps.take (t + 1) = (gaps.take (t' + 1)).take (t + 1) by
        rw [List.take_take, Nat.min_eq_left (by omega)], List.take_append_drop]
    rw [hsplit]
    exact (Kept.writes henv _ (hkept t) (hsplit ▸ hseen t')).2
  have hfirst : Follows (seenAt env vol st.writer gaps 0) st.replica :=
    h.follows.later (Kept.writes henv _ h.kept (hseen 0)).2
  obtain ⟨⟨u, hfollows⟩, hnext, herr⟩ := sync_cases hkept hlater henv clock hfirst
  have hlast : Later env vol (seenAt env vol st.writer gaps u)
      (writes env vol st.writer gaps.flatten) := by
    rw [writes_seenAt env vol st.writer gaps u] at hn' ⊢
    exact (Kept.writes henv _ (hkept u) hn').2
  exact ⟨⟨(Kept.writes henv _ h.kept hn').1, hfollows.later hlast⟩, hnext, herr⟩

theorem committed_move [Payload D] (st : Follower D S B) (move : Move) :
    st.writer.committed <+: (st.step env vol move).writer.committed := by
  cases move with
  | write op => exact committed_write st.writer op
  | sync clock gaps => exact committed_writes gaps.flatten st.writer

theorem Follower.Good.run [Payload D] (henv : env.Lawful vol) (moves : List Move)
    (hn : ∀ d ∈ (follow env vol moves).writer.committed, ¬ d.NestedRename) :
    Follower.Good env vol (follow env vol moves) := by
  induction moves using List.reverseRecOn with
  | nil => exact .start env vol
  | append_singleton moves move ih =>
      have hlast : follow env vol (moves ++ [move]) = (follow env vol moves).step env vol move := by
        rw [follow, List.foldl_concat]
        rfl
      rw [hlast] at hn ⊢
      have h := ih fun d hd => hn d ((committed_move _ move).subset hd)
      cases move with
      | write op =>
          obtain ⟨hkept, hlater⟩ := h.kept.write henv op hn
          exact ⟨hkept, h.follows.later hlater⟩
      | sync clock gaps => exact (h.sync henv clock gaps hn).1

end

section

variable {D S B : Type}

/-- In every run, a sync that succeeds leaves the image of all committed deltas up to
the cursor, applied in order to the empty image at some readings of the clock.  The
cursor does not go back, and a sync that fails changes nothing. -/
theorem sync_follows_writer [Payload D] (env : Outside D S B) (vol : String)
    (henv : env.Lawful vol) (moves : List Move) (clock : Nat → Int)
    (gaps : List (List WriterOp))
    (hn : ∀ d ∈ ((follow env vol moves).sync env vol clock gaps).2.writer.committed,
      ¬ d.NestedRename) :
    let st := follow env vol moves
    let out := st.sync env vol clock gaps
    (out.1 = .ok () → out.2.replica.next ≤ out.2.writer.committed.length ∧
        ∃ readings : Nat → Int, out.2.replica.image =
          FsImage.applied readings 0 {} (out.2.writer.committed.take out.2.replica.next)) ∧
      st.replica.next ≤ out.2.replica.next ∧
      ∀ e, out.1 = .error e → out.2.replica = st.replica := by
  intro st out
  have hgood : st.Good env vol := by
    refine .run henv moves fun d hd => hn d ?_
    exact (committed_writes gaps.flatten _).subset hd
  obtain ⟨hgood', hnext, herr⟩ := hgood.sync henv clock gaps hn
  exact ⟨fun _ => hgood'.follows, hnext, herr⟩

/-- The replica syncs after the first commit.  The second one is sealed. -/
def sealed : List Move :=
  [.write (.of (.mount fun _ => 1)), .write (.of (.mutate 1 (.write "/a" 0 (.inline [1])))),
    .write (.of (.commit 1 stamps none)), .sync (fun _ => 2) [],
    .write (.of (.mutate 3 (.rename "/a" "/b"))), .write (.of (.commit 3 stamps none)),
    .write (.of (.checkpoint 4 stamps (fun _ => 4) "c" none))]

/-- All that the checkpoint covers is purged before the first read of a sync, and the
writer commits once more before it reads the snapshot. -/
def purgedMeanwhile : List (List WriterOp) :=
  [[.purgeBelow 2], [], [], [], [.of (.mutate 5 (.mkdir "/d")), .of (.commit 5 stamps none)]]

theorem sync_follows_writer_sealed :
    let out := (follow plain "v" sealed).sync plain "v" (fun _ => 6) purgedMeanwhile
    (follow plain "v" sealed).replica.cursor = some 0 ∧ out.2.replica.cursor = some 2 ∧
      ∃ readings : Nat → Int, out.2.replica.image =
        FsImage.applied readings 0 {} (out.2.writer.committed.take 3) := by
  intro out
  have hok : out.1 = .ok () := by decide +kernel
  have hcursor : out.2.replica.cursor = some 2 := by decide +kernel
  obtain ⟨himage, -, -⟩ := sync_follows_writer plain "v" (plain_lawful "v") sealed (fun _ => 6)
    purgedMeanwhile (by decide +kernel)
  have hnext : out.2.replica.next = 3 := by rw [Replica.next, hcursor]; rfl
  exact ⟨by decide +kernel, hcursor, hnext ▸ (himage hok).2⟩

end

end Landslide.Fuse
