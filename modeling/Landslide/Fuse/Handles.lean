import Landslide.Guarded
import Landslide.Fuse.Effects
import Landslide.Fuse.Runs

/-!
# Handles that were fenced off

Several handles on one volume.  Each mount takes the fence, and the handles before it
are stale: the append of a stale handle is refused.  Its checkpoint is not, if it has
nothing to append.  It then seals all committed deltas in a segment, and publishes it
as a snapshot through the tail that the handle knew, so that a mount applies the later
deltas once more (`stale_checkpoint_replays_twice`).

Where every checkpoint of a stale handle has something to append, or the handle knows
the tail of the stream or none (`Harmless`), a mount builds the image of all committed
deltas, whatever the stale handles did (`mount_despite_stale`).
-/

namespace Landslide.Fuse

open Std TxnKv

/-! ## Runs of several handles -/

/-- A state of a run.  A mount that failed leaves no handle. -/
structure Shared (D S B : Type) where
  remote : Remote D S B := {}
  /-- The handles in the order of their mounts. -/
  handles : List (Option Volume) := []
  /-- The deltas of the commits that succeeded, as they were appended. -/
  committed : List Delta := []

section

variable {D S B : Type}

/-- A later mount took the fence. -/
def Shared.Stale (st : Shared D S B) (i : Nat) : Prop := i + 1 < st.handles.length

instance (st : Shared D S B) (i : Nat) : Decidable (st.Stale i) :=
  inferInstanceAs (Decidable (_ < _))

/-- The handle of a mount. -/
def Shared.handle (st : Shared D S B) (i : Nat) : Option Volume := (st.handles[i]?).join

/-- One handle with the shared store. -/
def Shared.one (st : Shared D S B) (i : Nat) : State D S B :=
  { remote := st.remote, volume := st.handle i, committed := st.committed }

/-- The shared state after an operation of one handle. -/
def Shared.back (st : Shared D S B) (i : Nat) (one : State D S B) : Shared D S B :=
  { remote := one.remote, handles := st.handles.set i one.volume, committed := one.committed }

/-- An operation of the handle `i`.  A mount makes a new one. -/
def stepOf [Payload D] (env : Outside D S B) (vol : String) (st : Shared D S B)
    (act : Nat × Op) : Shared D S B :=
  match act with
  | (_, .mount clock) =>
      let out := mount env vol clock st.remote
      { st with remote := out.2, handles := st.handles ++ [out.1.toOption] }
  | (i, op) => st.back i (step env vol (st.one i) op)

/-- The state after some operations on an empty store. -/
def runOf [Payload D] (env : Outside D S B) (vol : String) (acts : List (Nat × Op)) :
    Shared D S B :=
  acts.foldl (stepOf env vol) {}

/-- If a stale handle is to checkpoint, it has something to append, or it knows the
tail of the stream or none. -/
def Harmless (vol : String) (st : Shared D S B) : Nat × Op → Prop
  | (i, .checkpoint ..) => st.Stale i → ∀ v, st.handle i = some v →
      v.pending ≠ [] ∨ v.tail = none ∨ v.tail = tailVersion st.remote.store vol
  | _ => True

/-- Every operation of a run is harmless where it happens. -/
def AllHarmless [Payload D] (env : Outside D S B) (vol : String) (acts : List (Nat × Op)) : Prop :=
  ∀ earlier act later, acts = earlier ++ act :: later → Harmless vol (runOf env vol earlier) act

theorem AllHarmless.of_mem [Payload D] {env : Outside D S B} {vol : String} {acts : List (Nat × Op)}
    (h : ∀ act ∈ acts, ∀ st : Shared D S B, Harmless vol st act) : AllHarmless env vol acts :=
  fun earlier act later heq => h act (by rw [heq]; simp) _

theorem AllHarmless.concat [Payload D] {env : Outside D S B} {vol : String}
    {acts : List (Nat × Op)} (h : AllHarmless env vol acts) {act : Nat × Op}
    (hact : Harmless vol (runOf env vol acts) act) : AllHarmless env vol (acts ++ [act]) :=
  Guarded.concat_iff.mpr ⟨h, hact⟩

variable {env : Outside D S B} {vol : String}

/-! ## Steps of one handle -/

/-- An operation of a handle keeps its stream and token. -/
theorem step_hold [Payload D] (env : Outside D S B) (vol : String) (st : State D S B) (op : Op)
    (hop : ∀ clock, op ≠ .mount clock) :
    st.remote.draws ≤ (step env vol st op).remote.draws ∧
      ∀ v', (step env vol st op).volume = some v' →
        ∃ v, st.volume = some v ∧ v'.vol = v.vol ∧ v'.token = v.token := by
  cases hv : st.volume with
  | none =>
      have hsame : step env vol st op = st := by
        cases op with
        | mount clock => exact absurd rfl (hop clock)
        | mutate | truncate | commit | checkpoint => simp [step, hv]
      rw [hsame, hv]
      exact ⟨le_rfl, by simp⟩
  | some v =>
      cases op with
      | mount clock => exact absurd rfl (hop clock)
      | mutate now d =>
          simp only [step, hv]
          refine ⟨le_rfl, ?_⟩
          rintro v' ⟨⟩
          exact ⟨v, rfl, rfl, rfl⟩
      | truncate now path size =>
          obtain ⟨hvol, htoken, -⟩ := v.truncate_hold env now st.remote.bucket path size
          simp only [step, hv]
          refine ⟨le_rfl, ?_⟩
          rintro v' ⟨⟩
          exact ⟨v, rfl, hvol, htoken⟩
      | commit now stamps fault =>
          obtain ⟨hvol, htoken, hdraws, -⟩ := v.commit_frame env now stamps fault st.remote
          simp only [step, hv]
          refine ⟨hdraws.ge, ?_⟩
          rintro v' ⟨⟩
          exact ⟨v, rfl, hvol, htoken⟩
      | checkpoint now stamps clock ulid fault =>
          obtain ⟨hvol, htoken, hdraws, -⟩ := v.commit_frame env now stamps fault st.remote
          obtain ⟨hsame, hle, -⟩ := v.checkpoint_cases env now stamps clock ulid fault st.remote
          simp only [step, hv]
          refine ⟨by omega, ?_⟩
          rintro v' ⟨⟩
          exact ⟨v, rfl, by rw [hsame, hvol], by rw [hsame, htoken]⟩

/-- What it does to the store. -/
theorem step_touched [Payload D] {st : State D S B} {v : Volume} (hv : st.volume = some v) {op : Op}
    (hop : ∀ clock, op ≠ .mount clock) :
    Touched v st.remote.store (step env vol st op).remote.store := by
  cases op with
  | mount clock => exact absurd rfl (hop clock)
  | mutate | truncate =>
      simp only [step, hv]
      exact .same _
  | commit now stamps fault =>
      simp only [step, hv]
      exact v.commit_touched env now stamps fault st.remote
  | checkpoint now stamps clock ulid fault =>
      simp only [step, hv]
      exact v.checkpoint_touched env now stamps clock ulid fault st.remote

theorem stepOf_back [Payload D] (st : Shared D S B) (i : Nat) {op : Op}
    (hop : ∀ clock, op ≠ .mount clock) :
    stepOf env vol st (i, op) = st.back i (step env vol (st.one i) op) := by
  cases op with
  | mount clock => exact absurd rfl (hop clock)
  | mutate | truncate | commit | checkpoint => rfl

/-- Nothing happens to a handle that is not there. -/
theorem step_absent [Payload D] {st : Shared D S B} {i : Nat} {op : Op}
    (hop : ∀ clock, op ≠ .mount clock) (hv : st.handle i = none) :
    step env vol (st.one i) op = st.one i := by
  cases op with
  | mount clock => exact absurd rfl (hop clock)
  | mutate | truncate | commit | checkpoint => simp [step, Shared.one, hv]

theorem stepOf_touched [Payload D] (env : Outside D S B) (vol : String) (st : Shared D S B)
    (i : Nat) {op : Op} (hop : ∀ clock, op ≠ .mount clock) :
    (stepOf env vol st (i, op)).remote.store = st.remote.store ∨
      ∃ v, st.handle i = some v ∧
        Touched v st.remote.store (stepOf env vol st (i, op)).remote.store := by
  rw [stepOf_back st i hop]
  cases hv : st.handle i with
  | none =>
      rw [step_absent hop hv]
      exact .inl rfl
  | some v =>
      have hone : (st.one i).volume = some v := hv
      exact .inr ⟨v, rfl, step_touched hone hop⟩

/-- The handles after an operation of one of them. -/
theorem Shared.handle_back {st : Shared D S B} {i k : Nat} {one : State D S B} {v : Volume}
    (h : (st.back i one).handle k = some v) :
    (k = i ∧ one.volume = some v) ∨ (k ≠ i ∧ st.handle k = some v) := by
  rw [Shared.handle, Shared.back, List.getElem?_set] at h
  split at h
  · next hki =>
    split at h
    · exact .inl ⟨hki.symm, h⟩
    · cases h
  · next hki => exact .inr ⟨fun h => hki h.symm, h⟩

theorem Shared.lt_of_handle {st : Shared D S B} {i : Nat} {v : Volume}
    (h : st.handle i = some v) : i < st.handles.length := by
  by_contra hge
  rw [Shared.handle, List.getElem?_eq_none (by omega)] at h
  cases h

/-- Every handle but the last one is stale. -/
theorem Shared.stale_of_ne {st : Shared D S B} {i k : Nat} {v w : Volume}
    (hv : st.handle i = some v) (hw : st.handle k = some w) (hk : ¬ st.Stale k) (hne : k ≠ i) :
    st.Stale i := by
  have hlt := lt_of_handle hv
  have hlt' := lt_of_handle hw
  unfold Stale at hk ⊢
  omega

/-- The handles after an operation of one that is not there. -/
theorem Shared.handle_back_one {st : Shared D S B} {i k : Nat} {w : Volume}
    (hv : st.handle i = none) (h : (st.back i (st.one i)).handle k = some w) :
    st.handle k = some w := by
  rcases handle_back h with ⟨-, hone⟩ | ⟨-, hold⟩
  · rw [one, hv] at hone
    cases hone
  · exact hold

theorem Shared.stale_back {st : Shared D S B} {i k : Nat} {one : State D S B} :
    (st.back i one).Stale k ↔ st.Stale k := by
  rw [Shared.Stale, Shared.Stale, Shared.back, List.length_set]

/-- The handles after a mount. -/
theorem Shared.handle_concat {st : Shared D S B} {r : Remote D S B} {o : Option Volume} {k : Nat}
    {w : Volume}
    (h : ({ st with remote := r, handles := st.handles ++ [o] } : Shared D S B).handle k = some w) :
    (k < st.handles.length ∧ st.handle k = some w) ∨ (k = st.handles.length ∧ o = some w) := by
  rw [Shared.handle] at h
  by_cases hk : k < st.handles.length
  · rw [List.getElem?_append_left hk] at h
    exact .inl ⟨hk, h⟩
  · rw [List.getElem?_append_right (by omega)] at h
    right
    cases hsub : k - st.handles.length with
    | zero =>
        rw [hsub] at h
        exact ⟨by omega, h⟩
    | succ m =>
        rw [hsub] at h
        cases h

/-- Every handle is one of the volume, with a token that was drawn. -/
def Drawn (env : Outside D S B) (vol : String) (st : Shared D S B) : Prop :=
  ∀ i v, st.handle i = some v → v.vol = vol ∧ ∃ j, j < st.remote.draws ∧ v.token = env.ulid j

theorem Drawn.step [Payload D] {st : Shared D S B} (h : Drawn env vol st) (act : Nat × Op) :
    Drawn env vol (stepOf env vol st act) := by
  obtain ⟨i, op⟩ := act
  have other : (∀ clock, op ≠ .mount clock) →
      Drawn env vol (st.back i (Fuse.step env vol (st.one i) op)) := by
    intro hop k w hw
    obtain ⟨hdraws, hhold⟩ := step_hold env vol (st.one i) op hop
    have hold : ∀ {u : Volume}, st.handle k = some u → u.vol = vol ∧
        ∃ j, j < (Fuse.step env vol (st.one i) op).remote.draws ∧ u.token = env.ulid j := by
      intro u hu
      obtain ⟨huvol, j, hj, hjtok⟩ := h k u hu
      exact ⟨huvol, j, hj.trans_le hdraws, hjtok⟩
    rcases Shared.handle_back hw with ⟨rfl, hone⟩ | ⟨-, hw⟩
    · obtain ⟨v, hv, hvol, htoken⟩ := hhold w hone
      rw [hvol, htoken]
      exact hold hv
    · exact hold hw
  cases op with
  | mount clock =>
      obtain ⟨hr, hok⟩ := mount_cases env vol clock st.remote
      intro k w hw
      have hdraws : (mount env vol clock st.remote).2.draws = st.remote.draws + 1 := by
        rw [hr]
        rfl
      show w.vol = vol ∧ ∃ j, j < (mount env vol clock st.remote).2.draws ∧ w.token = env.ulid j
      rcases Shared.handle_concat hw with ⟨-, hold⟩ | ⟨-, hnew⟩
      · obtain ⟨hwvol, j, hj, hjtok⟩ := h k w hold
        exact ⟨hwvol, j, by omega, hjtok⟩
      · cases hres : (mount env vol clock st.remote).1 with
        | error e =>
            rw [hres] at hnew
            cases hnew
        | ok v =>
            rw [hres] at hnew
            cases hnew
            obtain ⟨hvol, htoken, -, -⟩ := hok w hres
            exact ⟨hvol, st.remote.draws, by omega, htoken⟩
  | mutate | truncate | commit | checkpoint => exact other fun clock => by simp

/-! ## The invariant -/

/-- What holds in every state of a run: the last handle is attached, and the tokens of
the stale ones are not the fence. -/
structure Fenced (env : Outside D S B) (vol : String) (st : Shared D S B) : Prop where
  stored : Stored env vol st.remote st.committed
  drawn : Drawn env vol st
  stale : ∀ i v, st.handle i = some v → st.Stale i →
    ∃ current, st.remote.store.get (.fence vol) = some current ∧ current ≠ v.token
  attached : ∀ i v, st.handle i = some v → ¬ st.Stale i → Attached vol st.remote v

theorem Fenced.start (env : Outside D S B) (vol : String) : Fenced env vol {} where
  stored := .empty env vol
  drawn := by simp [Drawn, Shared.handle]
  stale := by simp [Shared.handle]
  attached := by simp [Shared.handle]

/-- An operation of a handle that keeps what is stored, the fence, and the token of the
handle.  A stale handle must leave the tail of the stream, and the last one know it. -/
theorem Fenced.back {st : Shared D S B} (h : Fenced env vol st) {i : Nat} {v v' : Volume}
    (hv : st.handle i = some v) {r : Remote D S B} {committed : List Delta}
    (hst : Stored env vol r committed) (htoken : v'.token = v.token)
    (hfence : r.store.get (.fence vol) = st.remote.store.get (.fence vol))
    (hdrawn : Drawn env vol (st.back i { remote := r, volume := some v', committed := committed }))
    (hstale : st.Stale i → tailVersion r.store vol = tailVersion st.remote.store vol)
    (hlast : ¬ st.Stale i → Attached vol r v') :
    Fenced env vol (st.back i { remote := r, volume := some v', committed := committed }) where
  stored := hst
  drawn := hdrawn
  stale := by
    intro k w hw hk
    rw [Shared.stale_back] at hk
    show ∃ current, r.store.get (.fence vol) = some current ∧ current ≠ w.token
    rw [hfence]
    rcases Shared.handle_back hw with ⟨rfl, hone⟩ | ⟨-, hold⟩
    · cases hone
      rw [htoken]
      exact h.stale k v hv hk
    · exact h.stale k w hold hk
  attached := by
    intro k w hw hk
    rw [Shared.stale_back] at hk
    rcases Shared.handle_back hw with ⟨rfl, hone⟩ | ⟨hki, hold⟩
    · cases hone
      exact hlast hk
    · have hi := Shared.stale_of_ne hv hold hk hki
      have ha := h.attached k w hold hk
      refine ⟨ha.vol_eq, ?_⟩
      show w.tail = none ∨ w.tail = tailVersion r.store vol
      rw [hstale hi]
      exact ha.tail

/-! ## Steps -/

/-- The uploads of a commit leave what is stored. -/
theorem Stored.uploaded {r : Remote D S B} {committed : List Delta}
    (h : Stored env vol r committed) (henv : env.Lawful vol) (v : Volume) (fault : Option Fault) :
    Stored env vol { r with bucket := v.uploaded env fault r } committed :=
  h.congr (fun _ _ => rfl) le_rfl le_rfl fun i _ => putBlocks_segment henv fault i _ 0 _

/-- A commit of a stale handle appends nothing. -/
theorem Fenced.commit_stale [Payload D] {st : Shared D S B} (h : Fenced env vol st)
    (henv : env.Lawful vol) {i : Nat} {v : Volume} (hv : st.handle i = some v) (hi : st.Stale i)
    (now : Int) (stamps : Nat → Nat → Stamp) (fault : Option Fault) :
    let out := v.commit env now stamps fault st.remote
    out.2.2.store = st.remote.store ∧
      Stored env vol out.2.2 (st.committed ++ if out.1.isOk then v.upgraded env else []) ∧
      (v.pending = [] ∨ ∃ e, out.1 = .error e) := by
  dsimp only
  rcases v.commit_cases env now stamps fault st.remote with ⟨e, v', hne, hold, heq⟩ |
    ⟨hnil, heq⟩ | ⟨events, info, σ₁, image, -, -, happ, -⟩
  · rw [heq]
    refine ⟨rfl, ?_, .inr ⟨e, rfl⟩⟩
    simpa [Except.isOk, Except.toBool] using h.stored.uploaded henv v fault
  · have hnone : v.upgraded env = [] := by rw [Volume.upgraded, hnil]; rfl
    rw [heq, hnone, ite_self, List.append_nil]
    exact ⟨rfl, h.stored, .inl hnil⟩
  · obtain ⟨current, hcur, hne⟩ := h.stale i v hv hi
    refine absurd (happ.fence v.token current rfl ?_) hne
    show st.remote.store.get (.fence v.vol) = some current
    rw [(h.drawn i v hv).1]
    exact hcur

theorem Fenced.commit [Payload D] {st : Shared D S B} (h : Fenced env vol st)
    (henv : env.Lawful vol) {i : Nat} {v : Volume} (hv : st.handle i = some v) (now : Int)
    (stamps : Nat → Nat → Stamp) (fault : Option Fault) :
    Fenced env vol (stepOf env vol st (i, .commit now stamps fault)) := by
  obtain ⟨-, htoken, -, hfence⟩ := v.commit_frame env now stamps fault st.remote
  have hdrawn := h.drawn.step (i, .commit now stamps fault)
  simp only [stepOf, Fuse.step, Shared.one, hv] at hdrawn ⊢
  by_cases hi : st.Stale i
  · obtain ⟨hstore, hst, -⟩ := h.commit_stale henv hv hi now stamps fault
    refine h.back hv hst htoken (hfence vol) hdrawn (fun _ => ?_) fun hlast => absurd hi hlast
    rw [hstore]
  · obtain ⟨hst, hatt⟩ := h.stored.commit henv (h.attached i v hv hi) now stamps fault
    exact h.back hv hst htoken (hfence vol) hdrawn (fun hs => absurd hs hi) fun _ => hatt

theorem Fenced.checkpoint [Payload D] {st : Shared D S B} (h : Fenced env vol st)
    (henv : env.Lawful vol) {i : Nat} {v : Volume} (hv : st.handle i = some v) (now : Int)
    (stamps : Nat → Nat → Stamp) (clock : Nat → Int) (ulid : String) (fault : Option Fault)
    (hharm : Harmless vol st (i, .checkpoint now stamps clock ulid fault))
    (hn : ∀ d ∈ (stepOf env vol st (i, .checkpoint now stamps clock ulid fault)).committed,
      ¬ d.NestedRename) :
    Fenced env vol (stepOf env vol st (i, .checkpoint now stamps clock ulid fault)) := by
  obtain ⟨-, htoken, -, -⟩ := v.commit_frame env now stamps fault st.remote
  obtain ⟨hsame, -, -⟩ := v.checkpoint_cases env now stamps clock ulid fault st.remote
  obtain ⟨hfence, htail⟩ := v.checkpoint_frame env now stamps clock ulid fault st.remote
  have hdrawn := h.drawn.step (i, .checkpoint now stamps clock ulid fault)
  simp only [stepOf, Fuse.step, Shared.one, hv] at hn hdrawn ⊢
  have htoken' := (congrArg Volume.token hsame).trans htoken
  by_cases hi : st.Stale i
  · obtain ⟨hstore, hst, hnil⟩ := h.commit_stale henv hv hi now stamps fault
    refine h.back hv ?_ htoken' (hfence vol) hdrawn (fun _ => ?_) fun hlast => absurd hi hlast
    swap
    · rw [htail, hstore]
    rcases hnil with hnil | ⟨e, he⟩
    · -- what the handle knows of the tail is right
      have ha : Attached vol st.remote v :=
        ⟨(h.drawn i v hv).1, (hharm hi v hv).resolve_left (· hnil)⟩
      exact (h.stored.checkpoint henv ha now stamps clock ulid fault hn).1
    · have hout : (v.checkpoint env now stamps clock ulid fault st.remote).2.2 =
          (v.commit env now stamps fault st.remote).2.2 := by
        rw [Volume.checkpoint]
        cases hc : v.commit env now stamps fault st.remote with
        | mk res rest =>
        rw [hc] at he
        cases he
        rfl
      rw [hout]
      exact hst
  · obtain ⟨hst, hatt⟩ :=
      h.stored.checkpoint henv (h.attached i v hv hi) now stamps clock ulid fault hn
    exact h.back hv hst htoken' (hfence vol) hdrawn (fun hs => absurd hs hi) fun _ => hatt

theorem Fenced.mount [Payload D] {st : Shared D S B} (h : Fenced env vol st)
    (henv : env.Lawful vol) (hulid : ∀ j, env.ulid j ≠ "") (i : Nat) (clock : Nat → Int) :
    Fenced env vol (stepOf env vol st (i, .mount clock)) := by
  obtain ⟨v, r', hmount, hst, hatt, -⟩ := h.stored.mount henv clock
  obtain ⟨hr, hok⟩ := mount_cases env vol clock st.remote
  rw [hmount] at hr hok
  obtain ⟨-, htoken, -, -⟩ := hok v rfl
  dsimp only at hr
  have hfence : r'.store.get (.fence vol) = some v.token := by
    rw [hr, htoken, fencedOff, get_fenced_self]
    simp [hulid]
  have hdrawn := h.drawn.step (i, .mount clock)
  simp only [stepOf, hmount] at hdrawn ⊢
  refine ⟨hst, hdrawn, ?_, ?_⟩
  · intro k w hw hk
    refine ⟨v.token, hfence, fun heq => ?_⟩
    rcases Shared.handle_concat hw with ⟨-, hold⟩ | ⟨rfl, -⟩
    · -- the token of the mount was not drawn before
      obtain ⟨-, j, hj, hjtok⟩ := h.drawn k w hold
      have hpath : env.segmentPath vol j = env.segmentPath vol st.remote.draws := by
        rw [Outside.segmentPath, Outside.segmentPath, ← hjtok, ← heq, htoken]
      have := henv.fresh _ _ hpath
      omega
    · simp [Shared.Stale] at hk
  · intro k w hw hk
    rcases Shared.handle_concat hw with ⟨hlt, -⟩ | ⟨-, hnew⟩
    · refine absurd ?_ hk
      simp [Shared.Stale]
      omega
    · cases hnew
      exact hatt

/-- A change of a handle's buffer. -/
theorem Fenced.buffer {st : Shared D S B} (h : Fenced env vol st) {i : Nat} {v v' : Volume}
    (hv : st.handle i = some v) (hvol : v'.vol = v.vol) (htoken : v'.token = v.token)
    (htail : v'.tail = v.tail)
    (hdrawn : Drawn env vol (st.back i { st.one i with volume := some v' })) :
    Fenced env vol (st.back i { st.one i with volume := some v' }) :=
  h.back hv h.stored htoken rfl hdrawn (fun _ => rfl) fun hlast =>
    (h.attached i v hv hlast).congr hvol htail rfl

theorem Fenced.absent [Payload D] {st : Shared D S B} (h : Fenced env vol st) {i : Nat} {op : Op}
    (hv : st.handle i = none) (hop : ∀ clock, op ≠ .mount clock) :
    Fenced env vol (st.back i (Fuse.step env vol (st.one i) op)) := by
  rw [step_absent hop hv]
  refine ⟨h.stored, fun k w hw => h.drawn k w (Shared.handle_back_one hv hw),
    fun k w hw hk => ?_, fun k w hw hk => ?_⟩
  · exact h.stale k w (Shared.handle_back_one hv hw) (Shared.stale_back.mp hk)
  · exact h.attached k w (Shared.handle_back_one hv hw) fun hs => hk (Shared.stale_back.mpr hs)

/-- Every operation that is harmless keeps the invariant. -/
theorem Fenced.step [Payload D] {st : Shared D S B} (h : Fenced env vol st) (henv : env.Lawful vol)
    (hulid : ∀ j, env.ulid j ≠ "") (act : Nat × Op) (hharm : Harmless vol st act)
    (hn : ∀ d ∈ (stepOf env vol st act).committed, ¬ d.NestedRename) :
    Fenced env vol (stepOf env vol st act) := by
  obtain ⟨i, op⟩ := act
  cases hv : st.handle i with
  | none =>
      cases op with
      | mount clock => exact h.mount henv hulid i clock
      | mutate | truncate | commit | checkpoint =>
          exact h.absent hv fun clock => by simp
  | some v =>
      cases op with
      | mount clock => exact h.mount henv hulid i clock
      | mutate now d =>
          have hdrawn := h.drawn.step (i, .mutate now d)
          simp only [stepOf, Fuse.step, Shared.one, hv] at hdrawn ⊢
          exact h.buffer hv rfl rfl rfl hdrawn
      | truncate now path size =>
          obtain ⟨hvol, htoken, htail⟩ := v.truncate_hold env now st.remote.bucket path size
          have hdrawn := h.drawn.step (i, .truncate now path size)
          simp only [stepOf, Fuse.step, Shared.one, hv] at hdrawn ⊢
          exact h.buffer hv hvol htoken htail hdrawn
      | commit now stamps fault => exact h.commit henv hv now stamps fault
      | checkpoint now stamps clock ulid fault =>
          exact h.checkpoint henv hv now stamps clock ulid fault hharm hn

theorem committed_stepOf [Payload D] (env : Outside D S B) (vol : String) (st : Shared D S B)
    (act : Nat × Op) : ∃ more, (stepOf env vol st act).committed = st.committed ++ more := by
  obtain ⟨i, op⟩ := act
  cases op with
  | mount clock => exact ⟨[], by simp [stepOf]⟩
  | mutate | truncate | commit | checkpoint => exact committed_step env vol (st.one i) _

theorem runOf_concat [Payload D] (env : Outside D S B) (vol : String) (acts : List (Nat × Op))
    (act : Nat × Op) :
    runOf env vol (acts ++ [act]) = stepOf env vol (runOf env vol acts) act := by
  rw [runOf, List.foldl_concat]
  rfl

/-- What was committed stays committed. -/
theorem mem_committed_concat [Payload D] {acts : List (Nat × Op)} {d : Delta}
    (h : d ∈ (runOf env vol acts).committed) (act : Nat × Op) :
    d ∈ (runOf env vol (acts ++ [act])).committed := by
  obtain ⟨more, hmore⟩ := committed_stepOf env vol (runOf env vol acts) act
  rw [runOf_concat, hmore]
  exact List.mem_append_left _ h

/-- Every run of harmless operations keeps the invariant, as long as no rename between
nested paths was committed. -/
theorem Fenced.run [Payload D] (henv : env.Lawful vol) (hulid : ∀ j, env.ulid j ≠ "")
    (acts : List (Nat × Op))
    (hharm : AllHarmless env vol acts)
    (hn : ∀ d ∈ (runOf env vol acts).committed, ¬ d.NestedRename) :
    Fenced env vol (runOf env vol acts) := by
  refine Guarded.run_of_step (P := fun acts => (∀ d ∈ (runOf env vol acts).committed,
    ¬ d.NestedRename) → Fenced env vol (runOf env vol acts)) (fun _ => .start env vol)
    (fun acts act ih hharm hn => ?_) hharm hn
  have hinit := ih fun d hd => hn d (mem_committed_concat hd act)
  rw [runOf_concat] at hn ⊢
  exact hinit.step henv hulid act hharm hn

/-- After every run of harmless operations of all handles, a mount succeeds and builds
the image of all committed deltas applied in order to the empty image, at some
readings of the clock. -/
theorem mount_despite_stale [Payload D] (env : Outside D S B) (vol : String)
    (henv : env.Lawful vol) (hulid : ∀ j, env.ulid j ≠ "") (acts : List (Nat × Op))
    (hharm : AllHarmless env vol acts)
    (hn : ∀ d ∈ (runOf env vol acts).committed, ¬ d.NestedRename) (clock : Nat → Int) :
    ∃ v r, Fuse.mount env vol clock (runOf env vol acts).remote = (.ok v, r) ∧
      ∃ readings : Nat → Int,
        v.image = FsImage.applied readings 0 {} (runOf env vol acts).committed := by
  obtain ⟨v, r, hmount, -, -, himage⟩ := (Fenced.run henv hulid acts hharm hn).stored.mount henv clock
  exact ⟨v, r, hmount, himage⟩

end

/-! ## Concrete runs -/

/-- As `plain`, with ULIDs that are not empty. -/
def named : Outside Delta Manifest (Segment ⊕ Bytes) :=
  { plain with ulid := fun i => String.ofList (List.replicate (i + 1) 'u') }

theorem named_lawful (vol : String) : named.Lawful vol where
  delta a := ⟨a, rfl, rfl⟩
  segment a := ⟨.inl a, rfl, rfl⟩
  manifest a := ⟨a, rfl, rfl⟩
  fresh i j h := by
    have hlen := congrArg String.length h
    simpa [Outside.segmentPath, named, plain, toString] using hlen
  apart i hash h := by
    have hhead := congrArg (fun s => s.toList.head?) h
    simp [Outside.segmentPath, Outside.blockPath, named, plain, toString] at hhead
  stable _ := rfl

theorem named_ulid (j : Nat) : named.ulid j ≠ "" := by
  intro h
  have hlen := congrArg String.length h
  simp [named] at hlen

/-- The first handle writes `/a`.  Then another is mounted, which renames it and writes
`/a` again. -/
def takenOver : List (Nat × Op) :=
  [(0, .mount fun _ => 1), (0, .mutate 1 (.write "/a" 0 (.inline [1]))), (0, .commit 1 stamps none),
    (0, .mount fun _ => 2), (1, .mutate 2 (.rename "/a" "/b")),
    (1, .mutate 2 (.write "/a" 0 (.inline [2]))), (1, .commit 2 stamps none)]

/-- The first handle has something to append when it is to checkpoint. -/
theorem mount_despite_stale_takenOver :
    let acts := takenOver ++ [(0, .mutate 3 (.mkdir "/d"))] ++
      [(0, .checkpoint 3 stamps (fun _ => 3) "c" none)]
    (runOf named "v" acts).Stale 0 ∧
      ∃ v r, mount named "v" (fun _ => 4) (runOf named "v" acts).remote = (.ok v, r) ∧
        ∃ readings : Nat → Int,
          v.image = FsImage.applied readings 0 {} (runOf named "v" acts).committed := by
  refine ⟨by decide +kernel, mount_despite_stale named "v" (named_lawful "v") named_ulid _ ?_
    (by decide +kernel) _⟩
  refine AllHarmless.concat (.of_mem fun act hact st => ?_) fun _ v hv => .inl ?_
  · simp only [takenOver, List.cons_append, List.nil_append, List.mem_cons, List.not_mem_nil,
      or_false] at hact
    rcases hact with rfl | rfl | rfl | rfl | rfl | rfl | rfl | rfl <;> trivial
  · have hpending : ((runOf named "v" (takenOver ++ [(0, .mutate 3 (.mkdir "/d"))])).handle 0).all
        (fun v => v.pending ≠ []) = true := by decide +kernel
    rw [hv] at hpending
    simpa using hpending

/-- The content of a file. -/
def contentAt (image : FsImage) (path : String) : Option Content :=
  match image.get path with
  | some (.file content _) => some content
  | _ => none

/-- The first handle has nothing to append, and seals what the second one committed
as a snapshot of the first delta.  A mount then renames `/a` once more, and `/b` shows
the second content of `/a`. -/
theorem stale_checkpoint_replays_twice :
    let acts := takenOver ++ [(0, .checkpoint 3 stamps (fun _ => 3) "c" none)]
    (∀ d ∈ (runOf named "v" acts).committed, ¬ d.NestedRename) ∧
      (runOf named "v" takenOver).Stale 0 ∧
      (runOf named "v" acts).committed = (runOf named "v" takenOver).committed ∧
      ∃ v r, mount named "v" (fun _ => 4) (runOf named "v" acts).remote = (.ok v, r) ∧
        contentAt v.image "/b" = some (.inline [2]) ∧
        ∀ readings : Nat → Int,
          contentAt (FsImage.applied readings 0 {} (runOf named "v" acts).committed) "/b" =
            some (.inline [1]) := by
  intro acts
  have hcommitted : (runOf named "v" acts).committed =
      [.write "/a" 0 (.inline [1]), .rename "/a" "/b", .write "/a" 0 (.inline [2])] := by
    decide +kernel
  have hmount : ((mount named "v" (fun _ => 4) (runOf named "v" acts).remote).1.toOption.bind
      fun v => contentAt v.image "/b") = some (.inline [2]) := by decide +kernel
  refine ⟨by decide +kernel, by decide +kernel, by decide +kernel, ?_⟩
  cases hout : mount named "v" (fun _ => 4) (runOf named "v" acts).remote with
  | mk res r =>
  rw [hout] at hmount
  cases res with
  | error e => cases hmount
  | ok v =>
      refine ⟨v, r, rfl, hmount, fun readings => ?_⟩
      rw [hcommitted]
      rfl

end Landslide.Fuse
