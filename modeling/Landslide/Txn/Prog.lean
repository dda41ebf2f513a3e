import Landslide.Txn.Store

/-!
# Transaction programs

A `Prog` is the body of one transaction: a tree of reads, writes and unmarkings
that ends in a value or in an error.  It runs on a *view*, the snapshot of the
transaction with its own writes on top, and it leaves a *footprint*: the ranges
it read, the writes it buffered and the keys whose writes are still tracked for
conflict detection.

The footprint is what a commit depends on.  `Prog.run_congr` says that a run
repeats on every store that agrees with the first one on the ranges read, with
the same value and the same footprint.  `Prog.run_writes` says that the view is
the store with the buffered writes applied.
-/

set_option linter.unusedSectionVars false

namespace TxnKv

open Std

/-! ## Programs -/

/-- The body of a transaction, with errors in `E` and values in `α`. -/
inductive Prog (K : Type) (V : K → Type) (E α : Type) : Type where
  /-- End with a value: the transaction asks to commit. -/
  | pure (a : α)
  /-- End with an error: the transaction is dropped. -/
  | throw (e : E)
  /-- Read one key. -/
  | get (k : K) (next : Option (V k) → Prog K V E α)
  /-- Read a range in key order. -/
  | scan (range : K → Bool) (next : List ((k : K) × V k) → Prog K V E α)
  /-- Buffer a write. -/
  | put (k : K) (v : V k) (next : Prog K V E α)
  /-- Buffer a deletion. -/
  | delete (k : K) (next : Prog K V E α)
  /-- Leave the write of a key out of conflict detection. -/
  | unmark (k : K) (next : Prog K V E α)

namespace Prog

variable {K : Type} {V : K → Type} {E α β : Type}

/-- Sequencing.  An error ends the whole program. -/
def bind : Prog K V E α → (α → Prog K V E β) → Prog K V E β
  | .pure a, f => f a
  | .throw e, _ => .throw e
  | .get k next, f => .get k fun o => (next o).bind f
  | .scan range next, f => .scan range fun es => (next es).bind f
  | .put k v next, f => .put k v (next.bind f)
  | .delete k next, f => .delete k (next.bind f)
  | .unmark k next, f => .unmark k (next.bind f)

instance : Monad (Prog K V E) where
  pure := .pure
  bind := .bind

/-- Read one key and return it. -/
def read (k : K) : Prog K V E (Option (V k)) := .get k .pure

/-- Read a range and return it. -/
def readRange (range : K → Bool) : Prog K V E (List ((k : K) × V k)) := .scan range .pure

/-- Write one key. -/
def write (k : K) (v : V k) : Prog K V E Unit := .put k v (.pure ())

/-- Delete one key. -/
def remove (k : K) : Prog K V E Unit := .delete k (.pure ())

/-- Unmark one key. -/
def unmarkWrite (k : K) : Prog K V E Unit := .unmark k (.pure ())

@[simp] theorem bind_pure_left (a : α) (f : α → Prog K V E β) :
    (Pure.pure a : Prog K V E α) >>= f = f a := rfl

@[simp] theorem bind_throw (e : E) (f : α → Prog K V E β) :
    (.throw e : Prog K V E α) >>= f = .throw e := rfl

end Prog

/-! ## Footprints and views -/

/-- What a run leaves behind: ranges read, writes buffered, keys tracked. -/
structure Footprint (K : Type) (V : K → Type) where
  /-- The ranges read, a point read being a range of one key. -/
  reads : List (K → Bool) := []
  /-- The buffered writes, oldest first. -/
  writes : List (Write K V) := []
  /-- The written keys that take part in conflict detection. -/
  tracked : List K := []

namespace Footprint

variable {K : Type} {V : K → Type}

/-- `k` lies in a range that was read. -/
def Reads (f : Footprint K V) (k : K) : Prop := ∃ range ∈ f.reads, range k = true

/-- `k` was written or deleted. -/
def Writes (f : Footprint K V) (k : K) : Prop := ∃ w ∈ f.writes, w.1 = k

instance (f : Footprint K V) (k : K) : Decidable (f.Reads k) :=
  inferInstanceAs (Decidable (∃ range ∈ f.reads, range k = true))

instance [DecidableEq K] (f : Footprint K V) (k : K) : Decidable (f.Writes k) :=
  inferInstanceAs (Decidable (∃ w ∈ f.writes, w.1 = k))

end Footprint

section

variable {K : Type} [Ord K] [TransOrd K] [LawfulEqOrd K] [DecidableEq K] {V : K → Type}
variable {E α β : Type}

/-- A running transaction: its view of the store and its footprint so far. -/
structure Txn (K : Type) [Ord K] (V : K → Type) where
  /-- The snapshot with the transaction's own writes applied. -/
  view : Store K V
  /-- What the transaction did so far. -/
  foot : Footprint K V := {}

namespace Txn

/-- A transaction that begins on a snapshot. -/
def begin (σ : Store K V) : Txn K V := { view := σ }

/-- A range was read. -/
def noteRead (t : Txn K V) (range : K → Bool) : Txn K V :=
  { t with foot := { t.foot with reads := t.foot.reads ++ [range] } }

/-- A write was buffered. -/
def noteWrite (t : Txn K V) (w : Write K V) : Txn K V :=
  { view := t.view.apply w
    foot := { t.foot with writes := t.foot.writes ++ [w], tracked := t.foot.tracked ++ [w.1] } }

/-- A key was unmarked. -/
def noteUnmark (t : Txn K V) (k : K) : Txn K V :=
  { t with foot := { t.foot with tracked := t.foot.tracked.filter (· ≠ k) } }

end Txn

namespace Prog

/-- The whole run of a program on a transaction. -/
def run : Prog K V E α → Txn K V → Except E (α × Txn K V)
  | .pure a, t => .ok (a, t)
  | .throw e, _ => .error e
  | .get k next, t => (next (t.view.get k)).run (t.noteRead (· = k))
  | .scan range next, t => (next (t.view.scan range)).run (t.noteRead range)
  | .put k v next, t => next.run (t.noteWrite ⟨k, some v⟩)
  | .delete k next, t => next.run (t.noteWrite ⟨k, none⟩)
  | .unmark k next, t => next.run (t.noteUnmark k)

/-- One step of a program; none at its end. -/
def step : Prog K V E α → Txn K V → Option (Prog K V E α × Txn K V)
  | .pure _, _ => none
  | .throw _, _ => none
  | .get k next, t => some (next (t.view.get k), t.noteRead (· = k))
  | .scan range next, t => some (next (t.view.scan range), t.noteRead range)
  | .put k v next, t => some (next, t.noteWrite ⟨k, some v⟩)
  | .delete k next, t => some (next, t.noteWrite ⟨k, none⟩)
  | .unmark k next, t => some (next, t.noteUnmark k)

/-- The value a read-only program returns on a fixed store.  Writes are skipped. -/
def eval : Prog K V E α → Store K V → Except E α
  | .pure a, _ => .ok a
  | .throw e, _ => .error e
  | .get k next, σ => (next (σ.get k)).eval σ
  | .scan range next, σ => (next (σ.scan range)).eval σ
  | .put _ _ next, σ => next.eval σ
  | .delete _ next, σ => next.eval σ
  | .unmark _ next, σ => next.eval σ

/-- The value of a read-only program whose reads may see one state after another, and
the number of the next read.  Read `t` sees `seen t`. -/
def follow (seen : Nat → Store K V) : Prog K V E α → Nat → Except E α × Nat
  | .pure a, t => (.ok a, t)
  | .throw e, t => (.error e, t)
  | .get k next, t => (next ((seen t).get k)).follow seen (t + 1)
  | .scan range next, t => (next ((seen t).scan range)).follow seen (t + 1)
  | .put _ _ next, t => next.follow seen t
  | .delete _ next, t => next.follow seen t
  | .unmark _ next, t => next.follow seen t

/-- A step does not change the whole run. -/
theorem run_step {p p' : Prog K V E α} {t t' : Txn K V} (h : p.step t = some (p', t')) :
    p.run t = p'.run t' := by
  cases p <;> simp only [step, Option.some.injEq, Prod.mk.injEq, reduceCtorEq] at h <;>
    obtain ⟨rfl, rfl⟩ := h <;> rfl

/-! ### Equations of a run -/

@[simp] theorem run_pure (a : α) (t : Txn K V) :
    (Pure.pure a : Prog K V E α).run t = .ok (a, t) := rfl

@[simp] theorem run_throw (e : E) (t : Txn K V) :
    (.throw e : Prog K V E α).run t = .error e := rfl

/-- A run of a sequence is the run of its parts. -/
theorem run_bind (p : Prog K V E α) (f : α → Prog K V E β) (t : Txn K V) :
    (p >>= f).run t =
      match p.run t with
      | .error e => .error e
      | .ok (a, t') => (f a).run t' := by
  change (p.bind f).run t = _
  induction p generalizing t with
  | pure a => rfl
  | throw e => rfl
  | get k next ih => exact ih _ _
  | scan range next ih => exact ih _ _
  | put k v next ih => exact ih _
  | delete k next ih => exact ih _
  | unmark k next ih => exact ih _

/-- A successful sequence splits into two successful runs. -/
theorem run_bind_ok {p : Prog K V E α} {f : α → Prog K V E β} {t t' : Txn K V} {b : β}
    (h : (p >>= f).run t = .ok (b, t')) :
    ∃ a t₁, p.run t = .ok (a, t₁) ∧ (f a).run t₁ = .ok (b, t') := by
  rw [run_bind] at h
  cases hp : p.run t with
  | error e => rw [hp] at h; cases h
  | ok r => rw [hp] at h; exact ⟨r.1, r.2, rfl, h⟩

/-- An evaluation of a sequence is the evaluation of its parts. -/
theorem eval_bind (p : Prog K V E α) (f : α → Prog K V E β) (σ : Store K V) :
    (p >>= f).eval σ =
      match p.eval σ with
      | .error e => .error e
      | .ok a => (f a).eval σ := by
  change (p.bind f).eval σ = _
  induction p with
  | pure a => rfl
  | throw e => rfl
  | get k next ih => exact ih _
  | scan range next ih => exact ih _
  | put k v next ih => exact ih
  | delete k next ih => exact ih
  | unmark k next ih => exact ih

theorem eval_bind_ok {p : Prog K V E α} {f : α → Prog K V E β} {σ : Store K V} {a : α}
    (h : p.eval σ = .ok a) : (p >>= f).eval σ = (f a).eval σ := by
  rw [eval_bind, h]

theorem eval_bind_congr {p : Prog K V E α} {f : α → Prog K V E β} {σ τ : Store K V}
    (hp : p.eval σ = p.eval τ) (hf : ∀ a, (f a).eval σ = (f a).eval τ) :
    (p >>= f).eval σ = (p >>= f).eval τ := by
  rw [eval_bind, eval_bind, hp]
  cases p.eval τ with
  | error e => rfl
  | ok a => exact hf a

/-- Sequences with the same first part differ as their rests do. -/
theorem eval_bind_right {p : Prog K V E α} {f g : α → Prog K V E β} {σ : Store K V}
    (h : ∀ a, (f a).eval σ = (g a).eval σ) : (p >>= f).eval σ = (p >>= g).eval σ := by
  rw [eval_bind, eval_bind]
  cases p.eval σ with
  | error e => rfl
  | ok a => exact h a

@[simp] theorem eval_pure (a : α) (σ : Store K V) :
    (Pure.pure a : Prog K V E α).eval σ = .ok a := rfl

@[simp] theorem eval_read_bind (k : K) (f : Option (V k) → Prog K V E β) (σ : Store K V) :
    (read k >>= f).eval σ = (f (σ.get k)).eval σ := rfl

@[simp] theorem eval_readRange_bind (range : K → Bool)
    (f : List ((k : K) × V k) → Prog K V E β) (σ : Store K V) :
    (readRange range >>= f).eval σ = (f (σ.scan range)).eval σ := rfl

@[simp] theorem follow_pure (seen : Nat → Store K V) (a : α) (t : Nat) :
    (Pure.pure a : Prog K V E α).follow seen t = (.ok a, t) := rfl

@[simp] theorem follow_read_bind (seen : Nat → Store K V) (k : K)
    (f : Option (V k) → Prog K V E β) (t : Nat) :
    (read k >>= f).follow seen t = (f ((seen t).get k)).follow seen (t + 1) := rfl

@[simp] theorem run_read_bind (k : K) (f : Option (V k) → Prog K V E β) (t : Txn K V) :
    (read k >>= f).run t = (f (t.view.get k)).run (t.noteRead (· = k)) := rfl

@[simp] theorem run_readRange_bind (range : K → Bool)
    (f : List ((k : K) × V k) → Prog K V E β) (t : Txn K V) :
    (readRange range >>= f).run t = (f (t.view.scan range)).run (t.noteRead range) := rfl

@[simp] theorem run_write_bind (k : K) (v : V k) (f : Unit → Prog K V E β) (t : Txn K V) :
    (write k v >>= f).run t = (f ()).run (t.noteWrite ⟨k, some v⟩) := rfl

@[simp] theorem run_remove_bind (k : K) (f : Unit → Prog K V E β) (t : Txn K V) :
    (remove k >>= f).run t = (f ()).run (t.noteWrite ⟨k, none⟩) := rfl

@[simp] theorem run_unmarkWrite_bind (k : K) (f : Unit → Prog K V E β) (t : Txn K V) :
    (unmarkWrite k >>= f).run t = (f ()).run (t.noteUnmark k) := rfl

end Prog

namespace Txn

@[simp] theorem view_begin (σ : Store K V) : (Txn.begin σ).view = σ := rfl

@[simp] theorem foot_begin (σ : Store K V) : (Txn.begin σ).foot = {} := rfl

@[simp] theorem view_noteRead (t : Txn K V) (range : K → Bool) :
    (t.noteRead range).view = t.view := rfl

@[simp] theorem view_noteWrite (t : Txn K V) (w : Write K V) :
    (t.noteWrite w).view = t.view.apply w := rfl

@[simp] theorem view_noteUnmark (t : Txn K V) (k : K) : (t.noteUnmark k).view = t.view := rfl

theorem writes_noteWrite {t : Txn K V} {w : Write K V} {k : K} :
    (t.noteWrite w).foot.Writes k ↔ t.foot.Writes k ∨ w.1 = k := by
  simp [Footprint.Writes, noteWrite, or_and_right, exists_or]

end Txn

/-! ## What a run adds -/

namespace Prog

/-- A run appends its writes to the buffer and applies them to the view. -/
theorem run_writes {p : Prog K V E α} {t t' : Txn K V} {a : α} (h : p.run t = .ok (a, t')) :
    ∃ ws, t'.foot.writes = t.foot.writes ++ ws ∧ t'.view = t.view.applyAll ws := by
  induction p generalizing t with
  | pure a => cases h; exact ⟨[], by simp⟩
  | throw e => cases h
  | get k next ih => exact ih _ (t := t.noteRead (· = k)) h
  | scan range next ih => exact ih _ (t := t.noteRead range) h
  | put k v next ih =>
      obtain ⟨ws, hw, hv⟩ := ih (t := t.noteWrite ⟨k, some v⟩) h
      exact ⟨⟨k, some v⟩ :: ws, by simp [hw, Txn.noteWrite], hv⟩
  | delete k next ih =>
      obtain ⟨ws, hw, hv⟩ := ih (t := t.noteWrite ⟨k, none⟩) h
      exact ⟨⟨k, none⟩ :: ws, by simp [hw, Txn.noteWrite], hv⟩
  | unmark k next ih => exact ih (t := t.noteUnmark k) h

/-- The view of a finished transaction is its snapshot with its writes. -/
theorem view_of_run_begin {p : Prog K V E α} {σ : Store K V} {t : Txn K V} {a : α}
    (h : p.run (.begin σ) = .ok (a, t)) : t.view = σ.applyAll t.foot.writes := by
  obtain ⟨ws, hw, hv⟩ := run_writes h
  rw [hv, hw]
  simp

/-- A run appends the ranges it reads. -/
theorem run_reads {p : Prog K V E α} {t t' : Txn K V} {a : α} (h : p.run t = .ok (a, t')) :
    ∃ rs, t'.foot.reads = t.foot.reads ++ rs := by
  induction p generalizing t with
  | pure a => cases h; exact ⟨[], by simp⟩
  | throw e => cases h
  | get k next ih =>
      obtain ⟨rs, hr⟩ := ih _ (t := t.noteRead (· = k)) h
      exact ⟨(· = k) :: rs, by rw [hr]; simp [Txn.noteRead]⟩
  | scan range next ih =>
      obtain ⟨rs, hr⟩ := ih _ (t := t.noteRead range) h
      exact ⟨range :: rs, by rw [hr]; simp [Txn.noteRead]⟩
  | put k v next ih => exact ih (t := t.noteWrite ⟨k, some v⟩) h
  | delete k next ih => exact ih (t := t.noteWrite ⟨k, none⟩) h
  | unmark k next ih => exact ih (t := t.noteUnmark k) h

/-- A range that was read stays in the footprint. -/
theorem reads_of_noteRead {p : Prog K V E α} {t t' : Txn K V} {a : α} (range : K → Bool) {k : K}
    (h : p.run (t.noteRead range) = .ok (a, t')) (hk : range k = true) : t'.foot.Reads k := by
  obtain ⟨rs, hr⟩ := run_reads h
  exact ⟨range, by rw [hr]; simp [Txn.noteRead], hk⟩

/-- A run repeats on every view that agrees with the first one on what was
read, with the same value and footprint. -/
theorem run_congr {p : Prog K V E α} {t t' u : Txn K V} {a : α} (h : p.run t = .ok (a, t'))
    (hf : u.foot = t.foot) (hv : ∀ k, t'.foot.Reads k → u.view.get k = t.view.get k) :
    ∃ u', p.run u = .ok (a, u') ∧ u'.foot = t'.foot := by
  induction p generalizing t u with
  | pure a => cases h; exact ⟨u, rfl, hf⟩
  | throw e => cases h
  | get k next ih =>
      have hk : u.view.get k = t.view.get k :=
        hv k (reads_of_noteRead (t := t) (· = k) h (by simp))
      simp only [run, hk] at h ⊢
      exact ih _ h (by simp [Txn.noteRead, hf]) hv
  | scan range next ih =>
      have hs : u.view.scan range = t.view.scan range :=
        Store.scan_congr fun k hr => hv k (reads_of_noteRead (t := t) range h hr)
      simp only [run, hs] at h ⊢
      exact ih _ h (by simp [Txn.noteRead, hf]) hv
  | put k v next ih =>
      refine ih (t := t.noteWrite ⟨k, some v⟩) h (by simp [Txn.noteWrite, hf]) fun k' hk' => ?_
      exact Store.get_applyAll_congr u.view t.view [⟨k, some v⟩] (hv k' hk')
  | delete k next ih =>
      refine ih (t := t.noteWrite ⟨k, none⟩) h (by simp [Txn.noteWrite, hf]) fun k' hk' => ?_
      exact Store.get_applyAll_congr u.view t.view [⟨k, none⟩] (hv k' hk')
  | unmark k next ih =>
      exact ih (t := t.noteUnmark k) h (by simp [Txn.noteUnmark, hf]) hv

/-- Along any answers, the program writes only keys in `writes`, unmarks only
keys in `unmarks` and throws only errors in `throws`. -/
def Within (writes unmarks : K → Prop) (throws : E → Prop) : Prog K V E α → Prop
  | .pure _ => True
  | .throw e => throws e
  | .get _ next => ∀ o, (next o).Within writes unmarks throws
  | .scan _ next => ∀ es, (next es).Within writes unmarks throws
  | .put k _ next => writes k ∧ next.Within writes unmarks throws
  | .delete k next => writes k ∧ next.Within writes unmarks throws
  | .unmark k next => unmarks k ∧ next.Within writes unmarks throws

variable {W W' U U' : K → Prop} {Q Q' : E → Prop}

theorem Within.mono (hW : ∀ k, W k → W' k) (hU : ∀ k, U k → U' k) (hQ : ∀ e, Q e → Q' e)
    {p : Prog K V E α} (h : p.Within W U Q) : p.Within W' U' Q' := by
  induction p with
  | pure a => trivial
  | throw e => exact hQ e h
  | get k next ih => exact fun o => ih o (h o)
  | scan range next ih => exact fun es => ih es (h es)
  | put k v next ih => exact ⟨hW k h.1, ih h.2⟩
  | delete k next ih => exact ⟨hW k h.1, ih h.2⟩
  | unmark k next ih => exact ⟨hU k h.1, ih h.2⟩

theorem Within.bind {p : Prog K V E α} {f : α → Prog K V E β} (hp : p.Within W U Q)
    (hf : ∀ a, (f a).Within W U Q) : (p >>= f).Within W U Q := by
  change (p.bind f).Within W U Q
  induction p with
  | pure a => exact hf a
  | throw e => exact hp
  | get k next ih => exact fun o => ih o (hp o)
  | scan range next ih => exact fun es => ih es (hp es)
  | put k v next ih => exact ⟨hp.1, ih hp.2⟩
  | delete k next ih => exact ⟨hp.1, ih hp.2⟩
  | unmark k next ih => exact ⟨hp.1, ih hp.2⟩

theorem Within.step {p p' : Prog K V E α} {t t' : Txn K V} (h : p.Within W U Q)
    (hs : p.step t = some (p', t')) : p'.Within W U Q := by
  cases p with
  | pure a => cases hs
  | throw e => cases hs
  | get k next => cases hs; exact h _
  | scan range next => cases hs; exact h _
  | put k v next => cases hs; exact h.2
  | delete k next => cases hs; exact h.2
  | unmark k next => cases hs; exact h.2

/-- An error of a run is one the program may throw. -/
theorem Within.of_run_error {p : Prog K V E α} {t : Txn K V} {e : E} (hp : p.Within W U Q)
    (h : p.run t = .error e) : Q e := by
  induction p generalizing t with
  | pure a => cases h
  | throw e' => cases h; exact hp
  | get k next ih => exact ih _ (t := t.noteRead (· = k)) (hp _) h
  | scan range next ih => exact ih _ (t := t.noteRead range) (hp _) h
  | put k v next ih => exact ih (t := t.noteWrite ⟨k, some v⟩) hp.2 h
  | delete k next ih => exact ih (t := t.noteWrite ⟨k, none⟩) hp.2 h
  | unmark k next ih => exact ih (t := t.noteUnmark k) hp.2 h

/-- The writes of a run lie in what the program may write. -/
theorem Within.of_run {p : Prog K V E α} {t t' : Txn K V} {a : α} (hp : p.Within W U Q)
    (h : p.run t = .ok (a, t')) {k : K} (hk : t'.foot.Writes k) : t.foot.Writes k ∨ W k := by
  induction p generalizing t with
  | pure a => cases h; exact .inl hk
  | throw e => cases h
  | get k' next ih => exact ih _ (t := t.noteRead (· = k')) (hp _) h
  | scan range next ih => exact ih _ (t := t.noteRead range) (hp _) h
  | put k' v next ih =>
      rcases ih (t := t.noteWrite ⟨k', some v⟩) hp.2 h with hw | hW
      · rcases Txn.writes_noteWrite.mp hw with hw | rfl
        · exact .inl hw
        · exact .inr hp.1
      · exact .inr hW
  | delete k' next ih =>
      rcases ih (t := t.noteWrite ⟨k', none⟩) hp.2 h with hw | hW
      · rcases Txn.writes_noteWrite.mp hw with hw | rfl
        · exact .inl hw
        · exact .inr hp.1
      · exact .inr hW
  | unmark k' next ih => exact ih (t := t.noteUnmark k') hp.2 h

/-- A run leaves every key it may not write as it was. -/
theorem Within.get_view {p : Prog K V E α} {t t' : Txn K V} {a : α} (hp : p.Within W U Q)
    (h : p.run t = .ok (a, t')) {k : K} (hk : ¬ W k) : t'.view.get k = t.view.get k := by
  induction p generalizing t with
  | pure a => cases h; rfl
  | throw e => cases h
  | get k' next ih => exact ih _ (t := t.noteRead (· = k')) (hp _) h
  | scan range next ih => exact ih _ (t := t.noteRead range) (hp _) h
  | put k' v next ih =>
      rw [ih (t := t.noteWrite ⟨k', some v⟩) hp.2 h]
      exact Store.get_apply_of_ne _ _ fun he => hk (he ▸ hp.1)
  | delete k' next ih =>
      rw [ih (t := t.noteWrite ⟨k', none⟩) hp.2 h]
      exact Store.get_apply_of_ne _ _ fun he => hk (he ▸ hp.1)
  | unmark k' next ih => exact ih (t := t.noteUnmark k') hp.2 h

/-- A written key that cannot be unmarked is tracked. -/
theorem Within.tracked {p : Prog K V E α} {t t' : Txn K V} {a : α} (hp : p.Within W U Q)
    (h : p.run t = .ok (a, t')) {k : K} (hU : ¬ U k)
    (ht : t.foot.Writes k → k ∈ t.foot.tracked) (hk : t'.foot.Writes k) :
    k ∈ t'.foot.tracked := by
  induction p generalizing t with
  | pure a => cases h; exact ht hk
  | throw e => cases h
  | get k' next ih => exact ih _ (t := t.noteRead (· = k')) (hp _) h ht
  | scan range next ih => exact ih _ (t := t.noteRead range) (hp _) h ht
  | put k' v next ih =>
      refine ih (t := t.noteWrite ⟨k', some v⟩) hp.2 h fun hw => ?_
      rcases Txn.writes_noteWrite.mp hw with hw | rfl
      · exact List.mem_append_left _ (ht hw)
      · exact List.mem_append_right _ (List.mem_singleton_self _)
  | delete k' next ih =>
      refine ih (t := t.noteWrite ⟨k', none⟩) hp.2 h fun hw => ?_
      rcases Txn.writes_noteWrite.mp hw with hw | rfl
      · exact List.mem_append_left _ (ht hw)
      · exact List.mem_append_right _ (List.mem_singleton_self _)
  | unmark k' next ih =>
      refine ih (t := t.noteUnmark k') hp.2 h fun hw => ?_
      have hne : k ≠ k' := fun he => hU (he ▸ hp.1)
      exact List.mem_filter.mpr ⟨ht hw, by simpa using hne⟩

/-! ## What a program always does -/

/-- Along any answers that end in a value, the program writes `k`. -/
def AlwaysWrites (k : K) : Prog K V E α → Prop
  | .pure _ => False
  | .throw _ => True
  | .get _ next => ∀ o, (next o).AlwaysWrites k
  | .scan _ next => ∀ es, (next es).AlwaysWrites k
  | .put k' _ next => k' = k ∨ next.AlwaysWrites k
  | .delete k' next => k' = k ∨ next.AlwaysWrites k
  | .unmark _ next => next.AlwaysWrites k

theorem AlwaysWrites.bind {k : K} {f : α → Prog K V E β} (hf : ∀ a, (f a).AlwaysWrites k)
    (p : Prog K V E α) : (p >>= f).AlwaysWrites k := by
  change (p.bind f).AlwaysWrites k
  induction p with
  | pure a => exact hf a
  | throw e => trivial
  | get k' next ih => exact fun o => ih o
  | scan range next ih => exact fun es => ih es
  | put k' v next ih => exact .inr ih
  | delete k' next ih => exact .inr ih
  | unmark k' next ih => exact ih

/-- Writes stay in the footprint. -/
theorem writes_of_run {p : Prog K V E α} {t t' : Txn K V} {a : α} {k : K}
    (h : p.run t = .ok (a, t')) (hk : t.foot.Writes k) : t'.foot.Writes k := by
  obtain ⟨ws, hw, -⟩ := run_writes h
  obtain ⟨w, hmem, hwk⟩ := hk
  exact ⟨w, by rw [hw]; exact List.mem_append_left _ hmem, hwk⟩

theorem AlwaysWrites.of_run {p : Prog K V E α} {t t' : Txn K V} {a : α} {k : K}
    (hp : p.AlwaysWrites k) (h : p.run t = .ok (a, t')) : t'.foot.Writes k := by
  induction p generalizing t with
  | pure a => exact hp.elim
  | throw e => cases h
  | get k' next ih => exact ih _ (t := t.noteRead (· = k')) (hp _) h
  | scan range next ih => exact ih _ (t := t.noteRead range) (hp _) h
  | put k' v next ih =>
      rcases hp with rfl | hp
      · exact writes_of_run (p := next) h (Txn.writes_noteWrite.mpr (.inr rfl))
      · exact ih (t := t.noteWrite ⟨k', some v⟩) hp h
  | delete k' next ih =>
      rcases hp with rfl | hp
      · exact writes_of_run (p := next) h (Txn.writes_noteWrite.mpr (.inr rfl))
      · exact ih (t := t.noteWrite ⟨k', none⟩) hp h
  | unmark k' next ih => exact ih (t := t.noteUnmark k') hp h

/-! ## What a program does not look at -/

/-- Along any answers, the program neither reads nor writes `k`. -/
def Ignores (k : K) : Prog K V E α → Prop
  | .pure _ => True
  | .throw _ => True
  | .get k' next => k' ≠ k ∧ ∀ o, (next o).Ignores k
  | .scan range next => range k = false ∧ ∀ es, (next es).Ignores k
  | .put k' _ next => k' ≠ k ∧ next.Ignores k
  | .delete k' next => k' ≠ k ∧ next.Ignores k
  | .unmark _ next => next.Ignores k

theorem Ignores.bind {k : K} {p : Prog K V E α} {f : α → Prog K V E β} (hp : p.Ignores k)
    (hf : ∀ a, (f a).Ignores k) : (p >>= f).Ignores k := by
  show (p.bind f).Ignores k
  induction p with
  | pure a => exact hf a
  | throw e => trivial
  | get k' next ih => exact ⟨hp.1, fun o => ih o (hp.2 o)⟩
  | scan range next ih => exact ⟨hp.1, fun es => ih es (hp.2 es)⟩
  | put k' v next ih => exact ⟨hp.1, ih hp.2⟩
  | delete k' next ih => exact ⟨hp.1, ih hp.2⟩
  | unmark k' next ih => exact ih hp

/-- On views that agree off the ignored key the program ends the same way, and
the views still agree. -/
theorem Ignores.run_agree {k : K} {p : Prog K V E α} (hp : p.Ignores k) {t u : Txn K V}
    (h : t.view.AgreeOff k u.view) :
    (∃ e, p.run t = .error e ∧ p.run u = .error e) ∨
      ∃ a t' u', p.run t = .ok (a, t') ∧ p.run u = .ok (a, u') ∧ t'.view.AgreeOff k u'.view := by
  induction p generalizing t u with
  | pure a => exact .inr ⟨a, t, u, rfl, rfl, h⟩
  | throw e => exact .inl ⟨e, rfl, rfl⟩
  | get k' next ih =>
      simp only [run, h k' hp.1]
      exact ih _ (hp.2 _) h
  | scan range next ih =>
      have hs : t.view.scan range = u.view.scan range := by
        refine Store.scan_congr fun k' hr => h k' ?_
        rintro rfl
        rw [hp.1] at hr
        cases hr
      simp only [run, hs]
      exact ih _ (hp.2 _) h
  | put k' v next ih =>
      exact ih (t := t.noteWrite ⟨k', some v⟩) (u := u.noteWrite ⟨k', some v⟩) hp.2
        (h.apply ⟨k', some v⟩)
  | delete k' next ih =>
      exact ih (t := t.noteWrite ⟨k', none⟩) (u := u.noteWrite ⟨k', none⟩) hp.2
        (h.apply ⟨k', none⟩)
  | unmark k' next ih => exact ih (t := t.noteUnmark k') (u := u.noteUnmark k') hp h

/-- A run of such a program adds nothing on the key to the footprint. -/
theorem Ignores.of_run {k : K} {p : Prog K V E α} (hp : p.Ignores k) {t t' : Txn K V} {a : α}
    (h : p.run t = .ok (a, t')) (hk : t'.foot.Reads k ∨ t'.foot.Writes k) :
    t.foot.Reads k ∨ t.foot.Writes k := by
  have noteRead : ∀ (t : Txn K V) (range : K → Bool), range k = false →
      (t.noteRead range).foot.Reads k ∨ (t.noteRead range).foot.Writes k →
        t.foot.Reads k ∨ t.foot.Writes k := by
    rintro t range hr (⟨range', hmem, hk⟩ | hw)
    · rcases List.mem_append.mp hmem with hmem | hmem
      · exact .inl ⟨range', hmem, hk⟩
      · cases List.mem_singleton.mp hmem
        rw [hr] at hk
        cases hk
    · exact .inr hw
  have noteWrite : ∀ (t : Txn K V) (w : Write K V), w.1 ≠ k →
      (t.noteWrite w).foot.Reads k ∨ (t.noteWrite w).foot.Writes k →
        t.foot.Reads k ∨ t.foot.Writes k := by
    rintro t w hw (hr | hw')
    · exact .inl hr
    · exact .inr ((Txn.writes_noteWrite.mp hw').resolve_right hw)
  induction p generalizing t with
  | pure a => cases h; exact hk
  | throw e => cases h
  | get k' next ih =>
      exact noteRead t _ (by simpa using hp.1.symm) (ih _ (t := t.noteRead (· = k')) (hp.2 _) h)
  | scan range next ih => exact noteRead t _ hp.1 (ih _ (t := t.noteRead range) (hp.2 _) h)
  | put k' v next ih => exact noteWrite t _ hp.1 (ih (t := t.noteWrite ⟨k', some v⟩) hp.2 h)
  | delete k' next ih => exact noteWrite t _ hp.1 (ih (t := t.noteWrite ⟨k', none⟩) hp.2 h)
  | unmark k' next ih => exact ih (t := t.noteUnmark k') hp h

end Prog

end

end TxnKv
