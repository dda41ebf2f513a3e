import Mathlib.Data.List.Induction

/-!
# Runs with guarded steps

The steps of a run may have to meet a guard where they happen, that is after the steps
before them.  Such a run can be cut anywhere (`concat_iff`).  What holds at the
start, and is kept by every step that meets its guard, holds after the run
(`run_of_step`).
-/

namespace Guarded

variable {α : Type} {guard : List α → α → Prop} {xs : List α}

/-- All steps of a run meet their guards exactly if those before the last one do, and the
last one does. -/
theorem concat_iff {x : α} :
    (∀ earlier a later, xs ++ [x] = earlier ++ a :: later → guard earlier a) ↔
      (∀ earlier a later, xs = earlier ++ a :: later → guard earlier a) ∧ guard xs x := by
  constructor
  · intro h
    refine ⟨fun earlier a later heq => h earlier a (later ++ [x]) ?_, h xs x [] rfl⟩
    rw [heq, List.append_assoc, List.cons_append]
  · rintro ⟨hinit, hlast⟩ earlier a later heq
    rcases List.eq_nil_or_concat later with rfl | ⟨later, y, rfl⟩
    · obtain ⟨rfl, ha⟩ := List.append_inj' heq rfl
      cases ha
      exact hlast
    · rw [List.concat_eq_append, ← List.cons_append, ← List.append_assoc] at heq
      exact hinit earlier a later (List.append_inj' heq rfl).1

/-- The steps of a run by their places. -/
theorem of_fin (guard : List α → α → Prop) (h : ∀ n : Fin xs.length, guard (xs.take n) xs[n]) :
    ∀ earlier a later, xs = earlier ++ a :: later → guard earlier a := by
  rintro earlier a later rfl
  simpa using h ⟨earlier.length, by simp⟩

/-- What every step keeps that meets its guard. -/
theorem run_of_step {P : List α → Prop} (hstart : P [])
    (hstep : ∀ xs x, P xs → guard xs x → P (xs ++ [x]))
    (h : ∀ earlier a later, xs = earlier ++ a :: later → guard earlier a) : P xs := by
  induction xs using List.reverseRecOn with
  | nil => exact hstart
  | append_singleton xs x ih =>
      obtain ⟨hinit, hlast⟩ := concat_iff.mp h
      exact hstep xs x (ih hinit) hlast

end Guarded
