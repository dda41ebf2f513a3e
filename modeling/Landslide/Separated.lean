import Mathlib.Data.List.Basic

/-!
# Separated lists

A path is a list of components with a separator between them.  The separator may also
occur inside what is meant to be one component, so that one list reads as a path in more
than one way (`eq_or_under`).  What is still determined is the last component
(`append_sep_inj`), and with it what a path can lie under (`under_of_below`).

In the order of lists, what follows a separator does not matter for the comparison with a
list that has none (`append_sep_lt_iff`).
-/

namespace Separated

variable {α : Type} {sep : α}

/-- Two readings of one list: they are the same, or one divides it earlier. -/
theorem eq_or_under {a b x y : List α} (h : a ++ sep :: x = b ++ sep :: y) :
    a = b ∧ x = y ∨ (∃ rest, b = a ++ sep :: rest ∧ x = rest ++ sep :: y) ∨
      ∃ rest, a = b ++ sep :: rest ∧ y = rest ++ sep :: x := by
  rcases List.append_eq_append_iff.mp h with ⟨c, rfl, hc⟩ | ⟨c, rfl, hc⟩
  · cases c with
    | nil => exact .inl ⟨by simp, (List.cons.inj hc).2⟩
    | cons z c =>
        obtain ⟨rfl, rfl⟩ := List.cons.inj hc
        exact .inr (.inl ⟨c, rfl, rfl⟩)
  · cases c with
    | nil => exact .inl ⟨by simp, (List.cons.inj hc).2.symm⟩
    | cons z c =>
        obtain ⟨rfl, rfl⟩ := List.cons.inj hc
        exact .inr (.inr ⟨c, rfl, rfl⟩)

/-- The last component of a path, and what comes before it. -/
theorem append_sep_inj {a b x y : List α} (hx : sep ∉ x) (hy : sep ∉ y)
    (h : a ++ sep :: x = b ++ sep :: y) : a = b ∧ x = y := by
  rcases eq_or_under h with h | ⟨rest, -, rfl⟩ | ⟨rest, -, rfl⟩
  · exact h
  · exact absurd (by simp) hx
  · exact absurd (by simp) hy

/-- A path under `p` is under `p` before its last component, or has only that one more. -/
theorem under_of_below {p a x : List α} (hx : sep ∉ x) (h : p ++ [sep] <+: a ++ sep :: x) :
    p = a ∨ p ++ [sep] <+: a := by
  obtain ⟨y, hy⟩ := h
  rw [List.append_assoc, List.singleton_append] at hy
  rcases eq_or_under hy with ⟨rfl, -⟩ | ⟨rest, rfl, -⟩ | ⟨rest, -, rfl⟩
  · exact .inl rfl
  · exact .inr ⟨rest, by simp⟩
  · exact absurd (by simp) hx

/-- What follows a separator does not matter below a list that has none. -/
theorem append_sep_lt_iff [LT α] {a x b : List α} (hb : sep ∉ b) :
    a ++ sep :: x < b ↔ a ++ [sep] < b := by
  induction a generalizing b with
  | nil =>
      cases b with
      | nil => simp
      | cons y b =>
          have hne : sep ≠ y := fun h => hb (h ▸ List.mem_cons_self)
          simp [List.cons_lt_cons_iff, hne]
  | cons z a ih =>
      cases b with
      | nil => simp
      | cons y b =>
          have hb' : sep ∉ b := fun h => hb (List.mem_cons_of_mem _ h)
          simp only [List.cons_append, List.cons_lt_cons_iff, ih hb']

end Separated
