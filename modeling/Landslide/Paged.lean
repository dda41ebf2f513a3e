import Mathlib.Data.List.Nodup

/-!
# Lists read a part at a time

A list is read in parts, each from where the one before it stopped.  It may change
between two parts, so every part is of the list as it is by then (`Part`).

What comes before the start of a part is behind it.  A change skips an element if it
takes it from ahead to behind, and repeats one that it takes back ahead.  An element that
is in all the lists and behind in the end is read once, but for the times that it is
skipped or repeated (`count_read_add`).
-/

namespace Paged

variable {α : Type} [DecidableEq α]

/-- A list as it is when a part of it is read, and the length of the part. -/
structure Part (α : Type) where
  list : List α
  taken : Nat

/-- What is read from some place on. -/
def read : Nat → List (Part α) → List α
  | _, [] => []
  | o, p :: ps => (p.list.drop o).take p.taken ++ read (o + p.taken) ps

/-- Where the reading stops. -/
def stop : Nat → List (Part α) → Nat
  | o, [] => o
  | o, p :: ps => stop (o + p.taken) ps

/-- The changes that take an element behind the next part, which it was ahead of. -/
def skipped (x : α) : Nat → List (Part α) → Nat
  | o, p :: q :: ps =>
      let next := o + p.taken
      (if next ≤ p.list.idxOf x ∧ q.list.idxOf x < next then 1 else 0) + skipped x next (q :: ps)
  | _, _ => 0

/-- The changes that take an element ahead of the next part, which it was behind. -/
def repeated (x : α) : Nat → List (Part α) → Nat
  | o, p :: q :: ps =>
      let next := o + p.taken
      (if p.list.idxOf x < next ∧ next ≤ q.list.idxOf x then 1 else 0) + repeated x next (q :: ps)
  | _, _ => 0

theorem mem_take_drop {l : List α} (hnodup : l.Nodup) {x : α} (hx : x ∈ l) (o n : Nat) :
    x ∈ (l.drop o).take n ↔ o ≤ l.idxOf x ∧ l.idxOf x < o + n := by
  rw [List.mem_take_iff_getElem]
  constructor
  · rintro ⟨i, hi, rfl⟩
    rw [List.getElem_drop, hnodup.idxOf_getElem]
    omega
  · rintro ⟨hle, hlt⟩
    have hlen := List.idxOf_lt_length_iff.mpr hx
    refine ⟨l.idxOf x - o, by rw [List.length_drop]; omega, ?_⟩
    rw [List.getElem_drop]
    simp only [Nat.add_sub_cancel' hle, List.getElem_idxOf]

/-- A part has an element whose place is in it, and has it once. -/
theorem count_take_drop {l : List α} (hnodup : l.Nodup) {x : α} (hx : x ∈ l) (o n : Nat) :
    ((l.drop o).take n).count x = if o ≤ l.idxOf x ∧ l.idxOf x < o + n then 1 else 0 := by
  have hpart : ((l.drop o).take n).Nodup :=
    hnodup.sublist ((List.take_sublist _ _).trans (List.drop_sublist _ _))
  rw [hpart.count]
  exact if_congr (mem_take_drop hnodup hx o n) rfl rfl

theorem count_read_add {x : α} (p : Part α) (ps : List (Part α)) (o : Nat)
    (hlists : ∀ q ∈ p :: ps, q.list.Nodup ∧ x ∈ q.list) :
    (read o (p :: ps)).count x + skipped x o (p :: ps) +
        (if p.list.idxOf x < o then 1 else 0) =
      repeated x o (p :: ps) +
        if ((p :: ps).getLast (List.cons_ne_nil p ps)).list.idxOf x < stop o (p :: ps) then 1
        else 0 := by
  obtain ⟨hnodup, hx⟩ := hlists p List.mem_cons_self
  rw [read, List.count_append, count_take_drop hnodup hx]
  induction ps generalizing p o with
  | nil =>
      rw [read, List.count_nil, skipped, repeated, stop, stop, List.getLast_singleton]
      · split_ifs <;> omega
      · simp
      · simp
  | cons q ps ih =>
      obtain ⟨hnodup', hx'⟩ := hlists q (by simp)
      have hnext := ih q (o + p.taken) (fun r hr => hlists r (List.mem_cons_of_mem _ hr)) hnodup' hx'
      rw [← count_take_drop hnodup' hx', ← List.count_append, ← read] at hnext
      rw [List.getLast_cons_cons, stop, skipped, repeated]
      split_ifs at hnext ⊢ <;> omega

/-- Read from the start to the end of the last list, an element that is in all the lists
is read once exactly if it is skipped as often as it is repeated. -/
theorem count_read_eq_one_iff {x : α} {ps : List (Part α)} (hps : ps ≠ [])
    (hlists : ∀ q ∈ ps, q.list.Nodup ∧ x ∈ q.list)
    (hstop : (ps.getLast hps).list.length ≤ stop 0 ps) :
    (read 0 ps).count x = 1 ↔ skipped x 0 ps = repeated x 0 ps := by
  obtain ⟨p, ps, rfl⟩ := List.exists_cons_of_ne_nil hps
  have hbehind : ((p :: ps).getLast hps).list.idxOf x < stop 0 (p :: ps) :=
    Nat.lt_of_lt_of_le (List.idxOf_lt_length_iff.mpr (hlists _ (List.getLast_mem hps)).2) hstop
  have hcount := count_read_add p ps 0 hlists
  rw [if_pos hbehind, if_neg (Nat.not_lt_zero _)] at hcount
  omega

end Paged
