import Mathlib.Tactic

/-!
# Newest-wins maps

A list of writes, applied in order to a map.  What a key holds afterwards is the
newest write to it (`newest`), or what the map held before.  So two lists of
writes with the same newest write to every key do the same to every map, and a
map written into another one is the list of its own entries.
-/

namespace Overlay

open Std

variable {K V : Type} [DecidableEq K]

/-- The newest write to a key. -/
def newest : List (K × V) → K → Option V
  | [], _ => none
  | w :: writes, k => (newest writes k).or (if w.1 = k then some w.2 else none)

@[simp] theorem newest_nil (k : K) : newest ([] : List (K × V)) k = none := rfl

theorem newest_append (writes writes' : List (K × V)) (k : K) :
    newest (writes ++ writes') k = (newest writes' k).or (newest writes k) := by
  induction writes with
  | nil => simp
  | cons w writes ih => rw [List.cons_append, newest, newest, ih, Option.or_assoc]

theorem newest_isSome {writes : List (K × V)} {k : K} :
    (newest writes k).isSome = true ↔ ∃ w ∈ writes, w.1 = k := by
  induction writes with
  | nil => simp
  | cons w writes ih =>
      by_cases hw : w.1 = k
      · simp [newest, hw]
      · simp [newest, hw, ih]

theorem newest_mem {writes : List (K × V)} {k : K} {v : V} (h : newest writes k = some v) :
    (k, v) ∈ writes := by
  induction writes with
  | nil => cases h
  | cons w writes ih =>
      rw [newest, Option.or_eq_some_iff] at h
      rcases h with h | ⟨-, h⟩
      · exact List.mem_cons_of_mem _ (ih h)
      · split at h
        · next hw =>
          cases h
          rw [← hw]
          exact List.mem_cons_self
        · cases h

/-- Where no key is written twice, the newest write is the only one. -/
theorem newest_of_mem {writes : List (K × V)} (hd : writes.Pairwise fun w w' => w.1 ≠ w'.1)
    {k : K} {v : V} (h : (k, v) ∈ writes) : newest writes k = some v := by
  induction writes with
  | nil => cases h
  | cons w writes ih =>
      obtain ⟨hw, hd⟩ := List.pairwise_cons.mp hd
      rcases List.mem_cons.mp h with rfl | h
      · have hnone : newest writes k = none := by
          cases hn : newest writes k with
          | none => rfl
          | some v' => exact absurd rfl (hw (k, v') (newest_mem hn))
        simp [newest, hnone]
      · simp [newest, ih hd h]

variable [Ord K] [TransOrd K] [LawfulEqOrd K]

/-- Applies writes to a map in order. -/
def write (m : ExtTreeMap K V compare) (writes : List (K × V)) : ExtTreeMap K V compare :=
  writes.foldl (fun m w => m.insert w.1 w.2) m

theorem getElem?_write (m : ExtTreeMap K V compare) (writes : List (K × V)) (k : K) :
    (write m writes)[k]? = (newest writes k).or m[k]? := by
  induction writes generalizing m with
  | nil => rfl
  | cons w writes ih =>
      have hins : (m.insert w.1 w.2)[k]? = (if w.1 = k then some w.2 else none).or m[k]? := by
        rw [ExtTreeMap.getElem?_insert]
        by_cases hw : w.1 = k
        · simp [hw]
        · simp [hw]
      rw [newest, Option.or_assoc, ← hins, ← ih]
      rfl

/-- The entries of a map, as writes. -/
theorem newest_toList (m : ExtTreeMap K V compare) (k : K) : newest m.toList k = m[k]? := by
  have hd : m.toList.Pairwise fun w w' => w.1 ≠ w'.1 := by
    refine m.distinct_keys_toList.imp fun h heq => h ?_
    rw [heq]
    exact ReflCmp.compare_self
  refine Option.ext fun v => ?_
  rw [← ExtTreeMap.mem_toList_iff_getElem?_eq_some]
  exact ⟨newest_mem, newest_of_mem hd⟩

end Overlay
