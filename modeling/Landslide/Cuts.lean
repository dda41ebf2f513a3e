import Mathlib.Tactic

/-!
# Greedy cuts

A list of weighted items cut into groups.  A group has room for items up to a limit, and for
a single item of any weight.  A cut is greedy if no group had room for the item after it.
There is one greedy cut of a list (`Greedy.unique`), and what builds it keeps a group under
way and adds items to it while they fit (`Greedy.single`, `Greedy.cons`).
-/

namespace Cuts

variable {α : Type} {weight : α → Nat} {limit : Nat}

/-- The items weigh at most the limit, or there is only one. -/
def Room (weight : α → Nat) (limit : Nat) (group : List α) : Prop :=
  (group.map weight).sum ≤ limit ∨ group.length ≤ 1

/-- The groups of a list, each with as many items as it has room for. -/
structure Greedy (weight : α → Nat) (limit : Nat) (items : List α) (groups : List (List α)) :
    Prop where
  flatten : groups.flatten = items
  ne_nil : ∀ g ∈ groups, g ≠ []
  room : ∀ g ∈ groups, Room weight limit g
  full : groups.IsChain fun g g' => ∀ a ∈ g'.head?, ¬Room weight limit (g ++ [a])

theorem Room.of_append {g h : List α} (hroom : Room weight limit (g ++ h)) :
    Room weight limit g := by
  rcases hroom with hsum | hlen
  · rw [List.map_append, List.sum_append] at hsum
    exact .inl (by omega)
  · rw [List.length_append] at hlen
    exact .inr (by omega)

/-- A group that is not empty has room for another item if they weigh at most the limit. -/
theorem room_concat {g : List α} (hne : g ≠ []) (a : α) :
    Room weight limit (g ++ [a]) ↔ (g.map weight).sum + weight a ≤ limit := by
  have hpos := List.length_pos_of_ne_nil hne
  rw [Room, List.map_append, List.sum_append, List.length_append]
  simp only [List.map_cons, List.map_nil, List.sum_singleton, List.length_singleton]
  omega

namespace Greedy

variable {items : List α} {group : List α} {groups groups' : List (List α)}

theorem nil : Greedy weight limit [] [] where
  flatten := rfl
  ne_nil := by simp
  room := by simp
  full := .nil

theorem single (hne : group ≠ []) (hroom : Room weight limit group) :
    Greedy weight limit group [group] where
  flatten := by simp
  ne_nil := by simpa using hne
  room := by simpa using hroom
  full := .singleton _

theorem eq_nil (h : Greedy weight limit [] groups) : groups = [] := by
  cases groups with
  | nil => rfl
  | cons g groups =>
      have hflat := h.flatten
      rw [List.flatten_cons, List.append_eq_nil_iff] at hflat
      exact absurd hflat.1 (h.ne_nil g List.mem_cons_self)

theorem tail (h : Greedy weight limit items (group :: groups)) :
    Greedy weight limit groups.flatten groups where
  flatten := rfl
  ne_nil g hg := h.ne_nil g (List.mem_cons_of_mem _ hg)
  room g hg := h.room g (List.mem_cons_of_mem _ hg)
  full := h.full.of_cons

/-- The first group starts with the first item. -/
theorem head? {a : α} (h : Greedy weight limit (a :: items) groups) :
    ∃ g rest, groups = g :: rest ∧ g.head? = some a := by
  cases groups with
  | nil => exact absurd h.flatten (by simp)
  | cons g rest =>
      obtain ⟨b, g, rfl⟩ := List.exists_cons_of_ne_nil (h.ne_nil g List.mem_cons_self)
      have hflat := h.flatten
      rw [List.flatten_cons, List.cons_append] at hflat
      exact ⟨b :: g, rest, rfl, congrArg some (List.cons.inj hflat).1⟩

/-- A group without room for the next item goes before the cut that starts there. -/
theorem cons {a : α} (hne : group ≠ []) (hroom : Room weight limit group)
    (hfull : ¬Room weight limit (group ++ [a])) (h : Greedy weight limit (a :: items) groups) :
    Greedy weight limit (group ++ a :: items) (group :: groups) := by
  obtain ⟨g, rest, rfl, hhead⟩ := h.head?
  refine ⟨by rw [List.flatten_cons, h.flatten], ?_, ?_, .cons_cons ?_ h.full⟩
  · intro g' hg
    rcases List.mem_cons.mp hg with rfl | hg
    · exact hne
    · exact h.ne_nil g' hg
  · intro g' hg
    rcases List.mem_cons.mp hg with rfl | hg
    · exact hroom
    · exact h.room g' hg
  · intro b hb
    rw [hhead] at hb
    cases hb
    exact hfull

/-- A first group reaches as far as any group that has room. -/
theorem length_le (h : Greedy weight limit items (group :: groups)) {g : List α}
    (hroom : Room weight limit g) (hbegin : g <+: items) : g.length ≤ group.length := by
  by_contra hlt
  -- otherwise `g` goes past the group and has room for the item after it
  have hgroup : group <+: items := ⟨groups.flatten, h.flatten⟩
  obtain ⟨more, rfl⟩ := List.prefix_of_prefix_length_le hgroup hbegin (by omega)
  cases more with
  | nil => simp at hlt
  | cons a more =>
      obtain ⟨rest, hrest⟩ := hbegin
      have hflat := h.flatten
      rw [← hrest, List.flatten_cons, List.append_assoc, List.append_cancel_left_eq] at hflat
      have htail := h.tail
      rw [hflat] at htail
      obtain ⟨g', rest', rfl, hhead⟩ := htail.head?
      have hfull := (List.isChain_cons_cons.mp h.full).1 a hhead
      rw [← List.singleton_append, ← List.append_assoc] at hroom
      exact hfull hroom.of_append

theorem unique : ∀ {groups groups' : List (List α)} {items : List α},
    Greedy weight limit items groups → Greedy weight limit items groups' → groups = groups'
  | [], groups', _, h, h' => by
      rw [← h.flatten] at h'
      exact h'.eq_nil.symm
  | g :: groups, [], _, h, h' => by
      rw [← h'.flatten] at h
      exact h.eq_nil
  | g :: groups, g' :: groups', items, h, h' => by
      have hflat := h.flatten.trans h'.flatten.symm
      have hle := h.length_le (h'.room g' List.mem_cons_self) ⟨groups'.flatten, h'.flatten⟩
      have hge := h'.length_le (h.room g List.mem_cons_self) ⟨groups.flatten, h.flatten⟩
      rw [List.flatten_cons, List.flatten_cons] at hflat
      obtain ⟨rfl, hrest⟩ := List.append_inj hflat (Nat.le_antisymm hge hle)
      have htail := h'.tail
      rw [← hrest] at htail
      rw [unique h.tail htail]

end Greedy

end Cuts
