import Landslide.Subtree

/-!
# Paths

A path is a string, and what lies below it are the strings that start with it and a
slash.  Strings are ordered by their characters, which is the order of their UTF-8
bytes.  So what lies below a path comes after it, and the strings with one start lie
next to each other: the walk of a sorted map from a prefix on, for as long as the
prefix is there, finds them all (`range_eq_filter`).
-/

namespace Landslide.Fuse

open Std

/-! ## Starts of strings -/

def startsWith (p pre : String) : Bool := pre.toList.isPrefixOf p.toList

/-- What follows a start of a given length. -/
def dropStart (p pre : String) : String := String.ofList (p.toList.drop pre.toList.length)

theorem startsWith_iff {p pre : String} : startsWith p pre = true ↔ ∃ x, p = pre ++ x := by
  rw [startsWith, List.isPrefixOf_iff_prefix]
  constructor
  · rintro ⟨x, hx⟩
    refine ⟨String.ofList x, String.toList_inj.mp ?_⟩
    rw [String.toList_append, String.toList_ofList, hx]
  · rintro ⟨x, rfl⟩
    rw [String.toList_append]
    exact List.prefix_append _ _

@[simp] theorem dropStart_append (pre x : String) : dropStart (pre ++ x) pre = x := by
  rw [dropStart, String.toList_append, List.drop_left, String.ofList_toList]

/-- The prefix of everything below a path. -/
def slash (k : String) : String := k ++ "/"

/-- `q` lies strictly below `k`. -/
def Below (k q : String) : Prop := startsWith q (slash k) = true

instance : DecidableRel Below := fun _ _ => inferInstanceAs (Decidable (_ = true))

theorem below_iff {k q : String} : Below k q ↔ ∃ x, q = slash k ++ x := startsWith_iff

theorem below_slash (k x : String) : Below k (slash k ++ x) := below_iff.mpr ⟨x, rfl⟩

theorem below_iff_isPrefixOf {k q : String} : Below k q ↔ k.toList ++ ['/'] <+: q.toList := by
  rw [Below, startsWith, List.isPrefixOf_iff_prefix, slash, String.toList_append]
  rfl

theorem slash_append_inj {k x y : String} (h : slash k ++ x = slash k ++ y) : x = y := by
  rw [← dropStart_append (slash k) x, h, dropStart_append]

/-! ## Nesting -/

/-- One of two paths lies below the other. -/
def Nested (a b : String) : Prop := Below a b ∨ Below b a

instance (a b : String) : Decidable (Nested a b) := inferInstanceAs (Decidable (_ ∨ _))

theorem Below.trans {a b c : String} (hab : Below a b) (hbc : Below b c) : Below a c := by
  obtain ⟨x, rfl⟩ := below_iff.mp hab
  obtain ⟨y, rfl⟩ := below_iff.mp hbc
  refine below_iff.mpr ⟨x ++ "/" ++ y, ?_⟩
  simp only [slash, String.append_assoc]

/-- Below a path that is not nested with another one, nothing is below the other. -/
theorem not_below_of_not_nested {a b q : String} (hn : ¬ Nested a b) (hne : a ≠ b)
    (hq : Below b q) : ¬ Below a q := by
  intro ha
  rw [below_iff_isPrefixOf] at hq ha
  rcases List.prefix_or_prefix_of_prefix ha hq with h | h
  · rcases List.prefix_concat_iff.mp h with h | h
    · exact hne (String.toList_inj.mp (by simpa using h))
    · exact hn (.inl (below_iff_isPrefixOf.mpr h))
  · rcases List.prefix_concat_iff.mp h with h | h
    · exact hne (String.toList_inj.mp (by simpa using h.symm))
    · exact hn (.inr (below_iff_isPrefixOf.mpr h))

/-! ## The order of paths -/

theorem compare_eq_lt {a b : String} : compare a b = .lt ↔ a.toList < b.toList := by
  rw [← String.lt_iff]
  exact compareOfLessAndEq_eq_lt

theorem lt_append_cons (l : List Char) (c : Char) (x : List Char) : l < l ++ c :: x := by
  induction l with
  | nil => exact List.nil_lt_cons c x
  | cons y l ih => exact List.cons_lt_cons_iff.mpr (.inr ⟨rfl, ih⟩)

theorem not_append_lt (l x : List Char) : ¬ l ++ x < l := by
  induction l with
  | nil => exact List.not_lt_nil _
  | cons y l ih =>
      rw [List.cons_append, List.cons_lt_cons_iff]
      rintro (hlt | ⟨-, hlt⟩)
      · exact Char.lt_irrefl y hlt
      · exact ih hlt

/-- What lies below a path comes after it. -/
theorem Below.lt {k q : String} (h : Below k q) : compare k q = .lt := by
  obtain ⟨x, rfl⟩ := below_iff.mp h
  rw [compare_eq_lt, slash, String.toList_append, String.toList_append, List.append_assoc]
  exact lt_append_cons _ _ _

/-- Between a prefix and a string with it, every string has it. -/
theorem prefix_of_between {pre b c : List Char} (hpre : ¬ b < pre) (hbc : b < c)
    (hc : pre <+: c) : pre <+: b := by
  induction pre generalizing b c with
  | nil => exact List.nil_prefix
  | cons x pre ih =>
      obtain ⟨c, rfl⟩ : ∃ c', c = x :: c' := by
        obtain ⟨t, rfl⟩ := hc
        exact ⟨pre ++ t, rfl⟩
      cases b with
      | nil => exact absurd (List.nil_lt_cons x pre) hpre
      | cons y b =>
          rw [List.cons_lt_cons_iff] at hpre hbc
          rw [List.cons_prefix_cons] at hc ⊢
          obtain ⟨-, hc⟩ := hc
          rcases hbc with hlt | ⟨rfl, hbc⟩
          · exact absurd (.inl hlt) hpre
          · exact ⟨rfl, ih (fun hb => hpre (.inr ⟨rfl, hb⟩)) hbc hc⟩

/-- The keys of a sorted list from a prefix on, for as long as it is there. -/
def range (keys : List String) (pre : String) : List String :=
  (keys.dropWhile fun p => compare p pre == .lt).takeWhile fun p => startsWith p pre

theorem takeWhile_eq_filter {pre : String} {keys : List String}
    (hsorted : keys.Pairwise fun a b => compare a b = .lt)
    (hpre : ∀ p ∈ keys, compare p pre ≠ .lt) :
    keys.takeWhile (fun p => startsWith p pre) = keys.filter fun p => startsWith p pre := by
  induction keys with
  | nil => rfl
  | cons p keys ih =>
      obtain ⟨hhead, htail⟩ := List.pairwise_cons.mp hsorted
      by_cases hp : startsWith p pre = true
      · rw [List.takeWhile_cons_of_pos (p := fun p => startsWith p pre) hp,
          List.filter_cons_of_pos (p := fun p => startsWith p pre) hp,
          ih htail fun q hq => hpre q (List.mem_cons_of_mem _ hq)]
      · rw [List.takeWhile_cons_of_neg (p := fun p => startsWith p pre) hp,
          List.filter_cons_of_neg (p := fun p => startsWith p pre) hp, eq_comm,
          List.filter_eq_nil_iff]
        -- what comes after a string without the prefix has not got it either
        intro q hq hstart
        have hlt := compare_eq_lt.mp (hhead q hq)
        have hnot := hpre p List.mem_cons_self
        rw [Ne, compare_eq_lt] at hnot
        rw [startsWith, List.isPrefixOf_iff_prefix] at hp hstart
        exact hp (prefix_of_between hnot hlt hstart)

/-- A walk from a prefix on finds all that start with it. -/
theorem range_eq_filter {keys : List String} (pre : String)
    (hsorted : keys.Pairwise fun a b => compare a b = .lt) :
    range keys pre = keys.filter fun p => startsWith p pre := by
  induction keys with
  | nil => rfl
  | cons p keys ih =>
      obtain ⟨hhead, htail⟩ := List.pairwise_cons.mp hsorted
      by_cases hp : compare p pre = .lt
      · have hnot : ¬ startsWith p pre = true := by
          intro hstart
          obtain ⟨x, rfl⟩ := startsWith_iff.mp hstart
          rw [compare_eq_lt, String.toList_append] at hp
          exact not_append_lt _ _ hp
        rw [List.filter_cons_of_neg (p := fun p => startsWith p pre) hnot, ← ih htail, range, range,
          List.dropWhile_cons_of_pos (by simpa using hp)]
      · rw [range, List.dropWhile_cons_of_neg (by simpa using hp)]
        refine takeWhile_eq_filter hsorted fun q hq hlt => ?_
        rcases List.mem_cons.mp hq with rfl | hq
        · exact hp hlt
        · exact hp (TransCmp.lt_trans (hhead q hq) hlt)

end Landslide.Fuse
