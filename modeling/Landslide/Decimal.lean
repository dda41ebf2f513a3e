import Mathlib.Data.Nat.Digits.Lemmas

/-!
# Decimal digits in order

Lists of as many digits are ordered as the numbers they are (`lt_iff`), and a numeral
with more digits than needed for its number starts with a zero.  So numbers with zeros in
front, up to a width, are ordered as numbers, and those with a zero left come before all
that are wider (`padded_lt_iff`).
-/

namespace Decimal

open Nat

/-- The number that a list of digits is. -/
abbrev value (digits : List Char) : Nat := ofDigitChars 10 digits 0

/-- A list of decimal digits. -/
def Digits (digits : List Char) : Prop := ∀ c ∈ digits, c.isDigit = true

theorem value_cons (c : Char) (digits : List Char) :
    value (c :: digits) = 10 ^ digits.length * (c.toNat - '0'.toNat) + value digits := by
  rw [value, ofDigitChars_cons, ofDigitChars_eq_ofDigitChars_zero, Nat.mul_zero, Nat.zero_add]

theorem digit_bounds {c : Char} (h : c.isDigit = true) : 48 ≤ c.toNat ∧ c.toNat ≤ 57 := by
  simpa [Char.isDigit, UInt32.le_iff_toNat_le] using h

theorem value_lt {digits : List Char} (h : Digits digits) : value digits < 10 ^ digits.length := by
  induction digits with
  | nil => decide
  | cons c digits ih =>
      have hc := digit_bounds (h c List.mem_cons_self)
      have hrest := ih fun d hd => h d (List.mem_cons_of_mem _ hd)
      have hdigit : c.toNat - '0'.toNat ≤ 9 := by
        rw [show '0'.toNat = 48 from rfl]
        omega
      rw [value_cons, List.length_cons, Nat.pow_succ]
      calc 10 ^ digits.length * (c.toNat - '0'.toNat) + value digits
          < 10 ^ digits.length * 9 + 10 ^ digits.length :=
            Nat.add_lt_add_of_le_of_lt (Nat.mul_le_mul_left _ hdigit) hrest
        _ = 10 ^ digits.length * 10 := by ring

/-- The first digit decides, then the others. -/
theorem lex_iff {p x y u v : Nat} (hu : u < p) (hv : v < p) :
    p * x + u < p * y + v ↔ x < y ∨ x = y ∧ u < v := by
  rcases Nat.lt_trichotomy x y with h | rfl | h
  · have := Nat.mul_le_mul_left p h
    rw [Nat.mul_succ] at this
    exact ⟨fun _ => .inl h, fun _ => by omega⟩
  · simp
  · have := Nat.mul_le_mul_left p h
    rw [Nat.mul_succ] at this
    constructor
    · omega
    · rintro (h' | ⟨rfl, -⟩) <;> omega

/-- Lists of as many digits are ordered as numbers. -/
theorem lt_iff {a b : List Char} (ha : Digits a) (hb : Digits b) (hlen : a.length = b.length) :
    a < b ↔ value a < value b := by
  induction a generalizing b with
  | nil =>
      obtain rfl : b = [] := List.length_eq_zero_iff.mp hlen.symm
      simp
  | cons c a ih =>
      cases b with
      | nil => cases hlen
      | cons d b =>
          have hlen : a.length = b.length := Nat.succ.inj hlen
          have ha' : Digits a := fun x hx => ha x (List.mem_cons_of_mem _ hx)
          have hb' : Digits b := fun x hx => hb x (List.mem_cons_of_mem _ hx)
          have hc := digit_bounds (ha c List.mem_cons_self)
          have hd := digit_bounds (hb d List.mem_cons_self)
          have hlt : c < d ↔ c.toNat - '0'.toNat < d.toNat - '0'.toNat := by
            rw [show '0'.toNat = 48 from rfl, Char.lt_def, UInt32.lt_iff_toNat_lt]
            change c.toNat < d.toNat ↔ _
            omega
          have heq : c = d ↔ c.toNat - '0'.toNat = d.toNat - '0'.toNat := by
            rw [show '0'.toNat = 48 from rfl, ← Char.toNat_inj]
            omega
          rw [List.cons_lt_cons_iff, ih ha' hb' hlen, value_cons, value_cons, hlen,
            lex_iff (hlen ▸ value_lt ha') (value_lt hb'), hlt, heq]

/-! ## Zeros in front -/

/-- The digits of a number, with zeros in front up to a width. -/
def padded (width n : Nat) : List Char :=
  List.replicate (width - (toDigits 10 n).length) '0' ++ toDigits 10 n

theorem digits_toDigits (n : Nat) : Digits (toDigits 10 n) :=
  fun _ hc => isDigit_of_mem_toDigits (by decide) (by decide) hc

theorem digits_padded (width n : Nat) : Digits (padded width n) := by
  intro c hc
  rcases List.mem_append.mp hc with hc | hc
  · rw [List.eq_of_mem_replicate hc]
    rfl
  · exact digits_toDigits n c hc

@[simp] theorem value_padded (width n : Nat) : value (padded width n) = n := by
  rw [value, padded, ofDigitChars_append, ofDigitChars_replicate_zero, Nat.mul_zero,
    ofDigitChars_ten_toDigits]

theorem length_padded {width n : Nat} (hwidth : 0 < width) (hn : n < 10 ^ width) :
    (padded width n).length = width := by
  have := (length_toDigits_le_iff (by decide) hwidth).mpr hn
  rw [padded, List.length_append, List.length_replicate]
  omega

theorem padded_of_le {width n : Nat} (hwidth : 0 < width) (hn : 10 ^ width ≤ n) :
    padded width n = toDigits 10 n := by
  have := mt (length_toDigits_le_iff (b := 10) (by decide) hwidth).mp (Nat.not_lt.mpr hn)
  rw [padded, Nat.sub_eq_zero_of_le (by omega)]
  rfl

/-- A positive number has no zero in front. -/
theorem head_ne_zero {n : Nat} {digits : List Char} (hn : 0 < n) :
    toDigits 10 n ≠ '0' :: digits := by
  intro h
  have hdigits : Digits digits := fun c hc => digits_toDigits n c (h ▸ List.mem_cons_of_mem _ hc)
  have hvalue : value digits = n := by
    have hn : value ('0' :: digits) = n := by rw [← h, value, ofDigitChars_ten_toDigits]
    rw [value_cons, Nat.sub_self, Nat.mul_zero, Nat.zero_add] at hn
    exact hn
  have hpos : 0 < digits.length := by
    cases digits with
    | nil =>
        rw [← hvalue] at hn
        cases hn
    | cons => exact Nat.succ_pos _
  have hlen := (length_toDigits_le_iff (b := 10) (by decide) hpos).mpr (hvalue ▸ value_lt hdigits)
  rw [h, List.length_cons] at hlen
  omega

theorem padded_eq_zero_cons {width n : Nat} (hwidth : 0 < width) (hn : n < 10 ^ width) :
    padded (width + 1) n = '0' :: padded width n := by
  have := (length_toDigits_le_iff (by decide) hwidth).mpr hn
  rw [padded, padded, Nat.succ_sub this, List.replicate_succ]
  rfl

/-- A number with a zero in front is before exactly the greater ones, wider ones
included. -/
theorem padded_lt_iff {width v n : Nat} (hwidth : 0 < width) (hv : v < 10 ^ width) :
    padded (width + 1) v < padded (width + 1) n ↔ v < n := by
  have hv' : v < 10 ^ (width + 1) := hv.trans (Nat.pow_lt_pow_succ (by decide))
  by_cases hn : n < 10 ^ (width + 1)
  · rw [lt_iff (digits_padded _ _) (digits_padded _ _), value_padded, value_padded]
    rw [length_padded (Nat.succ_pos _) hv', length_padded (Nat.succ_pos _) hn]
  · have hn := Nat.not_lt.mp hn
    rw [padded_of_le (Nat.succ_pos _) hn, padded_eq_zero_cons hwidth hv]
    refine iff_of_true ?_ (hv'.trans_le hn)
    cases hdigits : toDigits 10 n with
    | nil => exact absurd hdigits toDigits_ne_nil
    | cons c digits =>
        have hc := digit_bounds (digits_toDigits n c (hdigits ▸ List.mem_cons_self))
        have hne : c.toNat ≠ 48 := by
          intro h
          obtain rfl : c = '0' := Char.toNat_inj.mp h
          exact head_ne_zero (by omega) hdigits
        refine List.cons_lt_cons_iff.mpr (.inl ?_)
        rw [Char.lt_def, UInt32.lt_iff_toNat_lt]
        change 48 < c.toNat
        omega

end Decimal
