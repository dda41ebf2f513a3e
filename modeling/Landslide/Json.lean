import Mathlib.Data.List.Basic

/-!
# JSON text

The bytes of compact JSON: strings with the shortest escapes, objects and arrays without
blanks, and byte strings as base64 with padding.  What is proved is how long the text is.
Base64 takes four characters for every three bytes begun, and none of them is escaped.
Base64 is also read back (`unbase64_base64`).
-/

namespace Json

/-! ## Text -/

/-- The UTF-8 of a string. -/
def text (s : String) : List UInt8 := s.toList.flatMap String.utf8EncodeChar

/-- The digits of a byte below 32, after `\u00`. -/
def hexDigit (n : Nat) : UInt8 := if n < 10 then .ofNat (0x30 + n) else .ofNat (0x61 + (n - 10))

/-- One character of a string. -/
def escape (c : Char) : List UInt8 :=
  match c.toNat with
  | 0x22 => [0x5c, 0x22]
  | 0x5c => [0x5c, 0x5c]
  | 0x08 => [0x5c, 0x62]
  | 0x09 => [0x5c, 0x74]
  | 0x0a => [0x5c, 0x6e]
  | 0x0c => [0x5c, 0x66]
  | 0x0d => [0x5c, 0x72]
  | n =>
      if n < 0x20 then [0x5c, 0x75, 0x30, 0x30, hexDigit (n / 16), hexDigit (n % 16)]
      else String.utf8EncodeChar c

/-- A string of some characters. -/
def string (cs : List Char) : List UInt8 := 0x22 :: (cs.flatMap escape ++ [0x22])

/-- Items with commas between them. -/
def commas : List (List UInt8) → List UInt8
  | [] => []
  | [item] => item
  | item :: next :: items => item ++ 0x2c :: commas (next :: items)

def field (name : String) (value : List UInt8) : List UInt8 :=
  string name.toList ++ 0x3a :: value

def object (fields : List (List UInt8)) : List UInt8 := 0x7b :: (commas fields ++ [0x7d])

def array (items : List (List UInt8)) : List UInt8 := 0x5b :: (commas items ++ [0x5d])

/-- A value that may be missing. -/
def optional {α : Type} (value : α → List UInt8) : Option α → List UInt8
  | none => text "null"
  | some a => value a

/-! ## Base64 -/

def base64Digit (n : Nat) : Char :=
  if n < 26 then .ofNat (65 + n)
  else if n < 52 then .ofNat (97 + (n - 26))
  else if n < 62 then .ofNat (48 + (n - 52))
  else if n = 62 then '+'
  else '/'

def base64 : List UInt8 → List Char
  | [] => []
  | [a] => [base64Digit (a.toNat / 4), base64Digit (a.toNat % 4 * 16), '=', '=']
  | [a, b] =>
      [base64Digit (a.toNat / 4), base64Digit (a.toNat % 4 * 16 + b.toNat / 16),
        base64Digit (b.toNat % 16 * 4), '=']
  | a :: b :: c :: rest =>
      base64Digit (a.toNat / 4) :: base64Digit (a.toNat % 4 * 16 + b.toNat / 16) ::
        base64Digit (b.toNat % 16 * 4 + c.toNat / 64) :: base64Digit (c.toNat % 64) :: base64 rest

theorem length_base64 (bytes : List UInt8) :
    (base64 bytes).length = 4 * ((bytes.length + 2) / 3) := by
  induction bytes using base64.induct with
  | case1 => rfl
  | case2 a => simp [base64]
  | case3 a b => simp [base64]
  | case4 a b c rest ih =>
      rw [base64, List.length_cons, List.length_cons, List.length_cons, List.length_cons, ih,
        List.length_cons, List.length_cons, List.length_cons]
      omega

example : base64 [77, 97] = "TWE=".toList := by decide

/-- A digit is one byte, as it is. -/
theorem length_escape_digit (n : Nat) : (escape (base64Digit n)).length = 1 := by
  have hsmall : ∀ k : Fin 64, (escape (base64Digit k)).length = 1 := by decide
  by_cases hn : n < 64
  · exact hsmall ⟨n, hn⟩
  · have hslash : base64Digit n = '/' := by
      rw [base64Digit, if_neg (by omega), if_neg (by omega), if_neg (by omega), if_neg (by omega)]
    rw [hslash]
    decide

theorem length_escape_base64 (bytes : List UInt8) :
    ((base64 bytes).flatMap escape).length = 4 * ((bytes.length + 2) / 3) := by
  have hpad : (escape '=').length = 1 := by decide
  rw [← length_base64]
  induction bytes using base64.induct with
  | case1 => rfl
  | case2 a => simp [base64, length_escape_digit, hpad]
  | case3 a b => simp [base64, length_escape_digit, hpad]
  | case4 a b c rest ih =>
      rw [base64]
      simp only [List.flatMap_cons, List.length_append, List.length_cons, length_escape_digit, ih]
      omega

theorem length_string_base64 (bytes : List UInt8) :
    (string (base64 bytes)).length = 2 + 4 * ((bytes.length + 2) / 3) := by
  rw [string, List.length_cons, List.length_append, length_escape_base64]
  simp only [List.length_cons, List.length_nil]
  omega

/-! ## Reading base64 -/

/-- The value of a digit. -/
def base64Value (c : Char) : Option Nat :=
  if 'A' ≤ c ∧ c ≤ 'Z' then some (c.toNat - 65)
  else if 'a' ≤ c ∧ c ≤ 'z' then some (c.toNat - 97 + 26)
  else if '0' ≤ c ∧ c ≤ '9' then some (c.toNat - 48 + 52)
  else if c = '+' then some 62
  else if c = '/' then some 63
  else none

theorem base64Value_digit {n : Nat} (h : n < 64) : base64Value (base64Digit n) = some n := by
  have hall : ∀ k : Fin 64, base64Value (base64Digit k) = some k.val := by decide
  exact hall ⟨n, h⟩

theorem base64Digit_ne_pad {n : Nat} (h : n < 64) : base64Digit n ≠ '=' := by
  have hall : ∀ k : Fin 64, base64Digit k ≠ '=' := by decide
  exact hall ⟨n, h⟩

/-- The bytes of base64 text.  Padding is asked for, and the bits that the last digit has
over must be zero. -/
def unbase64 : List Char → Option (List UInt8)
  | [] => some []
  | a :: b :: c :: d :: rest =>
      if rest = [] ∧ c = '=' ∧ d = '=' then
        match base64Value a, base64Value b with
        | some x, some y => if y % 16 = 0 then some [.ofNat (x * 4 + y / 16)] else none
        | _, _ => none
      else if rest = [] ∧ d = '=' then
        match base64Value a, base64Value b, base64Value c with
        | some x, some y, some z =>
            if z % 4 = 0 then some [.ofNat (x * 4 + y / 16), .ofNat (y % 16 * 16 + z / 4)]
            else none
        | _, _, _ => none
      else
        match base64Value a, base64Value b, base64Value c, base64Value d with
        | some x, some y, some z, some w =>
            (unbase64 rest).map fun bytes =>
              .ofNat (x * 4 + y / 16) :: .ofNat (y % 16 * 16 + z / 4) :: .ofNat (z % 4 * 64 + w) ::
                bytes
        | _, _, _, _ => none
  | _ => none

theorem ofNat_eq {b : UInt8} {n : Nat} (h : n = b.toNat) : UInt8.ofNat n = b := by
  rw [h, UInt8.ofNat_toNat]

theorem unbase64_base64 (bytes : List UInt8) : unbase64 (base64 bytes) = some bytes := by
  induction bytes using base64.induct with
  | case1 => rfl
  | case2 a =>
      have ha := a.toNat_lt
      rw [base64, unbase64, if_pos ⟨rfl, rfl, rfl⟩, base64Value_digit (by omega),
        base64Value_digit (by omega)]
      simp only
      rw [if_pos (by omega), ofNat_eq (b := a) (by omega)]
  | case3 a b =>
      have ha := a.toNat_lt
      have hb := b.toNat_lt
      rw [base64, unbase64, if_neg fun h => base64Digit_ne_pad (by omega) h.2.1,
        if_pos ⟨rfl, rfl⟩, base64Value_digit (by omega), base64Value_digit (by omega),
        base64Value_digit (by omega)]
      simp only
      rw [if_pos (by omega), ofNat_eq (b := a) (by omega), ofNat_eq (b := b) (by omega)]
  | case4 a b c rest ih =>
      have ha := a.toNat_lt
      have hb := b.toNat_lt
      have hc := c.toNat_lt
      rw [base64, unbase64, if_neg fun h => base64Digit_ne_pad (by omega) h.2.1,
        if_neg fun h => base64Digit_ne_pad (by omega) h.2, base64Value_digit (by omega),
        base64Value_digit (by omega), base64Value_digit (by omega), base64Value_digit (by omega)]
      simp only
      rw [ih, Option.map_some, ofNat_eq (b := a) (by omega), ofNat_eq (b := b) (by omega),
        ofNat_eq (b := c) (by omega)]

end Json
