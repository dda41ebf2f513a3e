import Mathlib.Tactic

/-!
# Bincode

Bincode 1 with fixed-width little-endian integers.  A `Format` writes values and reads them
off the front of some bytes.  It reads back what it writes, whatever follows, so formats
compose: a struct is its fields one after the other, and a list is its length in eight bytes
and then its items.

Bytes are also counted as numbers: a code that tells apart all strings of one length writes
some of them in almost as many bytes (`exists_length_gt`).
-/

namespace Bincode

/-! ## Formats -/

/-- How the values of a type are written and read.  `Fits` holds of the values that the
widths of the format have room for. -/
structure Format (α : Type) where
  write : α → List UInt8
  read : List UInt8 → Option (α × List UInt8)
  Fits : α → Prop
  /-- What is written is read back, and what follows is left. -/
  read_write : ∀ a, Fits a → ∀ rest, read (write a ++ rest) = some (a, rest)

namespace Format

variable {α β : Type}

/-- Reads a value; what follows it is ignored. -/
def deserialize (f : Format α) (bytes : List UInt8) : Option α := (f.read bytes).map (·.1)

theorem deserialize_write (f : Format α) {a : α} (h : f.Fits a) :
    f.deserialize (f.write a) = some a := by
  have hread := f.read_write a h []
  rw [List.append_nil] at hread
  rw [deserialize, hread]
  rfl

/-- Two values that fit are written differently. -/
theorem write_inj (f : Format α) {a b : α} (ha : f.Fits a) (hb : f.Fits b)
    (h : f.write a = f.write b) : a = b := by
  have hread := f.deserialize_write ha
  rw [h, f.deserialize_write hb] at hread
  exact (Option.some.inj hread).symm

/-! ## Structs -/

/-- Two fields. -/
def pair (f : Format α) (g : Format β) : Format (α × β) where
  write p := f.write p.1 ++ g.write p.2
  read bytes :=
    match f.read bytes with
    | none => none
    | some (a, rest) =>
        match g.read rest with
        | none => none
        | some (b, rest) => some ((a, b), rest)
  Fits p := f.Fits p.1 ∧ g.Fits p.2
  read_write p h rest := by
    rw [List.append_assoc, f.read_write p.1 h.1]
    simp only
    rw [g.read_write p.2 h.2]

/-- A type whose values are written as those of another. -/
def via (f : Format β) (parts : α → β) (back : β → α) (hback : ∀ a, back (parts a) = a) :
    Format α where
  write a := f.write (parts a)
  read bytes := (f.read bytes).map fun p => (back p.1, p.2)
  Fits a := f.Fits (parts a)
  read_write a h rest := by
    rw [f.read_write _ h, Option.map_some, hback]

end Format

/-! ## Integers -/

/-- The low `w` bytes of a number, the least significant first. -/
def littleEndian : Nat → Nat → List UInt8
  | 0, _ => []
  | w + 1, n => UInt8.ofNat (n % 256) :: littleEndian w (n / 256)

/-- The number of some bytes. -/
def ofLittleEndian : List UInt8 → Nat
  | [] => 0
  | b :: bytes => b.toNat + 256 * ofLittleEndian bytes

theorem length_littleEndian (w n : Nat) : (littleEndian w n).length = w := by
  induction w generalizing n with
  | zero => rfl
  | succ w ih => rw [littleEndian, List.length_cons, ih]

theorem ofLittleEndian_littleEndian {w n : Nat} (h : n < 256 ^ w) :
    ofLittleEndian (littleEndian w n) = n := by
  induction w generalizing n with
  | zero =>
      rw [Nat.pow_zero] at h
      rw [littleEndian, ofLittleEndian]
      omega
  | succ w ih =>
      have hrest : n / 256 < 256 ^ w := by
        rw [Nat.pow_succ] at h
        omega
      have hbyte : (UInt8.ofNat (n % 256)).toNat = n % 256 := by
        rw [UInt8.toNat_ofNat']
        omega
      rw [littleEndian, ofLittleEndian, ih hrest, hbyte]
      omega

theorem ofLittleEndian_lt : ∀ bytes : List UInt8, ofLittleEndian bytes < 256 ^ bytes.length
  | [] => by decide
  | b :: bytes => by
      have hb := b.toNat_lt
      have hrest := ofLittleEndian_lt bytes
      rw [ofLittleEndian, List.length_cons, Nat.pow_succ]
      omega

/-- With a last byte that is not 0, the number tells how many bytes there are. -/
theorem ofLittleEndian_concat_inj : ∀ {a b : List UInt8},
    ofLittleEndian (a ++ [1]) = ofLittleEndian (b ++ [1]) → a = b := by
  have hpos : ∀ bytes : List UInt8, 0 < ofLittleEndian (bytes ++ [1]) := by
    intro bytes
    induction bytes with
    | nil => decide
    | cons b bytes ih =>
        rw [List.cons_append, ofLittleEndian]
        omega
  intro a
  induction a with
  | nil =>
      intro b h
      cases b with
      | nil => rfl
      | cons y b =>
          have hb := hpos b
          rw [List.nil_append, List.cons_append, ofLittleEndian, ofLittleEndian, ofLittleEndian,
            show (1 : UInt8).toNat = 1 from rfl] at h
          omega
  | cons x a ih =>
      intro b h
      cases b with
      | nil =>
          have ha := hpos a
          rw [List.nil_append, List.cons_append, ofLittleEndian, ofLittleEndian, ofLittleEndian,
            show (1 : UInt8).toNat = 1 from rfl] at h
          omega
      | cons y b =>
          have hx := x.toNat_lt
          have hy := y.toNat_lt
          rw [List.cons_append, List.cons_append, ofLittleEndian, ofLittleEndian] at h
          rw [UInt8.toNat_inj.mp (show x.toNat = y.toNat by omega), ih (b := b) (by omega)]

/-- A code of all strings of `w` bytes has a code word of nearly `w` bytes. -/
theorem exists_length_gt {limit w : Nat} (h : limit + 1 < w) (f : List UInt8 → List UInt8)
    (hf : ∀ a b, a.length = w → b.length = w → f a = f b → a = b) :
    ∃ a, a.length = w ∧ limit < (f a).length := by
  by_contra hnone
  have hshort : ∀ n, (f (littleEndian w n)).length ≤ limit := fun n =>
    Nat.le_of_not_lt fun hlt => hnone ⟨_, length_littleEndian w n, hlt⟩
  -- the code words as numbers, with a last byte that marks their lengths
  have hlt : ∀ n, ofLittleEndian (f (littleEndian w n) ++ [1]) < 256 ^ (limit + 1) := by
    intro n
    have hbound := ofLittleEndian_lt (f (littleEndian w n) ++ [1])
    have hle := hshort n
    rw [List.length_append, List.length_singleton] at hbound
    exact Nat.lt_of_lt_of_le hbound (Nat.pow_le_pow_right (by decide) (by omega))
  let code : Fin (256 ^ w) → Fin (256 ^ (limit + 1)) := fun n => ⟨_, hlt n⟩
  have hcode : Function.Injective code := by
    intro m n hmn
    have hword := ofLittleEndian_concat_inj (Fin.mk.inj hmn)
    have hbytes := hf _ _ (length_littleEndian w m) (length_littleEndian w n) hword
    have hval := congrArg ofLittleEndian hbytes
    rw [ofLittleEndian_littleEndian m.isLt, ofLittleEndian_littleEndian n.isLt] at hval
    exact Fin.ext hval
  have hcard := Fintype.card_le_of_injective code hcode
  rw [Fintype.card_fin, Fintype.card_fin] at hcard
  exact absurd hcard (Nat.not_le_of_lt (Nat.pow_lt_pow_right (by decide) h))

/-- An unsigned number of `w` bytes. -/
def nat (w : Nat) : Format Nat where
  write n := littleEndian w n
  read bytes :=
    if bytes.length < w then none else some (ofLittleEndian (bytes.take w), bytes.drop w)
  Fits n := n < 256 ^ w
  read_write n h rest := by
    have hlen := length_littleEndian w n
    rw [if_neg (by rw [List.length_append]; omega), List.take_left' hlen, List.drop_left' hlen,
      ofLittleEndian_littleEndian h]

def u32 : Format Nat := nat 4

def u64 : Format Nat := nat 8

/-- A signed number of eight bytes, in two's complement. -/
def i64 : Format Int where
  write t := u64.write (t % 2 ^ 64).toNat
  read bytes := (u64.read bytes).map fun p =>
    (if p.1 < 2 ^ 63 then (p.1 : Int) else (p.1 : Int) - 2 ^ 64, p.2)
  Fits t := -2 ^ 63 ≤ t ∧ t < 2 ^ 63
  read_write t h rest := by
    obtain ⟨hlow, hhigh⟩ := h
    have hfits : u64.Fits (t % 2 ^ 64).toNat := by
      show (t % 2 ^ 64).toNat < 256 ^ 8
      omega
    rw [u64.read_write _ hfits, Option.map_some]
    congr 2
    split <;> omega

def byte : Format UInt8 where
  write b := [b]
  read
    | [] => none
    | b :: rest => some (b, rest)
  Fits _ := True
  read_write _ _ _ := rfl

@[simp] theorem length_write_u32 (n : Nat) : (u32.write n).length = 4 := length_littleEndian 4 n

@[simp] theorem length_write_u64 (n : Nat) : (u64.write n).length = 8 := length_littleEndian 8 n

@[simp] theorem length_write_i64 (t : Int) : (i64.write t).length = 8 := length_write_u64 _

/-! ## Lists -/

namespace Format

variable {α : Type}

/-- Reads `n` items. -/
def readItems (f : Format α) : Nat → List UInt8 → Option (List α × List UInt8)
  | 0, bytes => some ([], bytes)
  | n + 1, bytes =>
      match f.read bytes with
      | none => none
      | some (a, rest) =>
          match readItems f n rest with
          | none => none
          | some (items, rest) => some (a :: items, rest)

theorem readItems_write (f : Format α) : ∀ (items : List α), (∀ a ∈ items, f.Fits a) →
    ∀ rest, f.readItems items.length (items.flatMap f.write ++ rest) = some (items, rest)
  | [], _, _ => rfl
  | a :: items, h, rest => by
      rw [List.length_cons, readItems, List.flatMap_cons, List.append_assoc,
        f.read_write a (h a List.mem_cons_self)]
      simp only
      rw [readItems_write f items fun b hb => h b (List.mem_cons_of_mem _ hb)]

/-- Reads a length and that many items. -/
def readList (f : Format α) (bytes : List UInt8) : Option (List α × List UInt8) :=
  match u64.read bytes with
  | none => none
  | some (n, rest) => f.readItems n rest

theorem readList_write (f : Format α) {items : List α} (hlen : items.length < 2 ^ 64)
    (h : ∀ a ∈ items, f.Fits a) (rest : List UInt8) :
    f.readList (u64.write items.length ++ (items.flatMap f.write ++ rest)) = some (items, rest) := by
  rw [readList, u64.read_write _ (show items.length < 256 ^ 8 by omega)]
  exact f.readItems_write items h rest

/-- A list of items. -/
def list (f : Format α) : Format (List α) where
  write items := u64.write items.length ++ items.flatMap f.write
  read := f.readList
  Fits items := items.length < 2 ^ 64 ∧ ∀ a ∈ items, f.Fits a
  read_write items h rest := by
    rw [List.append_assoc, f.readList_write h.1 h.2]

@[simp] theorem length_write_list (f : Format α) (items : List α) :
    (f.list.write items).length = 8 + (items.map fun a => (f.write a).length).sum := by
  show (u64.write items.length ++ items.flatMap f.write).length = _
  rw [List.length_append, length_write_u64, List.length_flatMap]

end Format

/-- Bytes.  They are written in one piece and read one by one. -/
def bytes : Format (List UInt8) where
  write b := u64.write b.length ++ b
  read := byte.readList
  Fits b := b.length < 2 ^ 64
  read_write b h rest := by
    have hwrite : b.flatMap byte.write = b := List.flatMap_singleton' b
    have hread := byte.readList_write h (fun _ _ => trivial) rest
    rw [hwrite] at hread
    rw [List.append_assoc, hread]

/-- A string, as its UTF-8. -/
def string : Format String where
  write s := u64.write s.toUTF8.data.toList.length ++ s.toUTF8.data.toList
  read b :=
    match u64.read b with
    | none => none
    | some (n, rest) =>
        if rest.length < n then none
        else (String.fromUTF8? ⟨(rest.take n).toArray⟩).map fun s => (s, rest.drop n)
  Fits s := s.utf8ByteSize < 2 ^ 64
  read_write s h rest := by
    have hlen : s.toUTF8.data.toList.length = s.utf8ByteSize := by simp
    have hfits : u64.Fits s.toUTF8.data.toList.length := by
      show s.toUTF8.data.toList.length < 256 ^ 8
      omega
    have hutf8 : String.fromUTF8? s.toUTF8 = some s := by
      rw [String.toUTF8_eq_toByteArray, String.fromUTF8?, dif_pos s.isValidUTF8]
      rfl
    rw [List.append_assoc, u64.read_write _ hfits]
    simp only
    rw [if_neg (by rw [List.length_append]; omega), List.take_left, List.drop_left,
      Array.toArray_toList, hutf8]
    rfl

@[simp] theorem length_write_string (s : String) :
    (string.write s).length = 8 + s.utf8ByteSize := by
  show (u64.write s.toUTF8.data.toList.length ++ s.toUTF8.data.toList).length = _
  rw [List.length_append, length_write_u64]
  simp

@[simp] theorem length_write_bytes (b : List UInt8) : (bytes.write b).length = 8 + b.length := by
  show (u64.write b.length ++ b).length = _
  rw [List.length_append, length_write_u64]

end Bincode
