import Landslide.Json
import Landslide.Overlay

/-!
# JSON values

The values that JSON text stands for, the text of a value (`Value.render`), and how derived
readers take a value apart.  A struct is read off an object, whose other members do not
count, or off an array of its fields in order (`fields`).  An enum that is tagged
internally is an object with a member for the variant (`tagged`), and an untagged one is
whatever variant can be read first.

Every reader gives back what its writer wrote.  For the numbers this asks that they are in
range.
-/

namespace Json

open Std

/-- A value.  Numbers are integers. -/
inductive Value where
  | null
  | bool (b : Bool)
  | number (n : Int)
  | string (s : String)
  | array (items : List Value)
  | object (members : List (String × Value))

namespace Value

/-! ## Text -/

mutual

/-- The text of a value. -/
def render : Value → List UInt8
  | .null => text "null"
  | .bool b => text (toString b)
  | .number n => text (toString n)
  | .string s => Json.string s.toList
  | .array items => Json.array (renderItems items)
  | .object members => Json.object (renderMembers members)

def renderItems : List Value → List (List UInt8)
  | [] => []
  | item :: items => item.render :: renderItems items

def renderMembers : List (String × Value) → List (List UInt8)
  | [] => []
  | (name, value) :: members => field name value.render :: renderMembers members

end

theorem renderItems_eq (items : List Value) : renderItems items = items.map render := by
  induction items with
  | nil => rfl
  | cons item items ih => rw [renderItems, ih, List.map_cons]

end Value

variable {α : Type}

/-! ## Readers -/

def readString : Value → Option String
  | .string s => some s
  | _ => none

/-- A natural number below a bound. -/
def readNat (bound : Nat) : Value → Option Nat
  | .number (.ofNat n) => if n < bound then some n else none
  | _ => none

/-- A `u64`. -/
def readU64 : Value → Option Nat := readNat (2 ^ 64)

/-- An `i64`. -/
def readI64 : Value → Option Int
  | .number (.ofNat n) => if n < 2 ^ 63 then some (.ofNat n) else none
  | .number (.negSucc n) => if n < 2 ^ 63 then some (.negSucc n) else none
  | _ => none

/-- A `u32`. -/
def readU32 (v : Value) : Option UInt32 := (readNat (2 ^ 32) v).map .ofNat

/-- A `u8`. -/
def readU8 (v : Value) : Option UInt8 := (readNat (2 ^ 8) v).map .ofNat

/-- Bytes as an array of numbers, or as a string. -/
def readBytes : Value → Option (List UInt8)
  | .array items => items.mapM readU8
  | .string s => some (text s)
  | _ => none

/-- Bytes as a string of base64. -/
def readBase64 (v : Value) : Option (List UInt8) := (readString v).bind fun s => unbase64 s.toList

def readList (read : Value → Option α) : Value → Option (List α)
  | .array items => items.mapM read
  | _ => none

def readOption (read : Value → Option α) : Value → Option (Option α)
  | .null => some none
  | v => (read v).map some

/-- A map with strings for keys.  A key that comes again replaces the one before. -/
def readMap (read : Value → Option α) : Value → Option (ExtTreeMap String α compare)
  | .object members =>
      (members.mapM fun m => (read m.2).map (m.1, ·)).map (Overlay.write ∅)
  | _ => none

/-! ### Fields -/

/-- What is found of a field. -/
inductive Found where
  | value (v : Value)
  /-- An object without the member. -/
  | missing
  /-- An array that ends before the field. -/
  | short

/-- The member of an object with a name, unless there are several. -/
def member (members : List (String × Value)) (name : String) : Option Found :=
  match members.filter fun m => m.1 = name with
  | [] => some .missing
  | [m] => some (.value m.2)
  | _ => none

/-- The fields of an object by their names. -/
def fieldsByName (names : List String) : Value → Option (List Found)
  | .object members => names.mapM (member members)
  | _ => none

/-- The fields of an object by their names, or those of an array by their places. -/
def fields (names : List String) : Value → Option (List Found)
  | .array items =>
      if items.length ≤ names.length then
        some (items.map .value ++ List.replicate (names.length - items.length) .short)
      else none
  | v => fieldsByName names v

/-- A field that must be there. -/
def requiredField (read : Value → Option α) : Found → Option α
  | .value v => read v
  | _ => none

/-- A field of an optional type. -/
def optionalField (read : Value → Option α) : Found → Option (Option α)
  | .value v => readOption read v
  | .missing => some none
  | .short => none

/-- A field with a default. -/
def defaultField (default : α) (read : Value → Option α) : Found → Option α
  | .value v => read v
  | _ => some default

/-- The variant of an enum that is tagged internally, and what is next to the tag. -/
def tagged (tag : String) : Value → Option (String × Value)
  | .object members =>
      match members.filter fun m => m.1 = tag with
      | [(_, .string variant)] => some (variant, .object (members.filter fun m => m.1 ≠ tag))
      | _ => none
  | .array (.string variant :: items) => some (variant, .array items)
  | _ => none

/-! ## Writers -/

/-- Bytes as an array of numbers. -/
def ofBytes (bytes : List UInt8) : Value := .array (bytes.map fun b => .number b.toNat)

/-- Bytes as a string of base64. -/
def ofBase64 (bytes : List UInt8) : Value := .string (.ofList (base64 bytes))

/-- A value that may be missing. -/
def ofOption (write : α → Value) : Option α → Value
  | none => .null
  | some a => write a

def ofMap (write : α → Value) (m : ExtTreeMap String α compare) : Value :=
  .object (m.toList.map fun e => (e.1, write e.2))

/-! ## What is read back -/

@[simp] theorem readString_string (s : String) : readString (.string s) = some s := rfl

theorem readNat_number {bound n : Nat} (h : n < bound) : readNat bound (.number n) = some n :=
  if_pos h

theorem readU64_number {n : Nat} (h : n < 2 ^ 64) : readU64 (.number n) = some n :=
  readNat_number h

theorem readI64_number {n : Int} (hlo : -2 ^ 63 ≤ n) (hhi : n < 2 ^ 63) :
    readI64 (.number n) = some n := by
  cases n with
  | ofNat n =>
      rw [Int.ofNat_eq_natCast] at hhi
      exact if_pos (by omega)
  | negSucc n =>
      rw [Int.negSucc_eq] at hlo
      exact if_pos (by omega)

theorem readU32_number (n : UInt32) : readU32 (.number n.toNat) = some n := by
  rw [readU32, readNat_number n.toNat_lt, Option.map_some, UInt32.ofNat_toNat]

theorem readU8_number (b : UInt8) : readU8 (.number b.toNat) = some b := by
  rw [readU8, readNat_number b.toNat_lt, Option.map_some, UInt8.ofNat_toNat]

@[simp] theorem readBase64_ofBase64 (bytes : List UInt8) :
    readBase64 (ofBase64 bytes) = some bytes := by
  rw [readBase64, ofBase64, readString_string, Option.bind_some, String.toList_ofList,
    unbase64_base64]

/-- Items that are each read back. -/
theorem mapM_map {β : Type} {read : β → Option α} {write : α → β} {l : List α}
    (h : ∀ a ∈ l, read (write a) = some a) : (l.map write).mapM read = some l := by
  induction l with
  | nil => rfl
  | cons a l ih =>
      rw [List.map_cons, List.mapM_cons, h a List.mem_cons_self,
        ih fun b hb => h b (List.mem_cons_of_mem a hb)]
      rfl

@[simp] theorem readBytes_ofBytes (bytes : List UInt8) : readBytes (ofBytes bytes) = some bytes :=
  mapM_map fun b _ => readU8_number b

theorem readList_array {read : Value → Option α} {write : α → Value} {l : List α}
    (h : ∀ a ∈ l, read (write a) = some a) : readList read (.array (l.map write)) = some l :=
  mapM_map h

/-- A value that is not written as `null`. -/
theorem readOption_ofOption {read : Value → Option α} {write : α → Value} {o : Option α}
    (hnull : ∀ a, write a ≠ .null) (h : ∀ a, o = some a → read (write a) = some a) :
    readOption read (ofOption write o) = some o := by
  cases o with
  | none => rfl
  | some a =>
      rw [ofOption, readOption, h a rfl, Option.map_some]
      exact hnull a

theorem write_toList (m : ExtTreeMap String α compare) : Overlay.write ∅ m.toList = m := by
  refine ExtTreeMap.ext_getElem? fun k => ?_
  rw [Overlay.getElem?_write, Overlay.newest_toList, ExtTreeMap.getElem?_empty, Option.or_none]

theorem readMap_ofMap {read : Value → Option α} {write : α → Value}
    {m : ExtTreeMap String α compare} (h : ∀ (k : String) a, m[k]? = some a → read (write a) = some a) :
    readMap read (ofMap write m) = some m := by
  have hmembers : (m.toList.map fun e => (e.1, write e.2)).mapM
      (fun e => (read e.2).map (e.1, ·)) = some m.toList := by
    refine mapM_map fun e he => ?_
    dsimp only
    rw [h e.1 e.2 (ExtTreeMap.mem_toList_iff_getElem?_eq_some.mp he)]
    rfl
  rw [ofMap, readMap, hmembers, Option.map_some, write_toList]

/-! ### Fields that are read back -/

theorem member_of_nodup {members : List (String × Value)} (h : (members.map (·.1)).Nodup)
    {m : String × Value} (hm : m ∈ members) : member members m.1 = some (.value m.2) := by
  have hfilter : members.filter (fun m' => m'.1 = m.1) = [m] := by
    induction members with
    | nil => cases hm
    | cons m' members ih =>
        rw [List.map_cons, List.nodup_cons] at h
        rcases List.mem_cons.mp hm with rfl | hm
        · rw [List.filter_cons_of_pos (by simp), List.filter_eq_nil_iff.mpr]
          intro x hx heq
          exact h.1 (List.mem_map.mpr ⟨x, hx, of_decide_eq_true heq⟩)
        · rw [List.filter_cons_of_neg, ih h.2 hm]
          intro heq
          exact h.1 (List.mem_map.mpr ⟨m, hm, (of_decide_eq_true heq).symm⟩)
  rw [member, hfilter]

/-- The fields of an object are found by their names. -/
theorem fieldsByName_object {names : List String} {members : List (String × Value)}
    (hnames : members.map (·.1) = names) (hnodup : names.Nodup) :
    fieldsByName names (.object members) = some (members.map fun m => .value m.2) := by
  subst hnames
  have hall : ∀ ms : List (String × Value), (∀ m ∈ ms, m ∈ members) →
      (ms.map (·.1)).mapM (member members) = some (ms.map fun m => .value m.2) := by
    intro ms
    induction ms with
    | nil => exact fun _ => rfl
    | cons m ms ih =>
        intro hms
        rw [List.map_cons, List.mapM_cons, member_of_nodup hnodup (hms m List.mem_cons_self),
          ih fun m' hm' => hms m' (List.mem_cons_of_mem m hm')]
        rfl
  exact hall members fun _ hm => hm

theorem fields_object {names : List String} {members : List (String × Value)}
    (hnames : members.map (·.1) = names) (hnodup : names.Nodup) :
    fields names (.object members) = some (members.map fun m => .value m.2) :=
  fieldsByName_object hnames hnodup

theorem tagged_object {tag variant : String} {members : List (String × Value)}
    (h : tag ∉ members.map (·.1)) :
    tagged tag (.object ((tag, .string variant) :: members)) = some (variant, .object members) := by
  have hne : ∀ m ∈ members, m.1 ≠ tag := fun m hm heq => h (List.mem_map.mpr ⟨m, hm, heq⟩)
  have hrest : members.filter (fun m => m.1 = tag) = [] :=
    List.filter_eq_nil_iff.mpr fun m hm => by simp [hne m hm]
  have hall : members.filter (fun m => m.1 ≠ tag) = members :=
    List.filter_eq_self.mpr fun m hm => by simp [hne m hm]
  rw [tagged, List.filter_cons_of_pos (by simp), hrest, List.filter_cons_of_neg (by simp), hall]
end Json
