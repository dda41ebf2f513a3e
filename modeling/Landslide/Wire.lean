import Landslide.Bincode
import Landslide.Envelope
import Landslide.Json

/-!
# The wire format of envelopes

`Envelope::encode` and `Envelope::decode` of `envelope.rs`, with the serializers `b64_bytes`
and `b64_headers`.  An envelope is written in bincode.  A record that starts with a brace is
read as JSON, where byte strings are base64, and any other record as bincode.  The first byte
of a bincode record is the length of its id, so `Envelope.decode_encode` can tell them apart.

`serde_json::from_slice` is a parameter: what it makes of a text, before base64 is undone.
-/

namespace Landslide

open Bincode

/-! ## Ids -/

/-- The digits of a ULID. -/
def ulidDigits : List Char := "0123456789ABCDEFGHJKMNPQRSTVWXYZ".toList

/-- The text of a ULID. -/
structure IsUlid (id : String) : Prop where
  length : id.length = 26
  digits : ∀ c ∈ id.toList, c ∈ ulidDigits

theorem utf8ByteSize_ofList : ∀ cs : List Char,
    (String.ofList cs).utf8ByteSize = (cs.map Char.utf8Size).sum
  | [] => rfl
  | c :: cs => by
      rw [List.map_cons, List.sum_cons, ← utf8ByteSize_ofList cs, ← List.singleton_append,
        String.ofList_append, String.utf8ByteSize_append]
      simp

theorem IsUlid.utf8ByteSize {id : String} (h : IsUlid id) : id.utf8ByteSize = 26 := by
  have hone : (ulidDigits.all fun c => c.utf8Size == 1) = true := by decide
  have hmap : id.toList.map Char.utf8Size = List.replicate 26 1 := by
    rw [List.eq_replicate_iff]
    refine ⟨by rw [List.length_map, String.length_toList, h.length], fun n hn => ?_⟩
    obtain ⟨c, hc, rfl⟩ := List.mem_map.mp hn
    exact beq_iff_eq.mp (List.all_eq_true.mp hone c (h.digits c hc))
  rw [← String.ofList_toList (s := id), utf8ByteSize_ofList, hmap]
  rfl

/-! ## Bincode -/

/-- The pairs of `metadata`. -/
def headers : Format (List (String × Bytes)) := (string.pair bytes).list

/-- The fields of an envelope in the order of the struct. -/
def Envelope.format : Format (Envelope Bytes) :=
  (string.pair (string.pair (u64.pair (u64.pair (bytes.pair (headers.pair i64)))))).via
    (fun e => (e.id, e.eventType, e.version, e.seq, e.data, e.metadata, e.tsMs))
    (fun (id, eventType, version, seq, data, metadata, tsMs) =>
      { id := id, eventType := eventType, version := version, seq := seq, data := data,
        metadata := metadata, tsMs := tsMs })
    (fun _ => rfl)

def Envelope.encode (e : Envelope Bytes) : Bytes := Envelope.format.write e

/-- What the types of the fields promise. -/
structure Envelope.WellTyped (e : Envelope Bytes) : Prop where
  id : IsUlid e.id
  eventType : e.eventType.utf8ByteSize < 2 ^ 64
  version : e.version < 2 ^ 64
  seq : e.seq < 2 ^ 64
  data : e.data.length < 2 ^ 64
  count : e.metadata.length < 2 ^ 64
  metadata : ∀ h ∈ e.metadata, h.1.utf8ByteSize < 2 ^ 64 ∧ h.2.length < 2 ^ 64
  tsMs : -2 ^ 63 ≤ e.tsMs ∧ e.tsMs < 2 ^ 63

theorem Envelope.WellTyped.fits {e : Envelope Bytes} (h : e.WellTyped) : Envelope.format.Fits e := by
  refine ⟨?_, h.eventType, h.version, h.seq, h.data, ⟨h.count, h.metadata⟩, h.tsMs⟩
  show e.id.utf8ByteSize < 2 ^ 64
  rw [h.id.utf8ByteSize]
  omega

/-- The encoding starts with the low byte of the length of the id. -/
theorem Envelope.WellTyped.head?_encode {e : Envelope Bytes} (h : e.WellTyped) :
    e.encode.head? = some 26 := by
  have hlen : e.id.toUTF8.data.toList.length = 26 := by simp [h.id.utf8ByteSize]
  show ((u64.write e.id.toUTF8.data.toList.length ++ _) ++ _).head? = _
  rw [hlen]
  rfl

/-- A record has 82 bytes beside its type, its payload and its headers. -/
theorem Envelope.WellTyped.length_encode {e : Envelope Bytes} (h : e.WellTyped) :
    e.encode.length = 82 + e.eventType.utf8ByteSize + e.data.length +
      (e.metadata.map fun h => 16 + h.1.utf8ByteSize + h.2.length).sum := by
  have hpair : ∀ p : String × Bytes,
      ((string.pair bytes).write p).length = 16 + p.1.utf8ByteSize + p.2.length := by
    intro p
    show (string.write p.1 ++ bytes.write p.2).length = _
    rw [List.length_append, length_write_string, length_write_bytes]
    omega
  have hheaders : (headers.write e.metadata).length =
      8 + (e.metadata.map fun h => 16 + h.1.utf8ByteSize + h.2.length).sum := by
    rw [headers, Format.length_write_list]
    simp only [hpair]
  show (string.write e.id ++ (string.write e.eventType ++ (u64.write e.version ++
    (u64.write e.seq ++ (bytes.write e.data ++ (headers.write e.metadata ++
      i64.write e.tsMs)))))).length = _
  simp only [List.length_append, length_write_string, length_write_u64, length_write_bytes,
    length_write_i64, hheaders, h.id.utf8ByteSize]
  omega

/-! ## JSON -/

/-- `b64_bytes` in a format for humans. -/
def b64Encode (b : Bytes) : String := String.ofList (Json.base64 b)

def b64Decode (s : String) : Option Bytes := Json.unbase64 s.toList

theorem b64Decode_b64Encode (b : Bytes) : b64Decode (b64Encode b) = some b := by
  rw [b64Decode, b64Encode, String.toList_ofList, Json.unbase64_base64]

/-- The members of an envelope in JSON, with byte strings as base64.  `metadata` may be
missing. -/
structure JsonEnvelope where
  id : String
  eventType : String
  version : Nat
  seq : Nat
  data : String
  metadata : Option (List (String × String))
  tsMs : Int
deriving DecidableEq, Repr

/-- Undoes base64. -/
def JsonEnvelope.envelope (j : JsonEnvelope) : Option (Envelope Bytes) :=
  match b64Decode j.data, (j.metadata.getD []).mapM fun h => (b64Decode h.2).map (h.1, ·) with
  | some data, some metadata =>
      some { id := j.id, eventType := j.eventType, version := j.version, seq := j.seq,
             data := data, metadata := metadata, tsMs := j.tsMs }
  | _, _ => none

/-- `Envelope::decode`. -/
def Envelope.decode (fromSlice : Bytes → Option JsonEnvelope) (b : Bytes) :
    Option (Envelope Bytes) :=
  if b.head? = some 0x7b then (fromSlice b).bind JsonEnvelope.envelope
  else Envelope.format.deserialize b

/-- The text of each member. -/
def JsonEnvelope.members (j : JsonEnvelope) : List Bytes :=
  [Json.field "id" (Json.string j.id.toList), Json.field "type" (Json.string j.eventType.toList),
    Json.field "version" (Json.text (toString j.version)),
    Json.field "seq" (Json.text (toString j.seq)),
    Json.field "data" (Json.string j.data.toList)] ++
  (j.metadata.elim [] fun headers => [Json.field "metadata" (Json.array (headers.map fun h =>
    Json.array [Json.string h.1.toList, Json.string h.2.toList]))]) ++
  [Json.field "ts_ms" (Json.text (toString j.tsMs))]

def Envelope.toJson (e : Envelope Bytes) : JsonEnvelope :=
  { id := e.id, eventType := e.eventType, version := e.version, seq := e.seq,
    data := b64Encode e.data, metadata := some (e.metadata.map fun h => (h.1, b64Encode h.2)),
    tsMs := e.tsMs }

/-- The members stand for the envelope.  Empty metadata may be left out. -/
inductive Envelope.ShownBy (e : Envelope Bytes) : JsonEnvelope → Prop where
  | full : e.ShownBy e.toJson
  | short (h : e.metadata = []) : e.ShownBy { e.toJson with metadata := none }

theorem mapM_b64Decode : ∀ headers : List (String × Bytes),
    (headers.map fun h => (h.1, b64Encode h.2)).mapM (fun h => (b64Decode h.2).map (h.1, ·)) =
      some headers
  | [] => rfl
  | h :: headers => by
      rw [List.map_cons, List.mapM_cons, mapM_b64Decode headers, b64Decode_b64Encode]
      rfl

theorem Envelope.ShownBy.envelope {e : Envelope Bytes} {j : JsonEnvelope} (h : e.ShownBy j) :
    j.envelope = some e := by
  cases h with
  | full =>
      rw [JsonEnvelope.envelope]
      simp only [Envelope.toJson, Option.getD_some]
      rw [b64Decode_b64Encode, mapM_b64Decode]
  | short hnil =>
      rw [JsonEnvelope.envelope]
      simp only [Envelope.toJson, Option.getD_none, List.mapM_nil, b64Decode_b64Encode]
      rw [← hnil]
      rfl

/-- An envelope is read back from its bincode, which does not start with a brace.  Its JSON,
with the members in any order, does, and is read back too where `serde_json` reads the
members. -/
theorem Envelope.decode_encode (fromSlice : Bytes → Option JsonEnvelope) (e : Envelope Bytes)
    (h : e.WellTyped) :
    Envelope.decode fromSlice e.encode = some e ∧ e.encode.head? ≠ some 0x7b ∧
      ∀ j, e.ShownBy j → ∀ members : List Bytes, members.Perm j.members →
        (Json.object members).head? = some 0x7b ∧
          (fromSlice (Json.object members) = some j →
            Envelope.decode fromSlice (Json.object members) = some e) := by
  have hhead : e.encode.head? ≠ some 0x7b := by
    rw [h.head?_encode]
    decide
  refine ⟨?_, hhead, fun j hj members _ => ?_⟩
  · rw [Envelope.decode, if_neg hhead, Envelope.encode, Format.deserialize_write _ h.fits]
  · have hbrace : (Json.object members).head? = some 0x7b := rfl
    refine ⟨hbrace, fun hserde => ?_⟩
    rw [Envelope.decode, if_pos hbrace, hserde, Option.bind_some, hj.envelope]

/-- An event of type `txb` with one header, as a record of version 9. -/
def packed : Envelope Bytes :=
  { id := "01JQZ000000000000000000000", eventType := "txb", version := 9, seq := 1,
    data := [0, 0x7b, 255], metadata := [("k", [1, 2])], tsMs := -1 }

theorem isUlid_packed : IsUlid packed.id where
  length := by decide
  digits c hc := by
    have hall : (packed.id.toList.all fun c => ulidDigits.contains c) = true := by decide
    exact List.contains_iff_mem.mp (List.all_eq_true.mp hall c hc)

theorem decode_encode_packed :
    let fromSlice := fun text =>
      if text ∈ packed.toJson.members.permutations.map Json.object then some packed.toJson else none
    Envelope.decode fromSlice packed.encode = some packed ∧
      packed.encode.head? ≠ some 0x7b ∧
      ∀ j, packed.ShownBy j → ∀ members : List Bytes, members.Perm j.members →
        (Json.object members).head? = some 0x7b ∧
          (fromSlice (Json.object members) = some j →
            Envelope.decode fromSlice (Json.object members) = some packed) :=
  Envelope.decode_encode _ packed
    { id := isUlid_packed, eventType := by decide, version := by decide, seq := by decide,
      data := by decide, count := by decide, metadata := by decide, tsMs := by decide }

end Landslide
