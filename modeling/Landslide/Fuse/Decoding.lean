import Landslide.Fuse.Caps
import Landslide.JsonValue

/-!
# Deltas and segments as JSON values

The derived writers and readers of `landslide-fuse/src/lib.rs`.  Nodes are tagged by
`kind` and deltas by `op`; `Content` and `Data` are untagged.  A mount, a replica and a
checkpoint leave out what they cannot read, so every delta and every segment has to be
read back (`delta_and_segment_read_back`).

The first variant of the untagged types is a string of base64, and the second one an
object or an array.  A reader of strings refuses these, so the two are not confused
(`Content.readInline_blocks`, `Data.readInline_blocks`).
-/

namespace Landslide.Fuse

open Std Json

/-! ## Blocks -/

namespace BlockRef

def value (block : BlockRef) : Value :=
  .object [("hash", .string block.hash), ("len", .number block.len)]

def ofValue (v : Value) : Option BlockRef := do
  match ← fields ["hash", "len"] v with
  | [hash, len] =>
      return { hash := ← requiredField readString hash, len := ← requiredField readU64 len }
  | _ => none

/-- The numbers of a block are 64 bits wide. -/
def WellTyped (block : BlockRef) : Prop := block.len < 2 ^ 64

theorem ofValue_value {block : BlockRef} (h : block.WellTyped) :
    ofValue block.value = some block := by
  have hlen : readU64 (.number block.len) = some block.len := readU64_number h
  rw [ofValue, value, fields_object (by rfl) (by decide)]
  simp [requiredField, hlen]

end BlockRef

/-! ## Nodes -/

namespace NodeMeta

def value (attrs : NodeMeta) : Value :=
  .object ([("mode", .number attrs.mode.toNat), ("uid", .number attrs.uid.toNat),
    ("gid", .number attrs.gid.toNat), ("mtime_ms", .number attrs.mtimeMs)] ++
      if attrs.xattrs.isEmpty then [] else [("xattrs", ofMap ofBytes attrs.xattrs)])

def ofValue (v : Value) : Option NodeMeta := do
  match ← fields ["mode", "uid", "gid", "mtime_ms", "xattrs"] v with
  | [mode, uid, gid, mtimeMs, xattrs] =>
      return {
        mode := ← requiredField readU32 mode
        uid := ← requiredField readU32 uid
        gid := ← requiredField readU32 gid
        mtimeMs := ← requiredField readI64 mtimeMs
        xattrs := ← defaultField ∅ (readMap Json.readBytes) xattrs }
  | _ => none

def WellTyped (attrs : NodeMeta) : Prop := -2 ^ 63 ≤ attrs.mtimeMs ∧ attrs.mtimeMs < 2 ^ 63

theorem ofValue_value {attrs : NodeMeta} (h : attrs.WellTyped) :
    ofValue attrs.value = some attrs := by
  have hxattrs : readMap Json.readBytes (ofMap ofBytes attrs.xattrs) = some attrs.xattrs :=
    readMap_ofMap fun _ b _ => readBytes_ofBytes b
  have hmtime : readI64 (.number attrs.mtimeMs) = some attrs.mtimeMs := readI64_number h.1 h.2
  rw [ofValue, value]
  split
  · next hempty =>
    -- the member that is skipped is the default
    simp [fields, fieldsByName, member, requiredField, readU32_number, hmtime, defaultField,
      ← ExtTreeMap.isEmpty_iff.mp hempty]
  · rw [fields_object (by rfl) (by decide)]
    simp [requiredField, readU32_number, hmtime, defaultField, hxattrs]

end NodeMeta

namespace Content

def value : Content → Value
  | .inline bytes => ofBase64 bytes
  | .blocks refs size =>
      .object [("blocks", .array (refs.map BlockRef.value)), ("size", .number size)]

def readInline (v : Value) : Option Content := (readBase64 v).map .inline

def readBlocks (v : Value) : Option Content := do
  match ← fieldsByName ["blocks", "size"] v with
  | [refs, size] =>
      return .blocks (← requiredField (readList BlockRef.ofValue) refs)
        (← requiredField readU64 size)
  | _ => none

/-- The first variant that can be read. -/
def ofValue (v : Value) : Option Content := readInline v <|> readBlocks v

def WellTyped : Content → Prop
  | .inline _ => True
  | .blocks refs size => (∀ b ∈ refs, b.WellTyped) ∧ size < 2 ^ 64

/-- Blocks are not read as bytes. -/
theorem readInline_blocks (refs : List BlockRef) (size : Nat) :
    readInline (value (.blocks refs size)) = none := rfl

/-- No value is read as both variants. -/
theorem readInline_or_readBlocks (v : Value) : readInline v = none ∨ readBlocks v = none := by
  cases v with
  | string s => exact .inr rfl
  | null | bool b | number n | array items | object members => exact .inl rfl

theorem ofValue_value {content : Content} (h : content.WellTyped) :
    ofValue content.value = some content := by
  cases content with
  | inline bytes =>
      rw [ofValue, readInline, value, readBase64_ofBase64]
      rfl
  | blocks refs size =>
      have hrefs : readList BlockRef.ofValue (.array (refs.map BlockRef.value)) = some refs :=
        readList_array fun b hb => BlockRef.ofValue_value (h.1 b hb)
      have hsize : readU64 (.number size) = some size := readU64_number h.2
      rw [ofValue, readInline_blocks, readBlocks, value, fieldsByName_object (by rfl) (by decide)]
      simp [requiredField, hrefs, hsize]

end Content

namespace Node

def value : Node → Value
  | .file content attrs =>
      .object [("kind", .string "file"), ("content", content.value), ("meta", attrs.value)]
  | .dir attrs => .object [("kind", .string "dir"), ("meta", attrs.value)]
  | .symlink target attrs =>
      .object [("kind", .string "symlink"), ("target", .string target), ("meta", attrs.value)]

def ofValue (v : Value) : Option Node := do
  let (kind, rest) ← tagged "kind" v
  match kind with
  | "file" =>
      match ← fields ["content", "meta"] rest with
      | [content, attrs] =>
          return .file (← requiredField Content.ofValue content)
            (← requiredField NodeMeta.ofValue attrs)
      | _ => none
  | "dir" =>
      match ← fields ["meta"] rest with
      | [attrs] => return .dir (← requiredField NodeMeta.ofValue attrs)
      | _ => none
  | "symlink" =>
      match ← fields ["target", "meta"] rest with
      | [target, attrs] =>
          return .symlink (← requiredField readString target)
            (← requiredField NodeMeta.ofValue attrs)
      | _ => none
  | _ => none

def WellTyped : Node → Prop
  | .file content attrs => content.WellTyped ∧ attrs.WellTyped
  | .dir attrs => attrs.WellTyped
  | .symlink _ attrs => attrs.WellTyped

theorem ofValue_value {node : Node} (h : node.WellTyped) : ofValue node.value = some node := by
  cases node with
  | file content attrs =>
      have hcontent := Content.ofValue_value h.1
      have hattrs := NodeMeta.ofValue_value h.2
      rw [ofValue, value, tagged_object (by simp)]
      simp only [Option.bind_eq_bind, Option.bind_some]
      rw [fields_object (by rfl) (by decide)]
      simp [requiredField, hcontent, hattrs]
  | dir attrs | symlink target attrs =>
      have hattrs := NodeMeta.ofValue_value h
      rw [ofValue, value, tagged_object (by simp)]
      simp only [Option.bind_eq_bind, Option.bind_some]
      rw [fields_object (by rfl) (by decide)]
      simp [requiredField, hattrs]

end Node

/-! ## Deltas -/

namespace Data

def value : Data → Value
  | .inline bytes => ofBase64 bytes
  | .blocks refs => .array (refs.map BlockRef.value)

def readInline (v : Value) : Option Data := (readBase64 v).map .inline

def readBlocks (v : Value) : Option Data := (readList BlockRef.ofValue v).map .blocks

/-- The first variant that can be read. -/
def ofValue (v : Value) : Option Data := readInline v <|> readBlocks v

def WellTyped : Data → Prop
  | .inline _ => True
  | .blocks refs => ∀ b ∈ refs, b.WellTyped

/-- Blocks are not read as bytes. -/
theorem readInline_blocks (refs : List BlockRef) : readInline (value (.blocks refs)) = none := rfl

/-- No value is read as both variants. -/
theorem readInline_or_readBlocks (v : Value) : readInline v = none ∨ readBlocks v = none := by
  cases v with
  | string s => exact .inr rfl
  | null | bool b | number n | array items | object members => exact .inl rfl

theorem ofValue_value {data : Data} (h : data.WellTyped) : ofValue data.value = some data := by
  cases data with
  | inline bytes =>
      rw [ofValue, readInline, value, readBase64_ofBase64]
      rfl
  | blocks refs =>
      rw [ofValue, readInline_blocks, readBlocks, value,
        readList_array fun b hb => BlockRef.ofValue_value (h b hb)]
      rfl

/-- The JSON of data is the text of its value. -/
theorem json_eq_render (data : Data) : data.json = data.value.render := by
  cases data with
  | inline bytes => rw [json, value, ofBase64, Value.render, String.toList_ofList]
  | blocks refs =>
      rw [json, value, Value.render, Value.renderItems_eq, List.map_map]
      rfl

end Data

namespace Delta

/-- A number of 32 bits. -/
def ofU32 (n : UInt32) : Value := .number n.toNat

def value : Delta → Value
  | .write path offset data =>
      .object [("op", .string "write"), ("path", .string path), ("offset", .number offset),
        ("data", data.value)]
  | .mkdir path => .object [("op", .string "mkdir"), ("path", .string path)]
  | .remove path => .object [("op", .string "remove"), ("path", .string path)]
  | .rename source dest =>
      .object [("op", .string "rename"), ("from", .string source), ("to", .string dest)]
  | .symlink path target =>
      .object [("op", .string "symlink"), ("path", .string path), ("target", .string target)]
  | .setAttr path mode uid gid mtimeMs =>
      .object [("op", .string "set_attr"), ("path", .string path), ("mode", ofOption ofU32 mode),
        ("uid", ofOption ofU32 uid), ("gid", ofOption ofU32 gid),
        ("mtime_ms", ofOption .number mtimeMs)]
  | .setXattr path name bytes =>
      .object [("op", .string "set_xattr"), ("path", .string path), ("name", .string name),
        ("value", ofOption ofBase64 bytes)]

def ofValue (v : Value) : Option Delta := do
  let (op, rest) ← tagged "op" v
  match op with
  | "write" =>
      match ← fields ["path", "offset", "data"] rest with
      | [path, offset, data] =>
          return .write (← requiredField readString path) (← requiredField readU64 offset)
            (← requiredField Data.ofValue data)
      | _ => none
  | "mkdir" =>
      match ← fields ["path"] rest with
      | [path] => return .mkdir (← requiredField readString path)
      | _ => none
  | "remove" =>
      match ← fields ["path"] rest with
      | [path] => return .remove (← requiredField readString path)
      | _ => none
  | "rename" =>
      match ← fields ["from", "to"] rest with
      | [source, dest] =>
          return .rename (← requiredField readString source) (← requiredField readString dest)
      | _ => none
  | "symlink" =>
      match ← fields ["path", "target"] rest with
      | [path, target] =>
          return .symlink (← requiredField readString path) (← requiredField readString target)
      | _ => none
  | "set_attr" =>
      match ← fields ["path", "mode", "uid", "gid", "mtime_ms"] rest with
      | [path, mode, uid, gid, mtimeMs] =>
          return .setAttr (← requiredField readString path) (← optionalField readU32 mode)
            (← optionalField readU32 uid) (← optionalField readU32 gid)
            (← optionalField readI64 mtimeMs)
      | _ => none
  | "set_xattr" =>
      match ← fields ["path", "name", "value"] rest with
      | [path, name, bytes] =>
          return .setXattr (← requiredField readString path) (← requiredField readString name)
            (← requiredField (readOption readBase64) bytes)
      | _ => none
  | _ => none

def WellTyped : Delta → Prop
  | .write _ offset data => offset < 2 ^ 64 ∧ data.WellTyped
  | .setAttr _ _ _ _ mtimeMs => ∀ ms, mtimeMs = some ms → -2 ^ 63 ≤ ms ∧ ms < 2 ^ 63
  | _ => True

theorem readOption_ofU32 (n : Option UInt32) : readOption readU32 (ofOption ofU32 n) = some n :=
  readOption_ofOption (fun _ => nofun) fun n _ => readU32_number n

theorem ofValue_value {d : Delta} (h : d.WellTyped) : ofValue d.value = some d := by
  cases d with
  | write path offset data =>
      have hoffset : readU64 (.number offset) = some offset := readU64_number h.1
      have hdata := Data.ofValue_value h.2
      rw [ofValue, value, tagged_object (by simp)]
      simp only [Option.bind_eq_bind, Option.bind_some]
      rw [fields_object (by rfl) (by decide)]
      simp [requiredField, hoffset, hdata]
  | mkdir path | remove path | rename source dest | symlink path target =>
      rw [ofValue, value, tagged_object (by simp)]
      simp only [Option.bind_eq_bind, Option.bind_some]
      rw [fields_object (by rfl) (by decide)]
      simp [requiredField]
  | setAttr path mode uid gid mtimeMs =>
      have hmtime : readOption readI64 (ofOption .number mtimeMs) = some mtimeMs :=
        readOption_ofOption (fun _ => nofun) fun ms hms => readI64_number (h ms hms).1 (h ms hms).2
      rw [ofValue, value, tagged_object (by simp)]
      simp only [Option.bind_eq_bind, Option.bind_some]
      rw [fields_object (by rfl) (by decide)]
      simp [requiredField, optionalField, readOption_ofU32, hmtime]
  | setXattr path name bytes =>
      have hbytes : readOption readBase64 (ofOption ofBase64 bytes) = some bytes :=
        readOption_ofOption (fun _ => nofun) fun b _ => readBase64_ofBase64 b
      rw [ofValue, value, tagged_object (by simp)]
      simp only [Option.bind_eq_bind, Option.bind_some]
      rw [fields_object (by rfl) (by decide)]
      simp [requiredField, hbytes]

/-- The JSON of a delta is the text of its value. -/
theorem json_eq_render (d : Delta) : d.json = d.value.render := by
  cases d with
  | write path offset data =>
      rw [json, Data.json_eq_render]
      rfl
  | mkdir | remove | rename | symlink => rfl
  | setAttr path mode uid gid mtimeMs =>
      cases mode <;> cases uid <;> cases gid <;> cases mtimeMs <;> rfl
  | setXattr path name bytes =>
      cases bytes with
      | none => rfl
      | some b =>
          have hbytes : (ofBase64 b).render = Json.string (base64 b) := by
            rw [ofBase64, Value.render, String.toList_ofList]
          rw [value, ofOption, Value.render, Value.renderMembers, Value.renderMembers,
            Value.renderMembers, Value.renderMembers, Value.renderMembers, hbytes]
          rfl

end Delta

/-! ## Segments -/

namespace Segment

/-- A node, or a tombstone. -/
def entryValue : Option Node → Value := ofOption Node.value

def value (segment : Segment) : Value := .object [("entries", ofMap entryValue segment.entries)]

def ofValue (v : Value) : Option Segment := do
  match ← fields ["entries"] v with
  | [entries] =>
      return { entries := ← requiredField (readMap (readOption Node.ofValue)) entries }
  | _ => none

def WellTyped (segment : Segment) : Prop :=
  ∀ (path : String) (node : Node), segment.entries[path]? = some (some node) → node.WellTyped

theorem ofValue_value {segment : Segment} (h : segment.WellTyped) :
    ofValue segment.value = some segment := by
  have hentries : readMap (readOption Node.ofValue) (ofMap entryValue segment.entries) =
      some segment.entries := by
    refine readMap_ofMap fun path node hnode => readOption_ofOption (fun n => ?_) fun n hn => ?_
    · cases n <;> nofun
    · subst hn
      exact Node.ofValue_value (h path n hnode)
  rw [ofValue, value, fields_object (by rfl) (by decide)]
  simp [requiredField, hentries]

end Segment

/-- Every delta and every segment is read back from its value, and no value of the untagged
types stands for both of their variants. -/
theorem delta_and_segment_read_back :
    (∀ d : Delta, d.WellTyped → Delta.ofValue d.value = some d) ∧
    (∀ segment : Segment, segment.WellTyped → Segment.ofValue segment.value = some segment) ∧
    (∀ v, Data.readInline v = none ∨ Data.readBlocks v = none) ∧
    ∀ v, Content.readInline v = none ∨ Content.readBlocks v = none :=
  ⟨fun _ => Delta.ofValue_value, fun _ => Segment.ofValue_value, Data.readInline_or_readBlocks,
    Content.readInline_or_readBlocks⟩

theorem delta_and_segment_read_back_tombstone :
    let node : Node := .file (.blocks [] 0)
      { mode := 0o644, uid := 0, gid := 0, mtimeMs := -1, xattrs := .insert ∅ "user.k" [0xff] }
    let segment : Segment := ⟨(ExtTreeMap.insert ∅ "f" none).insert "g" (some node)⟩
    Delta.ofValue (Delta.write "g" 0 (.blocks [])).value = some (.write "g" 0 (.blocks [])) ∧
      Segment.ofValue segment.value = some segment := by
  intro node segment
  refine ⟨delta_and_segment_read_back.1 _ ⟨by decide, nofun⟩,
    delta_and_segment_read_back.2.1 _ fun path n h => ?_⟩
  simp only [segment, ExtTreeMap.getElem?_insert, ExtTreeMap.getElem?_empty] at h
  split at h
  · cases h
    exact ⟨⟨nofun, by decide⟩, by decide, by decide⟩
  · split at h <;> cases h

end Landslide.Fuse
