import Landslide.Fuse.Failures
import Landslide.Json

/-!
# Caps of a commit

The store takes batches of at most 1,000 events, each of at most 1 MiB.  A commit moves
files into blocks by the size of their content, and appends all other deltas as they are.
So a write of inline data may be over the cap in JSON, where its bytes are base64, though
its file is small enough to stay inline, and nothing bounds the number of deltas.

`request_within_caps_iff` says when the batch of a commit is taken.
-/

namespace Landslide.Fuse

open Std TxnKv

/-! ## Deltas as JSON -/

def BlockRef.json (block : BlockRef) : Bytes :=
  Json.object [Json.field "hash" (Json.string block.hash.toList),
    Json.field "len" (Json.text (toString block.len))]

def Data.json : Data → Bytes
  | .inline bytes => Json.string (Json.base64 bytes)
  | .blocks refs => Json.array (refs.map BlockRef.json)

namespace Delta

/-- The members `op` and `path`. -/
def jsonHead (op path : String) : List Bytes :=
  [Json.field "op" (Json.string op.toList), Json.field "path" (Json.string path.toList)]

/-- The JSON of a delta, tagged by its operation. -/
def json : Delta → Bytes
  | .write path offset data =>
      Json.object (jsonHead "write" path ++
        [Json.field "offset" (Json.text (toString offset)), Json.field "data" data.json])
  | .mkdir path => Json.object (jsonHead "mkdir" path)
  | .remove path => Json.object (jsonHead "remove" path)
  | .rename source dest =>
      Json.object [Json.field "op" (Json.string "rename".toList),
        Json.field "from" (Json.string source.toList), Json.field "to" (Json.string dest.toList)]
  | .symlink path target =>
      Json.object (jsonHead "symlink" path ++ [Json.field "target" (Json.string target.toList)])
  | .setAttr path mode uid gid mtimeMs =>
      let number := fun n : UInt32 => Json.text (toString n.toNat)
      Json.object (jsonHead "set_attr" path ++
        [Json.field "mode" (Json.optional number mode), Json.field "uid" (Json.optional number uid),
          Json.field "gid" (Json.optional number gid),
          Json.field "mtime_ms" (Json.optional (fun ms => Json.text (toString ms)) mtimeMs)])
  | .setXattr path name value =>
      Json.object (jsonHead "set_xattr" path ++
        [Json.field "name" (Json.string name.toList),
          Json.field "value" (Json.optional (fun b => Json.string (Json.base64 b)) value)])

end Delta

/-- The JSON of a write of inline data, by its path, its offset and the number of bytes. -/
theorem length_json_inline (path : String) (offset : Nat) (bytes : Bytes) :
    (Delta.write path offset (.inline bytes)).json.length =
      42 + (Json.string path.toList).length + (Json.text (toString offset)).length +
        4 * ((bytes.length + 2) / 3) := by
  have hop : (Json.field "op" (Json.string "write".toList)).length = 12 := by decide
  have hpath : (Json.string "path".toList).length = 6 := by decide
  have hoffset : (Json.string "offset".toList).length = 8 := by decide
  have hdata : (Json.string "data".toList).length = 6 := by decide
  have hbytes : (Data.inline bytes).json.length = 2 + 4 * ((bytes.length + 2) / 3) :=
    Json.length_string_base64 bytes
  have hfield : ∀ (name : String) (value : Bytes),
      (Json.field name value).length = (Json.string name.toList).length + 1 + value.length := by
    intro name value
    rw [Json.field, List.length_append, List.length_cons]
    omega
  rw [Delta.json, Json.object, Delta.jsonHead]
  simp only [List.cons_append, List.nil_append, Json.commas, List.length_cons, List.length_append,
    List.length_nil, hop, hfield, hpath, hoffset, hdata, hbytes]
  omega

section

variable {D S B : Type} {env : Outside D S B}

/-- The codec writes the JSON of a delta. -/
def Outside.WritesJson [Payload D] (env : Outside D S B) : Prop :=
  ∀ d : Delta, ∃ data, env.delta.encode d = .ok data ∧ Payload.len data = d.json.length

/-! ## What a commit appends -/

/-- The path of a write to a file that goes into blocks. -/
def collapsedPath (image : FsImage) : Delta → Option String
  | .write path _ _ => if (large image path).isSome then some path else none
  | _ => none

/-- The block write of such a file. -/
def blockWrite (env : Outside D S B) (path : String) (content : Bytes) : Delta :=
  .write path 0 (.blocks ((chunks content).map (blockRef env)))

/-- The deltas that stay as they are. -/
def keptDeltas (image : FsImage) (deltas : List Delta) : List Delta :=
  deltas.filter fun d => (collapsedPath image d).isNone

/-- The paths that are written and go into blocks. -/
def collapsedPaths (image : FsImage) (deltas : List Delta) : List String :=
  (deltas.filterMap (collapsedPath image)).dedup

/-- What the caps ask of a handle: the deltas that stay and the files that go into blocks
are at most as many as a batch takes, and none of them is over the cap in JSON. -/
structure Volume.WithinCaps (env : Outside D S B) (v : Volume) : Prop where
  count : (keptDeltas v.image v.pending).length + (collapsedPaths v.image v.pending).length ≤
    maxBatchRecords
  kept : ∀ d ∈ keptDeltas v.image v.pending, d.json.length ≤ maxRecordBytes
  blocks : ∀ path ∈ collapsedPaths v.image v.pending, ∀ content, large v.image path = some content →
    (blockWrite env path content).json.length ≤ maxRecordBytes

theorem collapsedPath_eq_some {image : FsImage} {d : Delta} {path : String} :
    collapsedPath image d = some path ↔
      ∃ offset data content, d = .write path offset data ∧ large image path = some content := by
  cases d with
  | mkdir | remove | rename | symlink | setAttr | setXattr =>
      refine iff_of_false (by simp [collapsedPath]) ?_
      rintro ⟨offset, data, content, ⟨⟩, -⟩
  | write p offset data =>
      rw [collapsedPath]
      constructor
      · intro h
        split at h
        · next hlarge =>
          cases h
          obtain ⟨content, hcontent⟩ := Option.isSome_iff_exists.mp hlarge
          exact ⟨offset, data, content, rfl, hcontent⟩
        · cases h
      · rintro ⟨offset, data, content, ⟨⟩, hlarge⟩
        rw [hlarge]
        rfl

/-- A delta that stays. -/
theorem upgrade_kept {image : FsImage} {d : Delta} {chunked : List String}
    (hchunked : ∀ p ∈ chunked, large image p ≠ none) (hd : collapsedPath image d = none)
    (deltas : List Delta) :
    upgrade env image chunked (d :: deltas) = d :: upgrade env image chunked deltas := by
  cases d with
  | mkdir | remove | rename | symlink | setAttr | setXattr => rfl
  | write path offset data =>
      cases hlarge : large image path with
      | some content =>
          rw [collapsedPath, hlarge] at hd
          cases hd
      | none => rw [upgrade, if_neg fun hmem => hchunked path hmem hlarge, hlarge]

/-- The first write to a file that goes into blocks. -/
theorem upgrade_collapsed (env : Outside D S B) {image : FsImage} {d : Delta}
    {chunked : List String} {path : String} (hd : collapsedPath image d = some path) (hnot : path ∉ chunked) (deltas : List Delta) :
    ∃ content, large image path = some content ∧ upgrade env image chunked (d :: deltas) =
      blockWrite env path content :: upgrade env image (path :: chunked) deltas := by
  obtain ⟨offset, data, content, rfl, hlarge⟩ := collapsedPath_eq_some.mp hd
  refine ⟨content, hlarge, ?_⟩
  rw [upgrade, if_neg hnot, hlarge]
  rfl

/-- The later ones. -/
theorem upgrade_dropped {image : FsImage} {d : Delta} {chunked : List String} {path : String}
    (hd : collapsedPath image d = some path) (hmem : path ∈ chunked) (deltas : List Delta) :
    upgrade env image chunked (d :: deltas) = upgrade env image chunked deltas := by
  obtain ⟨offset, data, content, rfl, -⟩ := collapsedPath_eq_some.mp hd
  rw [upgrade, if_pos hmem]

section Cons

variable {image : FsImage} {d : Delta} {path : String}

theorem keptDeltas_of_none (h : collapsedPath image d = none) (deltas : List Delta) :
    keptDeltas image (d :: deltas) = d :: keptDeltas image deltas :=
  List.filter_cons_of_pos (by rw [h]; rfl)

theorem keptDeltas_of_some (h : collapsedPath image d = some path) (deltas : List Delta) :
    keptDeltas image (d :: deltas) = keptDeltas image deltas :=
  List.filter_cons_of_neg (by rw [h]; simp)

theorem collapsedPaths_of_none (h : collapsedPath image d = none) (deltas : List Delta) :
    collapsedPaths image (d :: deltas) = collapsedPaths image deltas := by
  rw [collapsedPaths, List.filterMap_cons_none h, collapsedPaths]

theorem mem_collapsedPaths_of_some (h : collapsedPath image d = some path) {deltas : List Delta}
    {p : String} : p ∈ collapsedPaths image (d :: deltas) ↔
      p = path ∨ p ∈ collapsedPaths image deltas := by
  rw [collapsedPaths, List.filterMap_cons_some h, List.mem_dedup, List.mem_cons, collapsedPaths,
    List.mem_dedup]

end Cons

/-- What is appended: the deltas that stay, and a block write for each file that goes into
blocks and has none yet. -/
theorem mem_upgrade {image : FsImage} {d : Delta} : ∀ {deltas : List Delta} {chunked : List String},
    (∀ p ∈ chunked, large image p ≠ none) →
    (d ∈ upgrade env image chunked deltas ↔
      d ∈ keptDeltas image deltas ∨ ∃ path content, path ∉ chunked ∧
        path ∈ collapsedPaths image deltas ∧ large image path = some content ∧
        d = blockWrite env path content)
  | [], chunked, _ => by simp [upgrade, keptDeltas, collapsedPaths]
  | a :: deltas, chunked, hchunked => by
      cases ha : collapsedPath image a with
      | none =>
          rw [upgrade_kept hchunked ha, List.mem_cons, mem_upgrade hchunked,
            keptDeltas_of_none ha, List.mem_cons, collapsedPaths_of_none ha, or_assoc]
      | some path =>
          have hpaths : ∀ p, p ∈ collapsedPaths image (a :: deltas) ↔
              p = path ∨ p ∈ collapsedPaths image deltas := fun p => mem_collapsedPaths_of_some ha
          by_cases hmem : path ∈ chunked
          · rw [upgrade_dropped ha hmem, mem_upgrade hchunked, keptDeltas_of_some ha]
            refine or_congr_right (exists₂_congr fun p content => and_congr_right fun hp => ?_)
            rw [hpaths, or_iff_right]
            rintro rfl
            exact hp hmem
          · obtain ⟨content, hlarge, heq⟩ := upgrade_collapsed env ha hmem deltas
            have hchunked' : ∀ p ∈ path :: chunked, large image p ≠ none :=
              List.forall_mem_cons.mpr ⟨by rw [hlarge]; simp, hchunked⟩
            rw [heq, List.mem_cons, mem_upgrade hchunked', keptDeltas_of_some ha]
            constructor
            · rintro (rfl | hk | ⟨p, c, hp, hin, hc, rfl⟩)
              · exact .inr ⟨path, content, hmem, (hpaths path).mpr (.inl rfl), hlarge, rfl⟩
              · exact .inl hk
              · exact .inr ⟨p, c, fun h => hp (List.mem_cons_of_mem _ h), (hpaths p).mpr (.inr hin),
                  hc, rfl⟩
            · rintro (hk | ⟨p, c, hp, hin, hc, rfl⟩)
              · exact .inr (.inl hk)
              · by_cases hpath : p = path
                · subst hpath
                  rw [hlarge] at hc
                  cases hc
                  exact .inl rfl
                · refine .inr (.inr ⟨p, c, ?_, ((hpaths p).mp hin).resolve_left hpath, hc, rfl⟩)
                  rw [List.mem_cons, not_or]
                  exact ⟨hpath, hp⟩

/-- How many deltas are appended. -/
theorem length_upgrade {image : FsImage} : ∀ (deltas : List Delta) {chunked : List String},
    (∀ p ∈ chunked, large image p ≠ none) →
    (upgrade env image chunked deltas).length = (keptDeltas image deltas).length +
      ((collapsedPaths image deltas).toFinset \ chunked.toFinset).card
  | [], chunked, _ => by simp [upgrade, keptDeltas, collapsedPaths]
  | a :: deltas, chunked, hchunked => by
      cases ha : collapsedPath image a with
      | none =>
          rw [upgrade_kept hchunked ha, List.length_cons, length_upgrade deltas hchunked,
            keptDeltas_of_none ha, List.length_cons, collapsedPaths_of_none ha]
          omega
      | some path =>
          have hpaths : (collapsedPaths image (a :: deltas)).toFinset =
              insert path (collapsedPaths image deltas).toFinset := by
            ext p
            rw [List.mem_toFinset, mem_collapsedPaths_of_some ha, Finset.mem_insert,
              List.mem_toFinset]
          by_cases hmem : path ∈ chunked
          · rw [upgrade_dropped ha hmem, length_upgrade deltas hchunked, keptDeltas_of_some ha,
              hpaths, Finset.insert_sdiff_of_mem _ (List.mem_toFinset.mpr hmem)]
          · obtain ⟨content, hlarge, heq⟩ := upgrade_collapsed env ha hmem deltas
            have hchunked' : ∀ p ∈ path :: chunked, large image p ≠ none :=
              List.forall_mem_cons.mpr ⟨by rw [hlarge]; simp, hchunked⟩
            -- the path is counted once, now
            have hsets : insert path (collapsedPaths image deltas).toFinset \ chunked.toFinset =
                insert path ((collapsedPaths image deltas).toFinset \
                  (path :: chunked).toFinset) := by
              ext p
              simp only [Finset.mem_sdiff, Finset.mem_insert, List.mem_toFinset, List.mem_cons]
              by_cases hp : p = path
              · simp [hp, hmem]
              · simp [hp]
            rw [heq, List.length_cons, length_upgrade deltas hchunked', keptDeltas_of_some ha,
              hpaths, hsets, Finset.card_insert_of_notMem (by simp)]
            omega

/-! ## The batch -/

/-- The events of a commit are the JSON of its deltas. -/
theorem encodeDeltas_json [Payload D] (hjson : env.WritesJson) : ∀ deltas : List Delta,
    ∃ events, encodeDeltas env deltas = .ok events ∧
      events.map (Payload.len ·.data) = deltas.map (·.json.length)
  | [] => ⟨[], rfl, rfl⟩
  | d :: deltas => by
      obtain ⟨data, hdata, hlen⟩ := hjson d
      obtain ⟨events, hevents, hlens⟩ := encodeDeltas_json hjson deltas
      refine ⟨{ eventType := "delta", data := data } :: events, ?_, ?_⟩
      · rw [encodeDeltas, hdata]
        dsimp only
        rw [hevents]
      · rw [List.map_cons, List.map_cons, hlens, hlen]

/-- For every handle, whatever it has buffered: the batch of its commit passes the size
check of the store exactly if the handle is within the caps. -/
theorem request_within_caps_iff [Payload D] (hjson : env.WritesJson) (v : Volume) :
    (∃ req, v.request env = .ok req ∧ checkBatch req.events = .ok ()) ↔ v.WithinCaps env := by
  obtain ⟨events, hevents, hlens⟩ := encodeDeltas_json hjson (v.upgraded env)
  have hrequest : v.request env = .ok (v.batch events) := by
    rw [Volume.request, hevents]
    rfl
  have hcheck : (∃ req, v.request env = .ok req ∧ checkBatch req.events = .ok ()) ↔
      checkBatch events = .ok () := by
    rw [hrequest]
    constructor
    · rintro ⟨req, hreq, hok⟩
      cases hreq
      exact hok
    · exact fun hok => ⟨_, rfl, hok⟩
  have hcount : events.length = (keptDeltas v.image v.pending).length +
      (collapsedPaths v.image v.pending).length := by
    have hlen := congrArg List.length hlens
    rw [List.length_map, List.length_map, Volume.upgraded, length_upgrade v.pending (by simp)]
      at hlen
    have hnodup : (collapsedPaths v.image v.pending).Nodup := List.nodup_dedup _
    rw [hlen, List.toFinset_nil, Finset.sdiff_empty, List.toFinset_card_of_nodup hnodup]
  have hsizes : (∀ e ∈ events, Payload.len e.data ≤ maxRecordBytes) ↔
      ∀ d ∈ v.upgraded env, d.json.length ≤ maxRecordBytes := by
    have hevents' : (∀ n ∈ events.map (Payload.len ·.data), n ≤ maxRecordBytes) ↔
        ∀ e ∈ events, Payload.len e.data ≤ maxRecordBytes := List.forall_mem_map
    rw [← hevents', hlens, List.forall_mem_map]
  rw [hcheck, checkBatch_ok_iff, hcount, hsizes]
  constructor
  · rintro ⟨hle, hall⟩
    refine ⟨hle, fun d hd => hall d ((mem_upgrade (by simp)).mpr (.inl hd)), ?_⟩
    intro path hpath content hlarge
    exact hall _ ((mem_upgrade (by simp)).mpr
      (.inr ⟨path, content, List.not_mem_nil, hpath, hlarge, rfl⟩))
  · rintro ⟨hle, hkept, hblocks⟩
    refine ⟨hle, fun d hd => ?_⟩
    rcases (mem_upgrade (by simp)).mp hd with hk | ⟨path, content, -, hpath, hlarge, rfl⟩
    · exact hkept d hk
    · exact hblocks path hpath content hlarge

/-- A commit whose batch does not pass the check is refused. -/
theorem Volume.commit_refused [Payload D] {v : Volume} {req : AppendReq D} {e : Error}
    (hne : v.pending ≠ []) (hreq : v.request env = .ok req) (hcheck : checkBatch req.events = .error e)
    (now : Int) (stamps : Nat → Nat → Stamp) (r : Remote D S B) :
    (v.commit env now stamps none r).1 = .error e := by
  rw [Volume.request] at hreq
  cases hevents : encodeDeltas env (v.upgraded env) with
  | error e' =>
      rw [hevents] at hreq
      cases hreq
  | ok events =>
      rw [hevents] at hreq
      cases hreq
      have hexec : (Call.appendWithToken v.vol v.token (expected v.tail) events false
          stamps : Call D S).exec r.store = (.error e, r.store) := by
        refine (commitAppends_exec (v.batch events) false stamps r.store).trans ?_
        rw [hcheck]
      have hputs : (putBlocks env none 0 (uploads env r.bucket v.image [] v.pending) r.bucket).1 =
          .ok () := putBlocks_none _ 0 _
      rw [Volume.commit, if_neg hne]
      dsimp only
      cases hres : putBlocks env none 0 (uploads env r.bucket v.image [] v.pending) r.bucket with
      | mk res bucket =>
          rw [hres] at hputs
          cases hputs
          dsimp only
          rw [hevents]
          dsimp only
          rw [if_neg (by simp), hexec]

end

/-! ## A write below the chunk size -/

/-- The JSON of a delta, kept as the delta. -/
structure JsonDelta where
  delta : Delta

instance : Payload JsonDelta := ⟨fun j => j.delta.json.length⟩

/-- The concrete environment with deltas in JSON. -/
def serialized : Outside JsonDelta Manifest (Segment ⊕ Bytes) where
  delta := ⟨fun d => .ok ⟨d⟩, fun j => .ok j.delta⟩
  segment := named.segment
  manifest := named.manifest
  object := named.object
  bytes := named.bytes
  sha256 := named.sha256
  ulid := named.ulid
  path := named.path

theorem writesJson_serialized : serialized.WritesJson := fun d => ⟨⟨d⟩, rfl, rfl⟩

/-- A handle that has written a new file. -/
def newFile (data : Bytes) : Volume := firstHandle.mutate 2 (.write "/f" 0 (.inline data))

theorem pending_newFile (data : Bytes) : (newFile data).pending ≠ [] := by
  simp [newFile, Volume.mutate]

/-- A file up to the chunk size stays inline. -/
theorem collapsedPath_newFile {data : Bytes} (h : data.length ≤ chunk) :
    collapsedPath (newFile data).image (.write "/f" 0 (.inline data)) = none := by
  have hget : (newFile data).image.get "/f" =
      some (.file (.inline (FsImage.splice [] 0 data)) (.file 2)) := by
    show (FsImage.apply 2 {} (.write "/f" 0 (.inline data))).get "/f" = _
    rw [FsImage.apply, FsImage.get_insert, Function.update_self]
    rfl
  have hlarge : large (newFile data).image "/f" = none := by
    rw [large, hget]
    refine if_pos ?_
    rw [length_splice, List.length_nil, Nat.zero_max, Nat.zero_add]
    exact h
  rw [collapsedPath, hlarge]
  rfl

/-- A new file of one chunk at most is within the caps as long as its base64 is. -/
theorem withinCaps_newFile_iff {data : Bytes} (h : data.length ≤ chunk) :
    (newFile data).WithinCaps serialized ↔
      47 + 4 * ((data.length + 2) / 3) ≤ maxRecordBytes := by
  have hkept : keptDeltas (newFile data).image (newFile data).pending =
      [.write "/f" 0 (.inline data)] := keptDeltas_of_none (collapsedPath_newFile h) []
  have hpaths : collapsedPaths (newFile data).image (newFile data).pending = [] :=
    collapsedPaths_of_none (collapsedPath_newFile h) []
  have hjson : (Delta.write "/f" 0 (.inline data)).json.length =
      47 + 4 * ((data.length + 2) / 3) := by
    have hpath : (Json.string "/f".toList).length = 4 := by decide
    have hoffset : (Json.text (toString 0)).length = 1 := by decide
    rw [length_json_inline, hpath, hoffset]
  constructor
  · intro hcaps
    rw [← hjson]
    exact hcaps.kept _ (by rw [hkept]; exact List.mem_singleton_self _)
  · intro hle
    refine ⟨?_, fun d hd => ?_, fun path hpath => ?_⟩
    · rw [hkept, hpaths, List.length_singleton, List.length_nil, maxBatchRecords]
      omega
    · rw [hkept, List.mem_singleton] at hd
      rw [hd, hjson]
      exact hle
    · rw [hpaths] at hpath
      exact absurd hpath List.not_mem_nil

/-- A write of 800,000 bytes stays inline, and is over the cap in base64. -/
theorem small_write_refused :
    ¬ (∃ req, (newFile (List.replicate 800000 0)).request serialized = .ok req ∧
      checkBatch req.events = .ok ()) ∧
    ∃ text, ((newFile (List.replicate 800000 0)).commit serialized 3 stamps none {}).1 =
      .error (.invalidInput text) := by
  have hlen : (List.replicate 800000 (0 : UInt8)).length ≤ chunk := by
    rw [List.length_replicate, chunk]
    omega
  have hover : ¬ ∃ req, (newFile (List.replicate 800000 0)).request serialized = .ok req ∧
      checkBatch req.events = .ok () := by
    rw [request_within_caps_iff writesJson_serialized, withinCaps_newFile_iff hlen,
      List.length_replicate, maxRecordBytes]
    omega
  obtain ⟨events, hevents, -⟩ := encodeDeltas_json writesJson_serialized
    ((newFile (List.replicate 800000 0)).upgraded serialized)
  have hrequest : (newFile (List.replicate 800000 0)).request serialized =
      .ok ((newFile (List.replicate 800000 0)).batch events) := by
    rw [Volume.request, hevents]
    rfl
  obtain ⟨text, htext⟩ := checkBatch_refuses fun hok => hover ⟨_, hrequest, hok⟩
  exact ⟨hover, text, Volume.commit_refused (pending_newFile _) hrequest htext 3 stamps {}⟩

/-- A write of one byte is taken. -/
theorem request_within_caps_one : ∃ req, (newFile [1]).request serialized = .ok req ∧
    checkBatch req.events = .ok () := by
  refine (request_within_caps_iff writesJson_serialized (newFile [1])).mpr ?_
  exact (withinCaps_newFile_iff (by decide)).mpr (by decide)

end Landslide.Fuse
