import Landslide.Fuse.Commit

/-!
# Extent writes

A write of inline data keeps the bytes of a file around the extent and its attributes
while the file is inline.  A file that a commit has moved into blocks is written as if it
were not there (`FsImage.written`): it is left with the data after a run of zeros and the
attributes of a new file.  `write_extends_iff` says when that is the same.
-/

namespace Landslide.Fuse

open Std TxnKv

/-! ## Splices -/

/-- `content` is `prev` with `data` at `offset`: a gap is filled with zeros, and the bytes
before and after the data are kept. -/
structure Spliced (prev : Bytes) (offset : Nat) (data content : Bytes) : Prop where
  length : content.length = max prev.length (offset + data.length)
  inside : ∀ i, i < data.length → content[offset + i]? = data[i]?
  outside : ∀ i, i < content.length → i < offset ∨ offset + data.length ≤ i →
    content[i]? = some (prev.getD i 0)

theorem getElem?_append_zeros (bytes : Bytes) {n i : Nat} (h : i < bytes.length + n) :
    (bytes ++ List.replicate n 0)[i]? = some (bytes.getD i 0) := by
  by_cases hi : i < bytes.length
  · rw [List.getElem?_append_left hi, List.getD_eq_getElem?_getD, List.getElem?_eq_getElem hi]
    rfl
  · rw [List.getElem?_append_right (by omega), List.getElem?_replicate, if_pos (by omega),
      List.getD_eq_getElem?_getD, List.getElem?_eq_none (by omega)]
    rfl

theorem spliced_splice (prev : Bytes) (offset : Nat) (data : Bytes) :
    Spliced prev offset data (FsImage.splice prev offset data) := by
  have hpad : offset ≤ (prev ++ List.replicate (offset + data.length - prev.length) 0).length := by
    rw [List.length_append, List.length_replicate]
    omega
  have htake : ((prev ++ List.replicate (offset + data.length - prev.length) 0).take offset).length =
      offset := List.length_take_of_le hpad
  refine ⟨length_splice prev offset data, fun i hi => ?_, fun i hi hout => ?_⟩
  · rw [FsImage.splice, List.append_assoc, List.getElem?_append_right (by omega), htake,
      Nat.add_sub_cancel_left, List.getElem?_append_left hi]
  · rw [length_splice] at hi
    rw [← getElem?_append_zeros prev (n := offset + data.length - prev.length) (by omega),
      FsImage.splice, List.append_assoc]
    rcases hout with hlt | hge
    · rw [List.getElem?_append_left (by omega), List.getElem?_take_of_lt hlt]
    · rw [List.getElem?_append_right (by omega), htake, List.getElem?_append_right (by omega),
        List.getElem?_drop]
      congr 1
      omega

/-- There is one splice. -/
theorem Spliced.eq {prev data content : Bytes} {offset : Nat}
    (h : Spliced prev offset data content) : content = FsImage.splice prev offset data := by
  have hs := spliced_splice prev offset data
  refine List.ext_getElem? fun i => ?_
  by_cases hi : i < content.length
  · by_cases hin : offset ≤ i ∧ i < offset + data.length
    · have hdata : i - offset < data.length := by omega
      have hat := h.inside (i - offset) hdata
      rw [← hs.inside (i - offset) hdata, show offset + (i - offset) = i by omega] at hat
      exact hat
    · rw [h.outside i hi (by omega), hs.outside i (by rw [hs.length, ← h.length]; exact hi)
        (by omega)]
  · have hi' : (FsImage.splice prev offset data).length ≤ i := by
      rw [hs.length, ← h.length]
      omega
    rw [List.getElem?_eq_none (by omega), List.getElem?_eq_none hi']

/-- Data spliced into a file is the data after zeros when the file ends by the end of the
data and is zero before it. -/
theorem splice_nil_iff (prev : Bytes) (offset : Nat) (data : Bytes) :
    FsImage.splice [] offset data = FsImage.splice prev offset data ↔
      prev.length ≤ offset + data.length ∧ ∀ i b, i < offset → prev[i]? = some b → b = 0 := by
  have hs := spliced_splice prev offset data
  have hnil := spliced_splice [] offset data
  have hlen : (FsImage.splice [] offset data).length = offset + data.length := by
    rw [length_splice, List.length_nil, Nat.zero_max]
  constructor
  · intro heq
    have hle : prev.length ≤ offset + data.length := by
      rw [heq, hs.length] at hlen
      omega
    refine ⟨hle, fun i b hi hb => ?_⟩
    have hat := hnil.outside i (by omega) (.inl hi)
    rw [heq, hs.outside i (by rw [hs.length]; omega) (.inl hi), List.getD_eq_getElem?_getD, hb,
      List.getD_nil] at hat
    exact Option.some.inj hat
  · rintro ⟨hle, hzero⟩
    refine Spliced.eq ⟨?_, hnil.inside, fun i hi hout => ?_⟩
    · rw [hlen]
      omega
    · have hlt : i < offset := by omega
      rw [hnil.outside i hi hout, List.getD_nil, List.getD_eq_getElem?_getD]
      cases hb : prev[i]? with
      | none => rfl
      | some b =>
          rw [hzero i b hlt hb]
          rfl

/-! ## Writes -/

section

variable {D S B : Type}

/-- The attributes of a file but its time. -/
def NodeMeta.SameMode (attrs attrs' : NodeMeta) : Prop :=
  attrs'.mode = attrs.mode ∧ attrs'.uid = attrs.uid ∧ attrs'.gid = attrs.gid ∧
    attrs'.xattrs = attrs.xattrs

/-- After a write of inline data a handle reads what it read of the file before with the
data spliced in, and the file has its mode, owners and extended attributes. -/
def Volume.Extends (env : Outside D S B) (bucket : Bucket B) (now : Int) (v : Volume)
    (path : String) (offset : Nat) (data : Bytes) (attrs : NodeMeta) : Prop :=
  let v' := v.mutate now (.write path offset (.inline data))
  (∀ prev blocks, readFile env bucket v.image path v.blocks = (.ok (some prev), blocks) →
    ∃ content, Spliced prev offset data content ∧
      ∀ blocks', readFile env bucket v'.image path blocks' = (.ok (some content), blocks')) ∧
  ∃ content' attrs', v'.image.get path = some (.file content' attrs') ∧ attrs.SameMode attrs'

/-- A file in blocks that is as new: it has the attributes of a new file, and as far as
it can be read it ends by the end of the extent and is zero before it. -/
def Volume.AsNew (env : Outside D S B) (bucket : Bucket B) (v : Volume) (path : String)
    (offset : Nat) (data : Bytes) (attrs : NodeMeta) : Prop :=
  attrs.mode = 0o644 ∧ attrs.uid = 0 ∧ attrs.gid = 0 ∧ attrs.xattrs = ∅ ∧
    ∀ prev blocks, readFile env bucket v.image path v.blocks = (.ok (some prev), blocks) →
      prev.length ≤ offset + data.length ∧ ∀ i b, i < offset → prev[i]? = some b → b = 0

theorem readFile_inline (env : Outside D S B) (bucket : Bucket B) {image : FsImage} {path : String}
    {bytes : Bytes} {attrs : NodeMeta} (h : image.get path = some (.file (.inline bytes) attrs))
    (blocks : Cache) : readFile env bucket image path blocks = (.ok (some bytes), blocks) := by
  rw [readFile, h]
  simp [readContent, slice, Content.len]

/-- With no block fetched yet a handle reads the bytes of the content. -/
theorem readFile_contentBytes {env : Outside D S B} {bucket : Bucket B} {image : FsImage}
    {path : String} {content : Content} {attrs : NodeMeta} {bytes : Bytes}
    (h : image.get path = some (.file content attrs))
    (hbytes : contentBytes env bucket content = .ok bytes) :
    ∃ blocks, readFile env bucket image path ∅ = (.ok (some bytes), blocks) := by
  rw [contentBytes] at hbytes
  rw [readFile, h]
  dsimp only
  cases hread : readContent env bucket content 0 content.len ∅ with
  | mk res blocks =>
  rw [hread] at hbytes
  cases hbytes
  exact ⟨blocks, rfl⟩

/-- A write of inline data to an inline file splices it in. -/
theorem get_write_inline {image : FsImage} {path : String} {bytes : Bytes} {attrs : NodeMeta}
    (h : image.get path = some (.file (.inline bytes) attrs)) (now : Int) (offset : Nat)
    (data : Bytes) : (image.apply now (.write path offset (.inline data))).get path =
      some (.file (.inline (FsImage.splice bytes offset data)) attrs) := by
  have h' : image.nodes[path]? = some (.file (.inline bytes) attrs) := h
  rw [FsImage.apply, FsImage.get_insert, Function.update_self, FsImage.written, h']

/-- A write of inline data to a file in blocks makes a new file. -/
theorem get_write_blocks {image : FsImage} {path : String} {refs : List BlockRef} {size : Nat}
    {attrs : NodeMeta} (h : image.get path = some (.file (.blocks refs size) attrs)) (now : Int)
    (offset : Nat) (data : Bytes) : (image.apply now (.write path offset (.inline data))).get path =
      some (.file (.inline (FsImage.splice [] offset data)) (.file now)) := by
  have h' : image.nodes[path]? = some (.file (.blocks refs size) attrs) := h
  rw [FsImage.apply, FsImage.get_insert, Function.update_self, FsImage.written, h']

/-- A write of inline data keeps the rest of a file and its attributes exactly if the file
is inline or as new. -/
theorem write_extends_iff (env : Outside D S B) (bucket : Bucket B) (now : Int) (v : Volume)
    (path : String) (offset : Nat) (data : Bytes) {content : Content} {attrs : NodeMeta}
    (h : v.image.get path = some (.file content attrs)) :
    v.Extends env bucket now path offset data attrs ↔
      (∃ bytes, content = .inline bytes) ∨ v.AsNew env bucket path offset data attrs := by
  cases content with
  | inline bytes =>
      have hget := get_write_inline h now offset data
      refine iff_of_true ⟨fun prev blocks hread => ?_, _, _, hget, rfl, rfl, rfl, rfl⟩ (.inl ⟨_, rfl⟩)
      rw [readFile_inline env bucket h] at hread
      cases hread
      exact ⟨_, spliced_splice bytes offset data, readFile_inline env bucket hget⟩
  | blocks refs size =>
      have hget := get_write_blocks h now offset data
      have hread' := readFile_inline env bucket hget
      constructor
      · rintro ⟨hcontent, content', attrs', hget', hmode, huid, hgid, hxattrs⟩
        have hnode := Option.some.inj (hget.symm.trans hget')
        cases hnode
        refine .inr ⟨hmode.symm, huid.symm, hgid.symm, hxattrs.symm, fun prev blocks hread => ?_⟩
        obtain ⟨content', hspliced, hnow⟩ := hcontent prev blocks hread
        refine (splice_nil_iff prev offset data).mp ?_
        rw [← hspliced.eq]
        have heq := (hread' blocks).symm.trans (hnow blocks)
        cases heq
        rfl
      · rintro (⟨bytes, hinline⟩ | ⟨hmode, huid, hgid, hxattrs, hzero⟩)
        · cases hinline
        refine ⟨fun prev blocks hread => ?_, _, _, hget, hmode.symm, huid.symm, hgid.symm,
          hxattrs.symm⟩
        refine ⟨_, ?_, hread'⟩
        rw [(splice_nil_iff prev offset data).mpr (hzero prev blocks hread)]
        exact spliced_splice prev offset data

end

/-- The handle and the remote state after a commit. -/
theorem runActs_commit {D S B : Type} [Payload D] (env : Outside D S B) (vol : String)
    (acts : List Act) {i : Nat} {v : Volume} (hv : (runActs env vol {} acts).handle i = some v)
    (now : Int) (stamps : Nat → Nat → Stamp) (fault : Option Fault) :
    let out := v.commit env now stamps fault (runActs env vol {} acts).remote
    (runActs env vol {} (acts ++ [.of i (.commit now stamps fault)])).handle i = some out.2.1 ∧
      (runActs env vol {} (acts ++ [.of i (.commit now stamps fault)])).remote = out.2.2 := by
  have hlt := Shared.lt_of_handle hv
  rw [runActs] at hv hlt
  simp only [runActs, List.foldl_append, List.foldl_cons, List.foldl_nil, stepAct]
  rw [stepOf_back _ i (by simp), Shared.handle, Shared.back, List.getElem?_set_self hlt]
  simp only [step, Shared.one, hv]
  exact ⟨rfl, trivial⟩

/-- The handle commits the file it has written past the first chunk. -/
def chunked : List Act := mounted ++ grown ++ [.of 0 (.commit 3 stamps none)]

theorem get_grown : grownHandle.image.get "/f" =
    some (.file (.inline (FsImage.splice [] chunk [1])) (.file 2)) := by
  show (FsImage.apply 2 {} pastChunk).get "/f" = _
  rw [pastChunk, FsImage.apply, FsImage.get_insert, Function.update_self]
  rfl

/-- The commit turns the file into blocks that read as its content. -/
theorem handle_chunked : ∃ v, (runActs named "v" {} chunked).handle 0 = some v ∧
    v.image.get "/f" =
      some (.file (blockContent named (FsImage.splice [] chunk [1])) (.file 2)) ∧
    ∃ blocks, readFile named (runActs named "v" {} chunked).remote.bucket v.image "/f" v.blocks =
      (.ok (some (FsImage.splice [] chunk [1])), blocks) := by
  obtain ⟨v', r', hcommit⟩ := Volume.commit_succeeds (v := grownHandle)
    (r := (runActs named "v" {} (mounted ++ grown)).remote) (by simp [grownHandle, Volume.mutate])
    (by rw [upgraded_grown]; rfl)
    (checkBatch_blocks _ (by
      rw [List.length_map, length_chunks, length_splice, List.length_nil, List.length_singleton,
        chunk]
      omega) [] (by simp)) rfl rfl 3 stamps
  obtain ⟨hhandle, hremote⟩ := runActs_commit named "v" (mounted ++ grown) (i := 0)
    (v := grownHandle) rfl 3 stamps none
  rw [hcommit] at hhandle hremote
  rw [chunked, hhandle, hremote]
  have hblocks : ∀ b ∈ chunks (FsImage.splice [] chunk [1]), Resolves named r'.bucket b :=
    Volume.commit_resolves named_hashing hcommit
      (addressed_runActs (named_lawful "v") named_hashing _) (large_pastChunk 2)
      ⟨chunk, .inline [1], by simp [grownHandle, Volume.mutate, pastChunk]⟩
  have himage : v'.image = restated 3 grownHandle.image (grownHandle.upgraded named) := by
    rcases Volume.commit_ok hcommit with ⟨hnil, -, -⟩ | ⟨-, -, himage⟩
    · simp [grownHandle, Volume.mutate] at hnil
    · exact himage
  have hblocks' : v'.blocks = ∅ := (Volume.commit_clears hcommit).2
  have hget : v'.image.get "/f" =
      some (.file (blockContent named (FsImage.splice [] chunk [1])) (.file 2)) := by
    have hbefore : grownHandle.image.nodes["/f"]? = _ := get_grown
    rw [himage, upgraded_grown]
    show (grownHandle.image.apply 3 (.write "/f" 0 (.blocks _))).get "/f" = _
    rw [FsImage.apply, FsImage.get_insert, Function.update_self, FsImage.written, hbefore]
    rfl
  refine ⟨v', rfl, hget, ?_⟩
  rw [hblocks']
  exact readFile_contentBytes hget (contentBytes_blocks hblocks)

/-- The handle writes one byte to the file in blocks, and reads back that byte alone. -/
theorem write_drops_blocks : ∃ v blocks, (runActs named "v" {} chunked).handle 0 = some v ∧
    readFile named (runActs named "v" {} chunked).remote.bucket v.image "/f" v.blocks =
      (.ok (some (FsImage.splice [] chunk [1])), blocks) ∧
    readFile named (runActs named "v" {} chunked).remote.bucket
      (v.mutate 4 (.write "/f" 0 (.inline [7]))).image "/f" blocks = (.ok (some [7]), blocks) ∧
    ¬ v.Extends named (runActs named "v" {} chunked).remote.bucket 4 "/f" 0 [7] (.file 2) := by
  obtain ⟨v, hv, hget, blocks, hread⟩ := handle_chunked
  have hwritten := get_write_blocks hget 4 0 [7]
  refine ⟨v, blocks, hv, hread, readFile_inline named _ hwritten blocks, ?_⟩
  rintro ⟨hcontent, -⟩
  obtain ⟨content, hspliced, hnow⟩ := hcontent _ _ hread
  have hone : content = [7] := by
    have heq := (hnow blocks).symm.trans (readFile_inline named _ hwritten blocks)
    cases heq
    rfl
  have hlen := hspliced.length
  rw [hone, length_splice] at hlen
  simp [chunk] at hlen

/-- While the file is inline a write keeps what was read of it. -/
theorem write_extends_iff_grown :
    grownHandle.Extends named (runActs named "v" {} (mounted ++ grown)).remote.bucket 3 "/f" 5 [7]
      (.file 2) :=
  (write_extends_iff named _ 3 grownHandle "/f" 5 [7] get_grown).mpr (.inl ⟨_, rfl⟩)

end Landslide.Fuse
