import Landslide.Fuse.Requests

/-!
# Reading one's own writes

A read of an open file lays the staged extents of its handle over the range that it reads
of the committed content.  The position of an extent in the range is its offset less that
of the range, and never below zero: an extent that starts before the range is laid over it
from its first byte on.  The length of the range stays that of the committed content.

`read_overlays_iff` says when the read returns what a commit of the extents would let it
read.
-/

namespace Landslide.Fuse

open Std TxnKv

/-! ## Content with its staged extents -/

/-- The content with the extents spliced in, in write order. -/
def staged (content : Bytes) (extents : List (Nat × Bytes)) : Bytes :=
  extents.foldl (fun c e => FsImage.splice c e.1 e.2) content

/-- The positions of a file that an extent writes. -/
def Covers (e : Nat × Bytes) (i : Nat) : Prop := e.1 ≤ i ∧ i < e.1 + e.2.length

/-- The positions of a range from `offset` on that an extent is laid over. -/
def Lands (offset : Nat) (e : Nat × Bytes) (k : Nat) : Prop :=
  e.1 - offset ≤ k ∧ k < e.1 - offset + e.2.length

instance (offset : Nat) (e : Nat × Bytes) (k : Nat) : Decidable (Lands offset e k) :=
  inferInstanceAs (Decidable (_ ∧ _))

/-- No extent makes the file longer within the range of `size` bytes from `offset` on. -/
def NotLonger (length offset size : Nat) (extents : List (Nat × Bytes)) : Prop :=
  size ≤ length - offset ∨ ∀ e ∈ extents, e.1 + e.2.length ≤ max length offset

/-- Where an extent that starts before the range lands last, its byte is the one that
belongs there. -/
def LandsRight (content : Bytes) (offset size : Nat) (extents : List (Nat × Bytes)) : Prop :=
  ∀ earlier e later, extents = earlier ++ e :: later → e.1 < offset →
    ∀ k b, k < min size (content.length - offset) → e.2[k]? = some b →
      (∀ e' ∈ later, ¬ Lands offset e' k) → (staged content extents)[offset + k]? = some b

theorem staged_concat (content : Bytes) (extents : List (Nat × Bytes)) (e : Nat × Bytes) :
    staged content (extents ++ [e]) = FsImage.splice (staged content extents) e.1 e.2 := by
  rw [staged, List.foldl_concat]
  rfl

theorem staged_append (content : Bytes) (extents later : List (Nat × Bytes)) :
    staged content (extents ++ later) = staged (staged content extents) later :=
  List.foldl_append

/-- Splices make a file no shorter. -/
theorem length_le_staged (content : Bytes) (extents : List (Nat × Bytes)) :
    content.length ≤ (staged content extents).length := by
  induction extents using List.reverseRecOn with
  | nil => exact le_rfl
  | append_singleton extents e ih =>
      rw [staged_concat, length_splice]
      exact ih.trans (Nat.le_max_left _ _)

/-- A file ends past `n` exactly if it did or an extent does. -/
theorem length_staged_le_iff (content : Bytes) (extents : List (Nat × Bytes)) (n : Nat) :
    (staged content extents).length ≤ n ↔
      content.length ≤ n ∧ ∀ e ∈ extents, e.1 + e.2.length ≤ n := by
  induction extents using List.reverseRecOn with
  | nil => simp [staged]
  | append_singleton extents e ih =>
      rw [staged_concat, length_splice, Nat.max_le, ih, and_assoc, List.forall_mem_append,
        List.forall_mem_singleton]

/-- Bytes that no extent covers are kept. -/
theorem staged_of_not_covers {content : Bytes} {i : Nat} (hi : i < content.length)
    (extents : List (Nat × Bytes)) (h : ∀ e ∈ extents, ¬ Covers e i) :
    (staged content extents)[i]? = content[i]? := by
  induction extents using List.reverseRecOn with
  | nil => rfl
  | append_singleton extents e ih =>
      have hlen := hi.trans_le (length_le_staged content extents)
      have hout : i < e.1 ∨ e.1 + e.2.length ≤ i := by
        have hnot := h e (by simp)
        rw [Covers] at hnot
        omega
      rw [staged_concat, (spliced_splice _ e.1 e.2).outside i (by rw [length_splice]; omega) hout,
        List.getD_eq_getElem?_getD, ← ih fun e' he' => h e' (List.mem_append_left _ he'),
        List.getElem?_eq_getElem hlen]
      rfl

/-- The last extent that covers a position gives its byte. -/
theorem staged_of_covers {content : Bytes} {i : Nat} {e : Nat × Bytes} (he : Covers e i)
    (earlier : List (Nat × Bytes)) {later : List (Nat × Bytes)}
    (h : ∀ e' ∈ later, ¬ Covers e' i) :
    (staged content (earlier ++ e :: later))[i]? = e.2[i - e.1]? := by
  obtain ⟨hlo, hhi⟩ := he
  have hsplit : earlier ++ e :: later = (earlier ++ [e]) ++ later := by simp
  have hin : i < (staged content (earlier ++ [e])).length := by
    rw [staged_concat, length_splice]
    omega
  rw [hsplit, staged_append, staged_of_not_covers hin later h, staged_concat,
    ← (spliced_splice (staged content earlier) e.1 e.2).inside (i - e.1) (by omega),
    Nat.add_sub_cancel' hlo]

/-! ## Ranges with extents laid over them -/

theorem length_overlayExtent (offset : Nat) (buf : Bytes) (e : Nat × Bytes) :
    (LandslideFs.overlayExtent offset buf e).length = buf.length := by
  rw [LandslideFs.overlayExtent]
  split
  · rfl
  · simp only [List.length_append, List.length_take, List.length_drop]
    omega

theorem getElem?_overlayExtent (offset : Nat) (buf : Bytes) (e : Nat × Bytes) {k : Nat}
    (hk : k < buf.length) : (LandslideFs.overlayExtent offset buf e)[k]? =
      if Lands offset e k then e.2[k - (e.1 - offset)]? else buf[k]? := by
  rw [LandslideFs.overlayExtent]
  dsimp only
  split
  · next hstart =>
    rw [if_neg]
    rw [Lands]
    omega
  · next hstart =>
    have htake : (buf.take (e.1 - offset)).length = e.1 - offset := by
      rw [List.length_take]
      omega
    have hdata : (e.2.take (min (e.1 - offset + e.2.length) buf.length - (e.1 - offset))).length =
        min (e.1 - offset + e.2.length) buf.length - (e.1 - offset) := by
      rw [List.length_take]
      omega
    split
    · next hlands =>
      obtain ⟨hlo, hhi⟩ := hlands
      rw [List.append_assoc, List.getElem?_append_right (by omega), htake,
        List.getElem?_append_left (by omega), List.getElem?_take_of_lt (by omega)]
    · next hlands =>
      rw [Lands] at hlands
      by_cases hlo : k < e.1 - offset
      · rw [List.append_assoc, List.getElem?_append_left (by omega), List.getElem?_take_of_lt hlo]
      · rw [List.getElem?_append_right (by rw [List.length_append]; omega), List.length_append,
          htake, hdata, List.getElem?_drop]
        congr 1
        omega

/-- The range with the extents laid over it. -/
def overlaid (offset : Nat) (buf : Bytes) (extents : List (Nat × Bytes)) : Bytes :=
  extents.foldl (LandslideFs.overlayExtent offset) buf

theorem overlaid_append (offset : Nat) (buf : Bytes) (extents later : List (Nat × Bytes)) :
    overlaid offset buf (extents ++ later) = overlaid offset (overlaid offset buf extents) later :=
  List.foldl_append

theorem length_overlaid (offset : Nat) (extents : List (Nat × Bytes)) : ∀ buf : Bytes,
    (overlaid offset buf extents).length = buf.length := by
  induction extents with
  | nil => exact fun _ => rfl
  | cons e extents ih => exact fun buf => (ih _).trans (length_overlayExtent offset buf e)

theorem overlaid_of_not_lands (offset : Nat) {k : Nat} (extents : List (Nat × Bytes)) :
    ∀ buf : Bytes, k < buf.length → (∀ e ∈ extents, ¬ Lands offset e k) →
      (overlaid offset buf extents)[k]? = buf[k]? := by
  induction extents with
  | nil => exact fun _ _ _ => rfl
  | cons e extents ih =>
      intro buf hk h
      have hrest := ih (LandslideFs.overlayExtent offset buf e)
        (by rw [length_overlayExtent]; exact hk) fun e' he' => h e' (List.mem_cons_of_mem _ he')
      rw [getElem?_overlayExtent offset buf e hk, if_neg (h e List.mem_cons_self)] at hrest
      exact hrest

/-- The last extent that lands on a position gives its byte. -/
theorem overlaid_of_lands {offset k : Nat} {e : Nat × Bytes} (he : Lands offset e k)
    {buf : Bytes} (hk : k < buf.length) (earlier : List (Nat × Bytes))
    {later : List (Nat × Bytes)} (h : ∀ e' ∈ later, ¬ Lands offset e' k) :
    (overlaid offset buf (earlier ++ e :: later))[k]? = e.2[k - (e.1 - offset)]? := by
  have hk' : k < (overlaid offset buf earlier).length := by
    rw [length_overlaid]
    exact hk
  rw [overlaid_append]
  show (overlaid offset (LandslideFs.overlayExtent offset _ e) later)[k]? = _
  rw [overlaid_of_not_lands offset later _ (by rw [length_overlayExtent]; exact hk') h,
    getElem?_overlayExtent offset _ e hk', if_pos he]

/-- An extent covers no position of the range but those it lands on. -/
theorem Covers.lands {offset k : Nat} {e : Nat × Bytes} (h : Covers e (offset + k)) :
    Lands offset e k := by
  rw [Covers] at h
  rw [Lands]
  omega

/-- An extent that does not start before the range lands on what it covers. -/
theorem Lands.covers {offset k : Nat} {e : Nat × Bytes} (h : Lands offset e k)
    (hle : offset ≤ e.1) : Covers e (offset + k) := by
  rw [Lands] at h
  rw [Covers]
  omega

theorem length_slice (bytes : Bytes) (offset size : Nat) :
    (slice bytes offset (offset + size)).length = min size (bytes.length - offset) := by
  rw [slice_eq, List.length_drop, List.length_take]
  omega

theorem getElem?_slice (bytes : Bytes) (offset : Nat) {size k : Nat} (hk : k < size) :
    (slice bytes offset (offset + size))[k]? = bytes[offset + k]? := by
  rw [slice_eq, List.getElem?_drop, List.getElem?_take_of_lt (by omega)]

/-- Of a property that some elements have, one has it last. -/
theorem exists_last {α : Type} (p : α → Prop) [DecidablePred p] (l : List α) :
    (∀ x ∈ l, ¬ p x) ∨ ∃ a x b, l = a ++ x :: b ∧ p x ∧ ∀ y ∈ b, ¬ p y := by
  induction l using List.reverseRecOn with
  | nil => exact .inl fun x hx => absurd hx List.not_mem_nil
  | append_singleton l x ih =>
      by_cases hx : p x
      · exact .inr ⟨l, x, [], rfl, hx, fun y hy => absurd hy List.not_mem_nil⟩
      rcases ih with hnone | ⟨a, z, b, rfl, hz, hb⟩
      · exact .inl (List.forall_mem_append.mpr ⟨hnone, List.forall_mem_singleton.mpr hx⟩)
      · refine .inr ⟨a, z, b ++ [x], by simp, hz, ?_⟩
        exact List.forall_mem_append.mpr ⟨hb, List.forall_mem_singleton.mpr hx⟩

/-- The range has the length that it has of the new content exactly if no extent makes the
file longer in it. -/
theorem length_eq_iff (content : Bytes) (offset size : Nat) (extents : List (Nat × Bytes)) :
    (slice content offset (offset + size)).length =
        (slice (staged content extents) offset (offset + size)).length ↔
      NotLonger content.length offset size extents := by
  have hle := length_le_staged content extents
  have hends := length_staged_le_iff content extents (max content.length offset)
  rw [NotLonger, length_slice, length_slice]
  constructor
  · intro heq
    by_cases hsize : size ≤ content.length - offset
    · exact .inl hsize
    · exact .inr (hends.mp (by omega)).2
  · rintro (hsize | hall)
    · omega
    · have hmax := hends.mpr ⟨Nat.le_max_left _ _, hall⟩
      omega

/-- The range with the extents laid over it is the range of the content with the extents
spliced in, exactly if no extent makes the file longer in the range and what starts before
it lands right. -/
theorem overlaid_eq_iff (content : Bytes) (offset size : Nat) (extents : List (Nat × Bytes)) :
    overlaid offset (slice content offset (offset + size)) extents =
        slice (staged content extents) offset (offset + size) ↔
      NotLonger content.length offset size extents ∧ LandsRight content offset size extents := by
  have hrange := length_slice content offset size
  constructor
  · intro heq
    refine ⟨(length_eq_iff content offset size extents).mp ?_, ?_⟩
    · rw [← heq, length_overlaid]
    rintro earlier e later rfl hbefore k b hk hb hlast
    have hlands : Lands offset e k := by
      obtain ⟨hlt, -⟩ := List.getElem?_eq_some_iff.mp hb
      rw [Lands]
      omega
    rw [← getElem?_slice _ offset (hk.trans_le (Nat.min_le_left _ _)), ← heq,
      overlaid_of_lands hlands (by omega) earlier hlast, Nat.sub_eq_zero_of_le hbefore.le,
      Nat.sub_zero, hb]
  · rintro ⟨hlonger, hright⟩
    have hlen := (length_eq_iff content offset size extents).mpr hlonger
    refine List.ext_getElem? fun k => ?_
    by_cases hk : k < min size (content.length - offset)
    · rw [getElem?_slice _ offset (hk.trans_le (Nat.min_le_left _ _))]
      -- the last extent that lands on `k` decides what is read there
      rcases exists_last (fun e => Lands offset e k) extents with
        hnone | ⟨earlier, e, later, rfl, hlands, hlast⟩
      · rw [overlaid_of_not_lands offset extents _ (by omega) hnone,
          getElem?_slice _ offset (hk.trans_le (Nat.min_le_left _ _)),
          staged_of_not_covers (by omega) extents fun e he h => hnone e he h.lands]
      · rw [overlaid_of_lands hlands (by omega) earlier hlast]
        by_cases hbefore : e.1 < offset
        · have hb : k < e.2.length := by
            rw [Lands] at hlands
            omega
          rw [Nat.sub_eq_zero_of_le hbefore.le, Nat.sub_zero, hright earlier e later rfl hbefore k
            e.2[k] hk (List.getElem?_eq_getElem hb) hlast, List.getElem?_eq_getElem hb]
        · have hle := Nat.le_of_not_lt hbefore
          rw [staged_of_covers (hlands.covers hle) earlier fun e' he' h => hlast e' he' h.lands]
          congr 1
          omega
    · rw [List.getElem?_eq_none (by rw [length_overlaid]; omega),
        List.getElem?_eq_none (by omega)]

/-! ## Reads -/

section

variable {D S B : Type} (env : Outside D S B)

/-- The blocks that a mount has fetched. -/
def Backend.blocks : Backend → Cache
  | .volume v => v.blocks
  | .replica _ => ∅

/-- The bytes of a content.  Those of blocks are in the bucket, and what was fetched of
them is what is there. -/
def Holds (bucket : Bucket B) (blocks : Cache) (bytes : Bytes) : Content → Prop
  | .inline b => b = bytes
  | .blocks refs _ => ∃ bs : List Bytes, refs = bs.map (blockRef env) ∧ bs.flatten = bytes ∧
      (∀ b ∈ bs, Resolves env bucket b) ∧
      ∀ b ∈ bs, ∀ x, blocks[env.sha256 b]? = some x → x = b

variable {env}

/-- A range of a content is read from the blocks that have it. -/
theorem Holds.readContent {bucket : Bucket B} {blocks : Cache} {bytes : Bytes} {content : Content}
    (h : Holds env bucket blocks bytes content) (offset size : Nat) :
    (readContent env bucket content offset size blocks).1 =
      .ok (slice bytes offset (offset + size)) := by
  cases content with
  | inline b =>
      obtain rfl : b = bytes := h
      show Except.ok _ = Except.ok _
      rw [slice_eq, slice_eq]
      by_cases hle : offset ≤ b.length
      · rw [Nat.min_eq_left hle]
      · rw [List.drop_of_length_le, List.drop_of_length_le]
        · rw [List.length_take]
          omega
        · rw [List.length_take]
          omega
  | blocks refs filesize =>
      obtain ⟨bs, rfl, rfl, hres, hblocks⟩ := h
      exact readBlocks_eq bs 0 [] blocks hres hblocks

theorem Holds.readFileRange {bucket : Bucket B} {blocks : Cache} {bytes : Bytes}
    {content : Content} (h : Holds env bucket blocks bytes content) {image : FsImage}
    {path : String} {attrs : NodeMeta} (hfile : image.get path = some (.file content attrs))
    (offset size : Nat) : (readFileRange env bucket image path offset size blocks).1 =
      .ok (some (slice bytes offset (offset + size))) := by
  have hread := h.readContent offset size
  unfold Fuse.readFileRange
  rw [hfile]
  dsimp only
  cases hres : Fuse.readContent env bucket content offset size blocks with
  | mk res cache =>
      rw [hres] at hread
      cases hread
      rfl

/-- In every state of a mount and for every open handle: a read returns the range of the
content with the extents of the handle spliced in, exactly if no extent makes the file
longer in the range and what starts before it lands right. -/
theorem read_overlays_iff {bucket : Bucket B} {fs : LandslideFs} {ino fh : Nat} {path : String}
    {h : Handle} {content : Content} {attrs : NodeMeta} {bytes : Bytes}
    (hpath : fs.pathOf ino = some path) (hfh : fs.handles[fh]? = some h)
    (hfile : fs.image.get path = some (.file content attrs))
    (hbytes : Holds env bucket fs.backend.blocks bytes content) (offset size : Nat) :
    (fs.read env bucket ino fh offset size).1 =
        .ok (.data (slice (staged bytes h.extents) offset (offset + size))) ↔
      NotLonger bytes.length offset size h.extents ∧
        LandsRight bytes offset size h.extents := by
  have hrange : (fs.readRange env bucket path offset size).1 =
      .ok (some (slice bytes offset (offset + size))) := by
    have hread := hbytes.readFileRange hfile offset size
    rw [LandslideFs.image] at hread
    rw [LandslideFs.readRange]
    cases hbackend : fs.backend with
    | volume v =>
        rw [hbackend] at hread
        change (Fuse.readFileRange env bucket v.image path offset size v.blocks).1 = _ at hread
        dsimp only
        rw [hread]
    | replica view =>
        rw [hbackend] at hread
        change (Fuse.readFileRange env bucket view.image path offset size ∅).1 = _ at hread
        dsimp only
        rw [hread]
  have hanswer : (fs.read env bucket ino fh offset size).1 =
      .ok (.data (overlaid offset (slice bytes offset (offset + size)) h.extents)) := by
    rw [LandslideFs.read, hpath]
    dsimp only
    obtain ⟨hhandles, -⟩ := LandslideFs.readRange_frame env bucket path offset size fs
    cases hres : fs.readRange env bucket path offset size with
    | mk res fs' =>
        rw [hres] at hrange hhandles
        obtain rfl : res = _ := hrange
        dsimp only at hhandles ⊢
        rw [hhandles, hfh]
        rfl
  rw [hanswer, ← overlaid_eq_iff]
  constructor
  · exact fun heq => Reply.data.inj (Except.ok.inj heq)
  · intro heq
    rw [heq]

end

/-! ## A write before the range -/

/-- A file of three bytes, with two bytes written and not committed. -/
def rewritten (offset : Nat) : Session Delta Manifest (Segment ⊕ Bytes) :=
  Session.run named newSession
    [.request (.create 1 "a" 0o600 0 7 7) drawn, .request (.write 1 0 [1, 2, 3]) drawn,
      .request (.flush 1) drawn, .request (.write 1 offset [8, 9]) drawn]

/-- The read of the second byte returns the first byte of the extent. -/
theorem read_misplaces_extent :
    (rewritten 0).fs.pathOf 2 = some "/a" ∧
    contentAt (rewritten 0).fs.image "/a" = some (.inline [1, 2, 3]) ∧
    (rewritten 0).fs.handles[1]? = some { ino := 2, extents := [(0, [8, 9])] } ∧
    ((rewritten 0).fs.read named (rewritten 0).remote.bucket 2 1 1 1).1 = .ok (.data [8]) ∧
    ((rewritten 0).fs.read named (rewritten 0).remote.bucket 2 1 1 1).1 ≠
      .ok (.data (slice (staged [1, 2, 3] [(0, [8, 9])]) 1 (1 + 1))) := by
  decide +kernel

/-- A read of the whole file has the extent where it belongs. -/
theorem read_overlays_whole :
    ((rewritten 1).fs.read named (rewritten 1).remote.bucket 2 1 0 3).1 =
      .ok (.data (slice (staged [1, 2, 3] [(1, [8, 9])]) 0 (0 + 3))) := by
  have hpath : (rewritten 1).fs.pathOf 2 = some "/a" := by decide +kernel
  have hhandle : (rewritten 1).fs.handles[1]? = some { ino := 2, extents := [(1, [8, 9])] } := by
    decide +kernel
  have hfile : (rewritten 1).fs.image.get "/a" = some (.file (.inline [1, 2, 3])
      { mode := 0o600, uid := 7, gid := 7, mtimeMs := 5 }) := by decide +kernel
  refine (read_overlays_iff hpath hhandle hfile rfl 0 3).mpr ⟨.inl le_rfl, ?_⟩
  exact fun _ e _ _ hbefore => absurd hbefore (Nat.not_lt_zero e.1)

end Landslide.Fuse
