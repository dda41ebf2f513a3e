import Landslide.Fuse.Tails

/-!
# Blocks of large files

A commit cuts a large file into chunks, and stores each under its hash.  As long as no
two chunks share a hash, every block of the bucket is the bytes that its hash says
(`Addressed`), in every state that handles and purges reach, and the blocks of a
committed file read back as its content (`contentBytes_blocks`).
-/

namespace Landslide.Fuse

open Std TxnKv

/-! ## Chunks -/

/-- Cutting a list in pieces and joining them gives the list. -/
theorem flatten_cut {α : Type} (k : Nat) : ∀ (n : Nat) (l : List α), l.length ≤ n * k →
    ((List.range n).map fun i => (l.drop (i * k)).take k).flatten = l
  | 0, l, h => by
      rw [Nat.zero_mul, Nat.le_zero, List.length_eq_zero_iff] at h
      rw [h]
      rfl
  | n + 1, l, h => by
      have hrest : (l.drop k).length ≤ n * k := by
        rw [List.length_drop]
        rw [Nat.succ_mul] at h
        omega
      have hshift : ∀ i, (l.drop ((i + 1) * k)).take k = ((l.drop k).drop (i * k)).take k := by
        intro i
        rw [List.drop_drop, Nat.succ_mul, Nat.add_comm]
      rw [List.range_succ_eq_map, List.map_cons, List.flatten_cons, List.map_map]
      show (l.drop (0 * k)).take k ++
        ((List.range n).map fun i => (l.drop ((i + 1) * k)).take k).flatten = l
      simp only [hshift]
      rw [flatten_cut k n (l.drop k) hrest, Nat.zero_mul, List.drop_zero, List.take_append_drop]

theorem flatten_chunks (content : Bytes) : (chunks content).flatten = content := by
  refine flatten_cut chunk _ content ?_
  simp only [chunk]
  omega

section

variable {D S B : Type} {env : Outside D S B}

/-- The content that a commit gives a large file. -/
def blockContent (env : Outside D S B) (content : Bytes) : Content :=
  .blocks ((chunks content).map (blockRef env)) (((chunks content).map (blockRef env)).map (·.len)).sum

theorem blockContent_len (env : Outside D S B) (content : Bytes) :
    (blockContent env content).len = content.length := by
  show (((chunks content).map (blockRef env)).map (·.len)).sum = _
  rw [List.map_map]
  show ((chunks content).map List.length).sum = _
  rw [← List.length_flatten, flatten_chunks]

/-! ## Reading blocks -/

/-- The bucket has these bytes under their hash. -/
def Resolves (env : Outside D S B) (bucket : Bucket B) (b : Bytes) : Prop :=
  ∃ object, bucket (env.blockPath (env.sha256 b)) = some object ∧ env.bytes object = b

theorem slice_eq (bytes : Bytes) (lo hi : Nat) : slice bytes lo hi = (bytes.take hi).drop lo := by
  rw [slice, List.drop_take]
  by_cases hlo : lo ≤ bytes.length
  · rw [Nat.min_eq_left hlo]
    by_cases hhi : hi ≤ bytes.length
    · rw [Nat.min_eq_left hhi]
    · rw [Nat.min_eq_right (by omega), List.take_of_length_le (by rw [List.length_drop]),
        List.take_of_length_le (by rw [List.length_drop]; omega)]
  · have hlo : bytes.length ≤ lo := Nat.le_of_not_le hlo
    rw [Nat.min_eq_right hlo, List.drop_length, List.drop_of_length_le hlo, List.take_nil,
      List.take_nil]

theorem slice_all (b : Bytes) : slice b 0 b.length = b := by
  simp [slice]

theorem slice_nil (lo hi : Nat) : slice [] lo hi = [] := by
  simp [slice]

/-- A range of two byte strings in a row. -/
theorem slice_append (a b : Bytes) (lo hi : Nat) :
    slice (a ++ b) lo hi = slice a lo hi ++ slice b (lo - a.length) (hi - a.length) := by
  rw [slice_eq, slice_eq, slice_eq, List.take_append, List.drop_append, List.length_take]
  by_cases hhi : hi ≤ a.length
  · rw [Nat.sub_eq_zero_of_le hhi, List.take_zero, List.drop_nil, List.drop_nil]
  · rw [Nat.min_eq_right (by omega)]

/-- The bucket has these bytes under a hash. -/
def StoredAs (env : Outside D S B) (bucket : Bucket B) (hash : String) (b : Bytes) : Prop :=
  ∃ object, bucket (env.blockPath hash) = some object ∧ env.bytes object = b

theorem StoredAs.unique {bucket : Bucket B} {hash : String} {b b' : Bytes}
    (h : StoredAs env bucket hash b) (h' : StoredAs env bucket hash b') : b = b' := by
  obtain ⟨object, hobject, hbytes⟩ := h
  obtain ⟨object', hobject', hbytes'⟩ := h'
  rw [hobject] at hobject'
  cases hobject'
  rw [← hbytes, hbytes']

/-- Blocks are fetched from the bucket, or from a cache that agrees with it. -/
theorem fetchBlock_eq {bucket : Bucket B} {hash : String} {b : Bytes} {cache : Cache}
    (h : StoredAs env bucket hash b) (hcache : ∀ x, cache[hash]? = some x → x = b) :
    ∃ cache', fetchBlock env bucket hash cache = (.ok b, cache') ∧
      ∀ hash' x, cache'[hash']? = some x →
        cache[hash']? = some x ∨ StoredAs env bucket hash' x := by
  obtain ⟨object, hobject, hbytes⟩ := h
  cases hget : cache[hash]? with
  | some x =>
      obtain rfl := hcache x hget
      exact ⟨cache, by simp only [fetchBlock, hget], fun _ _ hx => .inl hx⟩
  | none =>
      refine ⟨_, by simp only [fetchBlock, hget, hobject, hbytes]; rfl, fun hash' x hx => ?_⟩
      rw [ExtTreeMap.getElem?_insert] at hx
      split at hx
      · next heq =>
        cases hx
        rw [← Std.compare_eq_iff_eq.mp heq]
        exact .inr ⟨object, hobject, hbytes⟩
      · exact .inl hx

/-- The bucket has the bytes of a block, of the recorded length, and what is cached under
its hash is what is there. -/
structure Backed (env : Outside D S B) (bucket : Bucket B) (cache : Cache) (block : BlockRef)
    (b : Bytes) : Prop where
  stored : StoredAs env bucket block.hash b
  length : b.length = block.len
  cached : ∀ x, cache[block.hash]? = some x → x = b

/-- The range is read block by block. -/
theorem readBlocks_range {bucket : Bucket B} {offset stop : Nat} {refs : List BlockRef}
    {bs : List Bytes} {cache : Cache} (h : List.Forall₂ (Backed env bucket cache) refs bs)
    (pos : Nat) (out : Bytes) :
    (readBlocks env bucket offset stop refs pos out cache).1 =
      .ok (out ++ slice bs.flatten (offset - pos) (stop - pos)) := by
  induction refs generalizing bs cache pos out with
  | nil =>
      cases h
      rw [List.flatten_nil, slice_nil, List.append_nil]
      rfl
  | cons block refs ih =>
      cases h with
      | @cons _ b _ bs hb h =>
          rw [readBlocks, List.flatten_cons, slice_append, Nat.sub_sub, Nat.sub_sub, ← hb.length]
          by_cases hbefore : pos + b.length ≤ offset
          · have hnone : slice b (offset - pos) (stop - pos) = [] := by
              rw [slice_eq]
              refine List.drop_of_length_le ?_
              rw [List.length_take]
              omega
            rw [if_pos hbefore, ih h, hnone, List.nil_append]
          rw [if_neg hbefore]
          by_cases hstop : stop ≤ pos
          · have hstop' : stop ≤ pos + b.length := hstop.trans (Nat.le_add_right _ _)
            rw [if_pos hstop, slice_eq, slice_eq, Nat.sub_eq_zero_of_le hstop,
              Nat.sub_eq_zero_of_le hstop', List.take_zero, List.take_zero, List.drop_nil,
              List.drop_nil, List.append_nil, List.append_nil]
          · obtain ⟨cache', hfetch, hcache'⟩ := fetchBlock_eq hb.stored hb.cached
            have hslice : slice b (offset - pos) (min stop (pos + b.length) - pos) =
                slice b (offset - pos) (stop - pos) := by
              rw [slice_eq, slice_eq, ← Nat.sub_min_sub_right, Nat.add_sub_cancel_left,
                ← List.take_take, List.take_length]
            -- what the cache gained is what the bucket has
            have h' : List.Forall₂ (Backed env bucket cache') refs bs := by
              refine h.imp fun block' b' hb' => ⟨hb'.stored, hb'.length, fun x hx => ?_⟩
              rcases hcache' _ x hx with hold | hstored
              · exact hb'.cached x hold
              · exact hstored.unique hb'.stored
            rw [if_neg hstop, hfetch]
            dsimp only
            rw [ih h', hslice, List.append_assoc]

/-- The chunks of a content are read back under their hashes. -/
theorem readBlocks_eq {bucket : Bucket B} {offset stop : Nat} (bs : List Bytes) (pos : Nat)
    (out : Bytes) (cache : Cache) (hres : ∀ b ∈ bs, Resolves env bucket b)
    (hcache : ∀ b ∈ bs, ∀ x, cache[env.sha256 b]? = some x → x = b) :
    (readBlocks env bucket offset stop (bs.map (blockRef env)) pos out cache).1 =
      .ok (out ++ slice bs.flatten (offset - pos) (stop - pos)) := by
  refine readBlocks_range ?_ pos out
  rw [List.forall₂_map_left_iff]
  exact List.forall₂_same.mpr fun b hb => ⟨hres b hb, rfl, hcache b hb⟩

/-! ## Ranges of contents -/

/-- What is cached is what the bucket has. -/
def CacheAgrees (env : Outside D S B) (bucket : Bucket B) (cache : Cache) : Prop :=
  ∀ hash x, cache[hash]? = some x → StoredAs env bucket hash x

/-- A block of the recorded length in the bucket. -/
def InBucket (env : Outside D S B) (bucket : Bucket B) (block : BlockRef) (b : Bytes) : Prop :=
  StoredAs env bucket block.hash b ∧ b.length = block.len

theorem CacheAgrees.backed {bucket : Bucket B} {cache : Cache} (h : CacheAgrees env bucket cache)
    {refs : List BlockRef} {bs : List Bytes} (hblocks : List.Forall₂ (InBucket env bucket) refs bs) :
    List.Forall₂ (Backed env bucket cache) refs bs :=
  hblocks.imp fun _ _ hb => ⟨hb.1, hb.2, fun x hx => (h _ x hx).unique hb.1⟩

theorem length_flatten_blocks {bucket : Bucket B} {refs : List BlockRef} {bs : List Bytes}
    (h : List.Forall₂ (InBucket env bucket) refs bs) :
    bs.flatten.length = (refs.map (·.len)).sum := by
  induction h with
  | nil => rfl
  | cons hb _ ih => rw [List.flatten_cons, List.length_append, ih, hb.2, List.map_cons, List.sum_cons]

/-- A range of an inline content. -/
theorem readContent_inline (bucket : Bucket B) (bytes : Bytes) (offset len : Nat) (cache : Cache) :
    readContent env bucket (.inline bytes) offset len cache =
      (.ok (slice bytes offset (offset + len)), cache) := by
  rw [readContent, slice_eq, slice_eq]
  by_cases hle : offset ≤ bytes.length
  · rw [Nat.min_eq_left hle]
  · rw [List.drop_of_length_le, List.drop_of_length_le]
    · rw [List.length_take]
      omega
    · rw [List.length_take]
      omega

/-- A range of blocks is that of the bytes they hold, read like an inline content, and a file
is all of them. -/
theorem readContent_blocks (env : Outside D S B) {bucket : Bucket B} {refs : List BlockRef}
    {bs : List Bytes} (hblocks : List.Forall₂ (InBucket env bucket) refs bs) {cache : Cache}
    (hcache : CacheAgrees env bucket cache) :
    let size := (refs.map (·.len)).sum
    (∀ offset len,
      (readContent env bucket (.blocks refs size) offset len cache).1 =
          .ok ((bs.flatten.take (min (offset + len) size)).drop offset) ∧
        (readContent env bucket (.blocks refs size) offset len cache).1 =
          (readContent env bucket (.inline bs.flatten) offset len cache).1) ∧
      ∀ (image : FsImage) (path : String) (attrs : NodeMeta),
        image.get path = some (.file (.blocks refs size) attrs) →
        (readFile env bucket image path cache).1 = .ok (some bs.flatten) := by
  dsimp only
  have hread : ∀ offset len, (readContent env bucket (.blocks refs (refs.map (·.len)).sum)
      offset len cache).1 = .ok (slice bs.flatten offset (offset + len)) := fun offset len =>
    readBlocks_range (hcache.backed hblocks) 0 []
  refine ⟨fun offset len => ⟨?_, ?_⟩, fun image path attrs hget => ?_⟩
  · rw [hread, slice_eq, ← length_flatten_blocks hblocks, ← List.take_take, List.take_length]
  · rw [hread, readContent_inline]
  · have hall := hread 0 (refs.map (·.len)).sum
    rw [readFile, hget]
    dsimp only
    rw [show (Content.blocks refs (refs.map (·.len)).sum).len = (refs.map (·.len)).sum from rfl]
    cases hres : readContent env bucket (.blocks refs (refs.map (·.len)).sum) 0
        (refs.map (·.len)).sum cache with
    | mk out cache' =>
        rw [hres] at hall
        dsimp only at hall
        rw [hall, Nat.zero_add, ← length_flatten_blocks hblocks, slice_all]

/-- Two blocks under their hashes. -/
def twoBlocks : Bucket (Segment ⊕ Bytes) := fun path =>
  if path = "blocks/x" then some (.inr [1, 2]) else if path = "blocks/y" then some (.inr [3]) else none

/-- A range that starts in the first of two blocks and goes past the second. -/
theorem readContent_twoBlocks :
    (readContent named twoBlocks (.blocks [⟨"x", 2⟩, ⟨"y", 1⟩] 3) 1 5
      ((∅ : Cache).insert "x" [1, 2])).1 = .ok [2, 3] := by
  have hblocks : List.Forall₂ (InBucket named twoBlocks) [⟨"x", 2⟩, ⟨"y", 1⟩] [[1, 2], [3]] :=
    .cons ⟨⟨.inr [1, 2], rfl, rfl⟩, rfl⟩ (.cons ⟨⟨.inr [3], rfl, rfl⟩, rfl⟩ .nil)
  have hcache : CacheAgrees named twoBlocks ((∅ : Cache).insert "x" [1, 2]) := by
    intro hash x hx
    rw [ExtTreeMap.getElem?_insert] at hx
    split at hx
    · next heq =>
      cases hx
      rw [← Std.compare_eq_iff_eq.mp heq]
      exact ⟨.inr [1, 2], rfl, rfl⟩
    · rw [ExtTreeMap.getElem?_empty] at hx
      cases hx
  exact ((readContent_blocks named hblocks hcache).1 1 5).1

/-- What a reader gets of a file. -/
def contentBytes (env : Outside D S B) (bucket : Bucket B) (content : Content) :
    Except Error Bytes :=
  (readContent env bucket content 0 content.len ∅).1

theorem contentBytes_inline (bucket : Bucket B) (b : Bytes) :
    contentBytes env bucket (.inline b) = .ok b := by
  simp [contentBytes, readContent, slice, Content.len]

theorem contentBytes_blocks {bucket : Bucket B} {content : Bytes}
    (h : ∀ b ∈ chunks content, Resolves env bucket b) :
    contentBytes env bucket (blockContent env content) = .ok content := by
  have hempty : ∀ b ∈ chunks content, ∀ x, (∅ : Cache)[env.sha256 b]? = some x → x = b := by simp
  rw [contentBytes, blockContent_len]
  refine (readBlocks_eq (chunks content) 0 [] ∅ h hempty).trans ?_
  rw [flatten_chunks, List.nil_append, Nat.sub_zero, Nat.zero_add, Nat.sub_zero, slice_all]

/-! ## Content-addressed buckets -/

/-- What the code relies on for blocks: an object keeps its bytes, and blocks with
different bytes have different paths. -/
structure Outside.Hashing (env : Outside D S B) : Prop where
  object : ∀ b, env.bytes (env.object b) = b
  distinct : ∀ b b', env.blockPath (env.sha256 b) = env.blockPath (env.sha256 b') → b = b'

/-- Every block in the bucket is the bytes that its path says. -/
def Addressed (env : Outside D S B) (bucket : Bucket B) : Prop :=
  ∀ b object, bucket (env.blockPath (env.sha256 b)) = some object → env.bytes object = b

theorem Addressed.resolves {bucket : Bucket B} (h : Addressed env bucket) {b : Bytes}
    (hb : (bucket (env.blockPath (env.sha256 b))).isSome = true) : Resolves env bucket b := by
  obtain ⟨object, hobject⟩ := Option.isSome_iff_exists.mp hb
  exact ⟨object, hobject, h b object hobject⟩

theorem Addressed.put (hhash : env.Hashing) {bucket : Bucket B} (h : Addressed env bucket)
    (b : Bytes) : Addressed env
      (Function.update bucket (env.blockPath (env.sha256 b)) (some (env.object b))) := by
  intro b' object hobject
  rw [Function.update_apply] at hobject
  split at hobject
  · next hpath =>
    cases hobject
    rw [hhash.object, hhash.distinct b' b hpath]
  · exact h b' object hobject

/-- Uploads keep the bucket addressed and take nothing away. -/
theorem Addressed.putBlocks (hhash : env.Hashing) (fault : Option Fault) : ∀ (bs : List Bytes)
    (i : Nat) {bucket : Bucket B}, Addressed env bucket →
    Addressed env (putBlocks env fault i bs bucket).2 ∧
      ∀ path, (bucket path).isSome = true →
        ((Fuse.putBlocks env fault i bs bucket).2 path).isSome = true
  | [], _, _, h => ⟨h, fun _ hp => hp⟩
  | b :: bs, i, bucket, h => by
      have hput := h.put hhash b
      have hkeep : ∀ path, (bucket path).isSome = true → (Function.update bucket
          (env.blockPath (env.sha256 b)) (some (env.object b)) path).isSome = true := by
        intro path hpath
        rw [Function.update_apply]
        split
        · rfl
        · exact hpath
      rw [Fuse.putBlocks]
      split
      · exact ⟨hput, hkeep⟩
      split
      · exact ⟨h, fun _ hp => hp⟩
      · obtain ⟨haddr, hsome⟩ := Addressed.putBlocks hhash fault bs (i + 1) hput
        exact ⟨haddr, fun path hpath => hsome path (hkeep path hpath)⟩

/-- Uploads that succeed are all there. -/
theorem putBlocks_isSome (hhash : env.Hashing) (fault : Option Fault) : ∀ (bs : List Bytes)
    (i : Nat) {bucket : Bucket B}, Addressed env bucket →
    (putBlocks env fault i bs bucket).1 = .ok () → ∀ b ∈ bs,
      ((putBlocks env fault i bs bucket).2 (env.blockPath (env.sha256 b))).isSome = true
  | b :: bs, i, bucket, h, hok, b', hb' => by
      rw [putBlocks] at hok ⊢
      split at hok
      · cases hok
      next hlanded =>
      split at hok
      · cases hok
      next hlost =>
      rw [if_neg hlanded, if_neg hlost]
      have hput := h.put hhash b
      rcases List.mem_cons.mp hb' with rfl | hb'
      · refine (hput.putBlocks hhash fault bs (i + 1)).2 _ ?_
        rw [Function.update_self]
        rfl
      · exact putBlocks_isSome hhash fault bs (i + 1) hput hok b' hb'

/-- Every chunk of a large file that was written is in the bucket, or to be
uploaded. -/
theorem mem_uploads {bucket : Bucket B} {image : FsImage} {path : String} {content : Bytes}
    (hlarge : large image path = some content) {b : Bytes} (hb : b ∈ chunks content) :
    ∀ (deltas : List Delta) (chunked : List String), path ∉ chunked →
      (∃ offset data, Delta.write path offset data ∈ deltas) →
      (bucket (env.blockPath (env.sha256 b))).isSome = true ∨
        b ∈ uploads env bucket image chunked deltas
  | [], _, _, h => by simp at h
  | d :: deltas, chunked, hnot, ⟨offset, data, hmem⟩ => by
      have later : ∀ chunked', path ∉ chunked' → Delta.write path offset data ∈ deltas →
          (bucket (env.blockPath (env.sha256 b))).isSome = true ∨
            b ∈ uploads env bucket image chunked' deltas :=
        fun chunked' hnot' hmem' => mem_uploads hlarge hb deltas chunked' hnot' ⟨offset, data, hmem'⟩
      have skip : Delta.write path offset data ≠ d → Delta.write path offset data ∈ deltas :=
        fun hne => (List.mem_cons.mp hmem).resolve_left hne
      cases d with
      | mkdir | remove | rename | symlink | setAttr | setXattr =>
          exact later chunked hnot (skip (by simp))
      | write p offset' data' =>
          rw [uploads]
          by_cases hp : p = path
          · subst hp
            rw [if_neg hnot, hlarge]
            by_cases hthere : (bucket (env.blockPath (env.sha256 b))).isSome = true
            · exact .inl hthere
            · refine .inr (List.mem_append_left _ (List.mem_filter.mpr ⟨hb, ?_⟩))
              simpa using hthere
          · have hrest := skip (by simp [Ne.symm hp])
            split
            · exact later chunked hnot hrest
            · split
              · exact later chunked hnot hrest
              · refine (later (p :: chunked) ?_ hrest).imp id fun h => List.mem_append_right _ h
                simp [Ne.symm hp, hnot]

/-! ## Commits -/

/-- A commit that succeeds has nothing to do, or uploads all its blocks and applies its
block writes to the image once more. -/
theorem Volume.commit_ok [Payload D] {now : Int} {stamps : Nat → Nat → Stamp}
    {fault : Option Fault} {v v' : Volume} {r r' : Remote D S B}
    (h : v.commit env now stamps fault r = (.ok (), v', r')) :
    (v.pending = [] ∧ v' = v ∧ r' = r) ∨
      ((Fuse.putBlocks env fault 0 (uploads env r.bucket v.image [] v.pending) r.bucket).1 = .ok () ∧
        r'.bucket = v.uploaded env fault r ∧
        v'.image = restated now v.image (v.upgraded env)) := by
  rw [Volume.commit] at h
  split at h
  · next hnil =>
    cases h
    exact .inl ⟨hnil, rfl, rfl⟩
  right
  rw [Volume.uploaded]
  revert h
  cases putBlocks env fault 0 (uploads env r.bucket v.image [] v.pending) r.bucket with
  | mk res bucket =>
  cases res with
  | error e => simp
  | ok u =>
      dsimp only
      cases encodeDeltas env (v.upgraded env) with
      | error e => simp
      | ok events =>
          dsimp only
          intro h
          split at h
          · cases h
          split at h
          · cases h
          · cases h
            exact ⟨rfl, rfl, rfl⟩
          · cases h

/-- After a commit that succeeds nothing is pending, and no block was fetched. -/
theorem Volume.commit_clears [Payload D] {now : Int} {stamps : Nat → Nat → Stamp}
    {fault : Option Fault} {v v' : Volume} {r r' : Remote D S B}
    (h : v.commit env now stamps fault r = (.ok (), v', r')) :
    v'.pending = [] ∧ v'.blocks = v.blocks := by
  rcases v.commit_cases env now stamps fault r with ⟨e, w, -, -, heq⟩ | ⟨hnil, heq⟩ |
    ⟨events, info, σ₁, image, -, -, -, heq⟩
  · rw [h] at heq
    cases heq
  · rw [h] at heq
    cases heq
    exact ⟨hnil, rfl⟩
  · rw [h] at heq
    cases heq
    exact ⟨rfl, rfl⟩

/-- Whatever a commit does, blocks keep to their hashes. -/
theorem Addressed.commit [Payload D] (hhash : env.Hashing) (now : Int)
    (stamps : Nat → Nat → Stamp) (fault : Option Fault) (v : Volume) {r : Remote D S B}
    (h : Addressed env r.bucket) : Addressed env (v.commit env now stamps fault r).2.2.bucket := by
  have hup : Addressed env (v.uploaded env fault r) := (h.putBlocks hhash fault _ 0).1
  rcases v.commit_cases env now stamps fault r with ⟨e, v', -, -, heq⟩ | ⟨-, heq⟩ |
    ⟨events, info, σ₁, image, -, -, -, heq⟩
  · rw [heq]
    exact hup
  · rw [heq]
    exact h
  · rw [heq]
    exact hup

/-- After a commit the chunks of every large file that it wrote are in the bucket. -/
theorem Volume.commit_resolves [Payload D] (hhash : env.Hashing) {now : Int}
    {stamps : Nat → Nat → Stamp} {fault : Option Fault} {v v' : Volume} {r r' : Remote D S B}
    (h : v.commit env now stamps fault r = (.ok (), v', r')) (haddr : Addressed env r.bucket)
    {path : String} {content : Bytes} (hlarge : large v.image path = some content)
    (hwritten : ∃ offset data, Delta.write path offset data ∈ v.pending) :
    ∀ b ∈ chunks content, Resolves env r'.bucket b := by
  intro b hb
  rcases Volume.commit_ok h with ⟨hnil, -, -⟩ | ⟨hok, hbucket, -⟩
  · rw [hnil] at hwritten
    simp at hwritten
  · rw [hbucket, Volume.uploaded]
    obtain ⟨haddr', hkeep⟩ := haddr.putBlocks hhash fault
      (uploads env r.bucket v.image [] v.pending) 0
    refine haddr'.resolves ?_
    rcases mem_uploads hlarge hb v.pending [] (by simp) hwritten with hthere | hup
    · exact hkeep _ hthere
    · exact putBlocks_isSome hhash fault _ 0 haddr hok b hup

/-! ## Runs -/

variable {vol : String}

theorem Addressed.step [Payload D] (henv : env.Lawful vol) (hhash : env.Hashing)
    {st : Shared D S B} (hdrawn : Drawn env vol st) (h : Addressed env st.remote.bucket)
    (act : Act) : Addressed env (stepAct env vol st act).remote.bucket := by
  cases act with
  | purge floor => exact h
  | of i op =>
      have hmid : ∀ now stamps fault (v : Volume), Addressed env
          (v.commit env now stamps fault st.remote).2.2.bucket :=
        fun now stamps fault v => h.commit hhash now stamps fault v
      cases op with
      | mount clock =>
          show Addressed env (mount env vol clock st.remote).2.bucket
          rw [(mount_cases env vol clock st.remote).1]
          exact h
      | mutate now d =>
          cases hv : st.handle i with
          | none => simpa [stepAct, stepOf, Fuse.step, Shared.one, Shared.back, hv] using h
          | some v => simpa [stepAct, stepOf, Fuse.step, Shared.one, Shared.back, hv] using h
      | truncate now path size =>
          cases hv : st.handle i with
          | none => simpa [stepAct, stepOf, Fuse.step, Shared.one, Shared.back, hv] using h
          | some v => simpa [stepAct, stepOf, Fuse.step, Shared.one, Shared.back, hv] using h
      | commit now stamps fault =>
          cases hv : st.handle i with
          | none => simpa [stepAct, stepOf, Fuse.step, Shared.one, Shared.back, hv] using h
          | some v =>
              simp only [stepAct, stepOf, Fuse.step, Shared.one, Shared.back, hv]
              exact hmid now stamps fault v
      | checkpoint now stamps clock ulid fault =>
          cases hv : st.handle i with
          | none => simpa [stepAct, stepOf, Fuse.step, Shared.one, Shared.back, hv] using h
          | some v =>
              simp only [stepAct, stepOf, Fuse.step, Shared.one, Shared.back, hv]
              obtain ⟨-, -, hbucket, -⟩ :=
                v.checkpoint_cases env now stamps clock ulid fault st.remote
              have hvol : (v.commit env now stamps fault st.remote).2.1.vol = vol :=
                (v.commit_frame env now stamps fault st.remote).1.trans (hdrawn i v hv).1
              intro b object hobject
              rw [hbucket _ (by rw [hvol]; exact (henv.apart _ _).symm)] at hobject
              exact hmid now stamps fault v b object hobject

/-- In every state that handles and purges reach, blocks keep to their hashes. -/
theorem addressed_runActs [Payload D] (henv : env.Lawful vol) (hhash : env.Hashing)
    (acts : List Act) : Addressed env (runActs env vol {} acts).remote.bucket := by
  induction acts using List.reverseRecOn with
  | nil => exact fun b object hobject => by cases hobject
  | append_singleton acts act ih =>
      rw [runActs, List.foldl_concat]
      exact ih.step henv hhash ((Tracked.start env vol).run acts).drawn act

end

end Landslide.Fuse
