import Landslide.Fuse.Collapse
import Landslide.Staging

/-!
# What a commit appends

A handle buffers deltas, and its commit appends them with the writes to large files
collapsed.  If they can be collapsed, the replay of what it appends shows what the
handle shows (`commit_replays`).  A file that is removed and written again between its
first write and the commit is missing from the replay
(`truncate_after_write_loses_file`).
-/

namespace Landslide.Fuse

open Std TxnKv

section

variable {D S B : Type} {env : Outside D S B}

/-! ## Runs -/

/-- The pending deltas of a handle lead from an image to its own. -/
def Volume.Buffered (base : FsImage) (v : Volume) : Prop :=
  ∃ timed : List (Int × Delta), v.pending = timed.map (·.2) ∧
    v.image = timed.foldl (fun image d => image.apply d.1 d.2) base

theorem Volume.Buffered.mutate {base : FsImage} {v : Volume} (h : v.Buffered base) (now : Int)
    (d : Delta) : (v.mutate now d).Buffered base := by
  obtain ⟨timed, hpending, himage⟩ := h
  refine ⟨timed ++ [(now, d)], ?_, ?_⟩
  · show v.pending ++ [d] = _
    rw [hpending, List.map_append]
    rfl
  · show v.image.apply now d = _
    rw [himage, List.foldl_concat]

theorem Volume.Buffered.truncate {base : FsImage} {v : Volume} (h : v.Buffered base) (now : Int)
    (bucket : Bucket B) (path : String) (size : Nat) :
    (v.truncate env now bucket path size).2.Buffered base := by
  rw [Volume.truncate]
  split
  · exact h
  · next content blocks hread =>
    have hcache : ({ v with blocks := blocks } : Volume).Buffered base := h
    exact (hcache.mutate now _).mutate now _

/-- No commit or checkpoint of the handle `i`. -/
def Act.Buffers (i : Nat) : Act → Prop
  | .of k (.commit ..) => k ≠ i
  | .of k (.checkpoint ..) => k ≠ i
  | _ => True

variable {vol : String}

theorem buffered_step [Payload D] {base : FsImage} {st : Shared D S B} {i : Nat} {v : Volume}
    (hv : st.handle i = some v) (h : v.Buffered base) {act : Act} (hact : act.Buffers i) :
    ∃ v', (stepAct env vol st act).handle i = some v' ∧ v'.Buffered base := by
  cases act with
  | purge floor => exact ⟨v, hv, h⟩
  | of k op =>
      have hlt := Shared.lt_of_handle hv
      -- only the handle's own operations change it
      have other : k ≠ i → (∀ clock, op ≠ .mount clock) →
          (stepAct env vol st (.of k op)).handle i = some v := by
        intro hki hop
        show (stepOf env vol st (k, op)).handle i = some v
        rw [stepOf_back st k hop, Shared.handle, Shared.back, List.getElem?_set_ne hki]
        exact hv
      have mine : ∀ v' : Volume, (step env vol (st.one i) op).volume = some v' →
          (∀ clock, op ≠ .mount clock) → k = i →
          (stepAct env vol st (.of k op)).handle i = some v' := by
        rintro v' hv' hop rfl
        show (stepOf env vol st (k, op)).handle k = some v'
        rw [stepOf_back st k hop, Shared.handle, Shared.back, List.getElem?_set_self hlt, hv']
        rfl
      cases op with
      | mount clock =>
          refine ⟨v, ?_, h⟩
          show ((st.handles ++ [_])[i]?).join = some v
          rw [List.getElem?_append_left hlt]
          exact hv
      | commit => exact ⟨v, other hact (by simp), h⟩
      | checkpoint => exact ⟨v, other hact (by simp), h⟩
      | mutate now d =>
          by_cases hki : k = i
          · refine ⟨_, mine (v.mutate now d) ?_ (by simp) hki, h.mutate now d⟩
            simp only [Fuse.step, Shared.one, hv]
          · exact ⟨v, other hki (by simp), h⟩
      | truncate now path size =>
          by_cases hki : k = i
          · refine ⟨_, mine (v.truncate env now st.remote.bucket path size).2 ?_ (by simp) hki,
              h.truncate now _ path size⟩
            simp only [Fuse.step, Shared.one, hv]
          · exact ⟨v, other hki (by simp), h⟩

theorem buffered_run [Payload D] {base : FsImage} {i : Nat} (acts : List Act) :
    ∀ {st : Shared D S B} {v : Volume}, st.handle i = some v → v.Buffered base →
      (∀ act ∈ acts, act.Buffers i) →
      ∃ v', (runActs env vol st acts).handle i = some v' ∧ v'.Buffered base := by
  induction acts with
  | nil => exact fun hv h _ => ⟨_, hv, h⟩
  | cons act acts ih =>
      intro st v hv h hacts
      obtain ⟨v', hv', h'⟩ := buffered_step hv h (hacts act List.mem_cons_self)
      exact ih hv' h' fun a ha => hacts a (List.mem_cons_of_mem _ ha)

theorem runActs_append [Payload D] (env : Outside D S B) (vol : String) (st : Shared D S B)
    (acts acts' : List Act) :
    runActs env vol st (acts ++ acts') = runActs env vol (runActs env vol st acts) acts' :=
  List.foldl_append

/-- In every run, whatever other handles do meanwhile: if the deltas that a handle
buffered since it had none pending can be collapsed, then what its commit appends,
replayed on the image before them, shows at every path what the handle shows after the
commit. -/
theorem commit_replays [Payload D] (env : Outside D S B) (vol : String) (henv : env.Lawful vol)
    (hhash : env.Hashing) (before edits : List Act) (i : Nat) {v₀ v v' : Volume}
    (hv₀ : (runActs env vol {} before).handle i = some v₀) (hclean : v₀.pending = [])
    (hedits : ∀ act ∈ edits, act.Buffers i)
    (hv : (runActs env vol {} (before ++ edits)).handle i = some v)
    {now : Int} {stamps : Nat → Nat → Stamp} {fault : Option Fault} {r' : Remote D S B}
    (hcommit : v.commit env now stamps fault (runActs env vol {} (before ++ edits)).remote =
      (.ok (), v', r'))
    (hcollapsible : Collapsible v₀.image v.image v.pending) (clock : Nat → Int) (n : Nat)
    (path : String) :
    found env r'.bucket (FsImage.applied clock n v₀.image (v.upgraded env)) path =
      found env r'.bucket v'.image path := by
  have hbuffered : v.Buffered v₀.image := by
    have hrun : ∃ w, (runActs env vol (runActs env vol {} before) edits).handle i = some w ∧
        w.Buffered v₀.image := buffered_run edits hv₀ ⟨[], hclean, rfl⟩ hedits
    rw [← runActs_append, hv] at hrun
    obtain ⟨w, hw, hbuffered⟩ := hrun
    cases hw
    exact hbuffered
  obtain ⟨timed, hpending, himage⟩ := hbuffered
  have haddr := addressed_runActs henv hhash (before ++ edits)
  rcases Volume.commit_ok hcommit with ⟨hnil, rfl, -⟩ | ⟨-, hbucket, himage'⟩
  · -- nothing to do
    have htimed : timed = [] := by
      rw [hnil] at hpending
      exact List.map_eq_nil_iff.mp hpending.symm
    rw [Volume.upgraded, hnil, himage, htimed]
    rfl
  · rw [himage']
    refine hcollapsible.replay hpending himage (fun p content hlarge hwritten => ?_) now clock n path
    exact Volume.commit_resolves hhash hcommit haddr hlarge hwritten

/-! ## Concrete commits -/

theorem putBlocks_none : ∀ (bs : List Bytes) (j : Nat) (bucket : Bucket B),
    (putBlocks env none j bs bucket).1 = .ok ()
  | [], _, _ => rfl
  | b :: bs, j, bucket => by
      rw [putBlocks, if_neg (by simp), if_neg (by simp)]
      exact putBlocks_none bs (j + 1) _

/-- A handle that has the fence and knows the tail of its stream commits what the caps
admit. -/
theorem Volume.commit_succeeds [Payload D] {v : Volume} {r : Remote D S B}
    {events : List (NewEvent D)} (hne : v.pending ≠ [])
    (hevents : encodeDeltas env (v.upgraded env) = .ok events) (hcheck : checkBatch events = .ok ())
    (hfence : r.store.get (.fence v.vol) = some v.token) (htail : tailVersion r.store v.vol = v.tail)
    (now : Int) (stamps : Nat → Nat → Stamp) :
    ∃ v' r', v.commit env now stamps none r = (.ok (), v', r') := by
  obtain ⟨info, σ₁, -, he⟩ := commitAppends_exec_ok (v.batch events) false stamps r.store hcheck
    (by
      rintro token current ⟨⟩ hcur
      rw [show (v.batch events).stream = v.vol from rfl, hfence] at hcur
      exact (Option.some.inj hcur).symm)
    (by
      show (expected v.tail).admits (tailVersion r.store v.vol) = true
      rw [htail]
      exact admits_expected _) (encodeDeltas_ne_nil hevents (upgraded_ne_nil v hne))
  have hput : (putBlocks env none 0 (uploads env r.bucket v.image [] v.pending) r.bucket).1 = .ok () :=
    putBlocks_none _ 0 _
  rw [Volume.commit, if_neg hne]
  cases hres : putBlocks env none 0 (uploads env r.bucket v.image [] v.pending) r.bucket with
  | mk res bucket =>
  rw [hres] at hput
  cases hput
  have hexec : (Call.appendWithToken v.vol v.token (expected v.tail) events false
      stamps : Call D S).exec r.store =
        (.ok (.infos [info]), σ₁.put .seq (seqOf r.store + events.length)) := he
  simp only [hevents, hexec]
  exact ⟨_, _, rfl⟩

end

theorem toNat_ofNat_byte (x : UInt8) : (Char.ofNat x.toNat).toNat = x.toNat := by
  have hlt := x.toNat_lt
  have hvalid : x.toNat.isValidChar := .inl (by omega)
  rw [Char.ofNat, dif_pos hvalid]
  rfl

theorem named_hashing : named.Hashing where
  object _ := rfl
  distinct b b' h := by
    have hlist := congrArg String.toList h
    simp only [Outside.blockPath, named, plain, toString, id_eq, String.toList_append,
      String.toList_ofList, List.append_cancel_left_eq] at hlist
    refine List.map_injective_iff.mpr (fun x y hxy => ?_) hlist
    have hnat := congrArg Char.toNat hxy
    rw [toNat_ofNat_byte, toNat_ofNat_byte] at hnat
    exact UInt8.toNat_inj.mp hnat

theorem length_splice (bytes : Bytes) (offset : Nat) (data : Bytes) :
    (FsImage.splice bytes offset data).length = max bytes.length (offset + data.length) :=
  Staging.length_write 0 bytes offset data

theorem length_resize (bytes : Bytes) (size : Nat) : (Volume.resize bytes size).length = size :=
  Staging.length_resize 0 bytes size

theorem large_of_shapes {image : FsImage} {path : String} {content : Bytes}
    (h : image.shapes path = some (.file (.inline content))) (hlen : chunk < content.length) :
    large image path = some content := by
  obtain ⟨attrs, hget⟩ := FsImage.get_of_shapes h
  rw [large, hget]
  exact if_neg (by omega)

theorem small_of_shapes {image : FsImage} {path : String} {content : Bytes}
    (h : image.shapes path = some (.file (.inline content))) (hlen : content.length ≤ chunk) :
    large image path = none := by
  obtain ⟨attrs, hget⟩ := FsImage.get_of_shapes h
  rw [large, hget]
  exact if_pos hlen

/-- A handle on a new volume. -/
def firstHandle : Volume := { vol := "v", token := "u", image := {}, tail := none }

def mounted : List Act := [.of 0 (.mount fun _ => 1)]

theorem handle_mounted : (runActs named "v" {} mounted).handle 0 = some firstHandle := rfl

/-- One byte past the first chunk. -/
def pastChunk : Delta := .write "/f" chunk (.inline [1])

theorem shapes_pastChunk (now : Int) : (FsImage.apply now {} pastChunk).shapes "/f" =
    some (.file (.inline (FsImage.splice [] chunk [1]))) := by
  rw [FsImage.shapes_apply, pastChunk, Shapes.apply, Function.update_self]
  rfl

theorem large_pastChunk (now : Int) :
    large (FsImage.apply now {} pastChunk) "/f" = some (FsImage.splice [] chunk [1]) := by
  refine large_of_shapes (shapes_pastChunk now) ?_
  rw [length_splice]
  simp

theorem length_chunks (content : Bytes) :
    (chunks content).length = (content.length + chunk - 1) / chunk := by
  rw [chunks, List.length_map, List.length_range]

/-- A batch of a block write of a few blocks, and of deltas without data. -/
theorem checkBatch_blocks (refs : List BlockRef) (hrefs : refs.length ≤ 2) (more : List Delta)
    (hmore : more.length ≤ 1 ∧ ∀ d ∈ more, dataSize d = 0) :
    checkBatch ((Delta.write "/f" 0 (.blocks refs) :: more).map fun d =>
      ({ eventType := "delta", data := d } : NewEvent Delta)) = .ok () := by
  have hlen : ¬ ((Delta.write "/f" 0 (.blocks refs) :: more).map fun d =>
      ({ eventType := "delta", data := d } : NewEvent Delta)).length > maxBatchRecords := by
    rw [List.length_map, List.length_cons, maxBatchRecords]
    omega
  have hfind : ((Delta.write "/f" 0 (.blocks refs) :: more).map fun d =>
      ({ eventType := "delta", data := d } : NewEvent Delta)).find?
        (fun e => Payload.len e.data > maxRecordBytes) = none := by
    rw [List.find?_eq_none]
    intro e he
    obtain ⟨d, hd, rfl⟩ := List.mem_map.mp he
    have hsize : dataSize d ≤ 128 := by
      rcases List.mem_cons.mp hd with rfl | hd
      · show 64 * refs.length ≤ 128
        omega
      · rw [hmore.2 d hd]
        omega
    show ¬ decide (100 + dataSize d > maxRecordBytes) = true
    rw [decide_eq_true_eq, maxRecordBytes]
    omega
  rw [checkBatch, if_neg hlen, hfind]

/-- The handle writes past the first chunk. -/
def grown : List Act := [.of 0 (.mutate 2 pastChunk)]

def grownHandle : Volume := firstHandle.mutate 2 pastChunk

theorem upgraded_grown : grownHandle.upgraded named =
    [.write "/f" 0 (.blocks ((chunks (FsImage.splice [] chunk [1])).map (blockRef named)))] := by
  show upgrade named (FsImage.apply 2 {} pastChunk) [] [pastChunk] = _
  rw [pastChunk, upgrade, if_neg List.not_mem_nil, ← pastChunk, large_pastChunk]
  rfl

theorem collapsible_grown : Collapsible firstHandle.image grownHandle.image grownHandle.pending := by
  have hpending : grownHandle.pending = [pastChunk] := rfl
  rw [hpending]
  refine ⟨fun earlier d later heq => ?_, fun q p ho => ?_, fun q refs hblocks => ?_⟩
  · obtain ⟨rfl, rfl⟩ : earlier = [] ∧ d = pastChunk := by
      cases earlier with
      | nil =>
          cases heq
          exact ⟨rfl, rfl⟩
      | cons x xs => simp at heq
    exact fun _ => rfl
  · have horigin : (Trail.run grownHandle.image { image := firstHandle.image } [pastChunk]).origin =
        Function.update (fun _ => none) "/f" (some "/f") := by
      have hlarge : large grownHandle.image "/f" = _ := large_pastChunk 2
      rw [Trail.run, List.foldl_cons, List.foldl_nil, pastChunk, Trail.step,
        if_neg List.not_mem_nil, hlarge]
    rw [horigin, Function.update_apply] at ho
    split at ho
    · next hq =>
      cases ho
      exact hq.symm
    · cases ho
  · cases hblocks

/-- The replay of the block write and the handle show the same file. -/
theorem commit_replays_grown : ∃ v' r',
    grownHandle.commit named 3 stamps none (runActs named "v" {} (mounted ++ grown)).remote =
      (.ok (), v', r') ∧
    ∀ clock n path, found named r'.bucket
      (FsImage.applied clock n firstHandle.image (grownHandle.upgraded named)) path =
        found named r'.bucket v'.image path := by
  obtain ⟨v', r', hcommit⟩ := Volume.commit_succeeds (v := grownHandle)
    (r := (runActs named "v" {} (mounted ++ grown)).remote) (by simp [grownHandle, Volume.mutate])
    (by rw [upgraded_grown]; rfl)
    (checkBatch_blocks _ (by
      rw [List.length_map, length_chunks, length_splice, List.length_nil, List.length_singleton,
        chunk]
      omega) [] (by simp)) rfl rfl 3 stamps
  refine ⟨v', r', hcommit, fun clock n path => ?_⟩
  exact commit_replays named "v" (named_lawful "v") named_hashing mounted grown 0 handle_mounted rfl
    (by simp [grown, Act.Buffers]) rfl hcommit collapsible_grown clock n path

theorem truncate_inline {D S B : Type} (env : Outside D S B) {v : Volume} {path : String}
    {content : Bytes} (h : v.image.shapes path = some (.file (.inline content))) (now : Int)
    (bucket : Bucket B) (size : Nat) : (v.truncate env now bucket path size).2 =
      (v.mutate now (.remove path)).mutate now
        (.write path 0 (.inline (Volume.resize content size))) := by
  obtain ⟨attrs, hget⟩ := FsImage.get_of_shapes h
  have hread : readFile env bucket v.image path v.blocks = (.ok (some content), v.blocks) := by
    rw [readFile, hget]
    simp [readContent, slice, Content.len]
  rw [Volume.truncate, hread]
  rfl

/-- The handle grows the file by a truncate, after it has written it. -/
def truncated : List Act := grown ++ [.of 0 (.truncate 3 "/f" (chunk + 2))]

/-- The content after the truncate. -/
def enlarged : Bytes := Volume.resize (FsImage.splice [] chunk [1]) (chunk + 2)

def truncatedHandle : Volume :=
  (grownHandle.mutate 3 (.remove "/f")).mutate 3 (.write "/f" 0 (.inline enlarged))

theorem handle_truncated :
    (runActs named "v" {} (mounted ++ truncated)).handle 0 = some truncatedHandle := by
  have hrun : (runActs named "v" {} (mounted ++ truncated)).handle 0 =
      some (grownHandle.truncate named 3 (runActs named "v" {} (mounted ++ grown)).remote.bucket "/f"
        (chunk + 2)).2 := rfl
  rw [hrun, truncate_inline named (shapes_pastChunk 2)]
  rfl

theorem large_truncated :
    large truncatedHandle.image "/f" = some (FsImage.splice [] 0 enlarged) := by
  refine large_of_shapes ?_ ?_
  · show (FsImage.apply 3 (FsImage.apply 3 grownHandle.image (.remove "/f"))
      (.write "/f" 0 (.inline enlarged))).shapes "/f" = _
    rw [FsImage.shapes_apply, FsImage.shapes_apply, Shapes.apply, Function.update_self, Shapes.apply,
      Subtree.erase, if_pos (.inl rfl)]
    rfl
  · rw [length_splice, enlarged, length_resize]
    omega

/-- A write that comes after a removal of its path is dropped all the same. -/
theorem upgrade_rewritten {D S B : Type} (env : Outside D S B) {image : FsImage} {path : String}
    {content : Bytes} (h : large image path = some content) (offset offset' : Nat)
    (data data' : Data) :
    upgrade env image [] [.write path offset data, .remove path, .write path offset' data'] =
      [.write path 0 (.blocks ((chunks content).map (blockRef env))), .remove path] := by
  simp [upgrade, h]

theorem upgraded_truncated : truncatedHandle.upgraded named =
    [.write "/f" 0 (.blocks ((chunks (FsImage.splice [] 0 enlarged)).map (blockRef named))),
      .remove "/f"] :=
  upgrade_rewritten named large_truncated chunk 0 (.inline [1]) (.inline enlarged)

/-- A file is written past its first chunk and enlarged by a truncate, in one batch.
The commit appends the block write and then the removal, so that the file is missing
from every replay. -/
theorem truncate_after_write_loses_file :
    (runActs named "v" {} mounted).handle 0 = some firstHandle ∧ firstHandle.pending = [] ∧
      (∀ act ∈ truncated, act.Buffers 0) ∧
      (runActs named "v" {} (mounted ++ truncated)).handle 0 = some truncatedHandle ∧
      ∃ v' r',
        truncatedHandle.commit named 4 stamps none
          (runActs named "v" {} (mounted ++ truncated)).remote = (.ok (), v', r') ∧
        found named r'.bucket v'.image "/f" = some (.file (.ok (FsImage.splice [] 0 enlarged))) ∧
        ∀ clock n, found named r'.bucket
          (FsImage.applied clock n firstHandle.image (truncatedHandle.upgraded named)) "/f" = none := by
  refine ⟨handle_mounted, rfl, by simp [truncated, grown, Act.Buffers], handle_truncated, ?_⟩
  have hlen : ((chunks (FsImage.splice [] 0 enlarged)).map (blockRef named)).length ≤ 2 := by
    rw [List.length_map, length_chunks, length_splice, enlarged, length_resize, List.length_nil,
      chunk]
    omega
  obtain ⟨v', r', hcommit⟩ := Volume.commit_succeeds (v := truncatedHandle)
    (r := (runActs named "v" {} (mounted ++ truncated)).remote)
    (by simp [truncatedHandle, Volume.mutate]) (by rw [upgraded_truncated]; rfl)
    (checkBatch_blocks _ hlen [.remove "/f"] (by simp [dataSize])) rfl rfl 4 stamps
  rcases Volume.commit_ok hcommit with ⟨hnil, -, -⟩ | ⟨-, -, himage⟩
  · simp [truncatedHandle, Volume.mutate] at hnil
  have hblocks : ∀ b ∈ chunks (FsImage.splice [] 0 enlarged), Resolves named r'.bucket b :=
    Volume.commit_resolves named_hashing hcommit
      (addressed_runActs (named_lawful "v") named_hashing _) large_truncated
      ⟨0, .inline enlarged, by simp [truncatedHandle, Volume.mutate]⟩
  refine ⟨v', r', hcommit, ?_, fun clock n => ?_⟩
  · rw [himage, found_eq, restated_shapes, upgraded_truncated]
    show some (Found.file (contentBytes named r'.bucket (blockContent named _))) = _
    rw [contentBytes_blocks hblocks]
  · rw [upgraded_truncated, found_eq]
    show ((FsImage.apply (clock (n + 1)) _ (.remove "/f")).shapes "/f").map _ = none
    rw [FsImage.shapes_apply, Shapes.apply, Subtree.erase, if_pos (.inl rfl)]
    rfl

end Landslide.Fuse
