import Landslide.Fuse.Extents

/-!
# Failed commits

A commit puts the block references of large files into the image when their blocks are
uploaded, before it appends.  If the append then fails, the image stays as it is with
them, and the buffer keeps the writes they came from.  The next attempt looks at the
image to find the large files, and finds none: it appends the writes as they were
buffered.

`commit_fails_iff` says when a failed commit leaves the handle as it was.
-/

namespace Landslide.Fuse

open Std TxnKv

section

variable {D S B : Type} {env : Outside D S B}

/-! ## Block writes in the image -/

theorem contentAt_eq_some {image : FsImage} {path : String} {content : Content} :
    contentAt image path = some content ↔ image.shapes path = some (.file content) := by
  refine ⟨shapes_of_contentAt, fun h => ?_⟩
  obtain ⟨attrs, hget⟩ := FsImage.get_of_shapes h
  rw [contentAt, hget]

/-- A node is its shape and its attributes. -/
theorem Node.eq_of_shape {a b : Node} (hshape : a.shape = b.shape) (hattrs : a.attrs = b.attrs) :
    a = b := by
  cases a <;> cases b <;> cases hshape <;> cases hattrs <;> rfl

theorem lastBlocks_ne_none {path : String} {offset : Nat} {refs : List BlockRef} :
    ∀ {deltas : List Delta}, .write path offset (.blocks refs) ∈ deltas →
      lastBlocks path deltas ≠ none
  | d :: deltas, hmem => by
      by_cases hd : d = .write path offset (.blocks refs)
      · rw [hd, lastBlocks, if_pos rfl]
        cases lastBlocks path deltas <;> simp
      have hrest := lastBlocks_ne_none ((List.mem_cons.mp hmem).resolve_left (Ne.symm hd))
      cases d with
      | mkdir | remove | rename | symlink | setAttr | setXattr => exact hrest
      | write p offset' data =>
          cases data with
          | inline data => exact hrest
          | blocks refs' =>
              rw [lastBlocks]
              cases hlast : lastBlocks path deltas with
              | none => exact absurd hlast hrest
              | some last => simp

theorem mem_of_lastBlocks {path : String} {refs : List BlockRef} : ∀ {deltas : List Delta},
    lastBlocks path deltas = some refs → ∃ offset, .write path offset (.blocks refs) ∈ deltas
  | d :: deltas, h => by
      have hrest : lastBlocks path deltas = some refs →
          ∃ offset, .write path offset (.blocks refs) ∈ d :: deltas := by
        intro h
        obtain ⟨offset, hmem⟩ := mem_of_lastBlocks h
        exact ⟨offset, List.mem_cons_of_mem _ hmem⟩
      cases d with
      | mkdir | remove | rename | symlink | setAttr | setXattr => exact hrest h
      | write p offset data =>
          cases data with
          | inline data => exact hrest h
          | blocks refs' =>
              rw [lastBlocks] at h
              cases hlast : lastBlocks path deltas with
              | some last =>
                  rw [hlast, Option.some_or] at h
                  cases h
                  exact hrest hlast
              | none =>
                  rw [hlast, Option.none_or] at h
                  split at h
                  · next hp =>
                    cases h
                    exact ⟨offset, by rw [hp]; exact List.mem_cons_self⟩
                  · cases h

/-- Block writes to paths that are there keep the attributes. -/
theorem restated_attrs (now : Int) : ∀ (upgraded : List Delta) {image : FsImage},
    (∀ path offset refs, .write path offset (.blocks refs) ∈ upgraded → image.get path ≠ none) →
    ∀ q, ((restated now image upgraded).get q).map Node.attrs = (image.get q).map Node.attrs
  | [], _, _, _ => rfl
  | d :: upgraded, image, h, q => by
      have hlater : ∀ path offset refs, .write path offset (.blocks refs) ∈ upgraded →
          image.get path ≠ none := fun path offset refs hmem =>
        h path offset refs (List.mem_cons_of_mem _ hmem)
      cases d with
      | mkdir | remove | rename | symlink | setAttr | setXattr =>
          exact restated_attrs now upgraded hlater q
      | write path offset data =>
          cases data with
          | inline data => exact restated_attrs now upgraded hlater q
          | blocks refs =>
              obtain ⟨node, hnode⟩ := Option.ne_none_iff_exists'.mp
                (h path offset refs List.mem_cons_self)
              have hnode' : image.nodes[path]? = some node := hnode
              have hget : (image.apply now (.write path offset (.blocks refs))).get =
                  Function.update image.get path
                    (some (.file (.blocks refs (refs.map (·.len)).sum) node.attrs)) := by
                rw [FsImage.apply, FsImage.get_insert, FsImage.written, hnode']
                rfl
              have hthere : ∀ p offset' refs', .write p offset' (.blocks refs') ∈ upgraded →
                  (image.apply now (.write path offset (.blocks refs))).get p ≠ none := by
                intro p offset' refs' hmem
                rw [hget, Function.update_apply]
                split
                · simp
                · exact hlater p offset' refs' hmem
              refine Eq.trans (restated_attrs now upgraded hthere q) ?_
              rw [hget, Function.update_apply]
              split
              · next hq =>
                rw [hq, hnode]
                rfl
              · rfl

/-- The block writes change nothing exactly if the image shows them already. -/
theorem restated_eq_iff (now : Int) (image : FsImage) (upgraded : List Delta) :
    restated now image upgraded = image ↔ ∀ q refs, lastBlocks q upgraded = some refs →
      contentAt image q = some (.blocks refs (refs.map (·.len)).sum) := by
  constructor
  · intro heq q refs hlast
    have hshape := restated_shapes now q upgraded image
    rw [heq, hlast] at hshape
    exact contentAt_eq_some.mpr hshape
  · intro h
    have hthere : ∀ path offset refs, .write path offset (.blocks refs) ∈ upgraded →
        image.get path ≠ none := by
      intro path offset refs hmem hnone
      obtain ⟨last, hlast⟩ := Option.ne_none_iff_exists'.mp (lastBlocks_ne_none hmem)
      have hcontent := h path last hlast
      rw [contentAt, hnone] at hcontent
      cases hcontent
    refine FsImage.ext_get (funext fun q => ?_)
    have hattrs := restated_attrs now upgraded hthere q
    have hshapes : (restated now image upgraded).shapes q = image.shapes q := by
      rw [restated_shapes]
      cases hlast : lastBlocks q upgraded with
      | none => rfl
      | some refs => exact (shapes_of_contentAt (h q refs hlast)).symm
    rw [FsImage.shapes, FsImage.shapes] at hshapes
    cases hnew : (restated now image upgraded).get q with
    | none =>
        rw [hnew, Option.map_none] at hattrs
        exact (Option.map_eq_none_iff.mp hattrs.symm).symm
    | some node =>
        rw [hnew] at hattrs hshapes
        obtain ⟨node', hnode', hsame⟩ := Option.map_eq_some_iff.mp hattrs.symm
        rw [hnode', Option.map_some, Option.map_some] at hshapes
        rw [hnode', Node.eq_of_shape (Option.some.inj hshapes) hsame.symm]

/-! ## What a failed commit leaves -/

/-- The batch that a commit hands to the store. -/
def Volume.request (env : Outside D S B) (v : Volume) : Except Error (AppendReq D) :=
  (encodeDeltas env (v.upgraded env)).map v.batch

/-- The handle is as it was, and its next commit hands the same batch to the store. -/
structure Volume.AsBefore (env : Outside D S B) (v v' : Volume) : Prop where
  image : v'.image = v.image
  tail : v'.tail = v.tail
  pending : v'.pending = v.pending
  request : v'.request env = v.request env

/-- The put of one of the first `n` blocks fails. -/
def PutFails (fault : Option Fault) (n : Nat) : Prop :=
  ∃ i landed, fault = some (.putBlock i landed) ∧ i < n

/-- No pending write is to a file that goes into blocks, and the block writes of the
caller are what their paths show. -/
structure Volume.Uncollapsed (v : Volume) : Prop where
  small : ∀ path offset data, .write path offset data ∈ v.pending → large v.image path = none
  blocks : ∀ path refs, lastBlocks path v.pending = some refs →
    contentAt v.image path = some (.blocks refs (refs.map (·.len)).sum)

/-- A commit that succeeds has appended the batch of the handle. -/
theorem Volume.commit_request [Payload D] {now : Int} {stamps : Nat → Nat → Stamp}
    {fault : Option Fault} {v v' : Volume} {r r' : Remote D S B} (hne : v.pending ≠ [])
    (h : v.commit env now stamps fault r = (.ok (), v', r')) :
    ∃ req info σ₁, v.request env = .ok req ∧ Appended req (seqOf r.store) r.store info σ₁ ∧
      r'.store = σ₁.put .seq (seqOf r.store + req.events.length) := by
  rcases v.commit_cases env now stamps fault r with ⟨e, v₁, -, -, heq⟩ | ⟨hnil, -⟩ |
    ⟨events, info, σ₁, image, -, hevents, happ, heq⟩
  · rw [h] at heq
    cases heq
  · exact absurd hnil hne
  · rw [h] at heq
    cases heq
    exact ⟨v.batch events, info, σ₁, by rw [Volume.request, hevents]; rfl, happ, rfl⟩

theorem putBlocks_fails_iff (env : Outside D S B) (fault : Option Fault) : ∀ (bs : List Bytes)
    (j : Nat) (bucket : Bucket B), (putBlocks env fault j bs bucket).1 = .ok () ↔
      ∀ i landed, fault = some (.putBlock i landed) → ¬ (j ≤ i ∧ i < j + bs.length)
  | [], j, bucket => by
      refine iff_of_true rfl fun i landed _ h => ?_
      rw [List.length_nil] at h
      omega
  | b :: bs, j, bucket => by
      have failed : ∀ landed, fault = some (.putBlock j landed) →
          ¬ ∀ i landed, fault = some (.putBlock i landed) →
            ¬ (j ≤ i ∧ i < j + (b :: bs).length) := by
        intro landed hfault h
        refine h j landed hfault ⟨le_rfl, ?_⟩
        rw [List.length_cons]
        omega
      rw [putBlocks]
      split
      · next hlanded => exact iff_of_false (by simp) (failed true hlanded)
      · next hlanded =>
        split
        · next hlost => exact iff_of_false (by simp) (failed false hlost)
        · next hlost =>
          rw [putBlocks_fails_iff env fault bs (j + 1)]
          refine forall₂_congr fun i landed => imp_congr_right fun hfault => not_congr ?_
          have hne : i ≠ j := by
            rintro rfl
            cases landed with
            | true => exact hlanded hfault
            | false => exact hlost hfault
          rw [List.length_cons]
          omega

/-- A commit fails at the put of a block and leaves the image, or later, and leaves it with
the block writes. -/
theorem Volume.commit_error [Payload D] {now : Int} {stamps : Nat → Nat → Stamp}
    {fault : Option Fault} {v v' : Volume} {r r' : Remote D S B} {e : Error}
    (h : v.commit env now stamps fault r = (.error e, v', r')) :
    v.SameHold v' ∧
      (PutFails fault (uploads env r.bucket v.image [] v.pending).length ∧ v'.image = v.image ∨
        ¬ PutFails fault (uploads env r.bucket v.image [] v.pending).length ∧
          v'.image = restated now v.image (v.upgraded env)) := by
  have hputs := putBlocks_fails_iff env fault (uploads env r.bucket v.image [] v.pending) 0 r.bucket
  have hfails : (putBlocks env fault 0 (uploads env r.bucket v.image [] v.pending) r.bucket).1 =
      .ok () ↔ ¬ PutFails fault (uploads env r.bucket v.image [] v.pending).length := by
    rw [hputs]
    constructor
    · rintro hall ⟨i, landed, hfault, hi⟩
      exact hall i landed hfault ⟨Nat.zero_le _, by omega⟩
    · rintro hnot i landed hfault ⟨-, hi⟩
      exact hnot ⟨i, landed, hfault, by omega⟩
  rw [Volume.commit] at h
  split at h
  · cases h
  revert h hfails
  cases putBlocks env fault 0 (uploads env r.bucket v.image [] v.pending) r.bucket with
  | mk res bucket =>
  cases res with
  | error e' =>
      intro hfails h
      cases h
      refine ⟨.refl v, .inl ⟨?_, rfl⟩⟩
      by_contra hnot
      cases hfails.mpr hnot
  | ok u =>
      intro hfails h
      have hnot := hfails.mp rfl
      dsimp only at h
      cases hevents : encodeDeltas env (v.upgraded env) with
      | error e' =>
          rw [hevents] at h
          cases h
          exact ⟨⟨rfl, rfl, rfl, rfl⟩, .inr ⟨hnot, rfl⟩⟩
      | ok events =>
          rw [hevents] at h
          dsimp only at h
          split at h
          · cases h
            exact ⟨⟨rfl, rfl, rfl, rfl⟩, .inr ⟨hnot, rfl⟩⟩
          split at h
          · cases h
            exact ⟨⟨rfl, rfl, rfl, rfl⟩, .inr ⟨hnot, rfl⟩⟩
          · cases h
          · cases h
            exact ⟨⟨rfl, rfl, rfl, rfl⟩, .inr ⟨hnot, rfl⟩⟩

/-- The block writes of a commit are in the image exactly if nothing is collapsed and the
block writes of the caller are what their paths show. -/
theorem Volume.restated_upgraded_iff (env : Outside D S B) (now : Int) (v : Volume) :
    restated now v.image (v.upgraded env) = v.image ↔ v.Uncollapsed := by
  rw [restated_eq_iff]
  constructor
  · intro h
    have hsmall : ∀ path offset data, .write path offset data ∈ v.pending →
        large v.image path = none := by
      intro path offset data hmem
      cases hlarge : large v.image path with
      | none => rfl
      | some content =>
          have hcontent := h path _
            (lastBlocks_upgrade_large hlarge v.pending [] (by simp) ⟨offset, data, hmem⟩)
          have hshape := shapes_of_contentAt hcontent
          rw [shapes_of_large hlarge] at hshape
          cases hshape
    refine ⟨hsmall, fun path refs hlast => h path refs ?_⟩
    obtain ⟨offset, hmem⟩ := mem_of_lastBlocks hlast
    rw [Volume.upgraded,
      lastBlocks_upgrade_small (hsmall path offset _ hmem) v.pending [] (by simp), hlast]
  · rintro ⟨hsmall, hblocks⟩ path refs hlast
    refine hblocks path refs ?_
    cases hlarge : large v.image path with
    | none =>
        rw [Volume.upgraded, lastBlocks_upgrade_small hlarge v.pending [] (by simp)] at hlast
        exact hlast
    | some content =>
        -- no pending write is to a large file
        rw [Volume.upgraded, lastBlocks_upgrade_chunked hlarge v.pending []
          (.inr fun offset data hmem => by
            rw [hsmall path offset data hmem] at hlarge
            cases hlarge)] at hlast
        cases hlast

/-- A failed commit leaves the handle as it was, and a retry appends what it was to append,
exactly if the put of a block failed or the commit had nothing to collapse. -/
theorem commit_fails_iff [Payload D] {now : Int} {stamps : Nat → Nat → Stamp}
    {fault : Option Fault} {v v' : Volume} {r r' : Remote D S B} {e : Error}
    (h : v.commit env now stamps fault r = (.error e, v', r')) :
    v.AsBefore env v' ↔
      PutFails fault (uploads env r.bucket v.image [] v.pending).length ∨ v.Uncollapsed := by
  obtain ⟨hold, himage⟩ := Volume.commit_error h
  have hsame : v'.image = v.image → v.AsBefore env v' := by
    intro heq
    refine ⟨heq, hold.tail, hold.pending, ?_⟩
    have hbatch : (v'.batch : List (NewEvent D) → AppendReq D) = v.batch := by
      funext events
      rw [Volume.batch, Volume.batch, hold.vol, hold.tail, hold.token]
    rw [Volume.request, Volume.request, Volume.upgraded, Volume.upgraded, heq, hold.pending,
      hbatch]
  rcases himage with ⟨hput, heq⟩ | ⟨hput, heq⟩
  · exact iff_of_true (hsame heq) (.inl hput)
  · rw [← Volume.restated_upgraded_iff env now, ← heq]
    exact ⟨fun hbefore => .inr hbefore.image, fun hor => hsame (hor.resolve_left hput)⟩

/-- An append that fails leaves the image with the block writes. -/
theorem Volume.commit_append_fails [Payload D] (env : Outside D S B) {v : Volume}
    {events : List (NewEvent D)} (hne : v.pending ≠ []) (hevents : encodeDeltas env (v.upgraded env) = .ok events) (now : Int)
    (stamps : Nat → Nat → Stamp) (r : Remote D S B) : ∃ v' r',
      v.commit env now stamps (some .append) r = (.error ioError, v', r') ∧
        v'.image = restated now v.image (v.upgraded env) ∧ v'.pending = v.pending := by
  have hputs := (putBlocks_fails_iff env (some .append)
    (uploads env r.bucket v.image [] v.pending) 0 r.bucket).mpr (by simp)
  rw [Volume.commit, if_neg hne]
  dsimp only
  cases hres : putBlocks env (some .append) 0 (uploads env r.bucket v.image [] v.pending)
      r.bucket with
  | mk res bucket =>
      rw [hres] at hputs
      cases hputs
      dsimp only
      rw [hevents]
      exact ⟨_, _, rfl, rfl, rfl⟩

end

/-! ## An append that fails after the uploads -/

theorem blockContent_ne_inline (env : Outside Delta Manifest (Segment ⊕ Bytes))
    (content bytes : Bytes) : blockContent env content ≠ .inline bytes := by
  rintro ⟨⟩

/-- The batch of one delta. -/
theorem request_singleton {v : Volume} {d : Delta} (h : v.upgraded named = [d]) :
    v.request named = .ok (v.batch [{ eventType := "delta", data := d }]) := by
  rw [Volume.request, h]
  rfl

/-- The file has gone into blocks in the image, and a retry would append the write as it
was buffered. -/
theorem failed_commit_restates : ∃ v' r',
    grownHandle.commit named 3 stamps (some .append)
      (runActs named "v" {} (mounted ++ grown)).remote = (.error ioError, v', r') ∧
    v'.image ≠ grownHandle.image ∧ v'.request named ≠ grownHandle.request named ∧
    ¬ grownHandle.AsBefore named v' := by
  obtain ⟨v', r', hcommit, hrestated, hpending⟩ := Volume.commit_append_fails named
    (v := grownHandle) (by simp [grownHandle, Volume.mutate]) (by rw [upgraded_grown]; rfl) 3 stamps
    (runActs named "v" {} (mounted ++ grown)).remote
  have hlarge : large grownHandle.image "/f" = _ := large_pastChunk 2
  have himage : v'.image ≠ grownHandle.image := by
    intro heq
    rw [hrestated] at heq
    have hsmall := ((Volume.restated_upgraded_iff named 3 grownHandle).mp heq).small "/f" chunk
      (.inline [1]) (by simp [grownHandle, Volume.mutate, pastChunk])
    rw [hlarge] at hsmall
    cases hsmall
  have hblocks : v'.image.shapes "/f" =
      some (.file (blockContent named (FsImage.splice [] chunk [1]))) := by
    rw [hrestated, restated_shapes, Volume.upgraded, lastBlocks_upgrade_large hlarge _ [] (by simp)
      ⟨chunk, .inline [1], by simp [grownHandle, Volume.mutate, pastChunk]⟩]
    rfl
  have hsmall : large v'.image "/f" = none := by
    cases hstill : large v'.image "/f" with
    | none => rfl
    | some content =>
        have hinline := shapes_of_large hstill
        rw [hblocks] at hinline
        exact absurd (Shape.file.inj (Option.some.inj hinline)) (blockContent_ne_inline _ _ _)
  have hretry : v'.upgraded named = [pastChunk] := by
    rw [Volume.upgraded, hpending]
    show upgrade named _ [] [pastChunk] = _
    rw [pastChunk, upgrade, if_neg List.not_mem_nil, hsmall]
    rfl
  refine ⟨v', r', hcommit, himage, fun heq => ?_, fun h => himage h.image⟩
  rw [request_singleton hretry, request_singleton upgraded_grown] at heq
  have hevents := congrArg AppendReq.events (Except.ok.inj heq)
  cases hevents

/-- A small file is written. -/
def smallHandle : Volume := firstHandle.mutate 2 (.write "/f" 0 (.inline [1]))

theorem uncollapsed_smallHandle : smallHandle.Uncollapsed where
  small path offset data hmem := by
    cases List.mem_singleton.mp (show Delta.write path offset data ∈ [_] from hmem)
    decide
  blocks path refs hlast := by cases hlast

theorem commit_fails_small : ∃ v' r',
    smallHandle.commit named 3 stamps (some .append) (runActs named "v" {} mounted).remote =
      (.error ioError, v', r') ∧ smallHandle.AsBefore named v' := by
  obtain ⟨v', r', hcommit, -, -⟩ := Volume.commit_append_fails named (v := smallHandle)
    (by simp [smallHandle, Volume.mutate]) rfl 3 stamps (runActs named "v" {} mounted).remote
  exact ⟨v', r', hcommit, (commit_fails_iff hcommit).mpr (.inr uncollapsed_smallHandle)⟩

end Landslide.Fuse
