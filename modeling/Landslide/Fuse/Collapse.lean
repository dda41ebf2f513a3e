import Landslide.Fuse.Blocks
import Landslide.Fuse.Shapes

/-!
# Writes collapsed into blocks

The first pending write to a file that is large in the end becomes a block write of
the final content, in the place of that first write, and the later writes are dropped.
The other deltas keep their places.

`Trail` follows every file through the pending deltas, and records in `origin` the path
whose final content a block write would put in it.  Where a dropped write only meets
the file that holds the whole content already, and each such file is at its own path in
the end (`Collapsible`), the replay of the upgraded deltas shows, at every path, what
the image shows after the commit (`Collapsible.replay`).
-/

namespace Landslide.Fuse

open Std TxnKv

/-! ## Trails -/

/-- The pending deltas so far: the image they lead to, the paths that were written and
are large in the end, and for every path the one whose whole content a block write put
in the file that is there now. -/
structure Trail where
  image : FsImage
  chunked : List String := []
  origin : String → Option String := fun _ => none

namespace Trail

/-- A file that moves keeps its origin. -/
def carry (f : Shapes) (origin : String → Option String) (m : String × String) :
    String → Option String :=
  match f m.1 with
  | some _ => Function.update (Function.update origin m.1 none) m.2 (origin m.1)
  | none => origin

/-- The origins after some moves. -/
def carryAll : List (String × String) → Shapes → (String → Option String) →
    String → Option String
  | [], _, origin => origin
  | m :: ms, f, origin => carryAll ms (f.move m) (carry f origin m)

/-- The origins after a delta that is kept. -/
def kept (moves : List (String × String)) (f : Shapes) (origin : String → Option String) :
    Delta → String → Option String
  | .write path _ _ => Function.update origin path none
  | .symlink path _ => Function.update origin path none
  | .remove path => Subtree.erase Below origin path
  | .rename _ _ => carryAll moves f origin
  | .mkdir _ => origin
  | .setAttr .. => origin
  | .setXattr .. => origin

/-- One pending delta, when the image in the end is `final`. -/
def step (final : FsImage) (t : Trail) (d : Delta) : Trail :=
  let next : Trail :=
    { image := t.image.apply 0 d
      chunked := t.chunked
      origin := kept (t.image.movesOf d) t.image.shapes t.origin d }
  match d with
  | .write path _ _ =>
      if path ∈ t.chunked then { next with origin := t.origin }
      else
        match large final path with
        | none => next
        | some _ =>
            { next with
              chunked := path :: t.chunked
              origin := Function.update t.origin path (some path) }
  | _ => next

/-- The delta does to the replay what it does to the image: a dropped write meets the
file that holds the whole content already, and an inline write that is kept meets no
such file. -/
def Fits (final : FsImage) (t : Trail) : Delta → Prop
  | .write path _ (.inline _) =>
      if path ∈ t.chunked then t.origin path = some path
      else large final path = none → t.origin path = none
  | .write path _ (.blocks _) => path ∈ t.chunked → t.origin path = some path
  | _ => True

def run (final : FsImage) (t : Trail) (deltas : List Delta) : Trail := deltas.foldl (step final) t

theorem step_image (final : FsImage) (t : Trail) (d : Delta) :
    (t.step final d).image = t.image.apply 0 d := by
  cases d with
  | mkdir | remove | rename | symlink | setAttr | setXattr => rfl
  | write path offset data =>
      rw [step]
      split
      · rfl
      cases large final path with
      | none => rfl
      | some content => rfl

end Trail

/-- The blocks of the last block write to a path. -/
def lastBlocks (path : String) : List Delta → Option (List BlockRef)
  | [] => none
  | .write p _ (.blocks blocks) :: deltas =>
      (lastBlocks path deltas).or (if p = path then some blocks else none)
  | _ :: deltas => lastBlocks path deltas

/-- The pending deltas can be collapsed into block writes: every delta fits where it
stands, a file with a whole content is at the path of that content in the end, and a
block write of the caller is what its path shows in the end. -/
structure Collapsible (base final : FsImage) (pending : List Delta) : Prop where
  fits : ∀ earlier d later, pending = earlier ++ d :: later →
    (Trail.run final { image := base } earlier).Fits final d
  home : ∀ q p, (Trail.run final { image := base } pending).origin q = some p → p = q
  blocks : ∀ q refs, lastBlocks q pending = some refs → large final q = none →
    contentAt final q = some (.blocks refs (refs.map (·.len)).sum)

section

variable {D S B : Type} {env : Outside D S B} {final : FsImage} {W : String → Bytes → Prop}

/-- What a delta is upgraded to, after some paths were replaced. -/
def upgradeOne (env : Outside D S B) (final : FsImage) (chunked : List String) : Delta → List Delta
  | .write path offset data =>
      if path ∈ chunked then []
      else
        match large final path with
        | none => [.write path offset data]
        | some content => [.write path 0 (.blocks ((chunks content).map (blockRef env)))]
  | d => [d]

theorem upgrade_cons (t : Trail) (d : Delta) (deltas : List Delta) :
    upgrade env final t.chunked (d :: deltas) =
      upgradeOne env final t.chunked d ++ upgrade env final (t.step final d).chunked deltas := by
  cases d with
  | mkdir | remove | rename | symlink | setAttr | setXattr => rfl
  | write path offset data =>
      rw [upgrade, upgradeOne, Trail.step]
      by_cases hchunked : path ∈ t.chunked
      · rw [if_pos hchunked, if_pos hchunked, if_pos hchunked]
        rfl
      · rw [if_neg hchunked, if_neg hchunked, if_neg hchunked]
        cases large final path with
        | none => rfl
        | some content => rfl

/-! ## The replay mirrors the image -/

/-- Two maps agree, but for the files that hold the whole content of some path on the
one side.  `W` says which contents these are. -/
structure Mirrors (env : Outside D S B) (W : String → Bytes → Prop) (origin : String → Option String)
    (f g : Shapes) : Prop where
  same : ∀ q, origin q = none → f q = g q
  whole : ∀ q p, origin q = some p → ∃ content c, W p content ∧
    f q = some (.file (blockContent env content)) ∧ g q = some (.file c)

namespace Mirrors

variable {origin : String → Option String} {f g : Shapes}

theorem none_iff (h : Mirrors env W origin f g) (q : String) : f q = none ↔ g q = none := by
  cases ho : origin q with
  | none => rw [h.same q ho]
  | some p =>
      obtain ⟨content, c, -, hf, hg⟩ := h.whole q p ho
      rw [hf, hg]
      simp

/-- Both sides change at one path, to related files. -/
theorem update (h : Mirrors env W origin f g) {path : String} {o : Option String}
    {x y : Option Shape} (hsame : o = none → x = y)
    (hwhole : ∀ p, o = some p → ∃ content c, W p content ∧
      x = some (.file (blockContent env content)) ∧ y = some (.file c)) :
    Mirrors env W (Function.update origin path o) (Function.update f path x)
      (Function.update g path y) where
  same q ho := by
    rw [Function.update_apply] at ho
    rw [Function.update_apply, Function.update_apply]
    split
    · next hq => exact hsame (by rw [if_pos hq] at ho; exact ho)
    · next hq => exact h.same q (by rw [if_neg hq] at ho; exact ho)
  whole q p ho := by
    rw [Function.update_apply] at ho
    rw [Function.update_apply, Function.update_apply]
    split
    · next hq => exact hwhole p (by rw [if_pos hq] at ho; exact ho)
    · next hq => exact h.whole q p (by rw [if_neg hq] at ho; exact ho)

theorem move (h : Mirrors env W origin f g) (m : String × String) :
    Mirrors env W (Trail.carry g origin m) (f.move m) (g.move m) := by
  rw [Trail.carry, Shapes.move, Shapes.move]
  cases hg : g m.1 with
  | none =>
      rw [(h.none_iff m.1).mpr hg]
      exact h
  | some y =>
      cases hf : f m.1 with
      | none =>
          rw [(h.none_iff m.1).mp hf] at hg
          cases hg
      | some x =>
          have hgone : Mirrors env W (Function.update origin m.1 none)
              (Function.update f m.1 none) (Function.update g m.1 none) :=
            h.update (fun _ => rfl) (by simp)
          refine hgone.update (fun ho => ?_) fun p ho => ?_
          · rw [← hf, ← hg]
            exact h.same m.1 ho
          · rw [← hf, ← hg]
            exact h.whole m.1 p ho

theorem moves (ms : List (String × String)) : ∀ {origin : String → Option String} {f g : Shapes},
    Mirrors env W origin f g → Mirrors env W (Trail.carryAll ms g origin)
      (ms.foldl Shapes.move f) (ms.foldl Shapes.move g) := by
  induction ms with
  | nil => exact fun h => h
  | cons m ms ih => exact fun h => ih (h.move m)

/-- A delta that is kept. -/
theorem kept (h : Mirrors env W origin f g) (ms : List (String × String)) (d : Delta)
    (hd : ∀ path offset data, d = .write path offset (.inline data) → origin path = none) :
    Mirrors env W (Trail.kept ms g origin d) (f.apply ms d) (g.apply ms d) := by
  cases d with
  | write path offset data =>
      refine h.update (fun _ => ?_) (by simp)
      cases data with
      | blocks blocks => rfl
      | inline data => rw [h.same path (hd path offset data rfl)]
  | symlink path target => exact h.update (fun _ => rfl) (by simp)
  | remove path =>
      constructor
      · intro q ho
        rw [Shapes.apply, Shapes.apply, Subtree.erase, Subtree.erase]
        rw [Trail.kept, Subtree.erase] at ho
        split
        · rfl
        · next hq => exact h.same q (by rw [if_neg hq] at ho; exact ho)
      · intro q p ho
        rw [Shapes.apply, Shapes.apply, Subtree.erase, Subtree.erase]
        rw [Trail.kept, Subtree.erase] at ho
        split
        · next hq =>
          rw [if_pos hq] at ho
          cases ho
        · next hq => exact h.whole q p (by rw [if_neg hq] at ho; exact ho)
  | mkdir path =>
      -- the path is there on both sides, or on none
      have horigin : Trail.kept ms g origin (.mkdir path) =
          Function.update origin path (origin path) := (Function.update_eq_self path origin).symm
      rw [horigin]
      refine h.update (fun ho => by rw [h.same path ho]) fun p ho => ?_
      obtain ⟨content, c, hw, hf, hg⟩ := h.whole path p ho
      exact ⟨content, c, hw, by rw [hf]; rfl, by rw [hg]; rfl⟩
  | rename source dest => exact h.moves ms
  | setAttr | setXattr => exact h

/-- The first write to a path that is large in the end. -/
theorem collapsed (h : Mirrors env W origin f g) (ms : List (String × String)) {path : String}
    {content : Bytes} (hw : W path content) (offset : Nat) (data : Data) :
    Mirrors env W (Function.update origin path (some path))
      (f.apply ms (.write path 0 (.blocks ((chunks content).map (blockRef env)))))
      (g.apply ms (.write path offset data)) := by
  refine h.update (by simp) fun p ho => ?_
  cases ho
  exact ⟨content, _, hw, rfl, rfl⟩

/-- A later write to such a path, which is dropped. -/
theorem dropped (h : Mirrors env W origin f g) (ms : List (String × String)) {path : String}
    (ho : origin path = some path) (offset : Nat) (data : Data) :
    Mirrors env W origin f (g.apply ms (.write path offset data)) := by
  obtain ⟨content, c, hw, hf, -⟩ := h.whole path path ho
  have hupd : Mirrors env W (Function.update origin path (origin path))
      (Function.update f path (f path)) (g.apply ms (.write path offset data)) := by
    refine h.update (fun hnone => ?_) fun p hp => ?_
    · rw [ho] at hnone
      cases hnone
    · rw [ho] at hp
      cases hp
      exact ⟨content, _, hw, hf, rfl⟩
  rw [Function.update_eq_self, Function.update_eq_self] at hupd
  exact hupd

end Mirrors

theorem Mirrors.apply {origin : String → Option String} {replay image : FsImage}
    (h : Mirrors env W origin replay.shapes image.shapes) (now : Int) (d : Delta)
    (hd : ∀ path offset data, d = .write path offset (.inline data) → origin path = none) :
    Mirrors env W (Trail.kept (image.movesOf d) image.shapes origin d)
      (replay.apply now d).shapes (image.apply 0 d).shapes := by
  have hmoves : replay.movesOf d = image.movesOf d := FsImage.movesOf_congr h.none_iff d
  rw [FsImage.shapes_apply, FsImage.shapes_apply, hmoves]
  exact h.kept _ d hd

/-- One pending delta, with what it is upgraded to. -/
theorem Mirrors.step {t : Trail} {replay : FsImage}
    (h : Mirrors env W t.origin replay.shapes t.image.shapes) {d : Delta}
    (hd : t.Fits final d)
    (hw : ∀ path offset data content, d = .write path offset data →
      large final path = some content → W path content) (clock : Nat → Int) (n : Nat) :
    Mirrors env W (t.step final d).origin
      (FsImage.applied clock n replay (upgradeOne env final t.chunked d)).shapes
      (t.step final d).image.shapes := by
  have hkept := h.apply (clock n) d
  cases d with
  | mkdir | remove | rename | symlink | setAttr | setXattr => exact hkept (by simp)
  | write path offset data =>
      rw [upgradeOne, Trail.step]
      by_cases hchunked : path ∈ t.chunked
      · rw [if_pos hchunked, if_pos hchunked]
        have ho : t.origin path = some path := by
          cases data with
          | inline data =>
              rw [Trail.Fits, if_pos hchunked] at hd
              exact hd
          | blocks blocks => exact hd hchunked
        rw [FsImage.shapes_apply]
        exact h.dropped _ ho offset data
      · rw [if_neg hchunked, if_neg hchunked]
        cases hlarge : large final path with
        | none =>
            refine hkept ?_
            rintro _ _ _ ⟨⟩
            rw [Trail.Fits, if_neg hchunked] at hd
            exact hd hlarge
        | some content =>
            have hcollapsed := h.collapsed [] (hw path offset data content rfl hlarge) offset data
            show Mirrors env W _ (replay.apply (clock n) (.write path 0
              (.blocks ((chunks content).map (blockRef env))))).shapes (t.image.apply 0 _).shapes
            rw [FsImage.shapes_apply, FsImage.shapes_apply]
            exact hcollapsed

/-- What holds of a trail and a replay, and is kept by every delta with what it is upgraded
to, holds of the whole run and the replay of the upgraded deltas. -/
theorem Trail.run_upgrade {R : Trail → FsImage → Prop} (clock : Nat → Int) (deltas : List Delta) :
    ∀ {t : Trail} {replay : FsImage} (n : Nat), R t replay →
    (∀ earlier d later, deltas = earlier ++ d :: later → ∀ m replay, R (t.run final earlier) replay →
      R ((t.run final earlier).step final d)
        (FsImage.applied clock m replay (upgradeOne env final (t.run final earlier).chunked d))) →
    R (t.run final deltas) (FsImage.applied clock n replay (upgrade env final t.chunked deltas)) := by
  induction deltas with
  | nil => exact fun _ h _ => h
  | cons d deltas ih =>
      intro t replay n h hstep
      rw [upgrade_cons, FsImage.applied_append]
      refine ih _ (hstep [] d deltas rfl n replay h) fun earlier d' later heq => ?_
      exact hstep (d :: earlier) d' later (by rw [heq]; rfl)

/-- The replay of the upgraded deltas mirrors the image of the pending ones. -/
theorem Mirrors.run (clock : Nat → Int) (deltas : List Delta) {t : Trail} {replay : FsImage}
    (n : Nat) (h : Mirrors env W t.origin replay.shapes t.image.shapes)
    (hfits : ∀ earlier d later, deltas = earlier ++ d :: later → (t.run final earlier).Fits final d)
    (hw : ∀ path offset data content, .write path offset data ∈ deltas →
      large final path = some content → W path content) :
    Mirrors env W (t.run final deltas).origin
      (FsImage.applied clock n replay (upgrade env final t.chunked deltas)).shapes
      (t.run final deltas).image.shapes := by
  refine Trail.run_upgrade (R := fun t replay => Mirrors env W t.origin replay.shapes t.image.shapes)
    clock deltas n h fun earlier d later heq m replay h' => ?_
  refine h'.step (hfits earlier d later heq) (fun path offset data content hd => ?_) clock m
  exact hw path offset data content (by rw [heq, hd]; simp)

/-- The image of a trail is that of its deltas, at another clock. -/
theorem Trail.shapes_run (final : FsImage) (timed : List (Int × Delta)) : ∀ {t : Trail}
    {image : FsImage}, image.shapes = t.image.shapes →
    (timed.foldl (fun image d => image.apply d.1 d.2) image).shapes =
      (t.run final (timed.map (·.2))).image.shapes := by
  induction timed with
  | nil => exact fun h => h
  | cons d timed ih =>
      intro t image h
      refine ih (t := t.step final d.2) ?_
      rw [Trail.step_image]
      exact FsImage.shapes_apply_congr h d.1 0 d.2

/-! ## The image after the commit -/

/-- The block writes of a commit are what their paths show in the end. -/
theorem restated_shapes (now : Int) (q : String) : ∀ (upgraded : List Delta) (image : FsImage),
    (restated now image upgraded).shapes q =
      match lastBlocks q upgraded with
      | some refs => some (.file (.blocks refs (refs.map (·.len)).sum))
      | none => image.shapes q
  | [], _ => rfl
  | d :: upgraded, image => by
      have hrest := restated_shapes now q upgraded
      cases d with
      | mkdir | remove | rename | symlink | setAttr | setXattr => exact hrest image
      | write path offset data =>
          cases data with
          | inline data => exact hrest image
          | blocks blocks =>
              show (restated now (image.apply now (.write path offset (.blocks blocks)))
                upgraded).shapes q = _
              rw [hrest, lastBlocks]
              cases lastBlocks q upgraded with
              | some refs => rfl
              | none =>
                  rw [Option.none_or, FsImage.shapes_apply, Shapes.apply, Function.update_apply]
                  by_cases hq : q = path
                  · rw [if_pos hq, if_pos hq.symm]
                    rfl
                  · rw [if_neg hq, if_neg (Ne.symm hq)]

/-- Block writes to a path that is not large stay as they are. -/
theorem lastBlocks_upgrade_small {q : String} (hsmall : large final q = none) :
    ∀ (deltas : List Delta) (chunked : List String), q ∉ chunked →
      lastBlocks q (upgrade env final chunked deltas) = lastBlocks q deltas
  | [], _, _ => rfl
  | d :: deltas, chunked, hq => by
      have hrest := lastBlocks_upgrade_small hsmall deltas chunked hq
      cases d with
      | mkdir | remove | rename | symlink | setAttr | setXattr => exact hrest
      | write path offset data =>
          rw [upgrade]
          -- a write to another path has no blocks for this one
          have other : path ≠ q → lastBlocks q (.write path offset data :: deltas) =
              lastBlocks q deltas := by
            intro hne
            cases data with
            | inline data => rfl
            | blocks blocks => rw [lastBlocks, if_neg hne, Option.or_none]
          split
          · next hmem =>
            rw [hrest, other]
            rintro rfl
            exact hq hmem
          · cases hlarge : large final path with
            | none =>
                cases data with
                | inline data => exact hrest
                | blocks blocks =>
                    rw [lastBlocks, hrest]
                    rfl
            | some content =>
                have hne : path ≠ q := by
                  rintro rfl
                  rw [hsmall] at hlarge
                  cases hlarge
                rw [lastBlocks, if_neg hne, Option.or_none, other hne]
                exact lastBlocks_upgrade_small hsmall deltas (path :: chunked)
                  (by simp [Ne.symm hne, hq])

/-- After its block write, a large path has no other. -/
theorem lastBlocks_upgrade_chunked {q : String} {content : Bytes}
    (hlarge : large final q = some content) : ∀ (deltas : List Delta) (chunked : List String),
      (q ∈ chunked ∨ ∀ offset data, Delta.write q offset data ∉ deltas) →
        lastBlocks q (upgrade env final chunked deltas) = none
  | [], _, _ => rfl
  | d :: deltas, chunked, hq => by
      have hrest : ∀ chunked', (q ∈ chunked → q ∈ chunked') →
          lastBlocks q (upgrade env final chunked' deltas) = none := by
        intro chunked' hsub
        refine lastBlocks_upgrade_chunked hlarge deltas chunked' (hq.imp hsub fun hno => ?_)
        exact fun offset data hmem => hno offset data (List.mem_cons_of_mem _ hmem)
      cases d with
      | mkdir | remove | rename | symlink | setAttr | setXattr => exact hrest chunked id
      | write path offset data =>
          rw [upgrade]
          split
          · exact hrest chunked id
          next hnot =>
          have hne : path ≠ q := by
            rintro rfl
            rcases hq with hmem | hno
            · exact hnot hmem
            · exact hno offset data List.mem_cons_self
          cases large final path with
          | none =>
              cases data with
              | inline data => exact hrest chunked id
              | blocks blocks =>
                  rw [lastBlocks, if_neg hne, Option.or_none]
                  exact hrest chunked id
          | some content' =>
              rw [lastBlocks, if_neg hne, Option.or_none]
              exact hrest _ (List.mem_cons_of_mem _)

/-- A large path that is written gets one block write. -/
theorem lastBlocks_upgrade_large {q : String} {content : Bytes}
    (hlarge : large final q = some content) : ∀ (deltas : List Delta) (chunked : List String),
      q ∉ chunked → (∃ offset data, Delta.write q offset data ∈ deltas) →
        lastBlocks q (upgrade env final chunked deltas) =
          some ((chunks content).map (blockRef env))
  | [], _, _, h => by simp at h
  | d :: deltas, chunked, hq, ⟨offset, data, hmem⟩ => by
      have hrest : ∀ chunked', q ∉ chunked' → Delta.write q offset data ∈ deltas →
          lastBlocks q (upgrade env final chunked' deltas) =
            some ((chunks content).map (blockRef env)) := fun chunked' hq' hmem' =>
        lastBlocks_upgrade_large hlarge deltas chunked' hq' ⟨offset, data, hmem'⟩
      have hlater : Delta.write q offset data ≠ d → Delta.write q offset data ∈ deltas :=
        (List.mem_cons.mp hmem).resolve_left
      cases d with
      | mkdir | remove | rename | symlink | setAttr | setXattr =>
          exact hrest chunked hq (hlater (by simp))
      | write path offset' data' =>
          rw [upgrade]
          by_cases hpath : path = q
          · subst hpath
            rw [if_neg hq, hlarge]
            dsimp only
            rw [lastBlocks, lastBlocks_upgrade_chunked hlarge deltas _ (.inl List.mem_cons_self),
              Option.none_or, if_pos rfl]
          · have hmem' := hlater (by simp [Ne.symm hpath])
            split
            · exact hrest chunked hq hmem'
            cases large final path with
            | none =>
                cases data' with
                | inline data' => exact hrest chunked hq hmem'
                | blocks blocks =>
                    show (lastBlocks q (upgrade env final chunked deltas)).or _ = _
                    rw [hrest chunked hq hmem']
                    rfl
            | some content' =>
                dsimp only
                rw [lastBlocks, hrest (path :: chunked) (by simp [Ne.symm hpath, hq]) hmem']
                rfl

/-! ## What a reader finds -/

/-- What is at a path: the bytes of a file with its blocks fetched, a directory, or the
target of a symlink. -/
inductive Found where
  | file (bytes : Except Error Bytes)
  | dir
  | symlink (target : String)

/-- What a reader finds at a path of an image. -/
def found (env : Outside D S B) (bucket : Bucket B) (image : FsImage) (path : String) :
    Option Found :=
  match image.get path with
  | none => none
  | some (.file content _) => some (.file (contentBytes env bucket content))
  | some (.dir _) => some .dir
  | some (.symlink target _) => some (.symlink target)

theorem found_eq (env : Outside D S B) (bucket : Bucket B) (image : FsImage) (path : String) :
    found env bucket image path = (image.shapes path).map fun
      | .file content => .file (contentBytes env bucket content)
      | .dir => .dir
      | .symlink target => .symlink target := by
  rw [found, FsImage.shapes]
  cases image.get path with
  | none => rfl
  | some node => cases node <;> rfl

theorem shapes_of_large {image : FsImage} {path : String} {content : Bytes}
    (h : large image path = some content) : image.shapes path = some (.file (.inline content)) := by
  rw [large] at h
  rw [FsImage.shapes]
  split at h
  · next c attrs hget =>
    split at h
    · cases h
    · cases h
      rw [hget]
      rfl
  · cases h

theorem shapes_of_contentAt {image : FsImage} {path : String} {content : Content}
    (h : contentAt image path = some content) : image.shapes path = some (.file content) := by
  rw [contentAt] at h
  rw [FsImage.shapes]
  split at h
  · next c attrs hget =>
    cases h
    rw [hget]
    rfl
  · cases h

/-- The content of a large file that is written. -/
def Rewritten (final : FsImage) (pending : List Delta) (path : String) (content : Bytes) : Prop :=
  large final path = some content ∧ ∃ offset data, Delta.write path offset data ∈ pending

/-- A file that holds a whole content is one that is written and large, at its own path. -/
theorem Collapsible.whole {base : FsImage} {pending : List Delta} (h : Collapsible base final pending)
    {f g : Shapes} (hmirror : Mirrors env (Rewritten final pending)
      (Trail.run final { image := base } pending).origin f g) {q p : String}
    (ho : (Trail.run final { image := base } pending).origin q = some p) :
    ∃ content, Rewritten final pending q content ∧ f q = some (.file (blockContent env content)) := by
  obtain rfl := h.home q p ho
  obtain ⟨content, c, hwritten, hreplay, -⟩ := hmirror.whole p p ho
  exact ⟨content, hwritten, hreplay⟩

/-- The replay of the upgraded deltas shows what the image shows after the commit. -/
theorem Collapsible.replay {base : FsImage} {timed : List (Int × Delta)} {pending : List Delta}
    (hpending : pending = timed.map (·.2))
    (hfinal : final = timed.foldl (fun image d => image.apply d.1 d.2) base)
    (h : Collapsible base final pending) {bucket : Bucket B}
    (hres : ∀ path content, large final path = some content →
      (∃ offset data, Delta.write path offset data ∈ pending) →
        ∀ b ∈ chunks content, Resolves env bucket b)
    (now : Int) (clock : Nat → Int) (n : Nat) (q : String) :
    found env bucket (FsImage.applied clock n base (upgrade env final [] pending)) q =
      found env bucket (restated now final (upgrade env final [] pending)) q := by
  have hstart : Mirrors env (Rewritten final pending) (fun _ => none) base.shapes base.shapes :=
    ⟨fun _ _ => rfl, by simp⟩
  have hmirror : Mirrors env (Rewritten final pending)
      (Trail.run final { image := base } pending).origin
      (FsImage.applied clock n base (upgrade env final [] pending)).shapes
      (Trail.run final { image := base } pending).image.shapes :=
    Mirrors.run clock pending n hstart h.fits
      fun path offset data content hmem hlarge => ⟨hlarge, offset, data, hmem⟩
  generalize FsImage.applied clock n base (upgrade env final [] pending) = replay at hmirror ⊢
  have htrail : final.shapes = (Trail.run final { image := base } pending).image.shapes := by
    rw [hpending]
    conv_lhs => rw [hfinal]
    exact Trail.shapes_run final timed rfl
  rw [← htrail] at hmirror
  rw [found_eq, found_eq, restated_shapes]
  cases ho : (Trail.run final { image := base } pending).origin q with
  | some p =>
      obtain ⟨content, ⟨hlarge, hwritten⟩, hreplay⟩ := h.whole hmirror ho
      rw [hreplay, lastBlocks_upgrade_large hlarge pending [] (by simp) hwritten]
      rfl
  | none =>
      rw [hmirror.same q ho]
      cases hlarge : large final q with
      | none =>
          rw [lastBlocks_upgrade_small hlarge pending [] (by simp)]
          cases hblocks : lastBlocks q pending with
          | none => rfl
          | some refs => rw [shapes_of_contentAt (h.blocks q refs hblocks hlarge)]
      | some content =>
          by_cases hwritten : ∃ offset data, Delta.write q offset data ∈ pending
          · -- the file came here whole after the last write to the path
            rw [lastBlocks_upgrade_large hlarge pending [] (by simp) hwritten,
              shapes_of_large hlarge]
            show some (Found.file (contentBytes env bucket (.inline content))) =
              some (Found.file (contentBytes env bucket (blockContent env content)))
            rw [contentBytes_inline, contentBytes_blocks (hres q content hlarge hwritten)]
          · rw [lastBlocks_upgrade_chunked hlarge pending [] (.inr fun offset data hmem =>
              hwritten ⟨offset, data, hmem⟩)]

end

end Landslide.Fuse
