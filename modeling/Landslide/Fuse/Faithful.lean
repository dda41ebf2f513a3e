import Landslide.Fuse.Failures
import Landslide.Fuse.Labels

/-!
# Commits that a replay shows as the handle does

`Collapsible` says when the deltas that a commit appends show the bytes that the handle
shows.  For later commits of the same handle more is needed: the replay must hold the same
content, inline or in blocks, since a write of bytes starts a new file over one in blocks,
and the same attributes, which such a write resets and a block write keeps.  `Collapses`
adds both.

In a run whose commits collapse, and leave the handle as it was where they fail
(`Faithful`), the last handle shows what a replay of all committed deltas and its pending
ones shows, but for the times (`asReplayed_run`).
-/

namespace Landslide.Fuse

open Std TxnKv

/-! ## Collapsing keeps the attributes -/

/-- A write of bytes to the path keeps the label that is there, or leaves the same one. -/
def FsImage.KeepsLabel (image : FsImage) (path : String) : Prop :=
  match image.get path with
  | none => True
  | some (.file (.inline _) _) => True
  | some node => node.attrs.label = .file 0

theorem FsImage.KeepsLabel.written {image : FsImage} {path : String} (h : image.KeepsLabel path)
    (data : Data) : Labels.written (image.shapes path) (image.labels path) data =
      (image.labels path).getD (.file 0) := by
  cases data with
  | blocks refs => rfl
  | inline data =>
      rw [KeepsLabel] at h
      rw [FsImage.shapes, FsImage.labels]
      cases hget : image.get path with
      | none => rfl
      | some node =>
          rw [hget] at h
          cases node with
          | file content attrs =>
              cases content with
              | inline bytes => rfl
              | blocks refs size => exact h.symm
          | dir attrs => exact h.symm
          | symlink target attrs => exact h.symm

/-- A write of bytes that is collapsed or dropped keeps the label of its path. -/
def Trail.Keeps (final : FsImage) (t : Trail) : Delta → Prop
  | .write path _ (.inline _) =>
      path ∈ t.chunked ∨ large final path ≠ none → t.image.KeepsLabel path
  | _ => True

/-- The pending deltas can be collapsed so that the replay holds what the image holds after
the commit: every large file that was written is in its blocks on both sides, and every
file has its attributes. -/
structure Collapses (base final : FsImage) (pending : List Delta) : Prop
    extends Collapsible base final pending where
  settled : ∀ q content, large final q = some content →
    (∃ offset data, Delta.write q offset data ∈ pending) →
      (Trail.run final { image := base } pending).origin q = some q
  labels : ∀ earlier d later, pending = earlier ++ d :: later →
    (Trail.run final { image := base } earlier).Keeps final d

section

variable {D S B : Type} {env : Outside D S B} {final : FsImage} {W : String → Bytes → Prop}

theorem Trail.Keeps.written {t : Trail} {path : String} {offset : Nat} {data : Data}
    (h : t.Keeps final (.write path offset data))
    (hlarge : path ∈ t.chunked ∨ large final path ≠ none) :
    Labels.written (t.image.shapes path) (t.image.labels path) data =
      (t.image.labels path).getD (.file 0) := by
  cases data with
  | blocks refs => rfl
  | inline data => exact (h hlarge).written _

/-- One pending delta, with what it is upgraded to, on labels. -/
theorem Mirrors.step_labels {t : Trail} {replay : FsImage}
    (h : Mirrors env W t.origin replay.shapes t.image.shapes)
    (hlabels : replay.labels = t.image.labels) {d : Delta} (hd : t.Fits final d)
    (hk : t.Keeps final d) (clock : Nat → Int) (n : Nat) :
    (FsImage.applied clock n replay (upgradeOne env final t.chunked d)).labels =
      (t.step final d).image.labels := by
  have hmoves : replay.movesOf d = t.image.movesOf d := FsImage.movesOf_congr h.none_iff d
  -- a delta that is kept meets the same node, but for the time
  have hkept : (∀ path offset data, d = .write path offset (.inline data) → t.origin path = none) →
      (replay.apply (clock n) d).labels = (t.image.apply 0 d).labels := by
    intro ho
    rw [FsImage.labels_apply, FsImage.labels_apply, hmoves, hlabels]
    exact Labels.apply_congr fun path offset data heq => h.same path (ho path offset data heq)
  rw [Trail.step_image]
  cases d with
  | mkdir | remove | rename | symlink | setAttr | setXattr => exact hkept (by simp)
  | write path offset data =>
      rw [upgradeOne]
      by_cases hchunked : path ∈ t.chunked
      · rw [if_pos hchunked, FsImage.applied, FsImage.labels_apply, Labels.apply,
          hk.written (.inl hchunked), hlabels]
        have ho : t.origin path = some path := by
          cases data with
          | inline data =>
              rw [Trail.Fits, if_pos hchunked] at hd
              exact hd
          | blocks blocks => exact hd hchunked
        -- there is a file, so its label stays
        obtain ⟨content, c, -, -, hfile⟩ := h.whole path path ho
        have hsome : t.image.labels path ≠ none := by
          rw [ne_eq, FsImage.labels_eq_none, ← FsImage.shapes_eq_none, hfile]
          simp
        obtain ⟨label, hlabel⟩ := Option.ne_none_iff_exists'.mp hsome
        rw [hlabel, Option.getD_some, ← hlabel, Function.update_eq_self]
      · rw [if_neg hchunked]
        cases hlarge : large final path with
        | none =>
            refine hkept ?_
            rintro _ _ _ ⟨⟩
            rw [Trail.Fits, if_neg hchunked] at hd
            exact hd hlarge
        | some content =>
            show (replay.apply (clock n) (.write path 0 (.blocks _))).labels = _
            rw [FsImage.labels_apply, FsImage.labels_apply, Labels.apply, Labels.apply,
              hk.written (.inr (by rw [hlarge]; simp)), hlabels]
            rfl

theorem Trail.image_run (final : FsImage) (deltas : List Delta) : ∀ (t : Trail) (n : Nat),
    (t.run final deltas).image = FsImage.applied (fun _ => 0) n t.image deltas := by
  induction deltas with
  | nil => exact fun _ _ => rfl
  | cons d deltas ih =>
      intro t n
      rw [FsImage.applied, ← Trail.step_image final t d]
      exact ih (t.step final d) (n + 1)

/-! ## The replay of what is appended -/

/-- The block writes of what is appended are to files that the image has. -/
theorem Collapsible.there {base : FsImage} {pending : List Delta}
    (h : Collapsible base final pending) {path : String} {offset : Nat} {refs : List BlockRef}
    (hmem : .write path offset (.blocks refs) ∈ upgrade env final [] pending) :
    final.get path ≠ none := by
  cases hlarge : large final path with
  | some content =>
      have hshape := shapes_of_large hlarge
      rw [ne_eq, ← FsImage.shapes_eq_none, hshape]
      simp
  | none =>
      have hlast := lastBlocks_ne_none hmem
      rw [lastBlocks_upgrade_small hlarge pending [] (by simp)] at hlast
      obtain ⟨last, hlast⟩ := Option.ne_none_iff_exists'.mp hlast
      have hshape := shapes_of_contentAt (h.blocks path last hlast hlarge)
      rw [ne_eq, ← FsImage.shapes_eq_none, hshape]
      simp

theorem Collapsible.restated_labels {base : FsImage} {pending : List Delta}
    (h : Collapsible base final pending) (env : Outside D S B) (now : Int) :
    (restated now final (upgrade env final [] pending)).labels = final.labels := by
  funext q
  have hattrs := congrArg (Option.map NodeMeta.label)
    (restated_attrs now (upgrade env final [] pending) (fun _ _ _ hmem => h.there hmem) q)
  rwa [Option.map_map, Option.map_map] at hattrs

/-- What a commit appends shows, replayed on the image before the pending deltas, what the
handle shows after the commit. -/
theorem Collapses.replay {base : FsImage} {pending : List Delta} (h : Collapses base final pending)
    (hfinal : final.SameFaces (FsImage.applied (fun _ => 0) 0 base pending)) (env : Outside D S B)
    (now : Int) (clock : Nat → Int) (n : Nat) :
    (FsImage.applied clock n base (upgrade env final [] pending)).SameFaces
      (restated now final (upgrade env final [] pending)) := by
  have hstart : Mirrors env (Rewritten final pending) (fun _ => none) base.shapes base.shapes :=
    ⟨fun _ _ => rfl, by simp⟩
  have hrun : Mirrors env (Rewritten final pending) (Trail.run final { image := base } pending).origin
        (FsImage.applied clock n base (upgrade env final [] pending)).shapes
        (Trail.run final { image := base } pending).image.shapes ∧
      (FsImage.applied clock n base (upgrade env final [] pending)).labels =
        (Trail.run final { image := base } pending).image.labels := by
    refine Trail.run_upgrade (R := fun t replay => Mirrors env (Rewritten final pending) t.origin
      replay.shapes t.image.shapes ∧ replay.labels = t.image.labels) clock pending n ⟨hstart, rfl⟩
      fun earlier d later heq m replay hr => ?_
    have hd := h.fits earlier d later heq
    refine ⟨hr.1.step hd (fun path offset data content hwrite hlarge => ⟨hlarge, offset, data, ?_⟩)
      clock m, hr.1.step_labels hr.2 hd (h.labels earlier d later heq) clock m⟩
    rw [heq, hwrite]
    simp
  obtain ⟨hmirror, hlabels⟩ := hrun
  rw [Trail.image_run final pending _ 0] at hmirror hlabels
  rw [← hfinal.shapes] at hmirror
  rw [← hfinal.labels] at hlabels
  refine ⟨funext fun q => ?_, hlabels.trans (h.restated_labels env now).symm⟩
  rw [restated_shapes]
  cases ho : (Trail.run final { image := base } pending).origin q with
  | some p =>
      obtain ⟨content, ⟨hlarge, hwritten⟩, hreplay⟩ := h.toCollapsible.whole hmirror ho
      rw [hreplay, lastBlocks_upgrade_large hlarge pending [] (by simp) hwritten]
      rfl
  | none =>
      rw [hmirror.same q ho]
      cases hlarge : large final q with
      | none =>
          rw [lastBlocks_upgrade_small hlarge pending [] (by simp)]
          cases hblocks : lastBlocks q pending with
          | none => rfl
          | some refs => exact shapes_of_contentAt (h.blocks q refs hblocks hlarge)
      | some content =>
          rw [lastBlocks_upgrade_chunked hlarge pending [] (.inr fun offset data hmem => ?_)]
          rw [h.settled q content hlarge ⟨offset, data, hmem⟩] at ho
          cases ho

/-- The bytes that a commit moves into blocks are read back from them. -/
theorem Collapsible.found_commit [Payload D] {base : FsImage} {v v' : Volume}
    (h : Collapsible base v.image v.pending) (hhash : env.Hashing) {r r' : Remote D S B}
    (haddr : Addressed env r.bucket) {now : Int} {stamps : Nat → Nat → Stamp}
    {fault : Option Fault} (hcommit : v.commit env now stamps fault r = (.ok (), v', r'))
    (q : String) : found env r'.bucket v'.image q = found env r'.bucket v.image q := by
  rcases Volume.commit_ok hcommit with ⟨-, rfl, -⟩ | ⟨-, -, himage⟩
  · rfl
  rw [himage, found_eq, found_eq, restated_shapes, Volume.upgraded]
  cases hlarge : large v.image q with
  | none =>
      rw [lastBlocks_upgrade_small hlarge v.pending [] (by simp)]
      cases hblocks : lastBlocks q v.pending with
      | none => rfl
      | some refs => rw [shapes_of_contentAt (h.blocks q refs hblocks hlarge)]
  | some content =>
      by_cases hwritten : ∃ offset data, Delta.write q offset data ∈ v.pending
      · rw [lastBlocks_upgrade_large hlarge v.pending [] (by simp) hwritten, shapes_of_large hlarge]
        have hres := Volume.commit_resolves hhash hcommit haddr hlarge hwritten
        show some (Found.file (contentBytes env r'.bucket (blockContent env content))) =
          some (Found.file (contentBytes env r'.bucket (.inline content)))
        rw [contentBytes_inline, contentBytes_blocks hres]
      · rw [lastBlocks_upgrade_chunked hlarge v.pending [] (.inr fun offset data hmem =>
          hwritten ⟨offset, data, hmem⟩)]

/-! ## Deltas that always collapse -/

theorem Trail.kept_none (ms : List (String × String)) (f : Shapes) (d : Delta) :
    Trail.kept ms f (fun _ => none) d = fun _ => none := by
  have hcarry : ∀ (ms : List (String × String)) (f : Shapes),
      Trail.carryAll ms f (fun _ => none) = fun _ => none := by
    intro ms
    induction ms with
    | nil => exact fun _ => rfl
    | cons m ms ih =>
        intro f
        rw [Trail.carryAll, Trail.carry]
        have hupdate : ∀ p : String,
            Function.update (fun _ => none : String → Option String) p none = fun _ => none :=
          fun p => Function.update_eq_self p _
        cases f m.1 with
        | none => exact ih _
        | some shape =>
            dsimp only
            rw [hupdate, hupdate]
            exact ih _
  cases d with
  | write path offset data => exact Function.update_eq_self path _
  | symlink path target => exact Function.update_eq_self path _
  | remove path =>
      funext q
      rw [Trail.kept, Subtree.erase, ite_self]
  | rename source dest => exact hcarry ms f
  | mkdir | setAttr | setXattr => rfl

/-- Without a write to a large file there is nothing to collapse. -/
theorem Trail.run_small (deltas : List Delta) : ∀ {t : Trail}, t.chunked = [] →
    t.origin = (fun _ => none) →
    (∀ path offset data, .write path offset data ∈ deltas → large final path = none) →
    (t.run final deltas).chunked = [] ∧ (t.run final deltas).origin = fun _ => none := by
  induction deltas with
  | nil => exact fun hc ho _ => ⟨hc, ho⟩
  | cons d deltas ih =>
      intro t hc ho hsmall
      have hstep : (t.step final d).chunked = [] ∧ (t.step final d).origin = fun _ => none := by
        have hkept := kept_none (t.image.movesOf d) t.image.shapes d
        rw [← ho] at hkept ⊢
        cases d with
        | mkdir | remove | rename | symlink | setAttr | setXattr => exact ⟨hc, hkept⟩
        | write path offset data =>
            rw [Trail.step, hc, if_neg List.not_mem_nil,
              hsmall path offset data List.mem_cons_self]
            exact ⟨rfl, hkept⟩
      exact ih hstep.1 hstep.2 fun path offset data hmem =>
        hsmall path offset data (List.mem_cons_of_mem _ hmem)

/-- Writes of bytes to files that stay inline collapse. -/
theorem Collapses.of_small {base : FsImage} {pending : List Delta}
    (hsmall : ∀ path offset data, .write path offset data ∈ pending → large final path = none)
    (hinline : ∀ path offset refs, .write path offset (.blocks refs) ∉ pending) :
    Collapses base final pending := by
  have hrun : ∀ earlier later, pending = earlier ++ later →
      (Trail.run final { image := base } earlier).chunked = [] ∧
        (Trail.run final { image := base } earlier).origin = fun _ => none := by
    rintro earlier later rfl
    exact Trail.run_small earlier rfl rfl fun path offset data hmem =>
      hsmall path offset data (List.mem_append_left _ hmem)
  refine ⟨⟨fun earlier d later heq => ?_, fun q p ho => ?_, fun q refs hblocks => ?_⟩,
    fun q content hlarge hwritten => ?_, fun earlier d later heq => ?_⟩
  · obtain ⟨hc, ho⟩ := hrun earlier (d :: later) heq
    cases d with
    | mkdir | remove | rename | symlink | setAttr | setXattr => trivial
    | write path offset data =>
        cases data with
        | inline data =>
            rw [Trail.Fits, hc, if_neg List.not_mem_nil]
            exact fun _ => congrFun ho path
        | blocks refs => exact absurd (by rw [heq]; simp) (hinline path offset refs)
  · rw [(hrun pending [] (by simp)).2] at ho
    cases ho
  · obtain ⟨offset, hmem⟩ := mem_of_lastBlocks hblocks
    exact absurd hmem (hinline q offset refs)
  · obtain ⟨offset, data, hmem⟩ := hwritten
    rw [hsmall q offset data hmem] at hlarge
    cases hlarge
  · cases d with
    | mkdir | remove | rename | symlink | setAttr | setXattr => trivial
    | write path offset data =>
        cases data with
        | blocks refs => trivial
        | inline data =>
            rintro (hmem | hlarge)
            · rw [(hrun earlier _ heq).1] at hmem
              cases hmem
            · exact absurd (hsmall path offset (.inline data) (by rw [heq]; simp)) hlarge

/-- A removal of a path followed by a write of bytes to it collapses, whatever was there. -/
theorem Collapses.of_rewrite (base : FsImage) (path : String) (bytes : Bytes) :
    Collapses base final [.remove path, .write path 0 (.inline bytes)] := by
  let t : Trail := Trail.step final { image := base } (.remove path)
  have hgone : t.image.get path = none := by
    show (base.remove path).get path = none
    rw [FsImage.get_remove, Subtree.erase, if_pos (.inl rfl)]
  have ht : t.origin = fun _ => none := Trail.kept_none [] base.shapes (.remove path)
  have hc : t.chunked = [] := rfl
  have hsplit : ∀ {earlier d later},
      [Delta.remove path, .write path 0 (.inline bytes)] = earlier ++ d :: later →
      earlier = [] ∧ d = .remove path ∨
        earlier = [.remove path] ∧ d = .write path 0 (.inline bytes) := by
    intro earlier d later heq
    cases earlier with
    | nil =>
        cases heq
        exact .inl ⟨rfl, rfl⟩
    | cons e earlier =>
        cases earlier with
        | nil =>
            cases heq
            exact .inr ⟨rfl, rfl⟩
        | cons e' earlier => simp at heq
  have hlast : (Trail.run final { image := base } [.remove path, .write path 0 (.inline bytes)]).origin =
      (large final path).elim (fun _ => none)
        fun _ => Function.update (fun _ => none) path (some path) := by
    show (t.step final (.write path 0 (.inline bytes))).origin = _
    rw [Trail.step, hc, if_neg List.not_mem_nil, ht]
    cases large final path with
    | none => exact Trail.kept_none [] t.image.shapes (.write path 0 (.inline bytes))
    | some content => rfl
  refine ⟨⟨fun earlier d later heq => ?_, fun q p ho => ?_, fun q refs hblocks => ?_⟩,
    fun q content hlarge hwritten => ?_, fun earlier d later heq => ?_⟩
  · rcases hsplit heq with ⟨rfl, rfl⟩ | ⟨rfl, rfl⟩
    · trivial
    · show t.Fits final (.write path 0 (.inline bytes))
      rw [Trail.Fits, hc, if_neg List.not_mem_nil]
      exact fun _ => congrFun ht path
  · rw [hlast] at ho
    cases hlarge : large final path with
    | none =>
        rw [hlarge] at ho
        cases ho
    | some content =>
        rw [hlarge] at ho
        rw [Option.elim_some, Function.update_apply] at ho
        split at ho
        · next hq =>
          cases ho
          exact hq.symm
        · cases ho
  · cases hblocks
  · obtain ⟨offset, data, hmem⟩ := hwritten
    obtain rfl : q = path := by
      simp only [List.mem_cons, List.not_mem_nil, or_false, reduceCtorEq, false_or,
        Delta.write.injEq] at hmem
      exact hmem.1
    rw [hlast, hlarge, Option.elim_some, Function.update_self]
  · rcases hsplit heq with ⟨rfl, rfl⟩ | ⟨rfl, rfl⟩
    · trivial
    · show t.Keeps final (.write path 0 (.inline bytes))
      intro _
      rw [FsImage.KeepsLabel, hgone]
      trivial

/-! ## Handles that show the replay -/

/-- The image of some deltas, at a clock that stands still. -/
def replayed (deltas : List Delta) : FsImage := FsImage.applied (fun _ => 0) 0 {} deltas

/-- The handle shows what a replay of the committed and its pending deltas shows, but for the
times. -/
def Volume.AsReplayed (committed : List Delta) (v : Volume) : Prop :=
  v.image.SameFaces (replayed (committed ++ v.pending))

namespace Volume.AsReplayed

variable {committed : List Delta} {v : Volume}

theorem mutate (h : v.AsReplayed committed) (now : Int) (d : Delta) :
    (v.mutate now d).AsReplayed committed := by
  show (v.image.apply now d).SameFaces (replayed (committed ++ (v.pending ++ [d])))
  rw [replayed, ← List.append_assoc, FsImage.applied_append]
  exact FsImage.SameFaces.apply h now 0 d

theorem truncate (h : v.AsReplayed committed) (now : Int) (bucket : Bucket B) (path : String)
    (size : Nat) : (v.truncate env now bucket path size).2.AsReplayed committed := by
  rw [Volume.truncate]
  split
  · exact h
  · next content blocks hread =>
    have hcache : ({ v with blocks := blocks } : Volume).AsReplayed committed := h
    exact (hcache.mutate now _).mutate now _

end Volume.AsReplayed

/-- A commit that succeeds collapses, and one that fails leaves the handle as it was. -/
def Volume.Faithful [Payload D] (env : Outside D S B) (committed : List Delta) (now : Int)
    (stamps : Nat → Nat → Stamp) (fault : Option Fault) (v : Volume) (r : Remote D S B) : Prop :=
  match (v.commit env now stamps fault r).1 with
  | .ok _ => Collapses (replayed committed) v.image v.pending
  | .error _ =>
      PutFails fault (uploads env r.bucket v.image [] v.pending).length ∨ v.Uncollapsed

theorem Volume.AsReplayed.commit [Payload D] {committed : List Delta} {v : Volume}
    (h : v.AsReplayed committed) {now : Int} {stamps : Nat → Nat → Stamp} {fault : Option Fault}
    {r : Remote D S B} (hfaithful : v.Faithful env committed now stamps fault r) :
    let out := v.commit env now stamps fault r
    out.2.1.AsReplayed (committed ++ if out.1.isOk then v.upgraded env else []) := by
  dsimp only
  rw [Volume.Faithful] at hfaithful
  cases hcommit : v.commit env now stamps fault r with
  | mk res rest =>
  obtain ⟨v', r'⟩ := rest
  rw [hcommit] at hfaithful
  cases res with
  | error e =>
      have hbefore := (commit_fails_iff hcommit).mpr hfaithful
      show v'.AsReplayed (committed ++ [])
      rw [Volume.AsReplayed, hbefore.image, hbefore.pending, List.append_nil]
      exact h
  | ok u =>
      show v'.AsReplayed (committed ++ v.upgraded env)
      rw [Volume.AsReplayed, (Volume.commit_clears hcommit).1, List.append_nil]
      rcases Volume.commit_ok hcommit with ⟨hnil, rfl, rfl⟩ | ⟨-, -, himage⟩
      · rw [Volume.upgraded, hnil, upgrade, List.append_nil]
        rwa [Volume.AsReplayed, hnil, List.append_nil] at h
      · have hreplay : v.image.SameFaces
            (FsImage.applied (fun _ => 0) 0 (replayed committed) v.pending) := by
          rw [Volume.AsReplayed, replayed, FsImage.applied_append] at h
          exact h.trans (.applied _ _ v.pending _ _ (.refl _))
        rw [himage, replayed, FsImage.applied_append]
        exact (hfaithful.replay hreplay env now _ _).symm

/-- A commit of writes of bytes to files that stay inline is faithful. -/
theorem Volume.Faithful.of_small [Payload D] {v : Volume}
    (hsmall : ∀ path offset data, .write path offset data ∈ v.pending → large v.image path = none)
    (hinline : ∀ path offset refs, .write path offset (.blocks refs) ∉ v.pending)
    (env : Outside D S B) (committed : List Delta) (now : Int) (stamps : Nat → Nat → Stamp)
    (fault : Option Fault) (r : Remote D S B) :
    v.Faithful env committed now stamps fault r := by
  rw [Volume.Faithful]
  split
  · exact .of_small hsmall hinline
  · refine .inr ⟨hsmall, fun path refs hlast => ?_⟩
    obtain ⟨offset, hmem⟩ := mem_of_lastBlocks hlast
    exact absurd hmem (hinline path offset refs)

variable {vol : String}

/-! ## Runs -/

/-- If a commit or a checkpoint of the last handle is to come, its commit is faithful. -/
def Faithful [Payload D] (env : Outside D S B) (st : Shared D S B) : Nat × Op → Prop
  | (i, .commit now stamps fault) => ¬ st.Stale i → ∀ v, st.handle i = some v →
      v.Faithful env st.committed now stamps fault st.remote
  | (i, .checkpoint now stamps _ _ fault) => ¬ st.Stale i → ∀ v, st.handle i = some v →
      v.Faithful env st.committed now stamps fault st.remote
  | _ => True

/-- Every operation of a run is faithful where it happens. -/
def AllFaithful [Payload D] (env : Outside D S B) (vol : String) (acts : List (Nat × Op)) : Prop :=
  ∀ earlier act later, acts = earlier ++ act :: later → Faithful env (runOf env vol earlier) act

theorem AllFaithful.of_mem [Payload D] {acts : List (Nat × Op)}
    (h : ∀ act ∈ acts, ∀ st : Shared D S B, Faithful env st act) : AllFaithful env vol acts :=
  fun earlier act later heq => h act (by rw [heq]; simp) _

theorem AllFaithful.concat [Payload D] {acts : List (Nat × Op)} (h : AllFaithful env vol acts)
    {act : Nat × Op} (hact : Faithful env (runOf env vol acts) act) :
    AllFaithful env vol (acts ++ [act]) :=
  Guarded.concat_iff.mpr ⟨h, hact⟩

/-- The last handle shows the replay. -/
def Shared.AsReplayed (st : Shared D S B) : Prop :=
  ∀ i v, st.handle i = some v → ¬ st.Stale i → v.AsReplayed st.committed

/-- An operation of the handle `i` that leaves its image as the replay shows it. -/
theorem Shared.AsReplayed.back {st : Shared D S B} (h : st.AsReplayed) {i : Nat} {v v' : Volume}
    (hv : st.handle i = some v) {r : Remote D S B} {committed : List Delta}
    (hstale : st.Stale i → committed = st.committed)
    (hlast : ¬ st.Stale i → v'.AsReplayed committed) :
    (st.back i { remote := r, volume := some v', committed := committed }).AsReplayed := by
  intro k w hw hk
  rw [Shared.stale_back] at hk
  show w.AsReplayed committed
  rcases Shared.handle_back hw with ⟨rfl, hone⟩ | ⟨hki, hold⟩
  · cases hone
    exact hlast hk
  · rw [hstale (Shared.stale_of_ne hv hold hk hki)]
    exact h k w hold hk

theorem Shared.AsReplayed.absent [Payload D] {st : Shared D S B} (h : st.AsReplayed) {i : Nat}
    {op : Op} (hv : st.handle i = none) (hop : ∀ clock, op ≠ .mount clock) :
    (st.back i (Fuse.step env vol (st.one i) op)).AsReplayed := by
  rw [step_absent hop hv]
  exact fun k w hw hk => h k w (Shared.handle_back_one hv hw) fun hs => hk (Shared.stale_back.mpr hs)

/-- A commit of a stale handle commits nothing. -/
theorem Fenced.committed_stale [Payload D] {st : Shared D S B} (h : Fenced env vol st)
    (henv : env.Lawful vol) {i : Nat} {v : Volume} (hv : st.handle i = some v) (hi : st.Stale i)
    (now : Int) (stamps : Nat → Nat → Stamp) (fault : Option Fault) :
    (st.committed ++ if (v.commit env now stamps fault st.remote).1.isOk then v.upgraded env
      else []) = st.committed := by
  obtain ⟨-, -, hnil | ⟨e, he⟩⟩ := h.commit_stale henv hv hi now stamps fault
  · rw [Volume.upgraded, hnil, upgrade, ite_self, List.append_nil]
  · rw [he]
    exact List.append_nil _

theorem Shared.AsReplayed.step [Payload D] {st : Shared D S B} (h : st.AsReplayed)
    (hfenced : Fenced env vol st) (henv : env.Lawful vol) (act : Nat × Op)
    (hfaithful : Faithful env st act) : (stepOf env vol st act).AsReplayed := by
  obtain ⟨i, op⟩ := act
  cases op with
  | mount clock =>
      obtain ⟨v, r', hmount, -, -, readings, himage⟩ := hfenced.stored.mount henv clock
      obtain ⟨-, hok⟩ := mount_cases env vol clock st.remote
      rw [hmount] at hok
      obtain ⟨-, -, hpending, -⟩ := hok v rfl
      intro k w hw hk
      simp only [stepOf, hmount] at hw hk ⊢
      rcases Shared.handle_concat hw with ⟨hlt, -⟩ | ⟨-, hnew⟩
      · refine absurd ?_ hk
        simp [Shared.Stale]
        omega
      · cases hnew
        rw [Volume.AsReplayed, hpending, List.append_nil, himage]
        exact .applied readings _ st.committed 0 0 (.refl _)
  | mutate now d =>
      cases hv : st.handle i with
      | none => exact h.absent hv fun clock => by simp
      | some v =>
          simp only [stepOf, Fuse.step, Shared.one, hv]
          exact h.back hv (fun _ => rfl) fun hi => (h i v hv hi).mutate now d
  | truncate now path size =>
      cases hv : st.handle i with
      | none => exact h.absent hv fun clock => by simp
      | some v =>
          simp only [stepOf, Fuse.step, Shared.one, hv]
          exact h.back hv (fun _ => rfl) fun hi => (h i v hv hi).truncate now _ path size
  | commit now stamps fault =>
      cases hv : st.handle i with
      | none => exact h.absent hv fun clock => by simp
      | some v =>
          simp only [stepOf, Fuse.step, Shared.one, hv]
          exact h.back hv (fun hi => hfenced.committed_stale henv hv hi now stamps fault)
            fun hi => (h i v hv hi).commit (hfaithful hi v hv)
  | checkpoint now stamps clock ulid fault =>
      cases hv : st.handle i with
      | none => exact h.absent hv fun clock => by simp
      | some v =>
          obtain ⟨hsame, -, -⟩ := v.checkpoint_cases env now stamps clock ulid fault st.remote
          simp only [stepOf, Fuse.step, Shared.one, hv, hsame]
          exact h.back hv (fun hi => hfenced.committed_stale henv hv hi now stamps fault)
            fun hi => (h i v hv hi).commit (hfaithful hi v hv)

/-- In every run whose commits are faithful, the last handle shows what a replay of all
committed deltas and its pending ones shows, but for the times. -/
theorem asReplayed_run [Payload D] (henv : env.Lawful vol) (hulid : ∀ j, env.ulid j ≠ "")
    (acts : List (Nat × Op)) (hharm : AllHarmless env vol acts)
    (hn : ∀ d ∈ (runOf env vol acts).committed, ¬ d.NestedRename)
    (hfaithful : AllFaithful env vol acts) : (runOf env vol acts).AsReplayed := by
  induction acts using List.reverseRecOn with
  | nil =>
      intro i v hv
      simp [runOf, Shared.handle] at hv
  | append_singleton acts act ih =>
      obtain ⟨hharm', -⟩ := Guarded.concat_iff.mp hharm
      obtain ⟨hfaithful', hact⟩ := Guarded.concat_iff.mp hfaithful
      have hn' : ∀ d ∈ (runOf env vol acts).committed, ¬ d.NestedRename :=
        fun d hd => hn d (mem_committed_concat hd act)
      rw [runOf_concat]
      exact (ih hharm' hn' hfaithful').step (Fenced.run henv hulid acts hharm' hn') henv act hact

end

end Landslide.Fuse
