import Landslide.Fuse.Faithful

/-!
# Truncations

`Volume::truncate` removes the path and writes the whole content again.  So the file that
it leaves is a new one, with the attributes of a new file, and nothing is left below its
path.  The buffer holds both deltas until the commit, which moves the file into blocks if
it has become large.

`truncate_committed_iff` says when a truncation changes the size only, and a mount after the
commit sees that.
-/

namespace Landslide.Fuse

open Std TxnKv

/-! ## The new content -/

/-- `content` is `prev` cut or extended with zeros to a size. -/
structure Resized (prev : Bytes) (size : Nat) (content : Bytes) : Prop where
  length : content.length = size
  bytes : ∀ i, i < size → content[i]? = some (prev.getD i 0)

theorem resized_resize (prev : Bytes) (size : Nat) :
    Resized prev size (Volume.resize prev size) := by
  refine ⟨length_resize prev size, fun i hi => ?_⟩
  rw [Volume.resize]
  by_cases hlt : i < prev.length
  · rw [List.getElem?_append_left (by rw [List.length_take]; omega), List.getElem?_take_of_lt hi,
      List.getD_eq_getElem?_getD, List.getElem?_eq_getElem hlt]
    rfl
  · rw [List.take_of_length_le (by omega)]
    exact getElem?_append_zeros prev (by omega)

/-- Bytes written to an empty file are its content. -/
theorem splice_nil (data : Bytes) : FsImage.splice [] 0 data = data := by
  rw [FsImage.splice, List.take_zero, List.nil_append, List.nil_append, List.drop_of_length_le,
    List.append_nil]
  rw [List.length_replicate]
  exact Nat.sub_le _ _

theorem NodeMeta.label_eq_iff {attrs attrs' : NodeMeta} :
    attrs'.label = attrs.label ↔ attrs.SameMode attrs' := by
  obtain ⟨mode, uid, gid, mtimeMs, xattrs⟩ := attrs
  obtain ⟨mode', uid', gid', mtimeMs', xattrs'⟩ := attrs'
  simp [NodeMeta.label, NodeMeta.SameMode]

section

variable {D S B : Type}

/-! ## What a truncation leaves -/

/-- What a truncation of a file is to do: its bytes are cut or extended to the size, it
keeps its mode, its owners and its extended attributes, and no other node changes. -/
structure Volume.Truncates (env : Outside D S B) (bucket : Bucket B) (path : String) (size : Nat)
    (prev : Bytes) (attrs : NodeMeta) (v v' : Volume) : Prop where
  bytes : ∃ content, Resized prev size content ∧
    (readFile env bucket v'.image path v'.blocks).1 = .ok (some content)
  attrs : ∃ content' attrs', v'.image.get path = some (.file content' attrs') ∧
    attrs.SameMode attrs'
  others : ∀ q, q ≠ path → v'.image.get q = v.image.get q

variable {env : Outside D S B} {bucket : Bucket B} {v : Volume} {path : String} {prev : Bytes}
  {blocks : Cache}

theorem Volume.truncate_ok
    (hread : readFile env bucket v.image path v.blocks = (.ok (some prev), blocks)) (now : Int)
    (size : Nat) : v.truncate env now bucket path size = (.ok (),
      (({ v with blocks := blocks } : Volume).mutate now (.remove path)).mutate now
        (.write path 0 (.inline (Volume.resize prev size)))) := by
  rw [Volume.truncate, hread]
  rfl

/-- The nodes after a truncation. -/
theorem Volume.get_truncate
    (hread : readFile env bucket v.image path v.blocks = (.ok (some prev), blocks)) (now : Int)
    (size : Nat) : (v.truncate env now bucket path size).2.image.get =
      Function.update (Subtree.erase Below v.image.get path) path
        (some (.file (.inline (Volume.resize prev size)) (.file now))) := by
  have hgone : (v.image.remove path).get path = none := by
    rw [FsImage.get_remove, Subtree.erase, if_pos (.inl rfl)]
  have hgone' : (v.image.remove path).nodes[path]? = none := hgone
  rw [Volume.truncate_ok hread]
  show ((v.image.remove path).apply now _).get = _
  rw [FsImage.apply, FsImage.get_insert, ← FsImage.get_remove, FsImage.written, hgone', splice_nil]

/-- A truncation changes the size of a file only, exactly if the file has the attributes of
a new one and there is nothing below its path. -/
theorem Volume.truncates_iff {attrs : NodeMeta} {content : Content}
    (hget : v.image.get path = some (.file content attrs))
    (hread : readFile env bucket v.image path v.blocks = (.ok (some prev), blocks)) (now : Int)
    (size : Nat) :
    v.Truncates env bucket path size prev attrs (v.truncate env now bucket path size).2 ↔
      attrs.label = .file 0 ∧ ∀ q, Below path q → v.image.get q = none := by
  have hnodes := Volume.get_truncate hread now size
  have hfile : (v.truncate env now bucket path size).2.image.get path =
      some (.file (.inline (Volume.resize prev size)) (.file now)) := by
    rw [hnodes, Function.update_self]
  have hother : ∀ q, q ≠ path → (v.truncate env now bucket path size).2.image.get q =
      if Below path q then none else v.image.get q := by
    intro q hq
    rw [hnodes, Function.update_of_ne hq, Subtree.erase]
    simp only [hq, false_or]
  have hlabel : attrs.label = .file 0 ↔ attrs.SameMode (.file now) := by
    rw [eq_comm]
    show (NodeMeta.file now).label = attrs.label ↔ _
    exact NodeMeta.label_eq_iff
  constructor
  · rintro ⟨-, ⟨content', attrs', hget', hsame⟩, hothers⟩
    rw [hfile] at hget'
    cases hget'
    refine ⟨hlabel.mpr hsame, fun q hq => ?_⟩
    have hne : q ≠ path := by
      rintro rfl
      exact FsImage.not_below_self q hq
    rw [← hothers q hne, hother q hne, if_pos hq]
  · rintro ⟨hnew, hbelow⟩
    refine ⟨⟨_, resized_resize prev size, ?_⟩, ⟨_, _, hfile, hlabel.mp hnew⟩, fun q hq => ?_⟩
    · rw [readFile_inline env bucket hfile]
    · rw [hother q hq]
      split
      · next hb => exact (hbelow q hb).symm
      · rfl

/-! ## What a mount sees of it -/

/-- Two images show the same in a bucket, but for the times: at every path the same bytes,
directory or target, and the same mode, owners and extended attributes. -/
structure ShowsSame (env : Outside D S B) (bucket : Bucket B) (image image' : FsImage) : Prop where
  found : ∀ q, Fuse.found env bucket image' q = Fuse.found env bucket image q
  labels : image'.labels = image.labels

theorem FsImage.SameFaces.shows {image image' : FsImage} (h : image'.SameFaces image)
    (env : Outside D S B) (bucket : Bucket B) : ShowsSame env bucket image image' where
  found q := by rw [found_eq, found_eq, h.shapes]
  labels := h.labels

variable {vol : String}

theorem runOf_eq_runActs [Payload D] (env : Outside D S B) (vol : String) (acts : List (Nat × Op)) :
    runOf env vol acts = runActs env vol {} (acts.map fun act => .of act.1 act.2) := by
  rw [runActs, List.foldl_map]
  rfl

/-- A handle that commits something holds the fence. -/
theorem Volume.commit_fence [Payload D] {now : Int} {stamps : Nat → Nat → Stamp}
    {fault : Option Fault} {v' : Volume} {r r' : Remote D S B} (hne : v.pending ≠ [])
    (h : v.commit env now stamps fault r = (.ok (), v', r')) {current : String}
    (hcur : r.store.get (.fence v.vol) = some current) : current = v.token := by
  rcases v.commit_cases env now stamps fault r with ⟨e, v₁, -, -, heq⟩ | ⟨hnil, -⟩ |
    ⟨events, info, σ₁, image, -, -, happ, -⟩
  · rw [h] at heq
    cases heq
  · exact absurd hnil hne
  · exact happ.fence v.token current rfl hcur

/-- A mount after a commit of the last handle sees what the handle showed before the commit,
if what is pending collapses. -/
theorem mount_sees_commit [Payload D] {st : Shared D S B} (hfenced : Fenced env vol st)
    (henv : env.Lawful vol) (hhash : env.Hashing) (haddr : Addressed env st.remote.bucket)
    {v v' : Volume} (hatt : Attached vol st.remote v) (h : v.AsReplayed st.committed)
    (hcollapses : Collapses (replayed st.committed) v.image v.pending) {now : Int}
    {stamps : Nat → Nat → Stamp} {fault : Option Fault} {r : Remote D S B}
    (hcommit : v.commit env now stamps fault st.remote = (.ok (), v', r)) (hne : v.pending ≠ [])
    (clock : Nat → Int) : ∃ w r', Fuse.mount env vol clock r = (.ok w, r') ∧
      ShowsSame env r.bucket v.image w.image := by
  obtain ⟨hstored, -⟩ := hfenced.stored.commit henv hatt now stamps fault
  have hfaithful : v.Faithful env st.committed now stamps fault st.remote := by
    rw [Volume.Faithful, hcommit]
    exact hcollapses
  have hreplayed := h.commit hfaithful
  rw [hcommit] at hstored hreplayed
  obtain ⟨w, r', hmount, -, -, readings, himage⟩ := hstored.mount henv clock
  refine ⟨w, r', hmount, ?_⟩
  rcases Volume.commit_ok hcommit with ⟨hnil, -, -⟩ | ⟨-, -, hrestated⟩
  · exact absurd hnil hne
  -- the mount replays what the handle shows after the commit
  have hw : w.image.SameFaces v'.image := by
    rw [Volume.AsReplayed, (Volume.commit_clears hcommit).1, List.append_nil] at hreplayed
    rw [himage]
    exact (FsImage.SameFaces.applied readings _ _ 0 0 (.refl _)).trans hreplayed.symm
  have hsame := hw.shows env r.bucket
  refine ⟨fun q => ?_, ?_⟩
  · rw [hsame.found, hcollapses.found_commit hhash haddr hcommit]
  · rw [hsame.labels, hrestated]
    exact hcollapses.restated_labels env now

/-- In every run whose commits are faithful: if what is pending after a truncation of a file
collapses, then the truncation changes the size of the file only, and a mount after every
commit sees just that, exactly if the file has the attributes of a new one and there is
nothing below its path. -/
theorem truncate_committed_iff [Payload D] (env : Outside D S B) (vol : String)
    (henv : env.Lawful vol) (hhash : env.Hashing) (hulid : ∀ j, env.ulid j ≠ "")
    (acts : List (Nat × Op)) (hharm : AllHarmless env vol acts)
    (hn : ∀ d ∈ (runOf env vol acts).committed, ¬ d.NestedRename)
    (hfaithful : AllFaithful env vol acts) (i : Nat) {v v' : Volume}
    (hv : (runOf env vol acts).handle i = some v) (now : Int) (path : String) (size : Nat)
    {content : Content} {attrs : NodeMeta} (hget : v.image.get path = some (.file content attrs))
    {prev : Bytes} {blocks : Cache}
    (hread : readFile env (runOf env vol acts).remote.bucket v.image path v.blocks =
      (.ok (some prev), blocks))
    (htruncate : v.truncate env now (runOf env vol acts).remote.bucket path size = (.ok (), v'))
    (hcollapses : Collapses (replayed (runOf env vol acts).committed) v'.image v'.pending) :
    (v.Truncates env (runOf env vol acts).remote.bucket path size prev attrs v' ∧
      ∀ (now : Int) (stamps : Nat → Nat → Stamp) (fault : Option Fault) (v'' : Volume)
        (r : Remote D S B), v'.commit env now stamps fault (runOf env vol acts).remote =
          (.ok (), v'', r) → ∀ clock, ∃ w r', Fuse.mount env vol clock r = (.ok w, r') ∧
            ShowsSame env r.bucket v'.image w.image) ↔
      attrs.label = .file 0 ∧ ∀ q, Below path q → v.image.get q = none := by
  obtain rfl : (v.truncate env now (runOf env vol acts).remote.bucket path size).2 = v' := by
    rw [htruncate]
  rw [← Volume.truncates_iff hget hread now size]
  refine and_iff_left_of_imp fun _ now' stamps fault v'' r hcommit clock => ?_
  have hfenced := Fenced.run henv hulid acts hharm hn
  have hne : (v.truncate env now (runOf env vol acts).remote.bucket path size).2.pending ≠ [] := by
    rw [Volume.truncate_ok hread]
    simp [Volume.mutate]
  -- a stale handle cannot commit
  have hlast : ¬ (runOf env vol acts).Stale i := by
    intro hi
    obtain ⟨current, hcur, hother⟩ := hfenced.stale i v hv hi
    obtain ⟨hvol, htoken, -⟩ := v.truncate_hold env now (runOf env vol acts).remote.bucket path size
    rw [← htoken] at hother
    refine hother (Volume.commit_fence hne hcommit ?_)
    rw [hvol, (hfenced.drawn i v hv).1]
    exact hcur
  have haddr : Addressed env (runOf env vol acts).remote.bucket := by
    rw [runOf_eq_runActs]
    exact addressed_runActs henv hhash _
  exact mount_sees_commit hfenced henv hhash haddr
    ((hfenced.attached i v hv hlast).truncate now _ path size)
    ((asReplayed_run henv hulid acts hharm hn hfaithful i v hv hlast).truncate now _ path size)
    hcollapses hcommit hne clock

/-- What a truncation leaves pending collapses if nothing else is pending. -/
theorem Volume.truncate_collapses (hnil : v.pending = [])
    (hread : readFile env bucket v.image path v.blocks = (.ok (some prev), blocks)) (now : Int)
    (size : Nat) (base : FsImage) : Collapses base (v.truncate env now bucket path size).2.image
      (v.truncate env now bucket path size).2.pending := by
  have hpending : (v.truncate env now bucket path size).2.pending =
      [.remove path, .write path 0 (.inline (Volume.resize prev size))] := by
    rw [Volume.truncate_ok hread]
    simp [Volume.mutate, hnil]
  rw [hpending]
  exact .of_rewrite base path _

end

/-! ## Concrete truncations -/

/-- A small file is written and committed. -/
def smallCommitted : List (Nat × Op) :=
  [(0, .mount fun _ => 1), (0, .mutate 2 (.write "/a" 0 (.inline [1, 2, 3])))] ++
    [(0, .commit 3 stamps none)]

theorem allFaithful_smallCommitted : AllFaithful named "v" smallCommitted := by
  refine .concat (.of_mem fun act hact st => ?_) fun _ v hv => ?_
  · simp only [List.mem_cons, List.not_mem_nil, or_false] at hact
    rcases hact with rfl | rfl <;> trivial
  · have hall : ((runOf named "v" [(0, .mount fun _ => 1),
        (0, .mutate 2 (.write "/a" 0 (.inline [1, 2, 3])))]).handle 0).all (fun v =>
          v.pending = [.write "/a" 0 (.inline [1, 2, 3])] ∧ large v.image "/a" = none) = true := by
      decide +kernel
    rw [hv, Option.all_some, decide_eq_true_eq] at hall
    obtain ⟨hpending, hsmall⟩ := hall
    refine .of_small (fun path offset data hmem => ?_) (fun path offset refs => ?_) _ _ _ _ _ _
    · rw [hpending, List.mem_singleton] at hmem
      cases hmem
      exact hsmall
    · rw [hpending]
      simp

/-- The file is extended to five bytes. -/
theorem truncate_committed_smallCommitted : ∃ v v',
    (runOf named "v" smallCommitted).handle 0 = some v ∧
    v.image.get "/a" = some (.file (.inline [1, 2, 3]) (.file 2)) ∧
    v.truncate named 4 (runOf named "v" smallCommitted).remote.bucket "/a" 5 = (.ok (), v') ∧
    v.Truncates named (runOf named "v" smallCommitted).remote.bucket "/a" 5 [1, 2, 3] (.file 2) v' ∧
    ∀ (now : Int) (stamps : Nat → Nat → Stamp) (fault : Option Fault) (v'' : Volume)
      (r : Remote Delta Manifest (Segment ⊕ Bytes)),
      v'.commit named now stamps fault (runOf named "v" smallCommitted).remote = (.ok (), v'', r) →
        ∀ clock, ∃ w r', Fuse.mount named "v" clock r = (.ok w, r') ∧
          ShowsSame named r.bucket v'.image w.image := by
  have hall : ((runOf named "v" smallCommitted).handle 0).any (fun v => v.pending = [] ∧
      v.image.get "/a" = some (.file (.inline [1, 2, 3]) (.file 2)) ∧
        v.image.nodes.keys = ["/a"]) = true := by decide +kernel
  cases hv : (runOf named "v" smallCommitted).handle 0 with
  | none =>
      rw [hv] at hall
      cases hall
  | some v =>
      rw [hv, Option.any_some, decide_eq_true_eq] at hall
      obtain ⟨hpending, hget, hkeys⟩ := hall
      have hread := readFile_inline named (runOf named "v" smallCommitted).remote.bucket hget v.blocks
      have hbelow : ∀ q, Below "/a" q → v.image.get q = none := by
        intro q hq
        by_contra hthere
        have hmem := FsImage.mem_keys.mpr hthere
        rw [hkeys, List.mem_singleton] at hmem
        subst hmem
        exact FsImage.not_below_self "/a" hq
      have hharm : AllHarmless named "v" smallCommitted := .of_mem fun act hact st => by
        simp only [smallCommitted, List.cons_append, List.nil_append, List.mem_cons,
          List.not_mem_nil, or_false] at hact
        rcases hact with rfl | rfl | rfl <;> trivial
      have hcollapses := Volume.truncate_collapses hpending hread 4 5
        (replayed (runOf named "v" smallCommitted).committed)
      have htruncate := Volume.truncate_ok hread 4 5
      rw [htruncate] at hcollapses
      obtain ⟨htruncates, hmounts⟩ := (truncate_committed_iff named "v" (named_lawful "v")
        named_hashing named_ulid smallCommitted hharm (by decide +kernel)
        allFaithful_smallCommitted 0 hv 4 "/a" 5 hget hread htruncate hcollapses).mpr ⟨rfl, hbelow⟩
      exact ⟨v, _, rfl, hget, htruncate, htruncates, hmounts⟩

/-- The mode of the file is changed before the truncation. -/
def modeSet : List (Nat × Op) :=
  [(0, .mount fun _ => 1), (0, .mutate 2 (.write "/a" 0 (.inline [1, 2]))),
    (0, .mutate 2 (.setAttr "/a" (some 0o600) none none none))]

/-- The file is cut to one byte, and has the mode of a new file. -/
theorem truncate_resets_mode : ∃ v v' attrs blocks, (runOf named "v" modeSet).handle 0 = some v ∧
    v.image.get "/a" = some (.file (.inline [1, 2]) attrs) ∧ attrs.mode = 0o600 ∧
    readFile named (runOf named "v" modeSet).remote.bucket v.image "/a" v.blocks =
      (.ok (some [1, 2]), blocks) ∧
    v.truncate named 3 (runOf named "v" modeSet).remote.bucket "/a" 1 = (.ok (), v') ∧
    (v'.image.get "/a").map (fun node => node.attrs.mode) = some 0o644 ∧
    ¬ v.Truncates named (runOf named "v" modeSet).remote.bucket "/a" 1 [1, 2] attrs v' := by
  have hall : ((runOf named "v" modeSet).handle 0).any (fun v => v.image.get "/a" =
      some (.file (.inline [1, 2]) { mode := 0o600, uid := 0, gid := 0, mtimeMs := 2 })) = true := by
    decide +kernel
  cases hv : (runOf named "v" modeSet).handle 0 with
  | none =>
      rw [hv] at hall
      cases hall
  | some v =>
      rw [hv, Option.any_some, decide_eq_true_eq] at hall
      have hread := readFile_inline named (runOf named "v" modeSet).remote.bucket hall v.blocks
      refine ⟨v, _, _, _, rfl, hall, rfl, hread, Volume.truncate_ok hread 3 1, ?_, fun h => ?_⟩
      · have hnew := congrFun (Volume.get_truncate hread 3 1) "/a"
        rw [Function.update_self, Volume.truncate_ok hread] at hnew
        rw [hnew]
        rfl
      · have hnew := (Volume.truncates_iff hall hread 3 1).mp (by rw [Volume.truncate_ok hread]; exact h)
        have hmode := congrArg NodeMeta.mode hnew.1
        exact absurd hmode (by decide)

end Landslide.Fuse
