import Landslide.Fuse.Confined

/-!
# A mirror and its image

After a pass that skips no path, the directory shows the image, and nothing of what an
earlier pass wrote and the image lost (`Agrees`).  A pass compares fingerprints and not
contents, works through the paths in their order, and goes over places that other paths lead
through, so this takes passes that keep out of their own way (`Orderly`).

Between passes, what was recorded of a path is there, or nothing is (`Stands`): a failed
write may remove what stood at its place, but leaves nothing else.
-/

namespace Landslide.Fuse

open Std Disk DiskM

section

variable {D S B : Type}

/-- A path that the image has, or that an earlier pass wrote. -/
def Known (pass : Pass B) (m : Mirror) (path : String) : Prop :=
  pass.image.get path ≠ none ∨ path ∈ m.written

/-- What was written of a path is there and recorded, or nothing is there. -/
def Stands (dir : Loc) (m : Mirror) (path : String) : Prop :=
  path ∈ m.written → m.disk.view (localPath dir path) = none ∨
    (path ∈ m.entries ∧ m.disk.view (localPath dir path) = m.written[path]?)

/-- A mirror between two passes. -/
structure Mirror.Sound (dir : Loc) (m : Mirror) : Prop where
  wf : m.disk.Wf
  placed : Placed dir m.disk
  recorded : ∀ path, path ∈ m.entries → path ∈ m.written
  stands : ∀ path, localPath dir path ≠ dir ++ [stateFile] → Stands dir m path

/-- A pass whose paths keep out of each other's way, and out of the way of the temp files,
whose fingerprints tell contents apart, and whose removals are not refused. -/
structure Orderly (env : Outside D S B) (dir : Loc) (pass : Pass B) (m : Mirror) : Prop
    extends Confined dir pass m where
  nested : ∀ p q, Known pass m p → pass.image.get q ≠ none → names p <+: names q →
    p = q ∨ ((∃ attrs, pass.image.get p = some (.dir attrs)) ∧ compare p q = .lt)
  dirs : ∀ path attrs, pass.image.get path = some (.dir attrs) →
    ¬ LinkPlace dir pass m.disk (localPath dir path) ∧ ∀ call, pass.faults path call = none
  temps : ∀ p q content attrs, Known pass m p → pass.image.get q = some (.file content attrs) →
    ¬ tmpOf (localPath dir q) <+: localPath dir p
  bookkeeping : ∀ path, Known pass m path → localPath dir path ≠ stateTmp dir ∧
    (dir ++ [stateFile] <+: localPath dir path → localPath dir path = dir ++ [stateFile])
  fingerprints : ∀ path node, pass.image.get path = some node →
    m.entries[path]? = some (StateEntry.of node) →
    ∃ v, m.written[path]? = some v ∧ node.Seen env pass path v
  removals : ∀ path, path ∈ m.entries → pass.image.get path = none →
    pass.faults path .find = none ∧ pass.faults path .remove = none ∧ localPath dir path ≠ []

/-- A directory that shows the image, and nothing else that a pass wrote, the bookkeeping file
aside. -/
structure Agrees (env : Outside D S B) (dir : Loc) (pass : Pass B) (m : Mirror) : Prop where
  nodes : ∀ path node, pass.image.get path = some node →
    localPath dir path ≠ dir ++ [stateFile] →
    ∃ v, node.Seen env pass path v ∧ m.disk.view (localPath dir path) = some v
  gone : ∀ path, path ∈ m.written → pass.image.get path = none →
    localPath dir path ≠ dir ++ [stateFile] → m.disk.entry (localPath dir path) = none

variable {env : Outside D S B} {dir : Loc} {pass : Pass B} {m : Mirror} {d d' : Disk Bytes}

theorem localPath_prefix_iff {p q : String} :
    localPath dir p <+: localPath dir q ↔ names p <+: names q :=
  List.prefix_append_right_inj dir

theorem view_eq_none_iff {x : Loc} : d.view x = none ↔ d.entry x = none :=
  Option.map_eq_none_iff

theorem view_congr {x : Loc} (h : d'.entry x = d.entry x) : d'.view x = d.view x := by
  rw [view, view, h]

theorem Node.Seen.shown {path : String} {node : Node} {v : View Bytes}
    (h : node.Seen env pass path v) : shown env pass path node = v := by
  cases node with
  | file content attrs =>
      obtain ⟨bytes, hread, rfl⟩ := h
      rw [Fuse.shown, hread]
  | dir attrs => exact h.symm
  | symlink target attrs => exact h.symm

/-! ## One write -/

section

variable {path q : String} {node : Node} {linked : Prop}

/-- A write changes nothing on the way to a path that comes before its own. -/
theorem Orderly.before_same (h : Orderly env dir pass m) (hget : pass.image.get path = some node)
    (hq : pass.image.get q ≠ none) (hlt : compare q path = .lt)
    (hnear : Near (localPath dir path) (ownPlaces (localPath dir path) node) linked d d')
    {z : Loc} (hz : z <+: localPath dir q) (hsome : d.entry z ≠ none) :
    d'.entry z = d.entry z := by
  have hnot : ¬ localPath dir path <+: localPath dir q := by
    intro hprefix
    rcases h.nested path q (.inl (by rw [hget]; simp)) hq (localPath_prefix_iff.mp hprefix) with
      rfl | ⟨-, hgt⟩
    · rw [compare_self] at hlt
      cases hlt
    · exact OrientedCmp.not_lt_of_lt hlt hgt
  have hne : z ≠ localPath dir path := by
    rintro rfl
    exact hnot hz
  have hown : ¬ ownPlaces (localPath dir path) node z := by
    intro hown
    cases node with
    | file content attrs =>
        obtain rfl : z = tmpOf (localPath dir path) := hown
        exact h.temps q path content attrs (.inl hq) hget hz
    | dir attrs => exact hown
    | symlink target attrs => exact hown
  rcases hnear.entry z hne hown with heq | ⟨-, hnone, -⟩ | ⟨hx, -⟩
  · exact heq
  · exact absurd hnone hsome
  · exact absurd (hx.trans hz) hnot

theorem Orderly.localPath_ne (h : Orderly env dir pass m) (hget : pass.image.get path = some node)
    (hq : Known pass m q) (hne : q ≠ path) : localPath dir q ≠ localPath dir path := by
  intro heq
  have hnames : names q = names path := List.append_cancel_left heq
  have hpath : pass.image.get path ≠ none := by rw [hget]; simp
  rcases h.nested q path hq hpath (hnames ▸ List.prefix_rfl) with heq | ⟨⟨attrs, hdir⟩, hlt⟩
  · exact hne heq
  · rcases h.nested path q (.inl hpath) (by rw [hdir]; simp) (hnames ▸ List.prefix_rfl) with
      heq | ⟨-, hgt⟩
    · exact hne heq.symm
    · exact OrientedCmp.not_lt_of_lt hlt hgt

/-- A directory that was made, or that something is in the way of. -/
def Tried (d : Disk Bytes) (x : Loc) : Prop := d.DirAt x ∨ Blocked d x

/-- A write puts nothing at the place of another path. -/
theorem Orderly.other_kept (h : Orderly env dir pass m) (hget : pass.image.get path = some node)
    (hnear : Near (localPath dir path) (ownPlaces (localPath dir path) node) linked d d')
    (hq : Known pass m q) (hne : q ≠ path)
    (hdirs : ∀ attrs, pass.image.get q = some (.dir attrs) → compare q path = .lt →
      localPath dir q ≠ dir ++ [stateFile] → Tried d (localPath dir q)) :
    d'.entry (localPath dir q) = d.entry (localPath dir q) ∨ d'.entry (localPath dir q) = none := by
  have hpath : pass.image.get path ≠ none := by rw [hget]; simp
  have hnex := h.localPath_ne hget hq hne
  have hown : ¬ ownPlaces (localPath dir path) node (localPath dir q) := by
    intro hown
    cases node with
    | file content attrs =>
        have htmp : localPath dir q = tmpOf (localPath dir path) := hown
        exact h.temps q path content attrs hq hget (htmp ▸ List.prefix_rfl)
    | dir attrs => exact hown
    | symlink target attrs => exact hown
  rcases hnear.entry _ hnex hown with heq | ⟨habove, hnone, hmade⟩ | ⟨-, hnone⟩
  · exact .inl heq
  · -- a directory above the path was tried before, so there is nothing left to make
    exfalso
    rcases h.nested q path hq hpath (localPath_prefix_iff.mp habove) with heq | ⟨⟨attrs, hdir⟩, hlt⟩
    · exact hne heq
    have hstate : localPath dir q ≠ dir ++ [stateFile] := by
      intro heq
      have hlast := (h.bookkeeping path (.inl hpath)).2 (heq ▸ habove)
      exact hnex (heq.trans hlast.symm)
    rcases hdirs attrs hdir hlt hstate with ⟨e, he, -⟩ | ⟨y, e, hy, he, hnot⟩
    · rw [hnone] at he
      cases he
    · have hyq : y ≠ localPath dir q := by
        rintro rfl
        rw [hnone] at he
        cases he
      obtain ⟨e', hmade', hisdir⟩ := hmade
      have hreach := hnear.wf.reaches _ _ hmade' y hy hyq
      rw [DirAt, h.before_same hget (by rw [hdir]; simp) hlt hnear hy (by rw [he]; simp), he]
        at hreach
      obtain ⟨e'', heq, hisdir'⟩ := hreach
      rw [← Option.some.inj heq, hnot] at hisdir'
      cases hisdir'
  · exact .inr hnone

theorem Orderly.tried_kept (h : Orderly env dir pass m) (hget : pass.image.get path = some node)
    (hnear : Near (localPath dir path) (ownPlaces (localPath dir path) node) linked d d')
    (hq : pass.image.get q ≠ none) (hlt : compare q path = .lt) (hd : Tried d (localPath dir q)) :
    Tried d' (localPath dir q) := by
  rcases hd with ⟨e, he, hisdir⟩ | ⟨y, e, hy, he, hnot⟩
  · refine .inl ⟨e, ?_, hisdir⟩
    rw [h.before_same hget hq hlt hnear List.prefix_rfl (by rw [he]; simp), he]
  · refine .inr ⟨y, e, hy, ?_, hnot⟩
    rw [h.before_same hget hq hlt hnear hy (by rw [he]; simp), he]

end

/-! ## The writes of a pass -/

/-- What a pass on its way keeps, after the nodes of `done`. -/
structure Stage (env : Outside D S B) (dir : Loc) (pass : Pass B) (m : Mirror)
    (done : List (String × Node)) (p : Progress) : Prop extends Progress.Within dir pass m p where
  known : ∀ q, q ∈ p.mirror.written → Known pass m q
  recorded : ∀ q, q ∈ p.mirror.entries → q ∈ p.mirror.written
  stands : ∀ q, Known pass m q → localPath dir q ≠ dir ++ [stateFile] → Stands dir p.mirror q
  todo : ∀ q, q ∉ done.map Prod.fst →
    p.mirror.entries[q]? = m.entries[q]? ∧ p.mirror.written[q]? = m.written[q]?
  dirs : ∀ q attrs, (q, Node.dir attrs) ∈ done → localPath dir q ≠ dir ++ [stateFile] →
    Tried p.mirror.disk (localPath dir q)
  seen : p.skipped = [] → ∀ q node, (q, node) ∈ done → localPath dir q ≠ dir ++ [stateFile] →
    ∃ v, node.Seen env pass q v ∧ p.mirror.disk.view (localPath dir q) = some v

theorem Stage.start (h : m.Sound dir) : Stage env dir pass m [] { mirror := m } where
  disk := ⟨h.wf, fun _ hlink => .inl hlink, fun _ _ => rfl⟩
  entries _ hq := .inr hq
  modes := by simp
  known _ hq := .inr hq
  recorded := h.recorded
  stands q _ hne := h.stands q hne
  todo _ _ := ⟨rfl, rfl⟩
  dirs := by simp
  seen := by simp

section

variable {done : List (String × Node)} {p : Progress} {path : String} {node : Node} {linked : Prop}

/-- A path whose fingerprint is unchanged shows its node. -/
theorem Stage.unchanged (hs : Stage env dir pass m done p) (h : Orderly env dir pass m)
    (hdir : Placed dir m.disk) (hget : pass.image.get path = some node)
    (htodo : path ∉ done.map Prod.fst) (hsame : unchanged dir pass p.mirror path node = true)
    (hstate : localPath dir path ≠ dir ++ [stateFile]) :
    ∃ v, node.Seen env pass path v ∧ p.mirror.disk.view (localPath dir path) = some v := by
  have hknown : pass.image.get path ≠ none := by rw [hget]; simp
  obtain ⟨hentries, hwritten⟩ := hs.todo path htodo
  rw [Fuse.unchanged, Bool.and_eq_true, decide_eq_true_eq] at hsame
  obtain ⟨hfinger, hthere⟩ := hsame
  obtain ⟨v, hv, hseen⟩ := h.fingerprints path node hget (hentries ▸ hfinger)
  refine ⟨v, hseen, ?_⟩
  have hclear := h.toConfined.clear hdir hs.disk (.inl hknown)
  have hmem : path ∈ p.mirror.written := by
    rw [ExtTreeMap.mem_iff_isSome_getElem?, hwritten, hv]
    rfl
  rcases stat_cases (pass.faults path .look) hs.disk.wf hclear (.inl rfl) with
    ⟨e, -, he⟩ | ⟨err, herr, -⟩
  · rcases hs.stands path (.inl hknown) hstate hmem with hnone | ⟨-, hview⟩
    · rw [view_eq_none_iff, he] at hnone
      cases hnone
    · rw [hview, hwritten, hv]
  · rw [symlinkMetadata, herr] at hthere
    cases hthere

/-- What the writes before said of their paths is so after one more. -/
theorem Stage.others (hs : Stage env dir pass m done p) (h : Orderly env dir pass m)
    (hget : pass.image.get path = some node)
    (hdone : ∀ q node', (q, node') ∈ done ↔ pass.image.get q = some node' ∧ compare q path = .lt)
    (hnear : Near (localPath dir path) (ownPlaces (localPath dir path) node) linked
      p.mirror.disk d') {m' : Mirror} (hdisk : m'.disk = d')
    (hentries : ∀ q, q ≠ path → m'.entries[q]? = p.mirror.entries[q]?)
    (hwritten : ∀ q, q ≠ path → m'.written[q]? = p.mirror.written[q]?) :
    (∀ q, Known pass m q → q ≠ path → localPath dir q ≠ dir ++ [stateFile] → Stands dir m' q) ∧
      (∀ q attrs, (q, Node.dir attrs) ∈ done → localPath dir q ≠ dir ++ [stateFile] →
        Tried m'.disk (localPath dir q)) ∧
      (p.skipped = [] → ∀ q node', (q, node') ∈ done → localPath dir q ≠ dir ++ [stateFile] →
        ∃ v, node'.Seen env pass q v ∧ m'.disk.view (localPath dir q) = some v) := by
  subst hdisk
  refine ⟨fun q hq hne hstate hmem => ?_, fun q attrs hq hstate => ?_,
    fun hskip q node' hq hstate => ?_⟩
  · have hmem' : q ∈ p.mirror.written := by
      rwa [ExtTreeMap.mem_iff_isSome_getElem?, ← hwritten q hne,
        ← ExtTreeMap.mem_iff_isSome_getElem?]
    have hkept := h.other_kept hget hnear hq hne fun attrs hattrs hlt _ =>
      hs.dirs q attrs ((hdone q _).mpr ⟨hattrs, hlt⟩) hstate
    rcases hkept with heq | hnone
    · rw [view_congr heq, ExtTreeMap.mem_iff_isSome_getElem?, hentries q hne,
        ← ExtTreeMap.mem_iff_isSome_getElem?, hwritten q hne]
      exact hs.stands q hq hstate hmem'
    · exact .inl (view_eq_none_iff.mpr hnone)
  · obtain ⟨hgetq, hlt⟩ := (hdone q _).mp hq
    exact h.tried_kept hget hnear (by rw [hgetq]; simp) hlt (hs.dirs q attrs hq hstate)
  · obtain ⟨v, hseen, hview⟩ := hs.seen hskip q node' hq hstate
    obtain ⟨hgetq, hlt⟩ := (hdone q node').mp hq
    refine ⟨v, hseen, ?_⟩
    rw [view_congr (h.before_same hget (by rw [hgetq]; simp) hlt hnear List.prefix_rfl ?_), hview]
    intro hnone
    rw [view_eq_none_iff.mpr hnone] at hview
    cases hview

/-- What becomes of a path: it is left as it is, written, or skipped. -/
theorem update_cases (env : Outside D S B) (dir : Loc) (pass : Pass B) (p : Progress)
    (path : String) (node : Node) :
    (unchanged dir pass p.mirror path node = true ∧
        (update env dir pass p (path, node)).mirror = p.mirror ∧
        (update env dir pass p (path, node)).skipped = p.skipped) ∨
      (∃ d', writeNode env dir pass path node p.mirror.disk = (.ok (), d') ∧
        (update env dir pass p (path, node)).mirror =
          { disk := d'
            entries := p.mirror.entries.insert path (StateEntry.of node)
            written := p.mirror.written.insert path (shown env pass path node) } ∧
        (update env dir pass p (path, node)).skipped = p.skipped) ∨
      ∃ e d', writeNode env dir pass path node p.mirror.disk = (.error e, d') ∧
        (update env dir pass p (path, node)).mirror = { p.mirror with disk := d' } ∧
        (update env dir pass p (path, node)).skipped = p.skipped ++ [(path, e)] := by
  rw [update]
  split
  · next hsame =>
    exact .inl ⟨hsame, p.mirror_withMode path node, p.skipped_withMode path node⟩
  · split
    · next d' hrun =>
      exact .inr (.inl ⟨d', hrun, Progress.mirror_withMode _ path node,
        Progress.skipped_withMode _ path node⟩)
    · next e d' hrun => exact .inr (.inr ⟨e, d', hrun, rfl, rfl⟩)

/-- A pass one node further on: what it keeps of the other paths, and of this one. -/
theorem Stage.concat (hs : Stage env dir pass m done p) (hget : pass.image.get path = some node)
    {p' : Progress} (hwithin : p'.Within dir pass m)
    (hentries : ∀ q, q ≠ path → p'.mirror.entries[q]? = p.mirror.entries[q]?)
    (hwritten : ∀ q, q ≠ path → p'.mirror.written[q]? = p.mirror.written[q]?)
    (hrecorded : path ∈ p'.mirror.entries → path ∈ p'.mirror.written)
    (hskipped : p'.skipped = [] → p.skipped = [])
    (hothers : (∀ q, Known pass m q → q ≠ path → localPath dir q ≠ dir ++ [stateFile] →
        Stands dir p'.mirror q) ∧
      (∀ q attrs, (q, Node.dir attrs) ∈ done → localPath dir q ≠ dir ++ [stateFile] →
        Tried p'.mirror.disk (localPath dir q)) ∧
      (p.skipped = [] → ∀ q node', (q, node') ∈ done → localPath dir q ≠ dir ++ [stateFile] →
        ∃ v, node'.Seen env pass q v ∧ p'.mirror.disk.view (localPath dir q) = some v))
    (hplace : localPath dir path ≠ dir ++ [stateFile] → Stands dir p'.mirror path ∧
      ((∃ attrs, node = .dir attrs) → Tried p'.mirror.disk (localPath dir path)) ∧
      (p'.skipped = [] →
        ∃ v, node.Seen env pass path v ∧ p'.mirror.disk.view (localPath dir path) = some v)) :
    Stage env dir pass m (done ++ [(path, node)]) p' := by
  have hmem : ∀ q, q ≠ path → (q ∈ p'.mirror.written ↔ q ∈ p.mirror.written) := fun q hne => by
    rw [ExtTreeMap.mem_iff_isSome_getElem?, hwritten q hne, ← ExtTreeMap.mem_iff_isSome_getElem?]
  have hmem' : ∀ q, q ≠ path → (q ∈ p'.mirror.entries ↔ q ∈ p.mirror.entries) := fun q hne => by
    rw [ExtTreeMap.mem_iff_isSome_getElem?, hentries q hne, ← ExtTreeMap.mem_iff_isSome_getElem?]
  refine ⟨hwithin, fun q hq => ?_, fun q hq => ?_, fun q hq hstate => ?_, fun q hq => ?_,
    fun q attrs hq hstate => ?_, fun hnone q node' hq hstate => ?_⟩
  · by_cases hne : q = path
    · exact .inl (by rw [hne, hget]; simp)
    · exact hs.known q ((hmem q hne).mp hq)
  · by_cases hne : q = path
    · rw [hne] at hq ⊢
      exact hrecorded hq
    · exact (hmem q hne).mpr (hs.recorded q ((hmem' q hne).mp hq))
  · by_cases hne : q = path
    · rw [hne] at hstate ⊢
      exact (hplace hstate).1
    · exact hothers.1 q hq hne hstate
  · rw [List.map_append, List.mem_append, not_or] at hq
    have hne : q ≠ path := fun heq => hq.2 (by simp [heq])
    rw [hentries q hne, hwritten q hne]
    exact hs.todo q hq.1
  · rcases List.mem_append.mp hq with hq | hq
    · exact hothers.2.1 q attrs hq hstate
    · obtain ⟨rfl, rfl⟩ := Prod.mk.inj (List.mem_singleton.mp hq)
      exact (hplace hstate).2.1 ⟨attrs, rfl⟩
  · rcases List.mem_append.mp hq with hq | hq
    · exact hothers.2.2 (hskipped hnone) q node' hq hstate
    · obtain ⟨rfl, rfl⟩ := Prod.mk.inj (List.mem_singleton.mp hq)
      exact (hplace hstate).2.2 hnone

theorem tried_of_seen {x : Loc} {v : View Bytes} {attrs : NodeMeta} (hnode : node = .dir attrs)
    (hseen : node.Seen env pass path v) (hview : d.view x = some v) : Tried d x := by
  subst hnode
  obtain rfl : v = .dir := hseen
  exact .inl (dirAt_iff.mpr hview)

theorem Stage.update (hs : Stage env dir pass m done p) (h : Orderly env dir pass m)
    (hdir : Placed dir m.disk) (hget : pass.image.get path = some node)
    (hdone : ∀ q node', (q, node') ∈ done ↔ pass.image.get q = some node' ∧ compare q path = .lt) :
    Stage env dir pass m (done ++ [(path, node)]) (Fuse.update env dir pass p (path, node)) := by
  have hwithin := hs.toWithin.update env h.toConfined hdir hget
  have hknown : Known pass m path := .inl (by rw [hget]; simp)
  have htodo : path ∉ done.map Prod.fst := by
    intro hmem
    obtain ⟨⟨q, node'⟩, hq, rfl⟩ := List.mem_map.mp hmem
    have hlt := ((hdone q node').mp hq).2
    rw [compare_self] at hlt
    cases hlt
  have hwrite := writeNode_cases env pass hs.disk.wf (h.toConfined.writable hdir hs.disk hget)
  rcases update_cases env dir pass p path node with
    ⟨hsame, hmirror, hskip⟩ | ⟨d', hrun, hmirror, hskip⟩ | ⟨e, d', hrun, hmirror, hskip⟩
  all_goals
    generalize Fuse.update env dir pass p (path, node) = p' at hwithin hmirror hskip ⊢
  · -- left as it is
    refine hs.concat hget hwithin (fun q _ => by rw [hmirror]) (fun q _ => by rw [hmirror])
      (by rw [hmirror]; exact hs.recorded path) (fun hnone => hskip ▸ hnone) ?_ fun hstate => ?_
    · rw [hmirror]
      exact ⟨fun q hq _ => hs.stands q hq, hs.dirs, hs.seen⟩
    · have hshows := hs.unchanged h hdir hget htodo hsame hstate
      rw [hmirror]
      refine ⟨hs.stands path hknown hstate, ?_, fun _ => hshows⟩
      rintro ⟨attrs, hnode⟩
      obtain ⟨v, hseen, hview⟩ := hshows
      exact tried_of_seen hnode hseen hview
  · -- written
    rcases hwrite with ⟨d'', hrun', hnear, hshows⟩ | ⟨e, d'', hrun', -⟩
    · rw [hrun] at hrun'
      cases hrun'
      have hentries : ∀ q, q ≠ path → p'.mirror.entries[q]? = p.mirror.entries[q]? := by
        intro q hne
        simp [hmirror, ExtTreeMap.getElem?_insert, Ne.symm hne]
      have hwritten : ∀ q, q ≠ path → p'.mirror.written[q]? = p.mirror.written[q]? := by
        intro q hne
        simp [hmirror, ExtTreeMap.getElem?_insert, Ne.symm hne]
      refine hs.concat hget hwithin hentries hwritten (by simp [hmirror])
        (fun hnone => hskip ▸ hnone)
        (hs.others h hget hdone hnear (by rw [hmirror]) hentries hwritten) fun _ => ?_
      obtain ⟨v, hseen, hview⟩ := hshows fun ⟨attrs, hnode⟩ hlink =>
        (h.dirs path attrs (hnode ▸ hget)).1 (hs.disk.links _ hlink)
      rw [hmirror]
      refine ⟨fun _ => .inr ⟨by simp, ?_⟩, ?_, fun _ => ⟨v, hseen, hview⟩⟩
      · rw [hview, ExtTreeMap.getElem?_insert_self, hseen.shown]
      · rintro ⟨attrs, hnode⟩
        exact tried_of_seen hnode hseen hview
    · rw [hrun] at hrun'
      cases hrun'
  · -- skipped
    rcases hwrite with ⟨d'', hrun', -⟩ | ⟨e', d'', hrun', hpart, hblocked⟩
    · rw [hrun] at hrun'
      cases hrun'
    · rw [hrun] at hrun'
      cases hrun'
      refine hs.concat hget hwithin (fun q _ => by rw [hmirror]) (fun q _ => by rw [hmirror])
        (by rw [hmirror]; exact hs.recorded path) (fun hnone => by simp [hskip] at hnone)
        (hs.others h hget hdone hpart.toNear (by rw [hmirror]) (fun q _ => by rw [hmirror])
          fun q _ => by rw [hmirror]) fun hstate => ?_
      rw [hmirror]
      refine ⟨fun hmem => ?_, ?_, fun hnone => by simp [hskip] at hnone⟩
      · rcases hpart.place with hnone | heq
        · exact .inl (view_eq_none_iff.mpr hnone)
        · rw [view_congr heq]
          exact hs.stands path hknown hstate hmem
      · rintro ⟨attrs, hnode⟩
        exact .inr (hblocked ⟨attrs, hnode⟩ (h.dirs path attrs (hnode ▸ hget)).2)

end

/-- The nodes before one of an image are those with a path before its path. -/
theorem mem_before_iff {image : FsImage} {done todo : List (String × Node)} {path : String}
    {node : Node} (hlist : image.nodes.toList = done ++ (path, node) :: todo) (q : String)
    (node' : Node) : (q, node') ∈ done ↔ image.get q = some node' ∧ compare q path = .lt := by
  have hsorted : (done ++ (path, node) :: todo).Pairwise fun a b => compare a.1 b.1 = .lt := by
    rw [← hlist]
    exact ExtTreeMap.ordered_keys_toList
  obtain ⟨-, hafter, hacross⟩ := List.pairwise_append.mp hsorted
  have hmem : ∀ item, item ∈ done ++ (path, node) :: todo ↔ image.get item.1 = some item.2 :=
    fun item => by rw [← hlist, mem_toList_nodes]
  constructor
  · intro hq
    exact ⟨(hmem (q, node')).mp (List.mem_append_left _ hq), hacross _ hq _ List.mem_cons_self⟩
  · rintro ⟨hget, hlt⟩
    rcases List.mem_append.mp ((hmem (q, node')).mpr hget) with hq | hq
    · exact hq
    · rcases List.mem_cons.mp hq with heq | hq
      · rw [(Prod.mk.inj heq).1, compare_self] at hlt
        cases hlt
      · have hgt := (List.pairwise_cons.mp hafter).1 _ hq
        exact absurd hgt (OrientedCmp.not_lt_of_lt hlt)

theorem Orderly.updates (h : Orderly env dir pass m) (hm : m.Sound dir) :
    Stage env dir pass m pass.image.nodes.toList
      (pass.image.nodes.toList.foldl (update env dir pass) { mirror := m }) := by
  have hprefix : ∀ done todo, pass.image.nodes.toList = done ++ todo →
      Stage env dir pass m done (done.foldl (update env dir pass) { mirror := m }) := by
    intro done
    induction done using List.reverseRecOn with
    | nil => exact fun _ _ => .start hm
    | append_singleton done item ih =>
        intro todo hlist
        rw [List.append_assoc, List.singleton_append] at hlist
        rw [List.foldl_concat]
        have hget : pass.image.get item.1 = some item.2 := by
          rw [← mem_toList_nodes, hlist]
          exact List.mem_append_right _ List.mem_cons_self
        exact (ih _ hlist).update h hm.placed hget (mem_before_iff hlist)
  exact hprefix _ [] (List.append_nil _).symm

/-! ## The removals of a pass -/

/-- What the removals of some paths leave. -/
structure Removed (dir : Loc) (pass : Pass B) (m up : Mirror) (paths : List String)
    (m' : Mirror) : Prop where
  within : Within dir (LinkPlace dir pass m.disk) m.disk m'.disk
  entry : ∀ y, m'.disk.entry y = up.disk.entry y ∨
    (m'.disk.entry y = none ∧ ∃ path ∈ paths, localPath dir path <+: y)
  gone : ∀ path ∈ paths, m'.disk.entry (localPath dir path) = none
  entries : ∀ path, path ∈ m'.entries ↔ path ∈ up.entries ∧ path ∉ paths
  written : m'.written = up.written

theorem Orderly.drops (h : Orderly env dir pass m) (hdir : Placed dir m.disk) {up : Mirror}
    (hup : Within dir (LinkPlace dir pass m.disk) m.disk up.disk) :
    ∀ {paths : List String}, (∀ path ∈ paths, path ∈ m.entries ∧ pass.image.get path = none) →
      Removed dir pass m up paths (paths.foldl (drop dir pass) up) := by
  intro paths
  induction paths using List.reverseRecOn with
  | nil => exact fun _ => ⟨hup, fun _ => .inl rfl, by simp, by simp, rfl⟩
  | append_singleton paths path ih =>
      intro hpaths
      have hbefore := ih fun q hq => hpaths q (List.mem_append_left _ hq)
      obtain ⟨hentry, hnone⟩ := hpaths path (by simp)
      obtain ⟨hfind, hremove, hne⟩ := h.removals path hentry hnone
      rw [List.foldl_concat]
      generalize paths.foldl (drop dir pass) up = m' at hbefore
      obtain ⟨d', hrun, hpart, hsame, hgone⟩ := removeAny_partway (fun _ => False) False
        (pass.faults path) hbefore.within.wf (h.toConfined.clear hdir hbefore.within (.inr hentry))
      have hdisk : (drop dir pass m' path).disk = d' := by rw [drop, hrun]
      refine ⟨h.toConfined.drop hdir hbefore.within (.inr hentry), fun y => ?_, fun q hq => ?_,
        fun q => ?_, hbefore.written⟩
      · rw [hdisk]
        rcases hsame y with heq | ⟨hbelow, hnone'⟩
        · rw [heq]
          refine (hbefore.entry y).imp_right fun hgone => ⟨hgone.1, ?_⟩
          obtain ⟨q, hq, hbelow⟩ := hgone.2
          exact ⟨q, List.mem_append_left _ hq, hbelow⟩
        · exact .inr ⟨hnone', path, by simp, hbelow⟩
      · rw [hdisk]
        rcases List.mem_append.mp hq with hq | hq
        · rcases hsame (localPath dir q) with heq | ⟨-, hnone'⟩
          · rw [heq]
            exact hbefore.gone q hq
          · exact hnone'
        · rw [List.mem_singleton.mp hq]
          exact hgone hfind hremove hne
      · have herase : q ∈ (drop dir pass m' path).entries ↔ q ∈ m'.entries.erase path := .rfl
        rw [herase, ExtTreeMap.mem_erase, hbefore.entries q, List.mem_append, List.mem_singleton,
          not_or]
        simp only [ne_eq, Std.compare_eq_iff_eq, eq_comm (a := path)]
        tauto

/-! ## Passes -/

theorem setModes_view (h : Confined dir pass m) (hdir : Placed dir m.disk)
    {modes : List (String × UInt32)} (hmodes : ∀ item ∈ modes, pass.image.get item.1 ≠ none)
    (hd : Within dir (LinkPlace dir pass m.disk) m.disk d) :
    Within dir (LinkPlace dir pass m.disk) m.disk (modes.foldl (setMode dir pass) d) ∧
      ∀ y, (modes.foldl (setMode dir pass) d).view y = d.view y := by
  induction modes generalizing d with
  | nil => exact ⟨hd, fun _ => rfl⟩
  | cons item modes ih =>
      have hget := hmodes item List.mem_cons_self
      have hwithin := h.setMode hdir hd hget
      obtain ⟨d', hrun, -, hview⟩ := applyMode_near (fun _ => False) False (pass.faults item.1)
        item.2 hd.wf (h.clear hdir hd (.inl hget))
      have hset : setMode dir pass d item = d' := by rw [setMode, hrun]
      obtain ⟨hlast, hsame⟩ := ih (fun q hq => hmodes q (List.mem_cons_of_mem _ hq)) hwithin
      exact ⟨hlast, fun y => (hsame y).trans (hset ▸ hview y)⟩

/-- An orderly pass leaves a sound mirror, and one that agrees with the image unless it skipped
a path. -/
theorem Orderly.materialize (h : Orderly env dir pass m) (hm : m.Sound dir)
    (encode : ExtTreeMap String StateEntry compare → Bytes) :
    (Fuse.materialize env dir pass encode m).mirror.Sound dir ∧
      ((Fuse.materialize env dir pass encode m).skipped = [] →
        Agrees env dir pass (Fuse.materialize env dir pass encode m).mirror) := by
  have hup := h.updates hm
  have hlast := h.toConfined.materialize env hm.placed hm.wf encode
  rw [Fuse.materialize] at hlast ⊢
  generalize pass.image.nodes.toList.foldl (update env dir pass) { mirror := m } = up
    at hup hlast ⊢
  have hgone : ∀ path ∈ gone pass up.mirror.entries,
      path ∈ m.entries ∧ pass.image.get path = none := by
    intro path hpath
    obtain ⟨hentry, hnone⟩ := mem_gone.mp hpath
    exact ⟨(hup.entries path hentry).resolve_left (not_not_intro hnone), hnone⟩
  have hdown := h.drops hm.placed hup.disk hgone
  obtain ⟨hmodes, hview⟩ := setModes_view h.toConfined hm.placed hup.modes hdown.within
  obtain ⟨r, d', hrun, hother, -⟩ := h.toConfined.saveState_near hm.placed hmodes encode
    ((gone pass up.mirror.entries).foldl (drop dir pass) up.mirror).entries
  rw [hrun] at hlast ⊢
  generalize (gone pass up.mirror.entries).foldl (drop dir pass) up.mirror = down at *
  -- what a reader finds at the place of a path is what the removals left
  have hshow : ∀ path, Known pass m path → localPath dir path ≠ dir ++ [stateFile] →
      d'.view (localPath dir path) = down.disk.view (localPath dir path) := by
    intro path hpath hstate
    rw [view_congr (hother _ hstate (h.bookkeeping path hpath).1), hview]
  have hremoved : ∀ path, path ∈ up.mirror.written → localPath dir path ≠ dir ++ [stateFile] →
      path ∉ up.mirror.entries ∨ path ∈ gone pass up.mirror.entries →
      d'.view (localPath dir path) = none := by
    intro path hpath hstate hout
    rw [hshow path (hup.known path hpath) hstate, view_eq_none_iff]
    rcases hout with hout | hout
    · rcases hdown.entry (localPath dir path) with heq | ⟨hnone, -⟩
      · rw [heq, ← view_eq_none_iff]
        exact (hup.stands path (hup.known path hpath) hstate hpath).resolve_right
          fun hin => hout hin.1
      · exact hnone
    · exact hdown.gone path hout
  refine ⟨⟨hlast.wf, hm.placed.of_outside hlast.outside, fun path hpath => ?_,
    fun path hstate hpath => ?_⟩, fun hskip => ⟨fun path node hget hstate => ?_,
    fun path hpath hnone hstate => ?_⟩⟩
  · exact hdown.written ▸ hup.recorded path ((hdown.entries path).mp hpath).1
  · replace hpath : path ∈ up.mirror.written := hdown.written ▸ hpath
    have hknown := hup.known path hpath
    by_cases hout : path ∉ up.mirror.entries ∨ path ∈ gone pass up.mirror.entries
    · exact .inl (hremoved path hpath hstate hout)
    · rw [not_or, not_not] at hout
      have hstill := hshow path hknown hstate
      rcases hdown.entry (localPath dir path) with heq | ⟨hnone, -⟩
      · rw [view_congr heq] at hstill
        rcases hup.stands path hknown hstate hpath with hnone | ⟨-, hwas⟩
        · exact .inl (hstill.trans hnone)
        · refine .inr ⟨(hdown.entries path).mpr hout, hstill.trans ?_⟩
          rw [hwas, ← hdown.written]
      · exact .inl (hstill.trans (view_eq_none_iff.mpr hnone))
  · have hknown : Known pass m path := .inl (by rw [hget]; simp)
    obtain ⟨v, hseen, hwas⟩ := hup.seen hskip path node (mem_toList_nodes.mpr hget) hstate
    refine ⟨v, hseen, (hshow path hknown hstate).trans ?_⟩
    rcases hdown.entry (localPath dir path) with heq | ⟨-, q, hq, hbelow⟩
    · rw [view_congr heq, hwas]
    · obtain ⟨hentry, hnone⟩ := hgone q hq
      rcases h.nested q path (.inr (hm.recorded q hentry)) (by rw [hget]; simp)
        (localPath_prefix_iff.mp hbelow) with rfl | ⟨⟨attrs, hdir⟩, -⟩
      · rw [hnone] at hget
        cases hget
      · rw [hnone] at hdir
        cases hdir
  · replace hpath : path ∈ up.mirror.written := hdown.written ▸ hpath
    rw [← view_eq_none_iff]
    refine hremoved path hpath hstate ?_
    by_cases hentry : path ∈ up.mirror.entries
    · exact .inr (mem_gone.mpr ⟨hentry, hnone⟩)
    · exact .inl hentry

/-- In every run of orderly passes into a directory, a pass that skips no path leaves a
directory that agrees with its image, whatever the images, the calls refused to the writes of
files and links, and the order of the removals. -/
theorem run_agrees (env : Outside D S B) (dir : Loc)
    (encode : ExtTreeMap String StateEntry compare → Bytes) (d : Disk Bytes) (hwf : d.Wf)
    (hdir : Placed dir d) (passes : List (Pass B)) (last : Pass B)
    (horderly : ∀ earlier pass later, passes ++ [last] = earlier ++ pass :: later →
      Orderly env dir pass (Mirror.run env dir encode { disk := d } earlier))
    (hskip : (materialize env dir last encode
      (Mirror.run env dir encode { disk := d } passes)).skipped = []) :
    Agrees env dir last (Mirror.run env dir encode { disk := d } (passes ++ [last])) := by
  obtain ⟨horderly', hlast⟩ := Guarded.concat_iff.mp horderly
  have hsound : (Mirror.run env dir encode { disk := d } passes).Sound dir := by
    refine Guarded.run_of_step (P := fun passes =>
      (Mirror.run env dir encode { disk := d } passes).Sound dir) ?_ (fun earlier pass ih hpass => ?_)
      horderly'
    · refine ⟨hwf, hdir, fun path hpath => ?_, fun path _ hpath => ?_⟩
      · exact absurd hpath ExtTreeMap.not_mem_empty
      · exact absurd hpath ExtTreeMap.not_mem_empty
    · rw [Mirror.run_concat]
      exact (hpass.materialize ih encode).1
  rw [Mirror.run_concat]
  exact (hlast.materialize hsound encode).2 hskip

end

/-! ## Concrete runs -/

/-- A file that was rewritten within a millisecond, to the same length. -/
theorem fingerprint_hides_edit :
    let last := passOf [("/a", .file (.inline [2]) (.file 5))]
    let m := Mirror.run named ["m"] (fun _ => [0]) { disk := besideDisk }
      [passOf [("/a", .file (.inline [1]) (.file 5))]]
    let out := materialize named ["m"] last (fun _ => [0]) m
    out.skipped = [] ∧ out.mirror.disk.view ["m", "a"] = some (.file [1]) ∧
      ¬ Agrees named ["m"] last out.mirror := by
  have hview : (materialize named ["m"] (passOf [("/a", .file (.inline [2]) (.file 5))])
      (fun _ => [0]) (Mirror.run named ["m"] (fun _ => [0]) { disk := besideDisk }
        [passOf [("/a", .file (.inline [1]) (.file 5))]])).mirror.disk.view ["m", "a"] =
      some (.file [1]) := by decide +kernel
  refine ⟨by decide +kernel, hview, fun h => ?_⟩
  obtain ⟨v, ⟨bytes, hread, rfl⟩, hv⟩ :=
    h.nodes "/a" (.file (.inline [2]) (.file 5)) (by decide +kernel) (by decide)
  have hbytes : bytes = [1] := by
    have hsame := hv.symm.trans hview
    simpa using hsame
  rw [hbytes] at hread
  revert hread
  decide +kernel

/-- A pass over a directory with a file, or over the directory alone. -/
theorem orderly_filled {pass : Pass (Segment ⊕ Bytes)} {m : Mirror}
    (hnodes : ∀ path node, pass.image.get path = some node →
      (path = "/d" ∧ node = .dir (.dir 5)) ∨
        (path = "/d/x" ∧ node = .file (.inline [1]) (.file 5)))
    (htop : pass.image.get "/d" = some (.dir (.dir 5)))
    (hfaults : ∀ path call, pass.faults path call = none)
    (hlinks : ∀ y, ¬ m.disk.LinkAt y)
    (hwritten : ∀ path, path ∈ m.written → path = "/d" ∨ path = "/d/x")
    (hrecorded : ∀ path, path ∈ m.entries → path ∈ m.written)
    (hfinger : ∀ path node, pass.image.get path = some node →
      m.entries[path]? = some (StateEntry.of node) →
      ∃ v, m.written[path]? = some v ∧ node.Seen named pass path v) :
    Orderly named ["m"] pass m := by
  have hget : ∀ path, pass.image.get path ≠ none → path = "/d" ∨ path = "/d/x" := by
    intro path hpath
    cases hnode : pass.image.get path with
    | none => exact absurd hnode hpath
    | some node => exact (hnodes path node hnode).imp And.left And.left
  have hknown : ∀ path, Known pass m path → path = "/d" ∨ path = "/d/x" := fun path hpath =>
    hpath.elim (hget path) (hwritten path)
  have hunlinked : ∀ path node, pass.image.get path = some node → ¬ node.IsSymlink := by
    rintro path node hpath ⟨target, attrs, rfl⟩
    rcases hnodes path _ hpath with ⟨-, h⟩ | ⟨-, h⟩
    · cases h
    · cases h
  refine ⟨.of_unlinked hlinks hunlinked fun path content attrs hpath => ?_,
    fun p q hp hq hprefix => ?_, fun path attrs hpath => ⟨?_, hfaults path⟩,
    fun p q content attrs hp hq => ?_, fun path hpath => ?_, hfinger,
    fun path hpath _ => ⟨hfaults path _, hfaults path _, ?_⟩⟩
  · rcases hget path (by rw [hpath]; simp) with rfl | rfl
    · decide
    · decide
  · rcases hknown p hp with rfl | rfl
    · rcases hget q hq with rfl | rfl
      · exact .inl rfl
      · exact .inr ⟨⟨_, htop⟩, by decide⟩
    · rcases hget q hq with rfl | rfl
      · exact absurd hprefix (by decide)
      · exact .inl rfl
  · rintro (hlink | ⟨q, node, hq, hnode, -⟩)
    · exact hlinks _ hlink
    · exact hunlinked q node hq hnode
  · rcases hknown p hp with rfl | rfl
    · rcases hget q (by rw [hq]; simp) with rfl | rfl
      · decide
      · decide
    · rcases hget q (by rw [hq]; simp) with rfl | rfl
      · decide
      · decide
  · rcases hknown path hpath with rfl | rfl
    · decide
    · decide
  · rcases hwritten path (hrecorded path hpath) with rfl | rfl
    · decide
    · decide

theorem get_dirPass {path : String} {node : Node}
    (h : (passOf [("/d", .dir (.dir 5))]).image.get path = some node) :
    path = "/d" ∧ node = .dir (.dir 5) := by
  have hitem : (path, node) ∈ (passOf [("/d", .dir (.dir 5))]).image.nodes.toList :=
    mem_toList_nodes.mpr h
  have hlist : (passOf [("/d", .dir (.dir 5))]).image.nodes.toList = [("/d", .dir (.dir 5))] := by
    decide +kernel
  rw [hlist] at hitem
  simpa using hitem

theorem orderly_filledPass : Orderly named ["m"] filledPass { disk := besideDisk } := by
  refine orderly_filled (fun _ _ => get_filledPass) (by decide +kernel) (fun _ _ => rfl)
    unlinked_besideDisk (fun path hpath => ?_) (fun path hpath => ?_) fun path node _ hfinger => ?_
  · exact absurd hpath ExtTreeMap.not_mem_empty
  · exact absurd hpath ExtTreeMap.not_mem_empty
  · have hnone : (∅ : ExtTreeMap String StateEntry compare)[path]? = none :=
      ExtTreeMap.getElem?_empty
    rw [hnone] at hfinger
    cases hfinger

/-- The file is removed after its directory was mirrored with it. -/
theorem orderly_dirPass : Orderly named ["m"] (passOf [("/d", .dir (.dir 5))])
    (Mirror.run named ["m"] (fun _ => [0]) { disk := besideDisk } [filledPass]) := by
  have hwithin := orderly_filledPass.toConfined.materialize named placed_besideDisk wf_besideDisk
    fun _ => [0]
  have hkeys : (Mirror.run named ["m"] (fun _ => [0]) { disk := besideDisk }
      [filledPass]).written.keys = ["/d", "/d/x"] := by decide +kernel
  have hkeys' : (Mirror.run named ["m"] (fun _ => [0]) { disk := besideDisk }
      [filledPass]).entries.keys = ["/d", "/d/x"] := by decide +kernel
  refine orderly_filled (fun path node h => .inl (get_dirPass h)) (by decide +kernel)
    (fun _ _ => rfl) (fun y hlink => ?_) (fun path hpath => ?_) (fun path hpath => ?_)
    fun path node hget _ => ?_
  · rcases hwithin.links y hlink with hlink | ⟨path, node, hget, ⟨target, attrs, rfl⟩, -⟩
    · exact unlinked_besideDisk y hlink
    · rcases get_filledPass hget with ⟨-, h⟩ | ⟨-, h⟩
      · cases h
      · cases h
  · rw [← ExtTreeMap.mem_keys, hkeys] at hpath
    simpa using hpath
  · rw [← ExtTreeMap.mem_keys, hkeys'] at hpath
    rwa [← ExtTreeMap.mem_keys, hkeys]
  · obtain ⟨rfl, rfl⟩ := get_dirPass hget
    exact ⟨.dir, by decide +kernel, rfl⟩

/-- A directory with a file is mirrored, and then without the file. -/
theorem run_agrees_filled : Agrees named ["m"] (passOf [("/d", .dir (.dir 5))])
    (Mirror.run named ["m"] (fun _ => [0]) { disk := besideDisk }
      [filledPass, passOf [("/d", .dir (.dir 5))]]) := by
  refine run_agrees named ["m"] (fun _ => [0]) besideDisk wf_besideDisk placed_besideDisk
    [filledPass] (passOf [("/d", .dir (.dir 5))]) (fun earlier pass later heq => ?_)
    (by decide +kernel)
  cases earlier with
  | nil =>
      cases heq
      exact orderly_filledPass
  | cons first earlier =>
      cases earlier with
      | nil =>
          cases heq
          exact orderly_dirPass
      | cons second earlier => simp at heq

end Landslide.Fuse
