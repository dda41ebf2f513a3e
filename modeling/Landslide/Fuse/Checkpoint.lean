import Landslide.Fuse.Store

/-!
# The fold of a checkpoint

A checkpoint collects whole-node entries and tombstones from the deltas since the
last manifest, beside the running image.  At every point the entries lead from the
image it started with to the running image (`DeltaImage.Sound`): a removal enters
every path it takes away, a rename enters every path it moves under both names, and
any other delta enters the one path it changes.  So merging the entries as a segment
over the old segments gives the running image (`Sound.mergeSegment_eq`).

A rename with one path below the other is left out: it moves a path onto one that
is still to be moved.
-/

namespace Landslide.Fuse

open Std Subtree

/-- A rename between nested paths. -/
def Delta.NestedRename : Delta → Prop
  | .rename source dest => Nested source dest
  | _ => False

instance (d : Delta) : Decidable d.NestedRename := by
  cases d <;> unfold Delta.NestedRename <;> infer_instance

namespace DeltaImage

abbrev Entries : Type := ExtTreeMap String (Option Node) compare

/-- The entry of a path. -/
def entry (entries : Entries) (path : String) : Option (Option Node) := entries[path]?

theorem entry_insert (entries : Entries) (path : String) (node : Option Node) :
    entry (entries.insert path node) = Function.update (entry entries) path (some node) := by
  funext q
  rw [entry, ExtTreeMap.getElem?_insert, Function.update_apply]
  by_cases hq : q = path
  · simp [hq]
  · simp [hq, Ne.symm hq, entry]

/-- The entries lead from the image `base` to the running image. -/
def Sound (base : FsImage) (delta : DeltaImage) : Prop :=
  Tracks Below base.get delta.live.get (entry delta.entries)

/-- A fold starts with no entries. -/
theorem Sound.start (base : FsImage) : Sound base { live := base } := by
  have hempty : entry (∅ : Entries) = fun _ => none := by
    funext q
    simp [entry]
  rw [Sound, hempty]
  exact .refl base.get

/-- The entries, merged as a segment, give the running image. -/
theorem Sound.mergeSegment_eq {base : FsImage} {delta : DeltaImage} (h : Sound base delta) :
    base.mergeSegment { entries := delta.entries } = delta.live := by
  refine FsImage.ext_get ?_
  rw [FsImage.get_mergeSegment]
  refine Tracks.merge_eq (r := fun a b => compare a b = .lt) (fun k q => Below.lt)
    (fun a b hab hba => absurd (TransCmp.lt_trans hab hba) (by simp)) h (fun k v => ?_)
    ExtTreeMap.ordered_keys_toList
  exact ExtTreeMap.mem_toList_iff_getElem?_eq_some

/-! ## Removals -/

theorem entry_enterRemove (delta : DeltaImage) (path q : String) :
    entry (delta.enterRemove path) q =
      if q = path ∨ q ∈ delta.live.descendants (slash path) then some none
      else entry delta.entries q := by
  rw [enterRemove]
  generalize delta.live.descendants (slash path) = l
  have hbase : entry (delta.entries.insert path none) q =
      if q = path then some none else entry delta.entries q := by
    rw [entry_insert, Function.update_apply]
  have hfold : ∀ (l : List String) (entries : Entries),
      entry (l.foldl (fun entries p => entries.insert p none) entries) q =
        if q ∈ l then some none else entry entries q := by
    intro l
    induction l with
    | nil => simp
    | cons p l ih =>
        intro entries
        rw [List.foldl_cons, ih, entry_insert, Function.update_apply]
        by_cases hq : q ∈ l
        · simp [hq]
        · by_cases hp : q = p
          · simp [hp]
          · simp [hq, hp]
  rw [hfold, hbase]
  by_cases hl : q ∈ l
  · simp [hl]
  · by_cases hq : q = path
    · simp [hq]
    · simp [hl, hq]

theorem Sound.remove {base : FsImage} {delta : DeltaImage} (h : Sound base delta)
    (path : String) :
    Sound base { entries := delta.enterRemove path, live := delta.live.remove path } := by
  refine Tracks.change h ?_ (fun q hq => ?_) (fun k hk => ?_)
  · refine h.follows.step fun q => ?_
    rw [FsImage.get_remove, erase, entry_enterRemove]
    by_cases hq : q = path ∨ q ∈ delta.live.descendants (slash path)
    · left
      rw [if_pos hq, if_pos]
      rcases hq with hq | hq
      · exact .inl hq
      · exact .inr (FsImage.mem_descendants.mp hq).1
    · right
      refine ⟨if_neg hq, ?_⟩
      rw [FsImage.mem_descendants] at hq
      split
      · next hb =>
        -- below the path, and no descendant: there was no node
        by_contra hnode
        rcases hb with hb | hb
        · exact hq (.inl hb)
        · exact hq (.inr ⟨hb, fun hnone => hnode hnone.symm⟩)
      · rfl
  · rw [entry_enterRemove] at hq
    split at hq
    · cases hq
    · exact hq
  · rw [entry_enterRemove] at hk
    split at hk
    · next hpath =>
      right
      intro q hb hlive
      rw [entry_enterRemove, if_pos]
      · simp
      · right
        rw [FsImage.mem_descendants]
        refine ⟨?_, hlive⟩
        rcases hpath with rfl | hk
        · exact hb
        · exact (FsImage.mem_descendants.mp hk).1.trans hb
    · exact .inl hk

/-! ## Renames -/

/-- The entries of a rename before those of its descendants. -/
def enterSource (delta : DeltaImage) (source dest : String) : Entries :=
  match delta.live.get source with
  | some node => (delta.entries.insert source none).insert dest (some node)
  | none => delta.entries.insert source none

theorem enterRename_eq (delta : DeltaImage) (source dest : String) :
    delta.enterRename source dest = (delta.live.descendants (slash source)).foldl
      (enterMoved delta.live source dest) (delta.enterSource source dest) := by
  cases h : delta.live.get source with
  | none => simp only [enterRename, enterSource, h]
  | some node => simp only [enterRename, enterSource, h]

/-- Entering one move keeps up with the move. -/
theorem follows_move {base image : FsImage} {entries : Entries} {p q : String} {node : Node}
    (h : Follows base.get image.get (entry entries)) (hp : image.get p = some node) :
    Follows base.get (image.move p q).get
      (entry ((entries.insert p none).insert q (some node))) := by
  refine h.step fun x => ?_
  rw [FsImage.get_move hp, entry_insert, entry_insert]
  by_cases hq : x = q
  · simp [hq]
  · by_cases hxp : x = p
    · left
      subst hxp
      simp [Function.update_of_ne hq]
    · right
      simp [Function.update_of_ne hq, Function.update_of_ne hxp]

/-- Entering the descendants one by one keeps up with moving them, as long as no
move goes to a path that is still to be moved. -/
theorem follows_moves {base live : FsImage} {source dest : String} {l : List String}
    (hnodup : l.Nodup) (hclear : ∀ p ∈ l, ∀ p' ∈ l, FsImage.moved source dest p = p' → p = p')
    {image : FsImage} {entries : Entries} (h : Follows base.get image.get (entry entries))
    (hsame : ∀ p ∈ l, image.get p = live.get p) :
    Follows base.get
      (l.foldl (fun image p => image.move p (FsImage.moved source dest p)) image).get
      (entry (l.foldl (enterMoved live source dest) entries)) := by
  induction l generalizing image entries with
  | nil => exact h
  | cons p l ih =>
      obtain ⟨hp, hnodup⟩ := List.nodup_cons.mp hnodup
      have hstep : Follows base.get (image.move p (FsImage.moved source dest p)).get
          (entry (enterMoved live source dest entries p)) := by
        have hlive := hsame p List.mem_cons_self
        cases hget : live.get p with
        | none =>
            rw [hget] at hlive
            rw [FsImage.move_none hlive, enterMoved, hget]
            exact h
        | some node =>
            rw [hget] at hlive
            rw [enterMoved, hget]
            exact follows_move h hlive
      refine ih hnodup (fun a ha b hb => hclear a (List.mem_cons_of_mem _ ha) b
        (List.mem_cons_of_mem _ hb)) hstep fun x hx => ?_
      rw [FsImage.get_move_of_ne]
      · exact hsame x (List.mem_cons_of_mem _ hx)
      · rintro rfl
        exact hp hx
      · intro hmoved
        have hpx := hclear p List.mem_cons_self x (List.mem_cons_of_mem _ hx) hmoved.symm
        rw [hpx] at hp
        exact hp hx

theorem entry_enterMoved (live : FsImage) (source dest : String) (entries : Entries)
    (p q : String) :
    (entry (enterMoved live source dest entries p) q = some none →
      entry entries q = some none ∨ q = p) ∧
    (entry (enterMoved live source dest entries p) q = none →
      entry entries q = none ∧ (live.get p ≠ none → q ≠ p)) := by
  cases hget : live.get p with
  | none =>
      rw [enterMoved, hget]
      exact ⟨.inl, fun h => ⟨h, fun hlive => absurd rfl hlive⟩⟩
  | some node =>
      rw [enterMoved, hget, entry_insert, entry_insert, Function.update_apply,
        Function.update_apply]
      by_cases hmoved : q = FsImage.moved source dest p
      · simp [hmoved]
      · rw [if_neg hmoved]
        by_cases hp : q = p
        · simp [hp]
        · simp [hp]

/-- A tombstone entered for descendants stands at one of them. -/
theorem tombstone_of_moved {live : FsImage} {source dest : String} {l : List String}
    {entries : Entries} {q : String}
    (h : entry (l.foldl (enterMoved live source dest) entries) q = some none) :
    entry entries q = some none ∨ q ∈ l := by
  induction l generalizing entries with
  | nil => exact .inl h
  | cons p l ih =>
      rcases ih h with h | h
      · rcases (entry_enterMoved live source dest entries p q).1 h with h | rfl
        · exact .inl h
        · exact .inr List.mem_cons_self
      · exact .inr (List.mem_cons_of_mem _ h)

/-- A path without an entry had none before, and is no descendant that was moved. -/
theorem notMem_of_moved {live : FsImage} {source dest : String} {l : List String}
    {entries : Entries} {q : String}
    (h : entry (l.foldl (enterMoved live source dest) entries) q = none) :
    entry entries q = none ∧ (live.get q ≠ none → q ∉ l) := by
  induction l generalizing entries with
  | nil => exact ⟨h, fun _ => List.not_mem_nil⟩
  | cons p l ih =>
      obtain ⟨h, hl⟩ := ih h
      obtain ⟨h, hp⟩ := (entry_enterMoved live source dest entries p q).2 h
      refine ⟨h, fun hlive hq => ?_⟩
      rcases List.mem_cons.mp hq with rfl | hq
      · exact hp hlive rfl
      · exact hl hlive hq

theorem entry_enterSource (delta : DeltaImage) (source dest q : String) :
    (entry (delta.enterSource source dest) q = some none →
      entry delta.entries q = some none ∨ q = source) ∧
    (entry (delta.enterSource source dest) q = none → entry delta.entries q = none) := by
  rw [enterSource]
  cases delta.live.get source with
  | none =>
      dsimp only
      rw [entry_insert, Function.update_apply]
      by_cases hs : q = source
      · simp [hs]
      · simp [hs]
  | some node =>
      dsimp only
      rw [entry_insert, entry_insert, Function.update_apply, Function.update_apply]
      by_cases hd : q = dest
      · simp [hd]
      · rw [if_neg hd]
        by_cases hs : q = source
        · simp [hs]
        · simp [hs]

theorem follows_enterSource {base : FsImage} {delta : DeltaImage} (h : Sound base delta)
    (source dest : String) :
    Follows base.get (delta.live.move source dest).get
      (entry (delta.enterSource source dest)) := by
  cases hget : delta.live.get source with
  | some node =>
      rw [enterSource, hget]
      exact follows_move h.follows hget
  | none =>
      rw [enterSource, hget, FsImage.move_none hget]
      refine h.follows.step fun q => ?_
      dsimp only
      rw [entry_insert]
      by_cases hq : q = source
      · left
        rw [hq, Function.update_self, hget]
      · exact .inr ⟨Function.update_of_ne hq _ _, rfl⟩

theorem Sound.rename {base : FsImage} {delta : DeltaImage} (h : Sound base delta)
    {source dest : String} (hn : ¬ Nested source dest) :
    Sound base
      { entries := delta.enterRename source dest, live := delta.live.rename source dest } := by
  have hbelow : ∀ p ∈ delta.live.descendants (slash source), Below source p :=
    fun p hp => (FsImage.mem_descendants.mp hp).1
  have hclear : ∀ p ∈ delta.live.descendants (slash source),
      ∀ p' ∈ delta.live.descendants (slash source), FsImage.moved source dest p = p' → p = p' := by
    intro p hp p' hp' hmoved
    by_cases hsd : source = dest
    · rw [← hsd, FsImage.moved_self (hbelow p hp)] at hmoved
      exact hmoved
    · exact absurd (hmoved ▸ hbelow p' hp') (FsImage.not_below_moved hn hsd p)
  have hsame : ∀ p ∈ delta.live.descendants (slash source),
      (delta.live.move source dest).get p = delta.live.get p := by
    intro p hp
    refine FsImage.get_move_of_ne ?_ ?_
    · rintro rfl
      exact FsImage.not_below_self p (hbelow p hp)
    · rintro rfl
      exact hn (.inl (hbelow p hp))
  rw [Sound, enterRename_eq, FsImage.rename_eq hn]
  refine Tracks.change h (follows_moves (FsImage.descendants_nodup _ _) hclear
    (follows_enterSource h source dest) hsame) (fun q hq => ?_) (fun k hk => ?_)
  · exact (entry_enterSource delta source dest q).2 (notMem_of_moved hq).1
  · -- a new tombstone stands at the source or below it, where every live path is entered
    have hnew : k = source ∨ Below source k →
        ∀ q, Below k q → delta.live.get q ≠ none →
          entry ((delta.live.descendants (slash source)).foldl
            (enterMoved delta.live source dest) (delta.enterSource source dest)) q ≠ none := by
      intro hsource q hb hlive hq
      refine (notMem_of_moved hq).2 hlive (FsImage.mem_descendants.mpr ⟨?_, hlive⟩)
      rcases hsource with rfl | hsource
      · exact hb
      · exact hsource.trans hb
    rcases tombstone_of_moved hk with hk | hk
    · rcases (entry_enterSource delta source dest k).1 hk with hk | hk
      · exact .inl hk
      · exact .inr (hnew (.inl hk))
    · exact .inr (hnew (.inr (hbelow k hk)))

/-! ## All deltas -/

/-- A delta about one path enters what it leaves there. -/
theorem Sound.target {base : FsImage} {delta : DeltaImage} (h : Sound base delta) {d : Delta}
    {path : String} (ht : FsImage.target d = some path) (now : Int) :
    Sound base (match (delta.live.apply now d).get path with
      | some node => { entries := delta.entries.insert path (some node),
                       live := delta.live.apply now d }
      | none => { entries := delta.entries, live := delta.live.apply now d }) := by
  obtain ⟨hother, hpath⟩ := FsImage.get_apply_of_target ht now delta.live
  cases hget : (delta.live.apply now d).get path with
  | some node =>
      refine Tracks.change h (h.follows.step fun q => ?_) (fun q hq => ?_) (fun k hk => ?_)
      · rw [entry_insert]
        by_cases hq : q = path
        · left
          rw [hq, Function.update_self, hget]
        · exact .inr ⟨Function.update_of_ne hq _ _, hother q hq⟩
      · rw [entry_insert, Function.update_apply] at hq
        split at hq
        · cases hq
        · exact hq
      · rw [entry_insert, Function.update_apply] at hk
        split at hk
        · cases hk
        · exact .inl hk
  | none =>
      have hsame : (delta.live.apply now d).get = delta.live.get := by
        funext q
        by_cases hq : q = path
        · rw [hq, hget, hpath hget]
        · exact hother q hq
      rw [Sound, hsame]
      exact h

theorem Sound.apply {base : FsImage} {delta : DeltaImage} (h : Sound base delta) {d : Delta}
    (hn : ¬ d.NestedRename) (now : Int) : Sound base (delta.apply now d) := by
  cases d with
  | remove path => exact h.remove path
  | rename source dest => exact h.rename hn
  | write path offset data => exact h.target rfl now
  | mkdir path => exact h.target rfl now
  | symlink path target => exact h.target rfl now
  | setAttr path mode uid gid mtimeMs => exact h.target rfl now
  | setXattr path name value => exact h.target rfl now

theorem live_apply (now : Int) (delta : DeltaImage) (d : Delta) :
    (delta.apply now d).live = delta.live.apply now d := by
  cases d with
  | remove path => rfl
  | rename source dest => rfl
  | write | mkdir | symlink | setAttr | setXattr =>
      rw [DeltaImage.apply]
      split <;> rfl

end DeltaImage

end Landslide.Fuse
