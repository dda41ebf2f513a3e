import Landslide.Fuse.Handles
import Landslide.Fuse.Mirror

/-!
# A mirror in its directory

Every call of a pass names a place in the mirror directory, but the system follows the
links on the way: those that were there, and those that the pass has made from the symlinks
of the image.  Where none stands above a place that a pass works at, and none at the temp
file of a write (`Confined`), the pass changes nothing outside the directory
(`run_confined`).
-/

namespace Landslide.Fuse

open Std Disk DiskM

/-! ## Temp files -/

theorem toList_tmpExtension : ("landslide-mirror.tmp" : String).toList =
    "landslide-mirror".toList ++ '.' :: "tmp".toList := by decide

theorem fileStem_ne (name : String) : fileStem name ++ "." ++ "landslide-mirror.tmp" ≠ name := by
  intro h
  have hlist := congrArg String.toList h
  rw [String.toList_append, String.toList_append, toList_tmpExtension] at hlist
  -- the last dot is the one before `tmp`
  have hstem : (fileStem name).toList =
      (fileStem name).toList ++ ".".toList ++ "landslide-mirror".toList := by
    generalize (fileStem name).toList ++ ".".toList = before at hlist ⊢
    have hreverse : name.toList.reverse =
        "tmp".toList.reverse ++ '.' :: ("landslide-mirror".toList.reverse ++ before.reverse) := by
      rw [← hlist]
      simp
    have hdrop : (name.toList.reverse.dropWhile (· ≠ '.')).drop 1 =
        "landslide-mirror".toList.reverse ++ before.reverse := by
      rw [hreverse]
      rfl
    rw [fileStem, hdrop, if_neg (by simp), String.toList_ofList, List.reverse_append,
      List.reverse_reverse, List.reverse_reverse]
  have hlen := congrArg List.length hstem
  rw [List.length_append, List.length_append] at hlen
  have hpos : "landslide-mirror".toList.length = 16 := by decide
  omega

section

variable {x : Loc}

theorem tmpOf_eq (hne : x ≠ []) : tmpOf x = x.dropLast ++
    [fileStem (x.getLast hne) ++ "." ++ "landslide-mirror.tmp"] := by
  rw [tmpOf, withExtension, List.getLast?_eq_some_getLast hne]

theorem length_tmpOf (hne : x ≠ []) : (tmpOf x).length = x.length := by
  rw [tmpOf_eq hne, List.length_append, List.length_dropLast, List.length_singleton]
  have hpos := List.length_pos_of_ne_nil hne
  omega

theorem tmpOf_ne (hne : x ≠ []) : tmpOf x ≠ x := by
  intro h
  rw [tmpOf_eq hne] at h
  have hsame : x.dropLast ++ [fileStem (x.getLast hne) ++ "." ++ "landslide-mirror.tmp"] =
      x.dropLast ++ [x.getLast hne] := by rw [h, List.dropLast_append_getLast hne]
  exact fileStem_ne _ (List.singleton_inj.mp (List.append_cancel_left hsame))

/-- What stands above the temp file stands above the place. -/
theorem prefix_of_tmpOf (hne : x ≠ []) {y : Loc} (hy : y <+: tmpOf x) (hyt : y ≠ tmpOf x) :
    y <+: x ∧ y ≠ x := by
  rw [tmpOf_eq hne] at hy hyt
  have hdrop := prefix_concat_of_ne hy hyt
  refine ⟨hdrop.trans (List.dropLast_prefix x), ?_⟩
  rintro rfl
  have hlen := hdrop.length_le
  rw [List.length_dropLast] at hlen
  have hpos := List.length_pos_of_ne_nil hne
  omega

theorem plain_tmpOf (hne : x ≠ []) (hx : Plain x) : Plain (tmpOf x) := by
  intro c hc
  rw [tmpOf_eq hne, List.mem_append, List.mem_singleton] at hc
  rcases hc with hc | rfl
  · exact hx c (List.dropLast_subset x hc)
  · have hlen : ∀ s : String, s.toList.length < 16 →
        fileStem (x.getLast hne) ++ "." ++ "landslide-mirror.tmp" ≠ s := by
      rintro s hs rfl
      rw [String.toList_append, List.length_append] at hs
      have htmp : "landslide-mirror.tmp".toList.length = 20 := by decide
      omega
    exact ⟨hlen _ (by decide), hlen _ (by decide), hlen _ (by decide)⟩

theorem clear_tmpOf {d : Disk Bytes} (hne : x ≠ []) (hx : Clear d x) : Clear d (tmpOf x) where
  plain := plain_tmpOf hne hx.plain
  unlinked y hy hyt := by
    obtain ⟨hyx, hnex⟩ := prefix_of_tmpOf hne hy hyt
    exact hx.unlinked y hyx hnex

end

/-! ## What each call leaves -/

section

variable {x : Loc} {own : Loc → Prop} {linked : Prop} {d₀ d : Disk Bytes}

/-- A removal is tried: it takes away nothing but what is at the place and below, and it leaves
nothing there unless it is refused. -/
theorem removeAny_partway (own : Loc → Prop) (linked : Prop) (faults : Faults) (hwf : d.Wf)
    (hx : Clear d x) : ∃ d', removeAny faults x d = (.ok (), d') ∧ Partway x own linked d d' ∧
      (∀ y, d'.entry y = d.entry y ∨ (x <+: y ∧ d'.entry y = none)) ∧
      (faults .find = none → faults .remove = none → x ≠ [] → d'.entry x = none) := by
  refine ⟨_, rfl, ?_⟩
  rcases stat_cases (faults .find) hwf hx (.inl rfl) with ⟨e, hstat, he⟩ | ⟨err, hstat, hnone⟩
  · have hmd : symlinkMetadata (faults .find) x d = (.ok e, d) := hstat
    rw [bind_of_ok hmd]
    split
    · next hdir =>
      rcases removeDirAll_cases (faults .remove) hwf hx with ⟨r, hrun, hgone⟩ |
        ⟨r, hrun, hnot, -⟩ | ⟨r, kept, hrun, hgone⟩
      · rw [hrun]
        exact ⟨.refl hwf, fun _ => .inl rfl, fun _ hremove _ => hgone hremove⟩
      · exact absurd ⟨e, he, hdir⟩ hnot
      · rw [hrun]
        refine ⟨partway_clear hwf kept, fun y => ?_, fun _ hremove hne => ?_⟩
        · rw [entry_clear]
          split
          · next hy => exact .inr ⟨hy.1, rfl⟩
          · exact .inl rfl
        · rw [entry_clear, if_pos ⟨List.prefix_rfl, hne, by simp [hgone hremove]⟩]
    · next hdir =>
      rcases removeFile_cases (faults .remove) hwf hx with ⟨err, hrun, hgone⟩ | ⟨hrun, hnot, hreach⟩
      · rw [hrun]
        refine ⟨.refl hwf, fun _ => .inl rfl, fun _ hremove _ => (hgone hremove).resolve_right ?_⟩
        rintro ⟨e', he', hdir'⟩
        obtain rfl : e = e' := Option.some.inj (he.symm.trans he')
        exact hdir hdir'
      · rw [hrun]
        refine ⟨partway_set_none hwf hnot hreach, fun y => ?_, fun _ _ _ => by
          rw [entry_set, if_pos rfl]⟩
        rw [entry_set]
        split
        · next hy => exact .inr ⟨by rw [hy], rfl⟩
        · exact .inl rfl
  · have hmd : symlinkMetadata (faults .find) x d = (.error err, d) := hstat
    rw [bind_of_error hmd]
    exact ⟨.refl hwf, fun _ => .inl rfl, fun hfind _ _ => hnone hfind⟩

/-- A mode is set, and nothing else changes. -/
theorem applyMode_near (own : Loc → Prop) (linked : Prop) (faults : Faults) (mode : UInt32)
    (hwf : d.Wf) (hx : Clear d x) :
    ∃ d', applyMode faults x mode d = (.ok (), d') ∧ Near x own linked d d' ∧
      ∀ y, d'.view y = d.view y := by
  refine ⟨_, rfl, ?_⟩
  rcases stat_cases (faults .modeOf) hwf hx (.inl rfl) with ⟨e, hstat, he⟩ | ⟨err, hstat, -⟩
  · have hmd : symlinkMetadata (faults .modeOf) x d = (.ok e, d) := hstat
    rw [bind_of_ok hmd]
    split
    · exact ⟨(Partway.refl hwf).toNear, fun _ => rfl⟩
    · next hnot =>
      have hlink : ¬ d.LinkAt x := by
        rintro ⟨e', he', hlink⟩
        obtain rfl : e = e' := Option.some.inj (he.symm.trans he')
        exact hnot hlink
      obtain ⟨r, d', hrun, hnear⟩ := setAttr_near own linked (faults .chmod)
        (fun attr => { attr with mode := mode &&& 0o7777 }) hwf hx hlink
      rw [hrun]
      exact hnear
  · have hmd : symlinkMetadata (faults .modeOf) x d = (.error err, d) := hstat
    rw [bind_of_error hmd]
    exact ⟨(Partway.refl hwf).toNear, fun _ => rfl⟩

/-- A place of one's own next to `x` is filled or emptied. -/
theorem partway_set_own {t : Loc} (hne : t ≠ x) (hown : own t) {e : Option (Disk.Entry Bytes)}
    (hwf : (d.set t e).Wf) (he : ∀ entry, e = some entry → entry.isLink = false) :
    Partway x own linked d (d.set t e) := by
  refine ⟨⟨hwf, fun y _ hy => .inl ?_, fun y hy => ?_⟩, .inr (by rw [entry_set, if_neg hne.symm])⟩
  · rw [entry_set, if_neg]
    rintro rfl
    exact hy hown
  · rcases linkAt_set hy with ⟨rfl, entry, heq, hlink⟩ | ⟨-, hlink⟩
    · rw [he entry heq] at hlink
      cases hlink
    · exact .inl hlink

/-- Bytes are written to a place next to `x`, and that is renamed to `x`. -/
theorem writeRename_partway (own : Loc → Prop) (linked : Prop)
    (fault fault' : Option (Disk.Fault Bytes)) (fresh : Attr) (bytes : Bytes) {t : Loc}
    (hlen : t.length = x.length) (hne : t ≠ x) (hwf : d.Wf)
    (hx : Clear d x) (ht : Clear d t) (hlink : ¬ d.LinkAt t) (hown : own t) :
    (∃ d', (do write fault fresh t bytes; rename fault' t x : DiskM Bytes IoError Unit) d =
        (.ok (), d') ∧ (∀ y, y ≠ x → y ≠ t → d'.entry y = d.entry y) ∧ Near x own linked d d' ∧
        d'.view x = some (.file bytes)) ∨
      ∃ e d', (do write fault fresh t bytes; rename fault' t x : DiskM Bytes IoError Unit) d =
        (.error e, d') ∧ (∀ y, y ≠ x → y ≠ t → d'.entry y = d.entry y) ∧
        Partway x own linked d d' := by
  -- the file next to it is written, whole or in part
  have written : ∀ (content : Bytes) (a : Attr), ¬ d.DirAt t → Reaches d t →
      Partway x own linked d (d.set t (some (.file content a))) := fun content a hdir hreach =>
    partway_set_own hne hown (hwf.set hdir hreach _) (by rintro _ ⟨⟩; rfl)
  have hother : ∀ (content : Bytes) (a : Attr) (y : Loc), y ≠ x → y ≠ t →
      (d.set t (some (.file content a))).entry y = d.entry y := fun content a y _ hyt => by
    rw [entry_set, if_neg hyt]
  rcases write_cases fault fresh bytes ht hlink with
    ⟨e, herr⟩ | ⟨hdir, hreach, a, hok | ⟨e, part, herr⟩⟩
  · exact .inr ⟨e, d, bind_of_error herr _, fun _ _ _ => rfl, .refl hwf⟩
  · have hfirst := written bytes a hdir hreach
    have hsame := hother bytes a
    rw [bind_of_ok hok]
    rcases rename_cases fault' (hfirst.clear ht hlen.le) (hfirst.clear hx le_rfl) with
      ⟨e, herr⟩ | ⟨e, hrun, he, hnotdir, hdirx, hreacht, hreachx⟩
    · exact .inr ⟨e, _, herr, hsame, hfirst⟩
    · have hfile : ¬ (d.set t (some (.file bytes a))).DirAt t := by
        rw [dirAt_iff, view_set_self]
        simp [Entry.view]
      rw [entry_set, if_pos rfl] at he
      cases he
      generalize d.set t (some (.file bytes a)) = d₁ at *
      have hempty : (d₁.set t none).Wf := hfirst.wf.set hfile hreacht none
      have hwf' : ((d₁.set t none).set x (some (.file bytes a))).Wf := by
        refine hempty.set ?_ (fun y hy hney => ?_) _
        · rwa [dirAt_set_of_ne none hne.symm]
        · refine (dirAt_set_of_ne none ?_).mpr (hreachx y hy hney)
          rintro rfl
          exact hne (hy.eq_of_length hlen)
      refine .inl ⟨_, hrun, fun y hyx hyt => ?_, ?_, view_set_self _ x _⟩
      · rw [entry_set, if_neg hyx, entry_set, if_neg hyt, hsame y hyx hyt]
      refine (hfirst.trans (partway_set_own hne hown hempty (by simp))).toNear.trans ?_
      exact near_set hwf' (by rintro _ ⟨⟩ ⟨⟩)
  · exact .inr ⟨e, _, bind_of_error herr _, hother part a, written part a hdir hreach⟩

/-! ## Writing a node -/

variable {D S B : Type} {env : Outside D S B} {pass : Pass B}

/-- A step that failed: what stood at the place is there or gone, and if no call was refused,
something that is no directory is in the way. -/
def Halted (x : Loc) (own : Loc → Prop) (linked : Prop) (faults : Faults) (d₀ d : Disk Bytes) :
    Prop :=
  Partway x own linked d₀ d ∧ ((∀ call, faults call = none) → Blocked d x)

theorem makeParent_triple (faults : Faults) (hx : Clear d₀ x) :
    Triple (Partway x own linked d₀) (makeParent pass faults x)
      (fun _ => Partway x own linked d₀) (Halted x own linked faults d₀) := by
  rw [makeParent]
  split
  · exact .pure fun _ hd => hd
  · next hne =>
    refine .mapError (.of_eq fun d hd => ?_)
    have hparent := List.dropLast_prefix x
    have hall := createDirAll_madeAll (faults .parent) pass.fresh hd.wf
      ((hd.clear hx le_rfl).above hparent)
    have hnelast : x.dropLast ≠ x := by
      intro h
      have hlen := congrArg List.length h
      rw [List.length_dropLast] at hlen
      have hpos := List.length_pos_of_ne_nil hne
      omega
    have hpart := hd.trans (hall.made.partway hparent hnelast)
    cases hrun : createDirAll (faults .parent) pass.fresh x.dropLast d with
    | mk r d' =>
        rw [hrun] at hall hpart
        cases r with
        | ok u => exact .inl ⟨u, d', rfl, hpart⟩
        | error e =>
            refine .inr ⟨e, d', rfl, hpart, fun hfaults => ?_⟩
            obtain ⟨y, entry, hy, hblocks⟩ := hall.error (by simp) (hfaults .parent)
            exact ⟨y, entry, hy.trans hparent, hblocks⟩

theorem removeAny_triple {E : Disk Bytes → Prop} (faults : Faults) (hx : Clear d₀ x) :
    Triple (Partway x own linked d₀) (removeAny faults x) (fun _ => Partway x own linked d₀) E := by
  refine .of_eq fun d hd => ?_
  obtain ⟨d', hrun, hpart, -, -⟩ := removeAny_partway own linked faults hd.wf (hd.clear hx le_rfl)
  exact .inl ⟨(), d', hrun, hd.trans hpart⟩

theorem isDir_triple {ε : Type} {E : Disk Bytes → Prop} (fault : Option (Disk.Fault Bytes))
    (hx : Clear d₀ x) : Triple (Partway x own linked d₀) (isDir fault x : DiskM Bytes ε Bool)
      (fun b d => Partway x own linked d₀ d ∧ (¬ d.LinkAt x → b = true → d.DirAt x)) E := by
  refine .of_eq fun d hd => ?_
  obtain ⟨b, hrun, hb⟩ := isDir_cases ε fault hd.wf (hd.clear hx le_rfl)
  exact .inl ⟨b, d, hrun, hd, fun hlink => (hb hlink).1⟩

theorem writeDir_triple (faults : Faults) (hx : Clear d₀ x) (hlinked : ¬ linked) :
    Triple (Partway x own linked d₀) (writeDir pass faults x)
      (fun _ d => Near x own linked d₀ d ∧ (¬ d₀.LinkAt x → d.DirAt x))
      (Halted x own linked faults d₀) := by
  refine (isDir_triple _ hx).bind fun there => ?_
  have hlink : ∀ d, Partway x own linked d₀ d → ¬ d₀.LinkAt x → ¬ d.LinkAt x := fun d hd h =>
    hd.not_linkAt h fun h => absurd h hlinked
  cases there with
  | true => exact .pure fun d hd => ⟨hd.1.toNear, fun h => hd.2 (hlink d hd.1 h) rfl⟩
  | false =>
      refine .weaken (.bind (removeAny_triple faults hx) fun _ => .mapError (.of_eq fun d hd => ?_))
        (fun _ hd => hd.1) (fun _ _ h => h) fun _ h => h
      have hall := createDirAll_madeAll (faults .create) pass.fresh hd.wf (hd.clear hx le_rfl)
      cases hrun : createDirAll (faults .create) pass.fresh x d with
      | mk r d' =>
          rw [hrun] at hall
          cases r with
          | ok u =>
              exact .inl ⟨u, d', rfl, hd.toNear.trans hall.made.near,
                fun h => hall.ok rfl (hlink d hd h)⟩
          | error e =>
              exact .inr ⟨e, d', rfl, hd.trans ⟨hall.made.near, .inr (hall.same (by simp))⟩,
                fun hfaults => hall.error (by simp) (hfaults .create)⟩

theorem writeSymlink_triple (faults : Faults) (target : String) (hx : Clear d₀ x)
    (hlinked : linked) :
    Triple (Partway x own linked d₀) (writeSymlink faults target x)
      (fun _ d => Near x own linked d₀ d ∧ d.view x = some (.link target))
      (Partway x own linked d₀) := by
  refine (removeAny_triple faults hx).bind fun _ => .mapError (.of_eq fun d hd => ?_)
  rcases symlink_cases (faults .symlink) target (hd.clear hx le_rfl) with
    ⟨e, herr⟩ | ⟨hrun, hnone, hreach⟩
  · exact .inr ⟨e, d, herr, hd⟩
  · have hdir : ¬ d.DirAt x := by
      rintro ⟨e, he, -⟩
      rw [hnone] at he
      cases he
    exact .inl ⟨(), _, hrun, hd.toNear.trans (near_set (hd.wf.set hdir hreach _)
      fun _ _ _ => hlinked), view_set_self d x _⟩

/-- A file is filled, and its attributes are set. -/
theorem writeBytes_triple (faults : Faults) (attrs : NodeMeta) (bytes : Bytes) (hne : x ≠ [])
    (hx : Clear d₀ x) (htmp : ¬ d₀.LinkAt (tmpOf x)) (hown : own (tmpOf x)) (hlinked : ¬ linked) :
    Triple (Partway x own linked d₀)
      (do
        io (writeFileAtomic faults pass.fresh x bytes)
        applyMode faults x attrs.mode
        DiskM.attempt
          (setAttr (faults .setTimes) (fun attr => { attr with mtimeMs := max attrs.mtimeMs 0 }) x) :
        DiskM Bytes Error Unit)
      (fun _ d => Near x own linked d₀ d ∧ d.view x = some (.file bytes))
      (Partway x own linked d₀) := by
  have hwrite : Triple (Partway x own linked d₀)
      (io (writeFileAtomic faults pass.fresh x bytes) : DiskM Bytes Error Unit)
      (fun _ d => Near x own linked d₀ d ∧ d.view x = some (.file bytes))
      (Partway x own linked d₀) := by
    refine .mapError (.of_eq fun d hd => ?_)
    have htmp' := hd.not_linkAt htmp fun h => absurd h hlinked
    rcases writeRename_partway own linked (faults .write) (faults .rename) pass.fresh bytes
      (length_tmpOf hne) (tmpOf_ne hne) hd.wf (hd.clear hx le_rfl)
      (clear_tmpOf hne (hd.clear hx le_rfl)) htmp' hown with
      ⟨d', hrun, -, hnear, hview⟩ | ⟨e, d', hrun, -, hpart⟩
    · exact .inl ⟨(), d', hrun, hd.toNear.trans hnear, hview⟩
    · exact .inr ⟨e, d', hrun, hd.trans hpart⟩
  refine hwrite.bind fun _ => .bind (Q := fun _ d => Near x own linked d₀ d ∧
    d.view x = some (.file bytes)) (.of_eq fun d hd => ?_) fun _ => .attempt (.of_eq fun d hd => ?_)
  · obtain ⟨d', hrun, hnear, hview⟩ := applyMode_near own linked faults
      attrs.mode hd.1.wf (hd.1.clear hx le_rfl)
    exact .inl ⟨(), d', hrun, hd.1.trans hnear, (hview x).trans hd.2⟩
  · have hlink : ¬ d.LinkAt x := by
      rw [linkAt_iff, hd.2]
      simp
    obtain ⟨r, d', hrun, hnear, hview⟩ := setAttr_near own linked
      (faults .setTimes) (fun attr => { attr with mtimeMs := max attrs.mtimeMs 0 }) hd.1.wf
      (hd.1.clear hx le_rfl) hlink
    have hafter := And.intro (hd.1.trans hnear) ((hview x).trans hd.2)
    cases r with
    | ok u => exact .inl ⟨u, d', hrun, hafter⟩
    | error e => exact .inr ⟨e, d', hrun, hafter⟩

theorem writeFile_triple (env : Outside D S B) (faults : Faults) (path : String)
    (attrs : NodeMeta) (hne : x ≠ []) (hx : Clear d₀ x) (htmp : ¬ d₀.LinkAt (tmpOf x))
    (hown : own (tmpOf x)) (hlinked : ¬ linked) :
    Triple (Partway x own linked d₀) (writeFile env pass faults path attrs x)
      (fun _ d => Near x own linked d₀ d ∧ ∃ bytes, readNode env pass path = .ok (some bytes) ∧
        d.view x = some (.file bytes))
      (Partway x own linked d₀) := by
  refine (isDir_triple _ hx).bind fun there => ?_
  refine .weaken (P := Partway x own linked d₀) ?_ (fun _ hd => hd.1) (fun _ _ h => h) fun _ h => h
  have hclean : Triple (Partway x own linked d₀)
      (if there then removeAny faults x else pure () : DiskM Bytes Error Unit)
      (fun _ => Partway x own linked d₀) (Partway x own linked d₀) := by
    cases there with
    | true => exact removeAny_triple faults hx
    | false => exact .pure fun _ hd => hd
  refine hclean.bind fun _ => ?_
  have hread : Triple (Partway x own linked d₀) (readBytes env pass path)
      (fun bytes d => Partway x own linked d₀ d ∧ readNode env pass path = .ok (some bytes))
      (Partway x own linked d₀) := by
    refine .of_eq fun d hd => ?_
    rw [readBytes]
    cases hread : readNode env pass path with
    | error e => exact .inr ⟨e, d, rfl, hd⟩
    | ok found =>
        cases found with
        | none => exact .inr ⟨_, d, rfl, hd⟩
        | some bytes => exact .inl ⟨bytes, d, rfl, hd, rfl⟩
  refine hread.bind fun bytes => .of_eq fun d hd => ?_
  obtain ⟨hd, hbytes⟩ := hd
  refine Triple.cases (P := Partway x own linked d₀) ?_ hd
  refine .weaken (Q := fun _ d => Near x own linked d₀ d ∧ d.view x = some (.file bytes)) ?_
    (fun _ h => h) (fun _ _ h => ⟨h.1, bytes, hbytes, h.2⟩) fun _ h => h
  exact writeBytes_triple faults attrs bytes hne hx htmp hown hlinked

/-! ## Any node -/

/-- What a reader is to find of a node: the bytes it reads as, a directory, or its target. -/
def Node.Seen (env : Outside D S B) (pass : Pass B) (path : String) : Node → View Bytes → Prop
  | .file _ _, v => ∃ bytes, readNode env pass path = .ok (some bytes) ∧ v = .file bytes
  | .dir _, v => v = .dir
  | .symlink target _, v => v = .link target

/-- The places besides its own that the write of a node changes. -/
def ownPlaces (x : Loc) : Node → Loc → Prop
  | .file _ _, y => y = tmpOf x
  | _, _ => False

def Node.IsSymlink (node : Node) : Prop := ∃ target attrs, node = .symlink target attrs

/-- A node can be written at a place without passing a link. -/
structure Writable (d : Disk Bytes) (x : Loc) (node : Node) : Prop where
  clear : Clear d x
  named : ∀ content attrs, node = .file content attrs → x ≠ [] ∧ ¬ d.LinkAt (tmpOf x)

/-- A write of a node that succeeds leaves what a reader is to find, unless a directory is
due where a link stood, and one that fails leaves what stood there or nothing. -/
theorem writeNode_cases (env : Outside D S B) (pass : Pass B) {path : String} {node : Node}
    (hwf : d.Wf)
    (h : Writable d (localPath dir path) node) :
    (∃ d', writeNode env dir pass path node d = (.ok (), d') ∧
        Near (localPath dir path) (ownPlaces (localPath dir path) node) node.IsSymlink d d' ∧
        (((∃ attrs, node = .dir attrs) → ¬ d.LinkAt (localPath dir path)) →
          ∃ v, node.Seen env pass path v ∧ d'.view (localPath dir path) = some v)) ∨
      ∃ e d', writeNode env dir pass path node d = (.error e, d') ∧
        Partway (localPath dir path) (ownPlaces (localPath dir path) node) node.IsSymlink d d' ∧
        ((∃ attrs, node = .dir attrs) → (∀ call, pass.faults path call = none) →
          Blocked d' (localPath dir path)) := by
  have hparent : Triple
      (Partway (localPath dir path) (ownPlaces (localPath dir path) node) node.IsSymlink d)
      (makeParent pass (pass.faults path) (localPath dir path))
      (fun _ => Partway (localPath dir path) (ownPlaces (localPath dir path) node) node.IsSymlink d)
      (Halted (localPath dir path) (ownPlaces (localPath dir path) node) node.IsSymlink
        (pass.faults path) d) :=
    makeParent_triple _ h.clear
  have hparent' := hparent.weaken (fun _ h => h) (fun _ _ h => h) fun _ h => h.1
  cases node with
  | dir attrs =>
      have hlinked : ¬ (Node.dir attrs).IsSymlink := by
        rintro ⟨target, attrs', ⟨⟩⟩
      rcases (hparent.bind fun _ => writeDir_triple _ h.clear hlinked).cases (.refl hwf) with
        ⟨u, d', hrun, hnear, hdir⟩ | ⟨e, d', hrun, hpart, hblocked⟩
      · refine .inl ⟨d', hrun, hnear, fun hlink => ⟨.dir, rfl, ?_⟩⟩
        exact dirAt_iff.mp (hdir (hlink ⟨attrs, rfl⟩))
      · exact .inr ⟨e, d', hrun, hpart, fun _ => hblocked⟩
  | symlink target attrs =>
      rcases (hparent'.bind fun _ => writeSymlink_triple _ target h.clear
        ⟨target, attrs, rfl⟩).cases (.refl hwf) with ⟨u, d', hrun, hnear, hview⟩ | ⟨e, d', hrun, hpart⟩
      · exact .inl ⟨d', hrun, hnear, fun _ => ⟨.link target, rfl, hview⟩⟩
      · refine .inr ⟨e, d', hrun, hpart, ?_⟩
        rintro ⟨attrs', ⟨⟩⟩
  | file content attrs =>
      obtain ⟨hne, htmp⟩ := h.named content attrs rfl
      have hlinked : ¬ (Node.file content attrs).IsSymlink := by
        rintro ⟨target, attrs', ⟨⟩⟩
      rcases (hparent'.bind fun _ => writeFile_triple env _ path attrs hne h.clear htmp rfl
        hlinked).cases (.refl hwf) with
        ⟨u, d', hrun, hnear, bytes, hbytes, hview⟩ | ⟨e, d', hrun, hpart⟩
      · exact .inl ⟨d', hrun, hnear, fun _ => ⟨.file bytes, ⟨bytes, hbytes, rfl⟩, hview⟩⟩
      · refine .inr ⟨e, d', hrun, hpart, ?_⟩
        rintro ⟨attrs', ⟨⟩⟩

end

/-! ## Passes -/

theorem io_bind (m m' : DiskM Bytes IoError Unit) :
    (do io m; io m' : DiskM Bytes Error Unit) = io (do m; m') := by
  funext d
  show DiskM.bind (io m) (fun _ => io m') d = DiskM.mapError _ (DiskM.bind m fun _ => m') d
  rw [DiskM.bind, DiskM.mapError, DiskM.bind, io, DiskM.mapError]
  cases m d with
  | mk r d' =>
      cases r with
      | ok u => rfl
      | error e => rfl

section

variable {D S B : Type}

/-- A link stands at a place, or the image has a symlink for it. -/
def LinkPlace (dir : Loc) (pass : Pass B) (d : Disk Bytes) (y : Loc) : Prop :=
  d.LinkAt y ∨ ∃ path node, pass.image.get path = some node ∧ node.IsSymlink ∧
    localPath dir path = y

/-- No link stands, or comes to stand, above a place where a pass works, or at a file that
it writes next to another one. -/
structure Confined (dir : Loc) (pass : Pass B) (m : Mirror) : Prop where
  paths : ∀ path, pass.image.get path ≠ none ∨ path ∈ m.entries → ∀ y, y <+: localPath dir path →
    y ≠ localPath dir path → ¬ LinkPlace dir pass m.disk y
  files : ∀ path content attrs, pass.image.get path = some (.file content attrs) →
    names path ≠ [] ∧ ¬ LinkPlace dir pass m.disk (tmpOf (localPath dir path))
  state : ¬ LinkPlace dir pass m.disk dir ∧ ¬ LinkPlace dir pass m.disk (stateTmp dir)

/-- A disk on which only the directory changed, and with links at some places only. -/
structure Within (dir : Loc) (links : Loc → Prop) (d₀ d : Disk Bytes) : Prop where
  wf : d.Wf
  links : ∀ y, d.LinkAt y → links y
  outside : ∀ y, ¬ dir <+: y → d.entry y = d₀.entry y

/-- The directory is spelled without links, in directories. -/
structure Placed (dir : Loc) (d : Disk Bytes) : Prop where
  plain : Plain dir
  above : ∀ y, y <+: dir → y ≠ dir → d.DirAt y

variable {env : Outside D S B} {dir : Loc} {pass : Pass B} {links : Loc → Prop}
  {d₀ d d' : Disk Bytes}

theorem Placed.of_outside (h : Placed dir d₀) (hsame : ∀ y, ¬ dir <+: y → d.entry y = d₀.entry y) :
    Placed dir d := by
  refine ⟨h.plain, fun z hz hne => ?_⟩
  rw [DirAt, hsame z fun hback => hne (hz.eq_of_length_le hback.length_le)]
  exact h.above z hz hne

theorem Within.near (h : Within dir links d₀ d) (hdir : Placed dir d₀) {x : Loc} (hx : dir <+: x)
    {own : Loc → Prop} (hown : ∀ y, own y → dir <+: y) {linked : Prop} (hlinked : linked → links x)
    (hnear : Near x own linked d d') : Within dir links d₀ d' := by
  refine ⟨hnear.wf, fun y hy => ?_, fun y hy => ?_⟩
  · rcases hnear.link y hy with hlink | ⟨hl, rfl⟩
    · exact h.links y hlink
    · exact hlinked hl
  · have hne : y ≠ x := by
      rintro rfl
      exact hy hx
    rcases hnear.entry y hne (mt (hown y) hy) with heq | ⟨hyx, hnone, -⟩ | ⟨hxy, -⟩
    · rw [heq]
      exact h.outside y hy
    · -- the places above the directory are directories already
      have habove : y <+: dir := (List.prefix_or_prefix_of_prefix hyx hx).resolve_right hy
      have hney : y ≠ dir := by
        rintro rfl
        exact hy List.prefix_rfl
      obtain ⟨e, he, -⟩ := hdir.above y habove hney
      rw [h.outside y hy, he] at hnone
      cases hnone
    · exact absurd (hx.trans hxy) hy

theorem Within.clear (h : Within dir links d₀ d) {x : Loc} (hplain : Plain x)
    (hx : ∀ y, y <+: x → y ≠ x → ¬ links y) : Clear d x :=
  ⟨hplain, fun y hy hne hlink => hx y hy hne (h.links y hlink)⟩

theorem plain_localPath (hdir : Plain dir) (path : String) : Plain (localPath dir path) := by
  intro c hc
  rcases List.mem_append.mp hc with hc | hc
  · exact hdir c hc
  · have hkeep := (List.mem_filter.mp hc).2
    simpa using hkeep

theorem dir_prefix_localPath (dir : Loc) (path : String) : dir <+: localPath dir path :=
  List.prefix_append _ _

/-- The temp file of a named path is in the directory. -/
theorem dir_prefix_tmpOf {path : String} (hnames : names path ≠ []) :
    dir <+: tmpOf (localPath dir path) := by
  have hne : localPath dir path ≠ [] := by simp [localPath, hnames]
  have hdrop : (localPath dir path).dropLast = dir ++ (names path).dropLast :=
    List.dropLast_append_of_ne_nil hnames
  rw [tmpOf_eq hne, hdrop, List.append_assoc]
  exact List.prefix_append _ _

section

variable {m : Mirror}

theorem Confined.clear (h : Confined dir pass m) (hdir : Placed dir m.disk)
    (hd : Within dir (LinkPlace dir pass m.disk) m.disk d) {path : String}
    (hpath : pass.image.get path ≠ none ∨ path ∈ m.entries) : Clear d (localPath dir path) :=
  hd.clear (plain_localPath hdir.plain path) (h.paths path hpath)

theorem Confined.writable (h : Confined dir pass m) (hdir : Placed dir m.disk)
    (hd : Within dir (LinkPlace dir pass m.disk) m.disk d) {path : String} {node : Node}
    (hget : pass.image.get path = some node) : Writable d (localPath dir path) node where
  clear := h.clear hdir hd (.inl (by rw [hget]; simp))
  named := by
    rintro content attrs rfl
    obtain ⟨hnames, htmp⟩ := h.files path content attrs hget
    exact ⟨by simp [localPath, hnames], fun hlink => htmp (hd.links _ hlink)⟩

/-- A write of a node stays in the directory. -/
theorem Confined.writeNode (h : Confined dir pass m) (env : Outside D S B) (hdir : Placed dir m.disk)
    (hd : Within dir (LinkPlace dir pass m.disk) m.disk d) {path : String} {node : Node}
    (hget : pass.image.get path = some node) :
    Within dir (LinkPlace dir pass m.disk) m.disk (writeNode env dir pass path node d).2 := by
  have hown : ∀ y, ownPlaces (localPath dir path) node y → dir <+: y := by
    intro y hy
    cases node with
    | file content attrs =>
        obtain rfl : y = tmpOf (localPath dir path) := hy
        exact dir_prefix_tmpOf (h.files path content attrs hget).1
    | dir attrs => cases hy
    | symlink target attrs => cases hy
  have hlinked : node.IsSymlink → LinkPlace dir pass m.disk (localPath dir path) := fun hnode =>
    .inr ⟨path, node, hget, hnode, rfl⟩
  rcases writeNode_cases env pass hd.wf (h.writable hdir hd hget) with
    ⟨d', hrun, hnear, -⟩ | ⟨e, d', hrun, hpart, -⟩
  · rw [hrun]
    exact hd.near hdir (dir_prefix_localPath dir path) hown hlinked hnear
  · rw [hrun]
    exact hd.near hdir (dir_prefix_localPath dir path) hown hlinked hpart.toNear

/-- What a pass on its way keeps: the directory bounds its changes, and it knows the paths it
is still to work at. -/
structure Progress.Within (dir : Loc) (pass : Pass B) (m : Mirror) (p : Progress) : Prop where
  disk : Fuse.Within dir (LinkPlace dir pass m.disk) m.disk p.mirror.disk
  entries : ∀ path, path ∈ p.mirror.entries → pass.image.get path ≠ none ∨ path ∈ m.entries
  modes : ∀ item ∈ p.dirModes, pass.image.get item.1 ≠ none

theorem Progress.mirror_withMode (p : Progress) (path : String) (node : Node) :
    (p.withMode path node).mirror = p.mirror := by
  cases node <;> rfl

theorem Progress.skipped_withMode (p : Progress) (path : String) (node : Node) :
    (p.withMode path node).skipped = p.skipped := by
  cases node <;> rfl

theorem Progress.mem_dirModes_withMode {p : Progress} {path : String} {node : Node}
    {item : String × UInt32} (h : item ∈ (p.withMode path node).dirModes) :
    item ∈ p.dirModes ∨ item.1 = path := by
  cases node with
  | dir attrs =>
      rcases List.mem_append.mp h with h | h
      · exact .inl h
      · rw [List.mem_singleton.mp h]
        exact .inr rfl
  | file content attrs => exact .inl h
  | symlink target attrs => exact .inl h

theorem Progress.Within.withMode {p : Progress} (h : p.Within dir pass m) {path : String}
    {node : Node} (hget : pass.image.get path = some node) :
    (p.withMode path node).Within dir pass m := by
  refine ⟨?_, ?_, fun item hitem => ?_⟩
  · rw [Progress.mirror_withMode]
    exact h.disk
  · rw [Progress.mirror_withMode]
    exact h.entries
  · rcases Progress.mem_dirModes_withMode hitem with hold | heq
    · exact h.modes item hold
    · rw [heq, hget]
      simp

theorem Progress.Within.update (env : Outside D S B) {p : Progress} (h : p.Within dir pass m)
    (hc : Confined dir pass m) (hdir : Placed dir m.disk) {path : String} {node : Node}
    (hget : pass.image.get path = some node) :
    (update env dir pass p (path, node)).Within dir pass m := by
  have hwrite := hc.writeNode env hdir h.disk hget
  rw [Fuse.update]
  split
  · exact h.withMode hget
  · split
    · next disk hrun =>
      rw [hrun] at hwrite
      apply Progress.Within.withMode _ hget
      refine ⟨hwrite, fun q hq => ?_, h.modes⟩
      rcases ExtTreeMap.mem_insert.mp hq with heq | hq
      · rw [← Std.compare_eq_iff_eq.mp heq, hget]
        simp
      · exact h.entries q hq
    · next e disk hrun =>
      rw [hrun] at hwrite
      exact ⟨hwrite, h.entries, h.modes⟩

theorem mem_toList_nodes {image : FsImage} {item : String × Node} :
    item ∈ image.nodes.toList ↔ image.get item.1 = some item.2 :=
  ExtTreeMap.mem_toList_iff_getElem?_eq_some

theorem Confined.updates (h : Confined dir pass m) (env : Outside D S B)
    (hdir : Placed dir m.disk) (hwf : m.disk.Wf) :
    (pass.image.nodes.toList.foldl (Fuse.update env dir pass) { mirror := m }).Within dir pass m := by
  have hstart : Progress.Within dir pass m { mirror := m } :=
    ⟨⟨hwf, fun _ hlink => .inl hlink, fun _ _ => rfl⟩, fun _ hpath => .inr hpath, by simp⟩
  exact List.foldlRecOn _ _ hstart fun p hp item hitem => hp.update env h hdir (mem_toList_nodes.mp hitem)

/-- The removal of a path that the pass knows. -/
theorem Confined.drop (h : Confined dir pass m) (hdir : Placed dir m.disk) {m' : Mirror}
    (hd : Within dir (LinkPlace dir pass m.disk) m.disk m'.disk) {path : String}
    (hpath : pass.image.get path ≠ none ∨ path ∈ m.entries) :
    Within dir (LinkPlace dir pass m.disk) m.disk (Fuse.drop dir pass m' path).disk := by
  obtain ⟨d', hrun, hpart, -, -⟩ := removeAny_partway (fun _ => False) False
    (pass.faults path) hd.wf (h.clear hdir hd hpath)
  rw [Fuse.drop, hrun]
  exact hd.near hdir (dir_prefix_localPath dir path) (by simp) (by simp) hpart.toNear

theorem Confined.setMode (h : Confined dir pass m) (hdir : Placed dir m.disk)
    (hd : Within dir (LinkPlace dir pass m.disk) m.disk d) {item : String × UInt32}
    (hitem : pass.image.get item.1 ≠ none) :
    Within dir (LinkPlace dir pass m.disk) m.disk (Fuse.setMode dir pass d item) := by
  obtain ⟨d', hrun, hnear, -⟩ := applyMode_near (fun _ => False) False (pass.faults item.1) item.2
    hd.wf (h.clear hdir hd (.inl hitem))
  rw [Fuse.setMode, hrun]
  exact hd.near hdir (dir_prefix_localPath dir item.1) (by simp) (by simp) hnear

theorem stateTmp_ne (dir : Loc) : stateTmp dir ≠ dir ++ [stateFile] := by
  intro h
  have hname := List.append_cancel_left h
  exact absurd hname (by decide)

/-- The fingerprints are saved next to their file, which is then replaced, and nothing else
changes. -/
theorem saveState_near (pass : Pass B) (encode : ExtTreeMap String StateEntry compare → Bytes)
    (entries : ExtTreeMap String StateEntry compare) (hwf : d.Wf)
    (hx : Clear d (dir ++ [stateFile])) (ht : Clear d (stateTmp dir))
    (hlink : ¬ d.LinkAt (stateTmp dir)) : ∃ r d', saveState dir pass encode entries d = (r, d') ∧
      (∀ y, y ≠ dir ++ [stateFile] → y ≠ stateTmp dir → d'.entry y = d.entry y) ∧
      Near (dir ++ [stateFile]) (· = stateTmp dir) False d d' := by
  have hlen : (stateTmp dir).length = (dir ++ [stateFile]).length := by
    rw [stateTmp, List.length_append, List.length_append]
    rfl
  rw [saveState, io_bind]
  rcases writeRename_partway (· = stateTmp dir) False (pass.stateFaults .write)
    (pass.stateFaults .rename) pass.fresh (encode entries) hlen (stateTmp_ne dir) hwf hx ht hlink rfl
    with ⟨d', hrun, hother, hnear, -⟩ | ⟨e, d', hrun, hother, hpart⟩
  · exact ⟨_, d', by rw [io, DiskM.mapError, hrun], hother, hnear⟩
  · exact ⟨_, d', by rw [io, DiskM.mapError, hrun], hother, hpart.toNear⟩

theorem Confined.saveState_near (h : Confined dir pass m) (hdir : Placed dir m.disk)
    (hd : Within dir (LinkPlace dir pass m.disk) m.disk d)
    (encode : ExtTreeMap String StateEntry compare → Bytes)
    (entries : ExtTreeMap String StateEntry compare) :
    ∃ r d', Fuse.saveState dir pass encode entries d = (r, d') ∧
      (∀ y, y ≠ dir ++ [stateFile] → y ≠ stateTmp dir → d'.entry y = d.entry y) ∧
      Near (dir ++ [stateFile]) (· = stateTmp dir) False d d' := by
  have hclear : ∀ name, name ≠ "" ∧ name ≠ "." ∧ name ≠ ".." → Clear d (dir ++ [name]) := by
    intro name hname
    refine hd.clear (fun c hc => ?_) fun y hy hne => ?_
    · rcases List.mem_append.mp hc with hc | hc
      · exact hdir.plain c hc
      · rw [List.mem_singleton.mp hc]
        exact hname
    · rcases Classical.em (y = dir) with rfl | hney
      · exact h.state.1
      · rintro (hlink | ⟨path, node, -, -, hlocal⟩)
        · exact not_linkAt_of_dirAt (hdir.above y (prefix_concat_of_ne hy hne) hney) hlink
        · have hback := dir_prefix_localPath dir path
          rw [hlocal] at hback
          exact hney ((prefix_concat_of_ne hy hne).eq_of_length_le hback.length_le)
  exact Fuse.saveState_near pass encode entries hd.wf (hclear stateFile (by decide))
    (hclear (stateFile ++ ".tmp") (by decide)) fun hlink => h.state.2 (hd.links _ hlink)

theorem Confined.saveState (h : Confined dir pass m) (hdir : Placed dir m.disk)
    (hd : Within dir (LinkPlace dir pass m.disk) m.disk d)
    (encode : ExtTreeMap String StateEntry compare → Bytes)
    (entries : ExtTreeMap String StateEntry compare) :
    Within dir (LinkPlace dir pass m.disk) m.disk (Fuse.saveState dir pass encode entries d).2 := by
  obtain ⟨r, d', hrun, -, hnear⟩ := h.saveState_near hdir hd encode entries
  rw [hrun]
  refine hd.near hdir (List.prefix_append _ _) ?_ (by simp) hnear
  rintro y rfl
  exact List.prefix_append _ _

theorem mem_gone {entries : ExtTreeMap String StateEntry compare} {path : String} :
    path ∈ gone pass entries ↔ path ∈ entries ∧ pass.image.get path = none := by
  have hnodes : path ∈ pass.image.nodes ↔ pass.image.get path ≠ none := by
    rw [← FsImage.mem_keys, ExtTreeMap.mem_keys]
  rw [gone, List.mem_insertionSort, List.mem_filter, (pass.order.perm entries.keys).mem_iff,
    ExtTreeMap.mem_keys, Bool.not_eq_true', ← Bool.not_eq_true, ExtTreeMap.contains_iff_mem, hnodes,
    not_not]

/-- A pass stays in the directory. -/
theorem Confined.materialize (h : Confined dir pass m) (env : Outside D S B)
    (hdir : Placed dir m.disk) (hwf : m.disk.Wf) (encode : ExtTreeMap String StateEntry compare → Bytes) :
    Within dir (LinkPlace dir pass m.disk) m.disk
      (materialize env dir pass encode m).mirror.disk := by
  have hup := h.updates env hdir hwf
  rw [Fuse.materialize]
  generalize pass.image.nodes.toList.foldl (Fuse.update env dir pass) { mirror := m } = up at hup ⊢
  have hdown : Within dir (LinkPlace dir pass m.disk) m.disk
      ((gone pass up.mirror.entries).foldl (Fuse.drop dir pass) up.mirror).disk := by
    refine List.foldlRecOn (motive := fun m' : Mirror => Within dir (LinkPlace dir pass m.disk) m.disk
      m'.disk) _ _ hup.disk fun m' hm' path hpath => ?_
    exact h.drop hdir hm' (hup.entries path (mem_gone.mp hpath).1)
  have hmodes : Within dir (LinkPlace dir pass m.disk) m.disk (up.dirModes.foldl
      (Fuse.setMode dir pass) ((gone pass up.mirror.entries).foldl (Fuse.drop dir pass)
        up.mirror).disk) :=
    List.foldlRecOn _ _ hdown fun d hd item hitem => h.setMode hdir hd (hup.modes item hitem)
  exact h.saveState hdir hmodes encode _

end

theorem Mirror.run_concat (env : Outside D S B) (dir : Loc)
    (encode : ExtTreeMap String StateEntry compare → Bytes) (m : Mirror) (passes : List (Pass B))
    (pass : Pass B) : m.run env dir encode (passes ++ [pass]) =
      (Fuse.materialize env dir pass encode (m.run env dir encode passes)).mirror := by
  rw [Mirror.run, List.foldl_concat]
  rfl

/-- In every run of passes that run through no link, nothing outside the directory changes:
whatever the images, the refused calls and the order in which paths are removed. -/
theorem run_confined (env : Outside D S B) (dir : Loc)
    (encode : ExtTreeMap String StateEntry compare → Bytes) (m : Mirror) (hwf : m.disk.Wf)
    (hdir : Placed dir m.disk) (passes : List (Pass B))
    (hconfined : ∀ earlier pass later, passes = earlier ++ pass :: later →
      Confined dir pass (m.run env dir encode earlier)) (y : Loc) (hy : ¬ dir <+: y) :
    (m.run env dir encode passes).disk.entry y = m.disk.entry y := by
  have hrun : (m.run env dir encode passes).disk.Wf ∧
      ∀ y, ¬ dir <+: y → (m.run env dir encode passes).disk.entry y = m.disk.entry y := by
    refine Guarded.run_of_step (P := fun passes => (m.run env dir encode passes).disk.Wf ∧
      ∀ y, ¬ dir <+: y → (m.run env dir encode passes).disk.entry y = m.disk.entry y)
      ⟨hwf, fun _ _ => rfl⟩ (fun passes pass ih hpass => ?_) hconfined
    obtain ⟨hwf', hsame⟩ := ih
    have hdir' : Placed dir (m.run env dir encode passes).disk := hdir.of_outside hsame
    have hpass' := hpass.materialize env hdir' hwf' encode
    rw [Mirror.run_concat]
    exact ⟨hpass'.wf, fun z hz => (hpass'.outside z hz).trans (hsame z hz)⟩
  exact hrun.2 y hy

end

/-! ## Concrete mirrors -/

/-- A disk with a directory for a mirror, and a file in another one. -/
def besideDisk : Disk Bytes where
  entry x :=
    if x = [] ∨ x = ["m"] ∨ x = ["out"] then some (.dir { mode := 0o755, mtimeMs := 0 })
    else if x = ["out", "x"] then some (.file [7] { mode := 0o644, mtimeMs := 0 })
    else none

/-- A pass that is not refused anything. -/
def passOf (nodes : List (String × Node)) : Pass (Segment ⊕ Bytes) where
  image := { nodes := ExtTreeMap.ofList nodes compare }
  bucket _ := none

/-- A directory with a file. -/
def filledPass : Pass (Segment ⊕ Bytes) :=
  passOf [("/d", .dir (.dir 5)), ("/d/x", .file (.inline [1]) (.file 5))]

/-- The directory is replaced by a symlink, and the file under its path is removed through
that link. -/
theorem symlink_leads_outside :
    besideDisk.entry ["out", "x"] ≠ none ∧
      (Mirror.run named ["m"] (fun _ => [0]) { disk := besideDisk }
        [filledPass, passOf [("/d", .symlink "/out" (.symlink 5))]]).disk.entry ["out", "x"] = none := by
  decide +kernel

theorem prefix_singleton {y : Loc} {c : String} (hy : y <+: [c]) (hne : y ≠ [c]) : y = [] :=
  List.prefix_nil.mp (prefix_concat_of_ne (x := []) hy hne)

theorem placed_besideDisk : Placed ["m"] besideDisk := by
  refine ⟨by simp [Plain], fun y hy hne => ?_⟩
  obtain rfl := prefix_singleton hy hne
  exact ⟨_, rfl, rfl⟩

theorem wf_besideDisk : besideDisk.Wf := by
  refine ⟨⟨_, rfl, rfl⟩, fun x e hx y hy hne => ?_⟩
  have hplace : x = [] ∨ x = ["m"] ∨ x = ["out"] ∨ x = ["out", "x"] := by
    by_contra hnot
    simp only [not_or] at hnot
    simp [besideDisk, hnot] at hx
  rcases hplace with rfl | rfl | rfl | rfl
  · exact absurd (List.prefix_nil.mp hy) hne
  · obtain rfl := prefix_singleton hy hne
    exact ⟨_, rfl, rfl⟩
  · obtain rfl := prefix_singleton hy hne
    exact ⟨_, rfl, rfl⟩
  · have hout : y <+: ["out"] := prefix_concat_of_ne (x := ["out"]) hy hne
    by_cases heq : y = ["out"]
    · exact ⟨_, by rw [heq]; rfl, rfl⟩
    · obtain rfl := prefix_singleton hout heq
      exact ⟨_, rfl, rfl⟩

/-- Without links on the disk and in the image, no path runs through one. -/
theorem Confined.of_unlinked {B : Type} {dir : Loc} {pass : Pass B} {m : Mirror}
    (hdisk : ∀ y, ¬ m.disk.LinkAt y)
    (himage : ∀ path node, pass.image.get path = some node → ¬ node.IsSymlink)
    (hnames : ∀ path content attrs, pass.image.get path = some (.file content attrs) →
      names path ≠ []) : Confined dir pass m := by
  have hnone : ∀ y, ¬ LinkPlace dir pass m.disk y := by
    rintro y (hlink | ⟨path, node, hget, hnode, -⟩)
    · exact hdisk y hlink
    · exact himage path node hget hnode
  exact ⟨fun _ _ y _ _ => hnone y, fun path content attrs hget =>
    ⟨hnames path content attrs hget, hnone _⟩, hnone _, hnone _⟩

theorem unlinked_besideDisk (y : Loc) : ¬ besideDisk.LinkAt y := by
  rintro ⟨e, he, hlink⟩
  have hentry : besideDisk.entry y = some e := he
  rw [besideDisk] at hentry
  dsimp only at hentry
  split at hentry
  · cases hentry
    cases hlink
  · split at hentry
    · cases hentry
      cases hlink
    · cases hentry

theorem get_filledPass {path : String} {node : Node} (h : filledPass.image.get path = some node) :
    (path = "/d" ∧ node = .dir (.dir 5)) ∨
      (path = "/d/x" ∧ node = .file (.inline [1]) (.file 5)) := by
  have hitem : (path, node) ∈ filledPass.image.nodes.toList := mem_toList_nodes.mpr h
  have hlist : filledPass.image.nodes.toList =
      [("/d", .dir (.dir 5)), ("/d/x", .file (.inline [1]) (.file 5))] := by decide +kernel
  rw [hlist] at hitem
  simpa using hitem

/-- A directory with a file is mirrored next to another one. -/
theorem run_confined_filled : (Mirror.run named ["m"] (fun _ => [0]) { disk := besideDisk }
    [filledPass]).disk.entry ["out", "x"] = besideDisk.entry ["out", "x"] := by
  refine run_confined named ["m"] (fun _ => [0]) { disk := besideDisk } wf_besideDisk
    placed_besideDisk [filledPass] (fun earlier pass later heq => ?_) ["out", "x"] (by decide)
  obtain ⟨rfl, rfl⟩ : earlier = [] ∧ pass = filledPass := by
    cases earlier with
    | nil =>
        cases heq
        exact ⟨rfl, rfl⟩
    | cons p earlier => simp at heq
  refine .of_unlinked unlinked_besideDisk (fun path node hget => ?_) fun path content attrs hget => ?_
  · rintro ⟨target, attrs, rfl⟩
    rcases get_filledPass hget with ⟨-, h⟩ | ⟨-, h⟩
    · cases h
    · cases h
  · rcases get_filledPass hget with ⟨-, h⟩ | ⟨rfl, -⟩
    · cases h
    · decide

end Landslide.Fuse
