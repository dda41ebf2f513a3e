import Landslide.Disk

/-!
# What a call changes around a place

What each call does at a clear path, one lemma for each, and `Near`: what a program may
change that works at one place.  It makes directories above the place, removes things
below it, and leaves the rest of the disk alone, but for some places of its own.

`Triple` is the rule set for programs: what holds before, and what holds after in
success and in failure.
-/

namespace Landslide

/-! ## Triples -/

namespace DiskM

variable {C ε ε' α β : Type} {P R : Disk C → Prop} {Q : α → Disk C → Prop}
  {E : Disk C → Prop}

/-- From a disk with `P`, a program ends with `Q`, or fails with `E`. -/
def Triple (P : Disk C → Prop) (m : DiskM C ε α) (Q : α → Disk C → Prop) (E : Disk C → Prop) :
    Prop :=
  ∀ d, P d →
    match m d with
    | (.ok a, d') => Q a d'
    | (.error _, d') => E d'

theorem Triple.of_eq {m : DiskM C ε α} (h : ∀ d, P d → (∃ a d', m d = (.ok a, d') ∧ Q a d') ∨
    ∃ e d', m d = (.error e, d') ∧ E d') : Triple P m Q E := by
  intro d hd
  rcases h d hd with ⟨a, d', hrun, hq⟩ | ⟨e, d', hrun, he⟩
  · rw [hrun]
    exact hq
  · rw [hrun]
    exact he

theorem Triple.cases {m : DiskM C ε α} (h : Triple P m Q E) {d : Disk C} (hd : P d) :
    (∃ a d', m d = (.ok a, d') ∧ Q a d') ∨ ∃ e d', m d = (.error e, d') ∧ E d' := by
  have h := h d hd
  split at h
  · exact .inl ⟨_, _, ‹_›, h⟩
  · exact .inr ⟨_, _, ‹_›, h⟩

theorem Triple.pure {a : α} (h : ∀ d, P d → Q a d) : Triple P (pure a : DiskM C ε α) Q E :=
  fun d hd => h d hd

theorem Triple.bind {m : DiskM C ε α} {f : α → DiskM C ε β} {Q' : β → Disk C → Prop}
    (hm : Triple P m Q E) (hf : ∀ a, Triple (Q a) (f a) Q' E) : Triple P (m >>= f) Q' E := by
  refine .of_eq fun d hd => ?_
  rcases hm.cases hd with ⟨a, d', hrun, hq⟩ | ⟨e, d', hrun, he⟩
  · rw [bind_of_ok hrun]
    exact (hf a).cases hq
  · exact .inr ⟨e, d', bind_of_error hrun f, he⟩

theorem Triple.weaken {P' : Disk C → Prop} {Q' : α → Disk C → Prop} {E' : Disk C → Prop}
    {m : DiskM C ε α} (h : Triple P m Q E) (hP : ∀ d, P' d → P d) (hQ : ∀ a d, Q a d → Q' a d)
    (hE : ∀ d, E d → E' d) : Triple P' m Q' E' := by
  refine .of_eq fun d hd => ?_
  rcases h.cases (hP d hd) with ⟨a, d', hrun, hq⟩ | ⟨e, d', hrun, he⟩
  · exact .inl ⟨a, d', hrun, hQ a d' hq⟩
  · exact .inr ⟨e, d', hrun, hE d' he⟩

theorem Triple.mapError {f : ε → ε'} {m : DiskM C ε α} (h : Triple P m Q E) :
    Triple P (mapError f m) Q E := by
  refine .of_eq fun d hd => ?_
  rw [DiskM.mapError]
  rcases h.cases hd with ⟨a, d', hrun, hq⟩ | ⟨e, d', hrun, he⟩
  · exact .inl ⟨a, d', by rw [hrun], hq⟩
  · exact .inr ⟨f e, d', by rw [hrun], he⟩

/-- A program whose failure does not matter. -/
theorem Triple.attempt {m : DiskM C ε α} (h : Triple P m (fun _ => R) R) :
    Triple P (attempt m : DiskM C ε' Unit) (fun _ => R) E := by
  refine .of_eq fun d hd => .inl ⟨(), _, rfl, ?_⟩
  rcases h.cases hd with ⟨a, d', hrun, hr⟩ | ⟨e, d', hrun, hr⟩
  · rw [hrun]
    exact hr
  · rw [hrun]
    exact hr

end DiskM

namespace Disk

open DiskM

variable {C ε : Type} {d : Disk C} {x : Loc} {fault : Option (Fault C)}

/-! ## Calls at clear paths -/

/-- What stands at a place, attributes aside. -/
inductive View (C : Type) where
  | file (content : C)
  | dir
  | link (target : String)
deriving DecidableEq

def Entry.view : Entry C → View C
  | .file content _ => .file content
  | .dir _ => .dir
  | .link target => .link target

theorem Entry.isDir_iff {e : Entry C} : e.isDir = true ↔ e.view = .dir := by
  cases e <;> simp [isDir, view]

theorem Entry.isLink_iff {e : Entry C} : e.isLink = true ↔ ∃ target, e.view = .link target := by
  cases e <;> simp [isLink, view]

/-- What stands at a place of a disk, attributes aside. -/
def view (d : Disk C) (x : Loc) : Option (View C) := (d.entry x).map Entry.view

theorem dirAt_iff : d.DirAt x ↔ d.view x = some .dir := by
  simp [DirAt, view, Entry.isDir_iff]

theorem linkAt_iff : d.LinkAt x ↔ ∃ target, d.view x = some (.link target) := by
  simp only [LinkAt, view, Entry.isLink_iff, Option.map_eq_some_iff]
  constructor
  · rintro ⟨e, he, target, hview⟩
    exact ⟨target, e, he, hview⟩
  · rintro ⟨target, e, he, hview⟩
    exact ⟨e, he, target, hview⟩

theorem reaches_of_entry (hwf : d.Wf) {e : Entry C} (h : d.entry x = some e) : Reaches d x :=
  hwf.reaches x e h

theorem not_reaches_of_stopsAt {y : Loc} {e : IoError} (hy : y <+: x) (hne : y ≠ x)
    (h : d.StopsAt y e) : ¬ Reaches d x :=
  fun hreach => h.not_dirAt (hreach y hy hne)

/-- What stands at the end of a clear path is found, unless the system refuses. -/
theorem stat_cases {follow : Bool} (fault : Option (Fault C)) (hwf : d.Wf) (hx : Clear d x)
    (hend : follow = false ∨ ¬ d.LinkAt x) :
    (∃ e, stat follow fault x d = (.ok e, d) ∧ d.entry x = some e) ∨
      ∃ err, stat follow fault x d = (.error err, d) ∧ (fault = none → d.entry x = none) := by
  cases fault with
  | some f => exact .inr ⟨.refused, rfl, fun h => by cases h⟩
  | none =>
      rcases resolve_cases follow hx hend with ⟨hok, -⟩ | ⟨y, err, hy, hne, hstop, herr⟩
      · cases hentry : d.entry x with
        | none => exact .inr ⟨.notFound, by simp [stat, hok, hentry], fun _ => rfl⟩
        | some e => exact .inl ⟨e, by simp [stat, hok, hentry], rfl⟩
      · refine .inr ⟨err, by simp [stat, herr], fun _ => ?_⟩
        cases hentry : d.entry x with
        | none => rfl
        | some e =>
            exact absurd (reaches_of_entry hwf hentry) (not_reaches_of_stopsAt hy hne hstop)

/-- Unless a link stands there, `isDir` says whether a directory does. -/
theorem isDir_cases (ε : Type) (fault : Option (Fault C)) (hwf : d.Wf) (hx : Clear d x) :
    ∃ b, (isDir fault x : DiskM C ε Bool) d = (.ok b, d) ∧ (¬ d.LinkAt x →
      (b = true → d.DirAt x) ∧ (fault = none → b = false → ¬ d.DirAt x)) := by
  cases hstat : (stat true fault x d).1 with
  | error err =>
      refine ⟨false, by simp only [isDir, hstat], fun hlink => ⟨fun h => (by cases h), ?_⟩⟩
      rintro hfault - ⟨e, he, -⟩
      rcases stat_cases fault hwf hx (.inr hlink) with ⟨e', hok, -⟩ | ⟨err', -, hnone⟩
      · rw [hok] at hstat
        cases hstat
      · rw [hnone hfault] at he
        cases he
  | ok e =>
      refine ⟨e.isDir, by simp only [isDir, hstat], fun hlink => ?_⟩
      have hentry : d.entry x = some e := by
        rcases stat_cases fault hwf hx (.inr hlink) with ⟨e', hok, he'⟩ | ⟨err', herr, -⟩
        · rw [hok] at hstat
          exact he'.trans (congrArg some (Except.ok.inj hstat))
        · rw [herr] at hstat
          cases hstat
      refine ⟨fun h => ⟨e, hentry, h⟩, ?_⟩
      rintro - hnot ⟨e', he', hdir⟩
      obtain rfl : e = e' := Option.some.inj (hentry.symm.trans he')
      rw [hdir] at hnot
      cases hnot

/-! ## Making directories -/

/-- Directories were made on the way to a place, and nothing else changed. -/
structure Made (x : Loc) (d d' : Disk C) : Prop where
  wf : d'.Wf
  entry : ∀ y, d'.entry y = d.entry y ∨ (y <+: x ∧ d.entry y = none ∧ d'.DirAt y)

theorem Made.refl (hwf : d.Wf) (x : Loc) : Made x d d := ⟨hwf, fun _ => .inl rfl⟩

theorem Made.dirAt {d' : Disk C} (h : Made x d d') {y : Loc} (hy : d.DirAt y) : d'.DirAt y := by
  rcases h.entry y with heq | ⟨-, -, hdir⟩
  · rwa [DirAt, heq]
  · exact hdir

theorem Made.linkAt {d' : Disk C} (h : Made x d d') {y : Loc} (hy : d'.LinkAt y) :
    d.LinkAt y := by
  rcases h.entry y with heq | ⟨-, -, hdir⟩
  · rwa [LinkAt, heq] at hy
  · exact absurd hy (not_linkAt_of_dirAt hdir)

theorem Made.trans {d' d'' : Disk C} (h : Made x d d') (h' : Made x d' d'') : Made x d d'' := by
  refine ⟨h'.wf, fun y => ?_⟩
  rcases h.entry y with heq | ⟨hy, hnone, hdir⟩
  · rw [← heq]
    exact h'.entry y
  · exact .inr ⟨hy, hnone, h'.dirAt hdir⟩

theorem Made.mono {d' : Disk C} {z : Loc} (h : Made x d d') (hx : x <+: z) : Made z d d' :=
  ⟨h.wf, fun y => (h.entry y).imp_right fun hy => ⟨hy.1.trans hx, hy.2⟩⟩

/-- Something that is no directory stands on the way to a place. -/
def Blocked (d : Disk C) (x : Loc) : Prop :=
  ∃ y e, y <+: x ∧ d.entry y = some e ∧ e.isDir = false

/-- The outcomes of making one directory. -/
theorem mkdir_cases (fault : Option (Fault C)) (attr : Attr) (hx : Clear d x) :
    (mkdir fault attr x d = (.ok (), d.set x (some (.dir attr))) ∧ d.entry x = none ∧
        Reaches d x) ∨
      (mkdir fault attr x d = (.error .notFound, d) ∧ ¬ Reaches d x) ∨
      ∃ e, mkdir fault attr x d = (.error e, d) ∧ e ≠ .notFound ∧
        (fault = none → Blocked d x ∨ d.DirAt x) := by
  by_cases hfault : refuses fault x = true
  · refine .inr (.inr ⟨.refused, by rw [mkdir, if_pos hfault], by decide, ?_⟩)
    rintro rfl
    cases hfault
  · rcases resolve_cases false hx (.inl rfl) with ⟨hok, hreach⟩ | ⟨y, e, hy, hne, hstop, herr⟩
    · cases hentry : d.entry x with
      | none => exact .inl ⟨by simp [mkdir, hfault, hok, hentry], rfl, hreach⟩
      | some e =>
          refine .inr (.inr ⟨.alreadyExists, by simp [mkdir, hfault, hok, hentry], by decide, ?_⟩)
          intro _
          cases hdir : e.isDir with
          | true => exact .inr ⟨e, hentry, hdir⟩
          | false => exact .inl ⟨x, e, List.prefix_rfl, hentry, hdir⟩
    · rcases hstop with ⟨hnone, rfl⟩ | ⟨entry, hentry, hnot, rfl⟩
      · refine .inr (.inl ⟨by simp [mkdir, hfault, herr], ?_⟩)
        exact not_reaches_of_stopsAt hy hne (.inl ⟨hnone, rfl⟩)
      · refine .inr (.inr ⟨.notADirectory, by simp [mkdir, hfault, herr], by decide, ?_⟩)
        exact fun _ => .inl ⟨y, entry, hy, hentry, hnot⟩

theorem blocked_of_linkAt (h : d.LinkAt x) : Blocked d x := by
  obtain ⟨e, he, hlink⟩ := h
  refine ⟨x, e, List.prefix_rfl, he, ?_⟩
  cases e with
  | file content attr => rfl
  | dir attr => cases hlink
  | link target => rfl

/-- What making a directory and those above it comes to. -/
structure MadeAll (fault : Option (Fault C)) (x : Loc) (d : Disk C)
    (out : Except IoError Unit × Disk C) : Prop where
  made : Made x d out.2
  ok : out.1 = .ok () → ¬ d.LinkAt x → out.2.DirAt x
  error : out.1 ≠ .ok () → fault = none → Blocked out.2 x
  same : out.1 ≠ .ok () → out.2.entry x = d.entry x

/-- A directory that could not be made may be there all the same. -/
theorem orDir_madeAll (hwf : d.Wf) (hx : Clear d x) (e : IoError)
    (h : fault = none → Blocked d x ∨ d.DirAt x) : MadeAll fault x d (orDir x e d) := by
  obtain ⟨dir, hrun, hdir⟩ := isDir_cases IoError none hwf hx
  have horDir : orDir x e d = (if dir then pure () else DiskM.fail e : DiskM C IoError Unit) d := by
    exact bind_of_ok hrun _
  cases dir with
  | true =>
      rw [horDir]
      exact ⟨.refl hwf x, fun _ hlink => (hdir hlink).1 rfl, fun hne => absurd rfl hne, fun _ => rfl⟩
  | false =>
      rw [horDir]
      refine ⟨.refl hwf x, fun h => (by cases h), fun _ hfault => ?_, fun _ => rfl⟩
      by_cases hlink : d.LinkAt x
      · exact blocked_of_linkAt hlink
      · exact (h hfault).resolve_right ((hdir hlink).2 rfl rfl)

theorem made_mkdir (hwf : d.Wf) (hnone : d.entry x = none) (hreach : Reaches d x) (attr : Attr) :
    Made x d (d.set x (some (.dir attr))) := by
  refine ⟨hwf.set_dir hreach attr, fun y => ?_⟩
  by_cases hy : y = x
  · subst hy
    exact .inr ⟨List.prefix_rfl, hnone, _, by rw [entry_set, if_pos rfl], rfl⟩
  · exact .inl (by rw [entry_set, if_neg hy])

theorem dirAt_set_dir (d : Disk C) (x : Loc) (attr : Attr) :
    (d.set x (some (.dir attr))).DirAt x :=
  ⟨_, by rw [entry_set, if_pos rfl], rfl⟩

/-- A path is clear when the directory it lies in is there. -/
theorem Clear.of_dirAt {c : String} (hplain : Plain (x ++ [c])) (hwf : d.Wf) (hdir : d.DirAt x) :
    Clear d (x ++ [c]) ∧ Reaches d (x ++ [c]) := by
  have hreach : Reaches d (x ++ [c]) := by
    intro y hy hne
    by_cases heq : y = x
    · exact heq ▸ hdir
    · obtain ⟨e, he, -⟩ := hdir
      exact hwf.reaches x e he y (prefix_concat_of_ne hy hne) heq
  exact ⟨⟨hplain, fun y hy hne => not_linkAt_of_dirAt (hreach y hy hne)⟩, hreach⟩

theorem Clear.above (hx : Clear d x) {y : Loc} (hy : y <+: x) : Clear d y where
  plain := fun c hc => hx.plain c (hy.subset hc)
  unlinked := by
    intro z hz hne
    refine hx.unlinked z (hz.trans hy) ?_
    rintro rfl
    exact hne (hz.eq_of_length_le hy.length_le)

/-- Directories are made from the top. -/
theorem createDirs_madeAll (fault : Option (Fault C)) (attr : Attr) :
    ∀ {above : List String} {d : Disk C} (_ : d.Wf) (_ : Clear d above.reverse),
      MadeAll fault above.reverse d (createDirs fault attr above d)
  | [], d, hwf, hx => by
      rw [createDirs]
      rcases mkdir_cases fault attr hx with ⟨-, hnone, -⟩ | ⟨-, hnot⟩ | ⟨e, hrun, -, hb⟩
      · obtain ⟨e, he, -⟩ := hwf.root
        rw [List.reverse_nil, he] at hnone
        cases hnone
      · exact absurd (fun y hy hne => absurd (List.prefix_nil.mp hy) hne) hnot
      · rw [List.reverse_nil] at hrun
        rw [handle_of_error hrun]
        exact orDir_madeAll hwf hx e hb
  | c :: above, d, hwf, hx => by
      rw [createDirs]
      rw [List.reverse_cons] at hx ⊢
      have hparent : above.reverse <+: above.reverse ++ [c] := List.prefix_append _ _
      have hne : above.reverse ≠ above.reverse ++ [c] := by simp
      rcases mkdir_cases fault attr hx with ⟨hrun, hnone, hreach⟩ | ⟨hrun, -⟩ | ⟨e, hrun, hnf, hb⟩
      · rw [handle_of_ok hrun]
        exact ⟨made_mkdir hwf hnone hreach attr, fun _ _ => dirAt_set_dir d _ attr,
          fun h => absurd rfl h, fun h => absurd rfl h⟩
      · rw [handle_of_error hrun, if_pos rfl]
        have ih := createDirs_madeAll fault attr hwf (hx.above hparent)
        cases hout : createDirs fault attr above d with
        | mk r d' =>
            rw [hout] at ih
            have hmade : Made (above.reverse ++ [c]) d d' := ih.made.mono hparent
            have hsame : d'.entry (above.reverse ++ [c]) = d.entry (above.reverse ++ [c]) := by
              rcases ih.made.entry (above.reverse ++ [c]) with heq | ⟨hx, -⟩
              · exact heq
              · exact absurd (hparent.eq_of_length_le hx.length_le) hne
            cases r with
            | error e =>
                rw [bind_of_error hout]
                refine ⟨hmade, fun h => (by cases h), fun h hfault => ?_, fun _ => hsame⟩
                obtain ⟨y, e, hy, hentry⟩ := ih.error h hfault
                exact ⟨y, e, hy.trans hparent, hentry⟩
            | ok u =>
                rw [bind_of_ok hout]
                have hdir : d'.DirAt above.reverse := ih.ok rfl (hx.unlinked _ hparent hne)
                obtain ⟨hclear, hreach⟩ := Clear.of_dirAt hx.plain hmade.wf hdir
                rcases mkdir_cases fault attr hclear with
                  ⟨hrun, hnone, -⟩ | ⟨-, hnot⟩ | ⟨e, hrun, -, hb⟩
                · rw [handle_of_ok hrun]
                  exact ⟨hmade.trans (made_mkdir hmade.wf hnone hreach attr),
                    fun _ _ => dirAt_set_dir d' _ attr, fun h => absurd rfl h,
                    fun h => absurd rfl h⟩
                · exact absurd hreach hnot
                · rw [handle_of_error hrun]
                  have hor := orDir_madeAll hmade.wf hclear e hb
                  exact ⟨hmade.trans hor.made,
                    fun h hlink => hor.ok h fun h => hlink (hmade.linkAt h), hor.error,
                    fun h => (hor.same h).trans hsame⟩
      · rw [handle_of_error hrun, if_neg hnf]
        exact orDir_madeAll hwf hx e hb

theorem createDirAll_madeAll (fault : Option (Fault C)) (attr : Attr) (hwf : d.Wf)
    (hx : Clear d x) : MadeAll fault x d (createDirAll fault attr x d) := by
  have hx' : Clear d x.reverse.reverse := by rwa [List.reverse_reverse]
  have h := createDirs_madeAll fault attr hwf hx'
  rwa [List.reverse_reverse] at h

/-! ## Changing one place -/

theorem removeFile_cases (fault : Option (Fault C)) (hwf : d.Wf) (hx : Clear d x) :
    (∃ e, removeFile fault x d = (.error e, d) ∧
        (fault = none → d.entry x = none ∨ d.DirAt x)) ∨
      (removeFile fault x d = (.ok (), d.set x none) ∧ ¬ d.DirAt x ∧ Reaches d x) := by
  cases fault with
  | some f => exact .inl ⟨.refused, rfl, fun h => (by cases h)⟩
  | none =>
      rcases resolve_cases false hx (.inl rfl) with ⟨hok, hreach⟩ | ⟨y, err, hy, hne, hstop, herr⟩
      · cases hentry : d.entry x with
        | none => exact .inl ⟨.notFound, by simp [removeFile, hok, hentry], fun _ => .inl rfl⟩
        | some e =>
            cases e with
            | dir attr =>
                exact .inl ⟨.isADirectory, by simp [removeFile, hok, hentry],
                  fun _ => .inr ⟨_, hentry, rfl⟩⟩
            | file content attr | link target =>
                refine .inr ⟨by simp [removeFile, hok, hentry], ?_, hreach⟩
                simp [DirAt, hentry, Entry.isDir]
      · refine .inl ⟨err, by simp [removeFile, herr], fun _ => .inl ?_⟩
        cases hentry : d.entry x with
        | none => rfl
        | some e =>
            exact absurd (reaches_of_entry hwf hentry) (not_reaches_of_stopsAt hy hne hstop)

theorem removeDirAll_cases (fault : Option (Fault C)) (hwf : d.Wf) (hx : Clear d x) :
    (∃ r, removeDirAll fault x d = (r, d) ∧ (fault = none → d.entry x = none)) ∨
      (∃ r, removeDirAll fault x d = (r, d.set x none) ∧ ¬ d.DirAt x ∧ Reaches d x) ∨
      ∃ r kept, removeDirAll fault x d = (r, d.clear kept x) ∧ (fault = none → kept = []) := by
  rcases resolve_cases false hx (.inl rfl) with ⟨hok, hreach⟩ | ⟨y, err, hy, hne, hstop, herr⟩
  · cases hentry : d.entry x with
    | none => exact .inl ⟨.error .notFound, by simp [removeDirAll, hok, hentry], fun _ => rfl⟩
    | some e =>
        cases e with
        | dir attr =>
            cases fault with
            | none =>
                exact .inr (.inr ⟨.ok (), [], by simp [removeDirAll, hok, hentry], fun _ => rfl⟩)
            | some f =>
                exact .inr (.inr ⟨.error .refused, x :: f.places,
                  by simp [removeDirAll, hok, hentry], fun h => (by cases h)⟩)
        | file content attr | link target =>
            have hdir : ¬ d.DirAt x := by simp [DirAt, hentry, Entry.isDir]
            cases fault with
            | none =>
                exact .inr (.inl ⟨.ok (), by simp [removeDirAll, hok, hentry], hdir, hreach⟩)
            | some f =>
                exact .inl ⟨.error .refused, by simp [removeDirAll, hok, hentry],
                  fun h => (by cases h)⟩
  · refine .inl ⟨.error err, by simp [removeDirAll, herr], fun _ => ?_⟩
    cases hentry : d.entry x with
    | none => rfl
    | some e => exact absurd (reaches_of_entry hwf hentry) (not_reaches_of_stopsAt hy hne hstop)

theorem symlink_cases (fault : Option (Fault C)) (target : String) (hx : Clear d x) :
    (∃ e, symlink fault target x d = (.error e, d)) ∨
      (symlink fault target x d = (.ok (), d.set x (some (.link target))) ∧
        d.entry x = none ∧ Reaches d x) := by
  cases fault with
  | some f => exact .inl ⟨.refused, rfl⟩
  | none =>
      by_cases htarget : target = ""
      · exact .inl ⟨.notFound, by simp [symlink, htarget]⟩
      · rcases resolve_cases false hx (.inl rfl) with ⟨hok, hreach⟩ | ⟨y, err, -, -, -, herr⟩
        · cases hentry : d.entry x with
          | none => exact .inr ⟨by simp [symlink, htarget, hok, hentry], rfl, hreach⟩
          | some e => exact .inl ⟨.alreadyExists, by simp [symlink, htarget, hok, hentry]⟩
        · exact .inl ⟨err, by simp [symlink, htarget, herr]⟩

theorem write_cases (fault : Option (Fault C)) (attr : Attr) (content : C) (hx : Clear d x)
    (hlink : ¬ d.LinkAt x) :
    (∃ e, write fault attr x content d = (.error e, d)) ∨
      (¬ d.DirAt x ∧ Reaches d x ∧ ∃ a,
        write fault attr x content d = (.ok (), d.set x (some (.file content a))) ∨
          ∃ e part, write fault attr x content d = (.error e, d.set x (some (.file part a)))) := by
  rcases resolve_cases true hx (.inr hlink) with ⟨hok, hreach⟩ | ⟨y, err, -, -, -, herr⟩
  · by_cases hdir : d.DirAt x
    · exact .inl ⟨.isADirectory, by simp [write, hok, dirAt_iff_any.mp hdir]⟩
    · have hany := mt dirAt_iff_any.mpr hdir
      cases fault with
      | none => exact .inr ⟨hdir, hreach, _, .inl (by simp only [write, hok, hany]; rfl)⟩
      | some f =>
          cases hpart : f.part with
          | none => exact .inl ⟨.refused, by simp [write, hok, hany, hpart]⟩
          | some part =>
              exact .inr ⟨hdir, hreach, _, .inr ⟨.refused, part,
                by simp only [write, hok, hany, hpart]; rfl⟩⟩
  · exact .inl ⟨err, by simp [write, herr]⟩

theorem rename_cases (fault : Option (Fault C)) {y : Loc} (hx : Clear d x) (hy : Clear d y) :
    (∃ e, rename fault x y d = (.error e, d)) ∨
      ∃ e, rename fault x y d = (.ok (), (d.set x none).set y (some e)) ∧ d.entry x = some e ∧
        e.isDir = false ∧ ¬ d.DirAt y ∧ Reaches d x ∧ Reaches d y := by
  cases fault with
  | some f => exact .inl ⟨.refused, rfl⟩
  | none =>
      rcases resolve_cases false hx (.inl rfl) with ⟨hokx, hreachx⟩ | ⟨z, err, -, -, -, herr⟩
      · rcases resolve_cases false hy (.inl rfl) with ⟨hoky, hreachy⟩ | ⟨z, err, -, -, -, herr⟩
        · cases hentry : d.entry x with
          | none => exact .inl ⟨.notFound, by simp [rename, hokx, hoky, hentry]⟩
          | some e =>
              by_cases hdir : d.DirAt y
              · obtain ⟨e', he', his⟩ := hdir
                cases e' with
                | dir attr =>
                    refine .inl ⟨.isADirectory, ?_⟩
                    cases e <;> simp [rename, hokx, hoky, hentry, he']
                | file content attr | link target => cases his
              · cases e with
                | dir attr => exact .inl ⟨.isADirectory, by simp [rename, hokx, hoky, hentry]⟩
                | file content attr | link target =>
                    refine .inr ⟨_, ?_, rfl, rfl, hdir, hreachx, hreachy⟩
                    cases hentryy : d.entry y with
                    | none => simp [rename, hokx, hoky, hentry, hentryy]
                    | some e' =>
                        cases e' with
                        | dir attr' => exact absurd ⟨_, hentryy, rfl⟩ hdir
                        | file content' attr' | link target' =>
                            simp [rename, hokx, hoky, hentry, hentryy]
        · exact .inl ⟨err, by simp [rename, hokx, herr]⟩
      · exact .inl ⟨err, by simp [rename, herr]⟩

theorem setAttr_cases (fault : Option (Fault C)) (change : Attr → Attr) (hx : Clear d x)
    (hlink : ¬ d.LinkAt x) :
    (∃ e, setAttr fault change x d = (.error e, d)) ∨
      ∃ e e', setAttr fault change x d = (.ok (), d.set x (some e')) ∧ d.entry x = some e ∧
        e'.view = e.view ∧ Reaches d x := by
  cases fault with
  | some f => exact .inl ⟨.refused, rfl⟩
  | none =>
      rcases resolve_cases true hx (.inr hlink) with ⟨hok, hreach⟩ | ⟨y, err, -, -, -, herr⟩
      · cases hentry : d.entry x with
        | none => exact .inl ⟨.notFound, by simp [setAttr, hok, hentry]⟩
        | some e =>
            cases e with
            | file content attr =>
                exact .inr ⟨_, .file content (change attr), by simp [setAttr, hok, hentry], rfl,
                  rfl, hreach⟩
            | dir attr =>
                exact .inr ⟨_, .dir (change attr), by simp [setAttr, hok, hentry], rfl, rfl,
                  hreach⟩
            | link target => exact .inl ⟨.notFound, by simp [setAttr, hok, hentry]⟩
      · exact .inl ⟨err, by simp [setAttr, herr]⟩

/-! ## Around a place -/

/-- A program that works at the place `x` made directories above it, removed things below it,
and left the rest of the disk alone, but for `x` itself and some places of its own.  Only
at `x` can it have made a link, if it may. -/
structure Near (x : Loc) (own : Loc → Prop) (linked : Prop) (d d' : Disk C) : Prop where
  wf : d'.Wf
  entry : ∀ y, y ≠ x → ¬ own y → d'.entry y = d.entry y ∨
    (y <+: x ∧ d.entry y = none ∧ d'.DirAt y) ∨ (x <+: y ∧ d'.entry y = none)
  link : ∀ y, d'.LinkAt y → d.LinkAt y ∨ (linked ∧ y = x)

/-- And what stood at `x` is still there, or gone. -/
structure Partway (x : Loc) (own : Loc → Prop) (linked : Prop) (d d' : Disk C) : Prop
    extends Near x own linked d d' where
  place : d'.entry x = none ∨ d'.entry x = d.entry x

variable {own : Loc → Prop} {linked : Prop} {d' d'' : Disk C}

theorem Near.trans (h : Near x own linked d d') (h' : Near x own linked d' d'') :
    Near x own linked d d'' := by
  refine ⟨h'.wf, fun y hne hown => ?_, fun y hy => ?_⟩
  · rcases h'.entry y hne hown with heq | ⟨hy, hnone, hdir⟩ | hgone
    · rw [DirAt, heq]
      exact h.entry y hne hown
    · rcases h.entry y hne hown with heq | ⟨-, -, e, he, -⟩ | ⟨hx, -⟩
      · exact .inr (.inl ⟨hy, heq ▸ hnone, hdir⟩)
      · rw [hnone] at he
        cases he
      · exact absurd (hy.eq_of_length_le hx.length_le) hne
    · exact .inr (.inr hgone)
  · rcases h'.link y hy with hlink | hlink
    · exact h.link y hlink
    · exact .inr hlink

theorem Partway.refl (hwf : d.Wf) : Partway x own linked d d :=
  ⟨⟨hwf, fun _ _ _ => .inl rfl, fun _ h => .inl h⟩, .inr rfl⟩

theorem Partway.trans (h : Partway x own linked d d') (h' : Partway x own linked d' d'') :
    Partway x own linked d d'' := by
  refine ⟨h.toNear.trans h'.toNear, ?_⟩
  rcases h'.place with hnone | heq
  · exact .inl hnone
  · rw [heq]
    exact h.place

/-- The way to a place no longer than `x` stays clear. -/
theorem Near.clear (h : Near x own linked d d') {z : Loc} (hz : Clear d z)
    (hlen : z.length ≤ x.length) : Clear d' z := by
  refine ⟨hz.plain, fun y hy hne hlink => ?_⟩
  rcases h.link y hlink with hlink | ⟨-, rfl⟩
  · exact hz.unlinked y hy hne hlink
  · exact hne (hy.eq_of_length_le hlen)

theorem Near.not_linkAt (h : Near x own linked d d') {z : Loc} (hz : ¬ d.LinkAt z)
    (hne : linked → z ≠ x) : ¬ d'.LinkAt z := by
  intro hlink
  rcases h.link z hlink with hlink | ⟨hlinked, heq⟩
  · exact hz hlink
  · exact hne hlinked heq

/-- Directories made above a place. -/
theorem Made.partway {z : Loc} (h : Made z d d') (hz : z <+: x) (hne : z ≠ x) :
    Partway x own linked d d' := by
  refine ⟨⟨h.wf, fun y _ _ => ?_, fun _ hy => .inl (h.linkAt hy)⟩, .inr ?_⟩
  · rcases h.entry y with heq | ⟨hy, hmade⟩
    · exact .inl heq
    · exact .inr (.inl ⟨hy.trans hz, hmade⟩)
  · rcases h.entry x with heq | ⟨hx, -⟩
    · exact heq
    · exact absurd (hz.eq_of_length_le hx.length_le) hne

/-- Directories made on the way to a place, and at the place itself. -/
theorem Made.near (h : Made x d d') : Near x own linked d d' where
  wf := h.wf
  entry y _ _ := (h.entry y).imp_right .inl
  link _ hy := .inl (h.linkAt hy)

theorem linkAt_set {x y : Loc} {e : Option (Entry C)} (h : (d.set x e).LinkAt y) :
    (y = x ∧ ∃ entry, e = some entry ∧ entry.isLink = true) ∨ (y ≠ x ∧ d.LinkAt y) := by
  obtain ⟨entry, hentry, hlink⟩ := h
  rw [entry_set] at hentry
  split at hentry
  · exact .inl ⟨‹_›, entry, hentry, hlink⟩
  · exact .inr ⟨‹_›, entry, hentry, hlink⟩

/-- A place is filled or emptied. -/
theorem near_set {e : Option (Entry C)} (hwf : (d.set x e).Wf)
    (he : ∀ entry, e = some entry → entry.isLink = true → linked) :
    Near x own linked d (d.set x e) := by
  refine ⟨hwf, fun y hne _ => .inl (by rw [entry_set, if_neg hne]), fun y hy => ?_⟩
  rcases linkAt_set hy with ⟨rfl, entry, rfl, hlink⟩ | ⟨-, hlink⟩
  · exact .inr ⟨he entry rfl hlink, rfl⟩
  · exact .inl hlink

theorem partway_set_none (hwf : d.Wf) (hdir : ¬ d.DirAt x) (hreach : Reaches d x) :
    Partway x own linked d (d.set x none) where
  toNear := near_set (hwf.set hdir hreach none) (by simp)
  place := .inl (by rw [entry_set, if_pos rfl])

/-- What is below a place is removed, with the place or up to what is kept. -/
theorem partway_clear (hwf : d.Wf) (kept : List Loc) :
    Partway x own linked d (d.clear kept x) := by
  refine ⟨⟨hwf.clear kept x, fun y _ _ => ?_, fun y hy => .inl ?_⟩, ?_⟩
  · rw [entry_clear]
    split
    · next hgone => exact .inr (.inr ⟨hgone.1, rfl⟩)
    · exact .inl rfl
  · obtain ⟨e, he, hlink⟩ := hy
    rw [entry_clear] at he
    split at he
    · cases he
    · exact ⟨e, he, hlink⟩
  · rw [entry_clear]
    split
    · exact .inl rfl
    · exact .inr rfl

/-- What stands at a place gets other attributes. -/
theorem Wf.set_view (hwf : d.Wf) {e e' : Entry C} (he : d.entry x = some e)
    (hview : e'.view = e.view) : (d.set x (some e')).Wf := by
  cases e' with
  | dir attr => exact hwf.set_dir (hwf.reaches x e he) attr
  | file content attr | link target =>
      refine hwf.set ?_ (hwf.reaches x e he) _
      rw [dirAt_iff, view, he, Option.map_some, ← hview]
      simp [Entry.view]

theorem view_set_self (d : Disk C) (x : Loc) (e : Entry C) :
    (d.set x (some e)).view x = some e.view := by
  rw [view, entry_set, if_pos rfl]
  rfl

theorem setAttr_near (own : Loc → Prop) (linked : Prop) (fault : Option (Fault C))
    (change : Attr → Attr) (hwf : d.Wf) (hx : Clear d x) (hlink : ¬ d.LinkAt x) :
    ∃ r d', setAttr fault change x d = (r, d') ∧ Near x own linked d d' ∧ ∀ y, d'.view y = d.view y := by
  rcases setAttr_cases fault change hx hlink with ⟨e, herr⟩ | ⟨e, e', hok, he, hview, -⟩
  · exact ⟨_, d, herr, (Partway.refl hwf).toNear, fun _ => rfl⟩
  · refine ⟨_, _, hok, near_set (hwf.set_view he hview) fun entry hentry hislink => ?_, fun y => ?_⟩
    · cases hentry
      obtain ⟨target, htarget⟩ := Entry.isLink_iff.mp hislink
      exact absurd ⟨e, he, Entry.isLink_iff.mpr ⟨target, hview ▸ htarget⟩⟩ hlink
    · by_cases hy : y = x
      · rw [hy, view_set_self, view, he, hview]
        rfl
      · rw [view, view, entry_set, if_neg hy]

end Disk

end Landslide
