import Mathlib.Data.List.Infix
import Mathlib.Logic.Function.Basic

/-!
# Disks with symbolic links

A disk is a tree of files, directories and symbolic links, and a call of the system
names a place by a path.  The path is walked from the root on: a link on the way is
followed, and a link at its end when the call follows links (`walk`).

A path is `Clear` when no link stands on the way.  Such a path leads to the place that
it spells, or nowhere (`resolve_clear`).  So what a call does at a clear path is said
by one lemma for each call, and `Triple` composes them.

The system may refuse any call, or stop a recursive removal or a write halfway.  How
it does is the `Fault` argument of a call.
-/

namespace Landslide

namespace Disk

/-- A place on a disk: the names from the root on. -/
abbrev Loc := List String

structure Attr where
  mode : UInt32
  mtimeMs : Int
deriving DecidableEq

inductive Entry (C : Type) where
  | file (content : C) (attr : Attr)
  | dir (attr : Attr)
  | link (target : String)
deriving DecidableEq

inductive IoError where
  | notFound
  | notADirectory
  | alreadyExists
  | isADirectory
  | loop
  | refused
deriving DecidableEq

/-- How a call fails that the system refuses: which of the places are not made or not
removed, and what is left in the file. -/
structure Fault (C : Type) where
  places : List Loc := []
  part : Option C := none

end Disk

/-- What stands at each place. -/
structure Disk (C : Type) where
  entry : Disk.Loc → Option (Disk.Entry C)

namespace Disk

variable {C α β : Type}

def set (d : Disk C) (x : Loc) (e : Option (Entry C)) : Disk C := ⟨Function.update d.entry x e⟩

@[simp] theorem entry_set (d : Disk C) (x y : Loc) (e : Option (Entry C)) :
    (d.set x e).entry y = if y = x then e else d.entry y :=
  Function.update_apply d.entry x e y

def Entry.isDir : Entry C → Bool
  | .dir _ => true
  | _ => false

def Entry.isLink : Entry C → Bool
  | .link _ => true
  | _ => false

/-- A directory stands at a place. -/
def DirAt (d : Disk C) (x : Loc) : Prop := ∃ e, d.entry x = some e ∧ e.isDir = true

/-- A link stands at a place. -/
def LinkAt (d : Disk C) (x : Loc) : Prop := ∃ e, d.entry x = some e ∧ e.isLink = true

/-! ## Paths -/

/-- The parts of a path between slashes. -/
def parts (path : String) : List String := (path.toList.splitOn '/').map String.ofList

/-- Walks a path from `cur` on.  A link is handed to `jump`, with what is left to walk. -/
def walkWith (d : Disk C) (follow : Bool) (jump : Loc → List String → Except IoError Loc) :
    Loc → List String → Except IoError Loc
  | cur, [] => .ok cur
  | cur, c :: rest =>
      match d.entry cur with
      | none => .error .notFound
      | some (.dir _) =>
          if c = "" ∨ c = "." then walkWith d follow jump cur rest
          else if c = ".." then walkWith d follow jump cur.dropLast rest
          else
            match d.entry (cur ++ [c]) with
            | some (.link target) =>
                if rest = [] ∧ follow = false then .ok (cur ++ [c])
                else jump (if target.toList.head? = some '/' then [] else cur) (parts target ++ rest)
            | _ => walkWith d follow jump (cur ++ [c]) rest
      | some _ => .error .notADirectory

/-- Walks a path, over so many links at most. -/
def walk (d : Disk C) (follow : Bool) : Nat → Loc → List String → Except IoError Loc
  | 0 => walkWith d follow fun _ _ => .error .loop
  | links + 1 => walkWith d follow (walk d follow links)

/-- The place that a path leads to. -/
def resolve (d : Disk C) (follow : Bool) (path : Loc) : Except IoError Loc :=
  walk d follow 40 [] path

end Disk

/-! ## Calls -/

/-- A program over a disk that may fail. -/
def DiskM (C ε α : Type) : Type := Disk C → Except ε α × Disk C

namespace DiskM

variable {C ε ε' α β : Type}

def bind (m : DiskM C ε α) (f : α → DiskM C ε β) : DiskM C ε β := fun d =>
  match m d with
  | (.ok a, d) => f a d
  | (.error e, d) => (.error e, d)

instance : Monad (DiskM C ε) where
  pure a := fun d => (.ok a, d)
  bind := bind

def fail (e : ε) : DiskM C ε α := fun d => (.error e, d)

def mapError (f : ε → ε') (m : DiskM C ε α) : DiskM C ε' α := fun d =>
  match m d with
  | (.ok a, d) => (.ok a, d)
  | (.error e, d) => (.error (f e), d)

/-- Goes on with `f` where `m` fails. -/
def handle (m : DiskM C ε α) (f : ε → DiskM C ε α) : DiskM C ε α := fun d =>
  match m d with
  | (.ok a, d) => (.ok a, d)
  | (.error e, d) => f e d

/-- Goes on whether `m` fails or not. -/
def attempt (m : DiskM C ε α) : DiskM C ε' Unit := fun d => (.ok (), (m d).2)

section

variable {m : DiskM C ε α} {d d' : Disk C}

theorem bind_of_ok {a : α} (h : m d = (.ok a, d')) (f : α → DiskM C ε β) :
    (m >>= f) d = f a d' := by
  change bind m f d = _
  rw [bind, h]

theorem bind_of_error {e : ε} (h : m d = (.error e, d')) (f : α → DiskM C ε β) :
    (m >>= f) d = (.error e, d') := by
  change bind m f d = _
  rw [bind, h]

theorem handle_of_ok {a : α} (h : m d = (.ok a, d')) (f : ε → DiskM C ε α) :
    m.handle f d = (.ok a, d') := by
  rw [handle, h]

theorem handle_of_error {e : ε} (h : m d = (.error e, d')) (f : ε → DiskM C ε α) :
    m.handle f d = f e d' := by
  rw [handle, h]

end

end DiskM

namespace Disk

variable {C : Type}

/-- What stands at the end of a path. -/
def stat (follow : Bool) (fault : Option (Fault C)) (path : Loc) : DiskM C IoError (Entry C) :=
  fun d =>
    if fault.isSome then (.error .refused, d)
    else
      match d.resolve follow path with
      | .error e => (.error e, d)
      | .ok x => ((d.entry x).elim (.error .notFound) .ok, d)

def symlinkMetadata (fault : Option (Fault C)) (path : Loc) : DiskM C IoError (Entry C) :=
  stat false fault path

/-- Whether a path leads to a directory. -/
def isDir {ε : Type} (fault : Option (Fault C)) (path : Loc) : DiskM C ε Bool := fun d =>
  match (stat true fault path d).1 with
  | .ok e => (.ok e.isDir, d)
  | .error _ => (.ok false, d)

/-- Whether a call is refused at a place. -/
def refuses (fault : Option (Fault C)) (x : Loc) : Bool :=
  match fault with
  | some f => f.places.contains x
  | none => false

def mkdir (fault : Option (Fault C)) (attr : Attr) (path : Loc) : DiskM C IoError Unit := fun d =>
  if refuses fault path then (.error .refused, d)
  else
    match d.resolve false path with
    | .error e => (.error e, d)
    | .ok x =>
        match d.entry x with
        | some _ => (.error .alreadyExists, d)
        | none => (.ok (), d.set x (some (.dir attr)))

/-- The outcome of `create_dir_all` where the directory was not made. -/
def orDir (path : Loc) (e : IoError) : DiskM C IoError Unit := do
  let dir ← isDir none path
  if dir then pure () else DiskM.fail e

/-- Makes the directory of a path, given in reverse, and those above it. -/
def createDirs (fault : Option (Fault C)) (attr : Attr) : List String → DiskM C IoError Unit
  | [] => (mkdir fault attr []).handle (orDir [])
  | c :: above =>
      (mkdir fault attr (above.reverse ++ [c])).handle fun e =>
        if e = .notFound then do
          createDirs fault attr above
          (mkdir fault attr (above.reverse ++ [c])).handle (orDir (above.reverse ++ [c]))
        else orDir (above.reverse ++ [c]) e

def createDirAll (fault : Option (Fault C)) (attr : Attr) (path : Loc) : DiskM C IoError Unit :=
  createDirs fault attr path.reverse

/-- A disk without a place and what lies below it, up to what is not removed and what
stands above that. -/
def clear (d : Disk C) (kept : List Loc) (x : Loc) : Disk C :=
  ⟨fun y => if x.isPrefixOf y ∧ y ≠ [] ∧ ¬ kept.any y.isPrefixOf then none else d.entry y⟩

def removeDirAll (fault : Option (Fault C)) (path : Loc) : DiskM C IoError Unit := fun d =>
  match d.resolve false path with
  | .error e => (.error e, d)
  | .ok x =>
      match d.entry x with
      | none => (.error .notFound, d)
      | some (.dir _) =>
          match fault with
          | none => (.ok (), d.clear [] x)
          | some f => (.error .refused, d.clear (x :: f.places) x)
      | some _ =>
          match fault with
          | none => (.ok (), d.set x none)
          | some _ => (.error .refused, d)

def removeFile (fault : Option (Fault C)) (path : Loc) : DiskM C IoError Unit := fun d =>
  if fault.isSome then (.error .refused, d)
  else
    match d.resolve false path with
    | .error e => (.error e, d)
    | .ok x =>
        match d.entry x with
        | none => (.error .notFound, d)
        | some (.dir _) => (.error .isADirectory, d)
        | some _ => (.ok (), d.set x none)

def symlink (fault : Option (Fault C)) (target : String) (path : Loc) : DiskM C IoError Unit :=
  fun d =>
    if fault.isSome then (.error .refused, d)
    else if target = "" then (.error .notFound, d)
    else
      match d.resolve false path with
      | .error e => (.error e, d)
      | .ok x =>
          match d.entry x with
          | some _ => (.error .alreadyExists, d)
          | none => (.ok (), d.set x (some (.link target)))

/-- The attributes of a file after a write: those of a new one, or its own mode. -/
def Entry.rewritten (attr : Attr) : Option (Entry C) → Attr
  | some (.file _ old) => { old with mtimeMs := attr.mtimeMs }
  | _ => attr

def write (fault : Option (Fault C)) (attr : Attr) (path : Loc) (content : C) :
    DiskM C IoError Unit := fun d =>
  match d.resolve true path with
  | .error e => (.error e, d)
  | .ok x =>
      if (d.entry x).any Entry.isDir then (.error .isADirectory, d)
      else
        let attr := Entry.rewritten attr (d.entry x)
        match fault with
        | none => (.ok (), d.set x (some (.file content attr)))
        | some f =>
            match f.part with
            | none => (.error .refused, d)
            | some part => (.error .refused, d.set x (some (.file part attr)))

/-- Renames a file or a link; a directory is not renamed. -/
def rename (fault : Option (Fault C)) (source dest : Loc) : DiskM C IoError Unit := fun d =>
  if fault.isSome then (.error .refused, d)
  else
    match d.resolve false source, d.resolve false dest with
    | .ok x, .ok y =>
        match d.entry x, d.entry y with
        | none, _ => (.error .notFound, d)
        | some (.dir _), _ | _, some (.dir _) => (.error .isADirectory, d)
        | some e, _ => (.ok (), (d.set x none).set y (some e))
    | .error e, _ => (.error e, d)
    | _, .error e => (.error e, d)

/-- Changes the attributes of what stands at the end of a path. -/
def setAttr (fault : Option (Fault C)) (change : Attr → Attr) (path : Loc) :
    DiskM C IoError Unit := fun d =>
  if fault.isSome then (.error .refused, d)
  else
    match d.resolve true path with
    | .error e => (.error e, d)
    | .ok x =>
        match d.entry x with
        | some (.file content attr) => (.ok (), d.set x (some (.file content (change attr))))
        | some (.dir attr) => (.ok (), d.set x (some (.dir (change attr))))
        | _ => (.error .notFound, d)

/-! ## Paths without links -/

/-- The names of a place, as a path spells it. -/
def Plain (x : Loc) : Prop := ∀ c ∈ x, c ≠ "" ∧ c ≠ "." ∧ c ≠ ".."

/-- Only directories stand above a place. -/
def Reaches (d : Disk C) (x : Loc) : Prop := ∀ y, y <+: x → y ≠ x → d.DirAt y

/-- No link stands above a place. -/
structure Clear (d : Disk C) (x : Loc) : Prop where
  plain : Plain x
  unlinked : ∀ y, y <+: x → y ≠ x → ¬ d.LinkAt y

theorem dirAt_iff_any {d : Disk C} {x : Loc} :
    d.DirAt x ↔ (d.entry x).any Entry.isDir = true := by
  cases h : d.entry x <;> simp [DirAt, h]

theorem not_linkAt_of_dirAt {d : Disk C} {x : Loc} (h : d.DirAt x) : ¬ d.LinkAt x := by
  rintro ⟨e, he, hlink⟩
  obtain ⟨e', he', hdir⟩ := h
  obtain rfl : e = e' := Option.some.inj (he.symm.trans he')
  cases e with
  | file content attr => cases hdir
  | dir attr => cases hlink
  | link target => cases hdir

theorem prefix_concat_of_ne {y x : Loc} {c : String} (h : y <+: x ++ [c]) (hne : y ≠ x ++ [c]) :
    y <+: x :=
  (List.prefix_concat_iff.mp h).resolve_left hne

/-- A place beyond `cur` on the way to another is beyond the next name as well. -/
theorem concat_prefix_of_ne {cur y rest : Loc} {c : String} (hy : cur <+: y) (hne : y ≠ cur)
    (hx : y <+: cur ++ [c] ++ rest) : cur ++ [c] <+: y := by
  obtain ⟨s, rfl⟩ := hy
  cases s with
  | nil => exact absurd (List.append_nil cur) hne
  | cons c' s =>
      rw [List.append_assoc, List.prefix_append_right_inj, List.singleton_append,
        List.cons_prefix_cons] at hx
      obtain ⟨rfl, -⟩ := hx
      exact (List.prefix_append_right_inj cur).mpr (List.prefix_append [c'] s)

/-- The first place on the way to another where no directory stands, and how a walk
ends there. -/
def StopsAt (d : Disk C) (y : Loc) (e : IoError) : Prop :=
  d.entry y = none ∧ e = .notFound ∨
    ∃ entry, d.entry y = some entry ∧ entry.isDir = false ∧ e = .notADirectory

/-- A walk from a place above a clear one ends there, or where no directory stands. -/
theorem walkWith_clear {d : Disk C} {follow : Bool}
    (jump : Loc → List String → Except IoError Loc) : ∀ {rest : List String} {cur : Loc}
      (_ : Clear d (cur ++ rest)) (_ : follow = false ∨ ¬ d.LinkAt (cur ++ rest)),
      (walkWith d follow jump cur rest = .ok (cur ++ rest) ∧
          ∀ y, cur <+: y → y <+: cur ++ rest → y ≠ cur ++ rest → d.DirAt y) ∨
        ∃ y e, y <+: cur ++ rest ∧ y ≠ cur ++ rest ∧ d.StopsAt y e ∧
          walkWith d follow jump cur rest = .error e
  | [], cur, _, _ => by
      refine .inl ⟨by rw [walkWith, List.append_nil], fun y hcur hy hne => ?_⟩
      rw [List.append_nil] at hy hne
      exact absurd (hy.eq_of_length_le hcur.length_le) hne
  | c :: rest, cur, h, hend => by
      have hcur : cur <+: cur ++ c :: rest := List.prefix_append _ _
      have hne : cur ≠ cur ++ c :: rest := by simp
      cases hentry : d.entry cur with
      | none => exact .inr ⟨cur, _, hcur, hne, .inl ⟨hentry, rfl⟩, by rw [walkWith, hentry]⟩
      | some entry =>
          cases entry with
          | file content attr =>
              exact .inr ⟨cur, _, hcur, hne, .inr ⟨_, hentry, rfl, rfl⟩, by rw [walkWith, hentry]⟩
          | link target =>
              exact .inr ⟨cur, _, hcur, hne, .inr ⟨_, hentry, rfl, rfl⟩, by rw [walkWith, hentry]⟩
          | dir attr =>
              obtain ⟨hempty, hdot, hdots⟩ := h.plain c (by simp)
              rw [List.append_cons] at h hend
              -- one step on, to a place that is no link unless it is the last one
              have hstep : walkWith d follow jump cur (c :: rest) =
                    walkWith d follow jump (cur ++ [c]) rest ∨
                  rest = [] ∧ follow = false ∧ walkWith d follow jump cur (c :: rest) =
                    .ok (cur ++ [c]) := by
                rw [walkWith, hentry]
                simp only [hempty, hdot, hdots, or_self, if_false]
                cases hnext : d.entry (cur ++ [c]) with
                | none => exact .inl rfl
                | some next =>
                    cases next with
                    | file content attr => exact .inl rfl
                    | dir attr => exact .inl rfl
                    | link target =>
                        have hlink : d.LinkAt (cur ++ [c]) := ⟨_, hnext, rfl⟩
                        cases rest with
                        | cons c' rest =>
                            exact absurd hlink (h.unlinked _ (List.prefix_append _ _) (by simp))
                        | nil =>
                            rw [List.append_nil] at hend
                            have hnofollow := hend.resolve_right (not_not_intro hlink)
                            exact .inr ⟨rfl, hnofollow, by simp [hnofollow]⟩
              rw [List.append_cons]
              rcases hstep with hstep | ⟨rfl, hnofollow, hstep⟩
              · rw [hstep]
                rcases walkWith_clear jump h hend with ⟨hok, hdirs⟩ | hstop
                · refine .inl ⟨hok, fun y hy hx hlast => ?_⟩
                  by_cases heq : y = cur
                  · exact heq ▸ ⟨_, hentry, rfl⟩
                  · exact hdirs y (concat_prefix_of_ne hy heq hx) hx hlast
                · exact .inr hstop
              · rw [hstep, List.append_nil]
                refine .inl ⟨rfl, fun y hy hx hlast => ?_⟩
                have heq := (prefix_concat_of_ne hx hlast).eq_of_length_le hy.length_le
                exact heq ▸ ⟨_, hentry, rfl⟩

/-- A clear path leads to the place it spells, or nowhere. -/
theorem resolve_cases {d : Disk C} {x : Loc} (follow : Bool) (h : Clear d x)
    (hend : follow = false ∨ ¬ d.LinkAt x) :
    (d.resolve follow x = .ok x ∧ Reaches d x) ∨
      ∃ y e, y <+: x ∧ y ≠ x ∧ d.StopsAt y e ∧ d.resolve follow x = .error e := by
  have hwalk : Clear d ([] ++ x) := h
  rcases walkWith_clear (walk d follow 39) hwalk hend with ⟨hok, hdirs⟩ | hstop
  · exact .inl ⟨hok, fun y => hdirs y List.nil_prefix⟩
  · exact .inr hstop

theorem StopsAt.not_dirAt {d : Disk C} {y : Loc} {e : IoError} (h : d.StopsAt y e) :
    ¬ d.DirAt y := by
  rintro ⟨entry, hentry, hdir⟩
  rcases h with ⟨hnone, -⟩ | ⟨entry', hentry', hnot, -⟩
  · rw [hnone] at hentry
    cases hentry
  · obtain rfl : entry = entry' := Option.some.inj (hentry.symm.trans hentry')
    rw [hdir] at hnot
    cases hnot

/-! ## Trees -/

/-- Whatever stands on a disk stands in directories. -/
structure Wf (d : Disk C) : Prop where
  root : d.DirAt []
  reaches : ∀ x e, d.entry x = some e → Reaches d x

theorem Wf.below {d : Disk C} (h : d.Wf) {x : Loc} (hx : ¬ d.DirAt x) {y : Loc} (hy : x <+: y)
    (hne : y ≠ x) : d.entry y = none := by
  cases hentry : d.entry y with
  | none => rfl
  | some e => exact absurd (h.reaches y e hentry x hy hne.symm) hx

theorem Wf.ne_nil {d : Disk C} (h : d.Wf) {x : Loc} (hx : ¬ d.DirAt x) : x ≠ [] := by
  rintro rfl
  exact hx h.root

theorem dirAt_set_of_ne {d : Disk C} {x y : Loc} (e : Option (Entry C)) (hne : y ≠ x) :
    (d.set x e).DirAt y ↔ d.DirAt y := by
  rw [DirAt, DirAt, entry_set, if_neg hne]

/-- Anything may be put where no directory stands. -/
theorem Wf.set {d : Disk C} (h : d.Wf) {x : Loc} (hx : ¬ d.DirAt x) (hreach : Reaches d x)
    (e : Option (Entry C)) : (d.set x e).Wf where
  root := (dirAt_set_of_ne e (h.ne_nil hx).symm).mpr h.root
  reaches := by
    intro y e' hy z hz hne
    rw [entry_set] at hy
    split at hy
    · rename_i heq
      subst heq
      exact (dirAt_set_of_ne e hne).mpr (hreach z hz hne)
    · have hdir := h.reaches y e' hy z hz hne
      have hzx : z ≠ x := by
        rintro rfl
        exact hx hdir
      exact (dirAt_set_of_ne e hzx).mpr hdir

/-- A directory may be put in the place of another one. -/
theorem Wf.set_dir {d : Disk C} (h : d.Wf) {x : Loc} (hreach : Reaches d x) (attr : Attr) :
    (d.set x (some (.dir attr))).Wf := by
  have hdir : (d.set x (some (.dir attr))).DirAt x := ⟨_, by rw [entry_set, if_pos rfl], rfl⟩
  have hkeep : ∀ z, d.DirAt z → (d.set x (some (.dir attr))).DirAt z := by
    intro z hz
    by_cases hzx : z = x
    · exact hzx ▸ hdir
    · exact (dirAt_set_of_ne _ hzx).mpr hz
  refine ⟨hkeep [] h.root, fun y e hy z hz hne => ?_⟩
  rw [entry_set] at hy
  split at hy
  · rename_i heq
    exact hkeep z (hreach z (heq ▸ hz) (heq ▸ hne))
  · exact hkeep z (h.reaches y e hy z hz hne)

theorem entry_clear (d : Disk C) (kept : List Loc) (x y : Loc) :
    (d.clear kept x).entry y =
      if x <+: y ∧ y ≠ [] ∧ ∀ z ∈ kept, ¬ y <+: z then none else d.entry y := by
  simp [clear]

theorem Wf.clear {d : Disk C} (h : d.Wf) (kept : List Loc) (x : Loc) : (d.clear kept x).Wf where
  root := by
    obtain ⟨e, he, hdir⟩ := h.root
    exact ⟨e, by rw [entry_clear, if_neg (by simp), he], hdir⟩
  reaches := by
    intro y e hy z hz hne
    rw [entry_clear] at hy
    split at hy
    · cases hy
    · rename_i hkeep
      obtain ⟨e', he', hdir⟩ := h.reaches y e hy z hz hne
      refine ⟨e', ?_, hdir⟩
      -- what stands above something that is kept is kept
      rw [entry_clear, if_neg ?_, he']
      rintro ⟨hxz, hnil, hall⟩
      refine hkeep ⟨hxz.trans hz, ?_, fun w hw hyw => hall w hw (hz.trans hyw)⟩
      rintro rfl
      exact hnil (List.prefix_nil.mp hz)

end Disk

end Landslide
