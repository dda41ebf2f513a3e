import Landslide.TwoWay
import Landslide.Fuse.Image

/-!
# Inode tables

`State` of `landslide-fuse/src/fs.rs`.  Inodes are given on first sight and never taken
back.  A rename takes the entries of its source and of what is below it to their new
paths, one by one, in the order in which the hash map lists them (`Order`).

The tables start inverse to each other and a first sight keeps them so
(`Inverse.ino`).  A rename does exactly if no entry lands on a path that has an inode,
unless that inode moves too and went first (`renameSubtree_inverse_iff`).
-/

namespace Landslide.Fuse

open Std

/-- The order in which a hash map lists its entries. -/
structure Order where
  list : List (String × Nat) → List (String × Nat)
  perm : ∀ l, (list l).Perm l

/-- The order of the paths. -/
def Order.sorted : Order := { list := id, perm := fun _ => .refl _ }

structure Inodes where
  pathOf : ExtTreeMap Nat String compare
  inoOf : ExtTreeMap String Nat compare
  nextIno : Nat

namespace Inodes

def new : Inodes where
  pathOf := (∅ : ExtTreeMap Nat String compare).insert 1 "/"
  inoOf := (∅ : ExtTreeMap String Nat compare).insert "/" 1
  nextIno := 2

/-- The inode of a path, which gets one on first sight. -/
def ino (path : String) (t : Inodes) : Nat × Inodes :=
  match t.inoOf[path]? with
  | some i => (i, t)
  | none =>
      (t.nextIno,
        { pathOf := t.pathOf.insert t.nextIno path,
          inoOf := t.inoOf.insert path t.nextIno,
          nextIno := t.nextIno + 1 })

/-- Where a rename takes a path, if it takes it anywhere. -/
def remap (source dest p : String) : Option String :=
  if p = source then some dest
  else if startsWith p (slash source) then some (FsImage.moved source dest p) else none

/-- The entries that a rename moves. -/
def moved (order : Order) (source dest : String) (t : Inodes) : List (String × Nat) :=
  (order.list t.inoOf.toList).filter fun e => (remap source dest e.1).isSome

def rekey (source dest : String) (t : Inodes) (e : String × Nat) : Inodes :=
  let np := (remap source dest e.1).getD e.1
  { t with inoOf := (t.inoOf.erase e.1).insert np e.2, pathOf := t.pathOf.insert e.2 np }

/-- Re-keys the renamed subtree. -/
def renameSubtree (order : Order) (source dest : String) (t : Inodes) : Inodes :=
  (t.moved order source dest).foldl (rekey source dest) t

/-! ## The tables as maps -/

def tables (t : Inodes) : TwoWay String Nat where
  number := fun p => t.inoOf[p]?
  key := fun i => t.pathOf[i]?

/-- Where a rename leaves a path. -/
def renamed (source dest p : String) : String := (remap source dest p).getD p

theorem getElem?_insert_eq {K V : Type} [Ord K] [TransOrd K] [LawfulEqOrd K] [DecidableEq K]
    (m : ExtTreeMap K V compare) (k : K) (v : V) :
    (fun q => (m.insert k v)[q]?) = Function.update (fun q => m[q]?) k (some v) := by
  funext q
  rw [ExtTreeMap.getElem?_insert, Function.update_apply]
  by_cases hq : q = k
  · simp [hq]
  · simp [hq, Ne.symm hq]

theorem getElem?_erase_eq {K V : Type} [Ord K] [TransOrd K] [LawfulEqOrd K] [DecidableEq K]
    (m : ExtTreeMap K V compare) (k : K) :
    (fun q => (m.erase k)[q]?) = Function.update (fun q => m[q]?) k none := by
  funext q
  rw [ExtTreeMap.getElem?_erase, Function.update_apply]
  by_cases hq : q = k
  · simp [hq]
  · simp [hq, Ne.symm hq]

/-- A path seen for the first time gets the next inode. -/
theorem tables_ino {t : Inodes} {path : String} (h : t.inoOf[path]? = none) :
    (t.ino path).2.tables = t.tables.enter path t.nextIno := by
  rw [ino, h, tables, TwoWay.enter]
  dsimp only
  rw [getElem?_insert_eq, getElem?_insert_eq]
  rfl

theorem tables_rekey (source dest : String) (t : Inodes) (e : String × Nat) :
    (t.rekey source dest e).tables = t.tables.rekey (renamed source dest) e := by
  rw [tables, TwoWay.rekey, rekey]
  dsimp only
  rw [getElem?_insert_eq, getElem?_insert_eq, getElem?_erase_eq]
  rfl

theorem tables_foldl_rekey (source dest : String) : ∀ (l : List (String × Nat)) (t : Inodes),
    (l.foldl (rekey source dest) t).tables = l.foldl (TwoWay.rekey (renamed source dest)) t.tables
  | [], _ => rfl
  | e :: l, t => by rw [List.foldl_cons, tables_foldl_rekey, tables_rekey, List.foldl_cons]

theorem tables_renameSubtree (order : Order) (source dest : String) (t : Inodes) :
    (t.renameSubtree order source dest).tables =
      (t.moved order source dest).foldl (TwoWay.rekey (renamed source dest)) t.tables :=
  tables_foldl_rekey source dest _ t

@[simp] theorem nextIno_renameSubtree (order : Order) (source dest : String) (t : Inodes) :
    (t.renameSubtree order source dest).nextIno = t.nextIno := by
  rw [renameSubtree]
  generalize t.moved order source dest = l
  induction l generalizing t with
  | nil => rfl
  | cons e l ih => exact ih (t.rekey source dest e)

/-! ## What a rename moves -/

theorem mem_moved {order : Order} {source dest : String} {t : Inodes} {e : String × Nat} :
    e ∈ t.moved order source dest ↔
      t.inoOf[e.1]? = some e.2 ∧ (e.1 = source ∨ Below source e.1) := by
  rw [moved, List.mem_filter, (order.perm _).mem_iff, ExtTreeMap.mem_toList_iff_getElem?_eq_some]
  refine and_congr_right fun _ => ?_
  rw [remap]
  split
  · next h => exact iff_of_true rfl (.inl h)
  · next h =>
    split
    · next hb => exact iff_of_true rfl (.inr hb)
    · next hb => exact iff_of_false (by simp) (by simp [h, Below, hb])

theorem moved_nodup (order : Order) (source dest : String) (t : Inodes) :
    (t.moved order source dest).Nodup := by
  refine List.Nodup.filter _ ((order.perm _).nodup_iff.mpr ?_)
  refine ExtTreeMap.distinct_keys_toList.imp fun h => ?_
  rintro rfl
  simp at h

theorem renamed_source (source dest : String) : renamed source dest source = dest := by
  rw [renamed, remap, if_pos rfl, Option.getD_some]

theorem renamed_below {source p : String} (h : Below source p) (dest : String) :
    renamed source dest p = FsImage.moved source dest p := by
  have hne : p ≠ source := by
    rintro rfl
    exact FsImage.not_below_self p h
  have hs : startsWith p (slash source) = true := h
  rw [renamed, remap, if_neg hne, if_pos hs, Option.getD_some]

theorem renamed_other {source p : String} (hne : p ≠ source) (hb : ¬ Below source p)
    (dest : String) : renamed source dest p = p := by
  have hs : ¬ startsWith p (slash source) = true := hb
  rw [renamed, remap, if_neg hne, if_neg hs, Option.getD_none]

theorem renamed_self (source p : String) : renamed source source p = p := by
  by_cases hp : p = source
  · rw [hp, renamed_source]
  by_cases hb : Below source p
  · rw [renamed_below hb, FsImage.moved_self hb]
  · exact renamed_other hp hb source

/-- No two paths of a subtree get one new path. -/
theorem renamed_inj {source dest p q : String} (hp : p = source ∨ Below source p)
    (hq : q = source ∨ Below source q) (h : renamed source dest p = renamed source dest q) :
    p = q := by
  have below : ∀ {x : String}, Below source x → Below dest (renamed source dest x) := by
    intro x hx
    rw [renamed_below hx]
    exact below_slash dest _
  rcases hp with rfl | hp <;> rcases hq with rfl | hq
  · rfl
  · have hb := below hq
    rw [← h, renamed_source] at hb
    exact absurd hb (FsImage.not_below_self dest)
  · have hb := below hp
    rw [h, renamed_source] at hb
    exact absurd hb (FsImage.not_below_self dest)
  · rw [renamed_below hp, renamed_below hq] at h
    exact FsImage.moved_inj hp hq h

/-! ## Inverse tables -/

/-- The tables are inverse to each other, and the inodes that have a path are those below
the next one. -/
structure Inverse (t : Inodes) : Prop where
  inverse : ∀ (p : String) (i : Nat), t.inoOf[p]? = some i ↔ t.pathOf[i]? = some p
  paths : ∀ i : Nat, t.pathOf[i]? ≠ none ↔ 1 ≤ i ∧ i < t.nextIno
  pos : 1 ≤ t.nextIno

theorem Inverse.tables {t : Inodes} (h : t.Inverse) : t.tables.Inverse := h.inverse

theorem inverse_new : new.Inverse where
  inverse := fun p i => by
    rw [new, ExtTreeMap.getElem?_insert, ExtTreeMap.getElem?_insert]
    simp only [Std.compare_eq_iff_eq, ExtTreeMap.getElem?_empty]
    split <;> split <;> simp_all
  paths := fun i => by
    rw [new, ExtTreeMap.getElem?_insert]
    simp only [Std.compare_eq_iff_eq, ExtTreeMap.getElem?_empty]
    split
    · simp_all
    · simp
      omega
  pos := by simp [new]

/-- The next inode has no path. -/
theorem Inverse.next {t : Inodes} (h : t.Inverse) : t.pathOf[t.nextIno]? = none := by
  by_contra hne
  have hlt := (h.paths t.nextIno).mp hne
  omega

/-- A first sight keeps the tables inverse. -/
theorem Inverse.ino {t : Inodes} (h : t.Inverse) (path : String) : (t.ino path).2.Inverse := by
  cases hpath : t.inoOf[path]? with
  | some i =>
      rw [Inodes.ino, hpath]
      exact h
  | none =>
      have htables := tables_ino hpath
      refine ⟨?_, fun i => ?_, ?_⟩
      · show (t.ino path).2.tables.Inverse
        rw [htables]
        exact h.tables.enter hpath h.next
      · have hkey := TwoWay.enter_key t.tables path t.nextIno i
        rw [← htables] at hkey
        rw [show (t.ino path).2.pathOf[i]? = _ from hkey]
        have hpaths := h.paths i
        have hpos := h.pos
        rw [Inodes.ino, hpath]
        split
        · simp
          omega
        · rw [show t.tables.key i = t.pathOf[i]? from rfl, hpaths]
          dsimp only
          omega
      · rw [Inodes.ino, hpath]
        simp

/-- No entry of a rename lands on a path that has an inode, unless that inode moves too
and went first. -/
def Lands (order : Order) (source dest : String) (t : Inodes) : Prop :=
  TwoWay.Lands (renamed source dest) t.tables (t.moved order source dest)

theorem Inverse.pathOf_moved {t : Inodes} (h : t.Inverse) {order : Order} {source dest : String}
    {e : String × Nat} (he : e ∈ t.moved order source dest) : t.pathOf[e.2]? = some e.1 :=
  (h.inverse _ _).mp (mem_moved.mp he).1

/-- A rename moves no inode that had no path. -/
theorem renameSubtree_paths (order : Order) (source dest : String) {t : Inodes}
    (h : ∀ e ∈ t.moved order source dest, t.pathOf[e.2]? ≠ none) (i : Nat) :
    (t.renameSubtree order source dest).pathOf[i]? ≠ none ↔ t.pathOf[i]? ≠ none := by
  have hkey : (t.renameSubtree order source dest).pathOf[i]? =
      ((t.moved order source dest).foldl (TwoWay.rekey (renamed source dest)) t.tables).key i := by
    rw [← tables_renameSubtree]
    rfl
  rw [hkey, show t.pathOf[i]? = t.tables.key i from rfl]
  have hmem : ∀ e ∈ t.moved order source dest, t.tables.key e.2 ≠ none := h
  revert hmem
  generalize t.tables = w
  induction t.moved order source dest generalizing w with
  | nil => exact fun _ => .rfl
  | cons e l ih =>
      intro hmem
      rw [List.foldl_cons]
      refine (ih _ fun e' he' => ?_).trans ?_
      · rw [TwoWay.rekey_key]
        split
        · simp
        · exact hmem e' (List.mem_cons_of_mem _ he')
      · rw [TwoWay.rekey_key]
        split
        · next heq =>
          rw [heq]
          exact iff_of_true (by simp) (hmem e List.mem_cons_self)
        · rfl

/-- A rename keeps inverse tables inverse exactly if its entries land as they should. -/
theorem renameSubtree_inverse_iff {t : Inodes} (h : t.Inverse) (order : Order) (source dest : String) :
    (t.renameSubtree order source dest).Inverse ↔ t.Lands order source dest := by
  have hiff : _ ↔ t.Lands order source dest := TwoWay.foldl_rekey_inverse_iff h.tables
    (moved_nodup order source dest t)
    (fun e he => (mem_moved.mp he).1) (by
      intro e he e' he' heq
      obtain ⟨hino, hin⟩ := mem_moved.mp he
      obtain ⟨hino', hin'⟩ := mem_moved.mp he'
      have hpath := renamed_inj hin hin' heq
      rw [hpath, hino'] at hino
      exact Prod.ext hpath (Option.some.inj hino).symm)
  rw [← tables_renameSubtree] at hiff
  rw [← hiff]
  refine ⟨Inverse.tables, fun hinv => ⟨hinv, fun i => ?_, ?_⟩⟩
  · rw [renameSubtree_paths order source dest fun e he => by simp [h.pathOf_moved he], h.paths,
      nextIno_renameSubtree]
  · rw [nextIno_renameSubtree]
    exact h.pos

/-! ## Sound tables -/

/-- The inode that is found for a path has this path, and the next inodes have none.  This
is kept by every rename. -/
structure Sound (t : Inodes) : Prop where
  sound : ∀ (p : String) (i : Nat), t.inoOf[p]? = some i → t.pathOf[i]? = some p
  fresh : ∀ i : Nat, t.nextIno ≤ i → t.pathOf[i]? = none

theorem Inverse.toSound {t : Inodes} (h : t.Inverse) : t.Sound where
  sound p i := (h.inverse p i).mp
  fresh i hi := by
    by_contra hne
    have hlt := (h.paths i).mp hne
    omega

theorem Sound.tables {t : Inodes} (h : t.Sound) : t.tables.Sound := h.sound

/-- A first sight leaves the inodes that have a path. -/
theorem Sound.pathOf_ino {t : Inodes} (h : t.Sound) {i : Nat} {p : String}
    (hp : t.pathOf[i]? = some p) (path : String) : (t.ino path).2.pathOf[i]? = some p := by
  cases hpath : t.inoOf[path]? with
  | some j =>
      rw [Inodes.ino, hpath]
      exact hp
  | none =>
      show (t.ino path).2.tables.key i = some p
      rw [tables_ino hpath, TwoWay.enter_key, if_neg]
      · exact hp
      · rintro rfl
        rw [h.fresh _ le_rfl] at hp
        cases hp

/-- The inode that a path is given has this path. -/
theorem Sound.pathOf_ino_self {t : Inodes} (h : t.Sound) (path : String) :
    (t.ino path).2.pathOf[(t.ino path).1]? = some path := by
  cases hpath : t.inoOf[path]? with
  | some j =>
      rw [Inodes.ino, hpath]
      exact h.sound path j hpath
  | none =>
      have hino : (t.ino path).1 = t.nextIno := by rw [Inodes.ino, hpath]
      show (t.ino path).2.tables.key _ = some path
      rw [tables_ino hpath, hino, TwoWay.enter_key, if_pos rfl]

theorem Sound.ino {t : Inodes} (h : t.Sound) (path : String) : (t.ino path).2.Sound := by
  cases hpath : t.inoOf[path]? with
  | some j =>
      rw [Inodes.ino, hpath]
      exact h
  | none =>
      refine ⟨?_, fun i hi => ?_⟩
      · show (t.ino path).2.tables.Sound
        rw [tables_ino hpath]
        exact h.tables.enter (h.fresh _ le_rfl) path
      · have hlt : t.nextIno + 1 ≤ i := by
          rw [Inodes.ino, hpath] at hi
          exact hi
        show (t.ino path).2.tables.key i = none
        rw [tables_ino hpath, TwoWay.enter_key, if_neg (by omega)]
        exact h.fresh i (by omega)

theorem Sound.pathOf_moved {t : Inodes} (h : t.Sound) {order : Order} {source dest : String}
    {e : String × Nat} (he : e ∈ t.moved order source dest) : t.pathOf[e.2]? = some e.1 :=
  h.sound _ _ (mem_moved.mp he).1

/-- A rename moves every inode once. -/
theorem Sound.moved_nodup {t : Inodes} (h : t.Sound) (order : Order) (source dest : String) :
    ((t.moved order source dest).map (·.2)).Nodup := by
  refine List.Nodup.map_on (fun e he e' he' heq => ?_) (Inodes.moved_nodup order source dest t)
  have hpath := h.pathOf_moved he
  rw [show e.2 = e'.2 from heq, h.pathOf_moved he'] at hpath
  exact Prod.ext (Option.some.inj hpath).symm heq

theorem Sound.renameSubtree {t : Inodes} (h : t.Sound) (order : Order) (source dest : String) :
    (t.renameSubtree order source dest).Sound := by
  refine ⟨?_, fun i hi => ?_⟩
  · show (t.renameSubtree order source dest).tables.Sound
    rw [tables_renameSubtree]
    exact h.tables.foldl_rekey (h.moved_nodup order source dest) fun e he => h.pathOf_moved he
  · rw [nextIno_renameSubtree] at hi
    have hmoved : ∀ e ∈ t.moved order source dest, t.pathOf[e.2]? ≠ none := fun e he => by
      simp [h.pathOf_moved he]
    have hpaths := renameSubtree_paths order source dest hmoved i
    rw [h.fresh i hi] at hpaths
    simpa using hpaths

/-- The current inode of a path of the subtree moves with it. -/
theorem Sound.pathOf_renamed {t : Inodes} (h : t.Sound) (order : Order) {source p : String}
    (dest : String) {i : Nat} (hp : p = source ∨ Below source p) (hino : t.inoOf[p]? = some i) :
    (t.renameSubtree order source dest).pathOf[i]? = some (renamed source dest p) := by
  show (t.renameSubtree order source dest).tables.key i = _
  rw [tables_renameSubtree]
  exact TwoWay.foldl_rekey_key_of_mem (e := (p, i)) (h.moved_nodup order source dest)
    (mem_moved.mpr ⟨hino, hp⟩)

/-- An inode whose path is not taken elsewhere keeps it. -/
theorem Sound.pathOf_kept {t : Inodes} (h : t.Sound) (order : Order) {source dest p : String}
    {i : Nat} (hp : t.pathOf[i]? = some p) (hstay : renamed source dest p = p) :
    (t.renameSubtree order source dest).pathOf[i]? = some p := by
  show (t.renameSubtree order source dest).tables.key i = _
  rw [tables_renameSubtree]
  by_cases hmem : ∃ e ∈ t.moved order source dest, e.2 = i
  · obtain ⟨e, he, rfl⟩ := hmem
    have hpath := h.pathOf_moved he
    rw [hp] at hpath
    rw [TwoWay.foldl_rekey_key_of_mem (h.moved_nodup order source dest) he,
      ← Option.some.inj hpath, hstay]
  · rw [TwoWay.foldl_rekey_key_of_notMem fun e he heq => hmem ⟨e, he, heq⟩]
    exact hp

end Inodes

end Landslide.Fuse
