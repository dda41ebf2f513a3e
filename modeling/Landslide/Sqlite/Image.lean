import Landslide.Stream
import Landslide.Overlay

/-!
# Database images

The data of `landslide-sqlite/src/lib.rs`: transactions as page post-images
(`Delta`), sealed segments (`Ltx`), manifests, the image of a database and the
fold that a checkpoint seals.

An image is compared through its view: the transaction, the sizes and the pages
within the size.  What lies beyond is left over from a larger database and is
never written out.  A transaction that raises the size writes every page it adds
(`Grows`), so a view is all that later transactions can show.  `Seals` says that
a segment does to a view what a list of transactions does.
-/

namespace Landslide.Sqlite

open Std Overlay

/-! ## Data -/

/-- One page post-image. -/
structure Frame where
  /-- 1-based page number. -/
  pgno : Nat
  data : Bytes
deriving DecidableEq, Repr

/-- One committed transaction: the pages it wrote, in order, and the size in pages
after it. -/
structure Delta where
  txid : Nat
  pageSize : Nat
  dbSize : Nat
  pages : List Frame
deriving DecidableEq, Repr

/-- A sealed set of transactions. -/
structure Ltx where
  txidStart : Nat
  txidEnd : Nat
  pageSize : Nat
  dbSize : Nat
  pages : List Frame
deriving DecidableEq, Repr

/-- A manifest pointer to one segment. -/
structure SegmentRef where
  path : String
  txidStart : Nat
  txidEnd : Nat
  pageSize : Nat
  dbSize : Nat
deriving DecidableEq, Repr

def SegmentRef.of (l : Ltx) (path : String) : SegmentRef :=
  { path := path, txidStart := l.txidStart, txidEnd := l.txidEnd, pageSize := l.pageSize,
    dbSize := l.dbSize }

/-- The segments that compose a state, and those replaced one generation ago. -/
structure Manifest where
  segments : List SegmentRef := []
  retire : List String := []
deriving DecidableEq, Repr

structure CheckpointOpts where
  /-- Coalesce the manifest when it holds more than this many segments. -/
  coalesceAt : Nat := 8
  /-- Delete the events that the published manifest covers. -/
  purge : Bool := false
deriving DecidableEq, Repr

/-- Page post-images by page number. -/
abbrev Pages : Type := ExtTreeMap Nat Bytes compare

/-- The writes of some frames. -/
def writes (frames : List Frame) : List (Nat × Bytes) := frames.map fun f => (f.pgno, f.data)

/-- The frames of a page map, in page order. -/
def pageFrames (pages : Pages) : List Frame := pages.toList.map fun p => ⟨p.1, p.2⟩

/-- In-memory image of a database. -/
structure DbImage where
  pageSize : Nat := 0
  dbSize : Nat := 0
  txid : Nat := 0
  pages : Pages := ∅

namespace DbImage

def apply (image : DbImage) (d : Delta) : DbImage :=
  { pageSize := d.pageSize, dbSize := d.dbSize, txid := d.txid,
    pages := write image.pages (writes d.pages) }

def mergeLtx (image : DbImage) (l : Ltx) : DbImage :=
  { pageSize := l.pageSize, dbSize := l.dbSize, txid := l.txidEnd,
    pages := write image.pages (writes l.pages) }

/-- The pages that are written out: not page 0, and within the size. -/
def inFile (image : DbImage) (pgno : Nat) : Bool := pgno ≠ 0 && pgno ≤ image.dbSize

/-- Copies a page to its offset.  A page that does not fit is a failed slice. -/
def putPage (pageSize : Nat) (out : Bytes) (page : Nat × Bytes) : Option Bytes :=
  let start := (page.1 - 1) * pageSize
  if start + page.2.length ≤ out.length then
    some (out.take start ++ page.2 ++ out.drop (start + page.2.length))
  else none

/-- The database file: page `i` at offset `(i - 1) * pageSize`, cut to the size.
`none` is a panic of the slice copy. -/
def toBytes (image : DbImage) : Option Bytes :=
  if image.pageSize = 0 then some []
  else
    (image.pages.toList.filter fun p => image.inFile p.1).foldlM (putPage image.pageSize)
      (List.replicate (image.dbSize * image.pageSize) 0)

/-- The image after some transactions. -/
def applied (image : DbImage) (deltas : List Delta) : DbImage := deltas.foldl apply image

end DbImage

/-- A checkpoint fold in progress. -/
structure LtxBuilder where
  txidStart : Option Nat := none
  txidEnd : Nat := 0
  pageSize : Nat := 0
  dbSize : Nat := 0
  pages : Pages := ∅

namespace LtxBuilder

def apply (b : LtxBuilder) (d : Delta) : LtxBuilder :=
  { txidStart := some (b.txidStart.getD d.txid), txidEnd := d.txid, pageSize := d.pageSize,
    dbSize := d.dbSize, pages := write b.pages (writes d.pages) }

/-- Seals a builder.  Callers check that it is not empty, so the default is never
taken. -/
def intoLtx (b : LtxBuilder) : Ltx :=
  { txidStart := b.txidStart.getD 0, txidEnd := b.txidEnd, pageSize := b.pageSize,
    dbSize := b.dbSize, pages := pageFrames b.pages }

/-- The builder after some transactions. -/
def built (deltas : List Delta) : LtxBuilder := deltas.foldl apply {}

end LtxBuilder

/-- The frames of some transactions, in order. -/
def framesOf (deltas : List Delta) : List Frame := deltas.flatMap (·.pages)

/-- Newest-wins fold of a batch, which is not empty, into its end state. -/
def fold (deltas : List Delta) : Delta :=
  { txid := deltas.getLast?.elim 0 (·.txid), pageSize := deltas.getLast?.elim 0 (·.pageSize),
    dbSize := deltas.getLast?.elim 0 (·.dbSize),
    pages := pageFrames (write ∅ (writes (framesOf deltas))) }

/-! ## Views -/

/-- What an image shows: its transaction, its sizes and its pages within the
size. -/
structure View where
  txid : Nat
  pageSize : Nat
  dbSize : Nat
  page : Nat → Option Bytes

namespace DbImage

def view (image : DbImage) : View :=
  { txid := image.txid, pageSize := image.pageSize, dbSize := image.dbSize,
    page := fun pgno => if pgno ≤ image.dbSize then image.pages[pgno]? else none }

/-- Two images show the same when their pages within the size agree. -/
theorem view_eq {a b : DbImage} (htxid : a.txid = b.txid) (hpage : a.pageSize = b.pageSize)
    (hsize : a.dbSize = b.dbSize)
    (h : ∀ pgno, pgno ≤ b.dbSize → a.pages[pgno]? = b.pages[pgno]?) : a.view = b.view := by
  simp only [view, htxid, hpage, hsize, View.mk.injEq, true_and]
  funext pgno
  split
  · next hle => exact h pgno hle
  · rfl

theorem txid_eq {a b : DbImage} (h : a.view = b.view) : a.txid = b.txid := congrArg View.txid h

theorem pageSize_eq {a b : DbImage} (h : a.view = b.view) : a.pageSize = b.pageSize :=
  congrArg View.pageSize h

theorem dbSize_eq {a b : DbImage} (h : a.view = b.view) : a.dbSize = b.dbSize :=
  congrArg View.dbSize h

theorem page_eq {a b : DbImage} (h : a.view = b.view) {pgno : Nat} (hle : pgno ≤ b.dbSize) :
    a.pages[pgno]? = b.pages[pgno]? := by
  have hp := congrFun (congrArg View.page h) pgno
  simp only [view] at hp
  rwa [if_pos (dbSize_eq h ▸ hle), if_pos hle] at hp

/-- The file depends on the view only. -/
theorem toBytes_congr {a b : DbImage} (h : a.view = b.view) : a.toBytes = b.toBytes := by
  have hin : a.inFile = b.inFile := by
    funext pgno
    rw [inFile, inFile, dbSize_eq h]
  have hpages : (a.pages.toList.filter fun p => a.inFile p.1) =
      b.pages.toList.filter fun p => b.inFile p.1 := by
    have hmap : (a.pages.filter fun pgno _ => b.inFile pgno) =
        b.pages.filter fun pgno _ => b.inFile pgno := by
      refine ExtTreeMap.ext_getElem? fun pgno => ?_
      rw [ExtTreeMap.getElem?_filter', ExtTreeMap.getElem?_filter']
      cases hpg : b.inFile pgno with
      | true =>
          have hle : pgno ≤ b.dbSize := by
            simp only [inFile, Bool.and_eq_true, decide_eq_true_eq] at hpg
            exact hpg.2
          rw [page_eq h hle]
      | false => simp
    have hlist := congrArg ExtTreeMap.toList hmap
    rw [ExtTreeMap.toList_filter, ExtTreeMap.toList_filter] at hlist
    rw [hin]
    exact hlist
  rw [toBytes, toBytes, hpages, pageSize_eq h, dbSize_eq h]

end DbImage

/-! ## Growth -/

/-- The transaction writes a page. -/
def Delta.Writes (d : Delta) (pgno : Nat) : Prop := ∃ f ∈ d.pages, f.pgno = pgno

/-- Every transaction that raises the size, from `size` on, writes every page it
adds. -/
def Grows : Nat → List Delta → Prop
  | _, [] => True
  | size, d :: deltas =>
      (∀ pgno, size < pgno → pgno ≤ d.dbSize → d.Writes pgno) ∧ Grows d.dbSize deltas

instance (d : Delta) (pgno : Nat) : Decidable (d.Writes pgno) :=
  inferInstanceAs (Decidable (∃ f ∈ d.pages, f.pgno = pgno))

instance : ∀ (size : Nat) (deltas : List Delta), Decidable (Grows size deltas)
  | _, [] => .isTrue trivial
  | size, d :: deltas =>
      have : Decidable (Grows d.dbSize deltas) := instDecidableGrows d.dbSize deltas
      have : Decidable (∀ pgno, size < pgno → pgno ≤ d.dbSize → d.Writes pgno) :=
        decidable_of_iff (∀ pgno, pgno ≤ d.dbSize → size < pgno → d.Writes pgno)
          ⟨fun h pgno hlo hhi => h pgno hhi hlo, fun h pgno hhi hlo => h pgno hlo hhi⟩
      inferInstanceAs (Decidable (_ ∧ _))

/-- The size after some transactions. -/
def sizeAfter (size : Nat) (deltas : List Delta) : Nat := deltas.foldl (fun _ d => d.dbSize) size

theorem Grows.append {size : Nat} {deltas deltas' : List Delta} :
    Grows size (deltas ++ deltas') ↔ Grows size deltas ∧ Grows (sizeAfter size deltas) deltas' := by
  induction deltas generalizing size with
  | nil => simp [Grows, sizeAfter]
  | cons d deltas ih =>
      rw [List.cons_append, Grows, Grows, ih, and_assoc]
      rfl

theorem writes_append (frames frames' : List Frame) :
    writes (frames ++ frames') = writes frames ++ writes frames' := List.map_append

theorem newest_writes_isSome {d : Delta} {pgno : Nat} (h : d.Writes pgno) :
    (newest (writes d.pages) pgno).isSome = true := by
  obtain ⟨f, hf, rfl⟩ := h
  exact newest_isSome.mpr ⟨_, List.mem_map_of_mem hf, rfl⟩

theorem newest_pageFrames (pages : Pages) (pgno : Nat) :
    newest (writes (pageFrames pages)) pgno = pages[pgno]? := by
  rw [writes, pageFrames, List.map_map]
  exact (congrArg (newest · pgno) (List.map_id _)).trans (newest_toList pages pgno)

namespace DbImage

/-- What an image holds after some transactions. -/
theorem getElem?_applied (image : DbImage) (deltas : List Delta) (pgno : Nat) :
    (image.applied deltas).pages[pgno]? =
      (newest (writes (framesOf deltas)) pgno).or image.pages[pgno]? := by
  induction deltas generalizing image with
  | nil => rfl
  | cons d deltas ih =>
      have hd : (image.apply d).pages[pgno]? =
          (newest (writes d.pages) pgno).or image.pages[pgno]? := getElem?_write _ _ _
      rw [applied, List.foldl_cons]
      refine (ih (image.apply d)).trans ?_
      rw [hd, ← Option.or_assoc, ← newest_append, ← writes_append]
      rfl

theorem dbSize_applied (image : DbImage) (deltas : List Delta) :
    (image.applied deltas).dbSize = sizeAfter image.dbSize deltas := by
  induction deltas generalizing image with
  | nil => rfl
  | cons d deltas ih => exact ih (image.apply d)

theorem applied_append (image : DbImage) (deltas deltas' : List Delta) :
    image.applied (deltas ++ deltas') = (image.applied deltas).applied deltas' :=
  List.foldl_append

/-- The transaction and the sizes after some transactions are those of the last. -/
theorem applied_of_getLast (image : DbImage) {deltas : List Delta} {d : Delta}
    (h : deltas.getLast? = some d) :
    (image.applied deltas).txid = d.txid ∧ (image.applied deltas).pageSize = d.pageSize ∧
      (image.applied deltas).dbSize = d.dbSize := by
  obtain ⟨init, rfl⟩ := List.getLast?_eq_some_iff.mp h
  rw [applied_append]
  exact ⟨rfl, rfl, rfl⟩

/-- A transaction that writes what it adds shows the same over the same view. -/
theorem view_apply_congr {a b : DbImage} (h : a.view = b.view) {d : Delta}
    (hg : ∀ pgno, b.dbSize < pgno → pgno ≤ d.dbSize → d.Writes pgno) :
    (a.apply d).view = (b.apply d).view := by
  refine view_eq rfl rfl rfl fun pgno hle => ?_
  have ha : (a.apply d).pages[pgno]? =
      (newest (writes d.pages) pgno).or a.pages[pgno]? := getElem?_write _ _ _
  have hb : (b.apply d).pages[pgno]? =
      (newest (writes d.pages) pgno).or b.pages[pgno]? := getElem?_write _ _ _
  rw [ha, hb]
  by_cases hold : pgno ≤ b.dbSize
  · rw [page_eq h hold]
  · obtain ⟨data, hdata⟩ := Option.isSome_iff_exists.mp
      (newest_writes_isSome (hg pgno (Nat.lt_of_not_le hold) hle))
    rw [hdata]
    rfl

theorem view_applied_congr {deltas : List Delta} : ∀ {a b : DbImage}, a.view = b.view →
    Grows b.dbSize deltas → (a.applied deltas).view = (b.applied deltas).view := by
  induction deltas with
  | nil => exact fun h _ => h
  | cons d deltas ih =>
      intro a b h hg
      exact ih (view_apply_congr h hg.1) hg.2

end DbImage

/-! ## Folds -/

/-- Applying a folded batch is applying the batch. -/
theorem apply_fold (image : DbImage) {deltas : List Delta} (hne : deltas ≠ []) :
    image.apply (fold deltas) = image.applied deltas := by
  have hlast := List.getLast?_eq_some_getLast hne
  obtain ⟨htxid, hpage, hsize⟩ := image.applied_of_getLast hlast
  have hpages : (image.apply (fold deltas)).pages = (image.applied deltas).pages := by
    refine ExtTreeMap.ext_getElem? fun pgno => ?_
    rw [DbImage.getElem?_applied, DbImage.apply, getElem?_write, fold, newest_pageFrames,
      getElem?_write]
    simp
  cases ha : image.applied deltas with
  | mk pageSize dbSize txid pages =>
      rw [ha] at htxid hpage hsize hpages
      simp only at htxid hpage hsize hpages
      subst hpages
      simp [DbImage.apply, fold, hlast, htxid, hpage, hsize]

theorem sizeAfter_fold (size : Nat) {deltas : List Delta} (hne : deltas ≠ []) :
    (fold deltas).dbSize = sizeAfter size deltas := by
  have himage := congrArg DbImage.dbSize
    (apply_fold ({ dbSize := size } : DbImage) hne)
  rw [DbImage.dbSize_applied] at himage
  exact himage

/-- The pages that some transactions add are among those they write. -/
theorem Grows.writes {deltas : List Delta} : ∀ {size : Nat}, Grows size deltas → ∀ pgno,
    size < pgno → pgno ≤ sizeAfter size deltas → ∃ f ∈ framesOf deltas, f.pgno = pgno := by
  induction deltas with
  | nil =>
      intro size _ pgno hlo hhi
      exact absurd hlo (Nat.not_lt_of_le hhi)
  | cons d deltas ih =>
      intro size hg pgno hlo hhi
      by_cases hd : pgno ≤ d.dbSize
      · obtain ⟨f, hf, hp⟩ := hg.1 pgno hlo hd
        exact ⟨f, List.mem_append_left _ hf, hp⟩
      · obtain ⟨f, hf, hp⟩ := ih hg.2 pgno (Nat.lt_of_not_le hd) hhi
        exact ⟨f, List.mem_append_right _ hf, hp⟩

/-- A folded batch still writes what it adds. -/
theorem Grows.fold {size : Nat} {deltas : List Delta} (h : Grows size deltas) (hne : deltas ≠ []) :
    Grows size [fold deltas] := by
  refine ⟨fun pgno hlo hhi => ?_, trivial⟩
  rw [sizeAfter_fold size hne] at hhi
  obtain ⟨f, hf, rfl⟩ := h.writes pgno hlo hhi
  have hsome : ((write ∅ (Sqlite.writes (framesOf deltas)) : Pages)[f.pgno]?).isSome = true := by
    rw [getElem?_write, Option.isSome_or, Bool.or_eq_true]
    exact .inl (newest_isSome.mpr ⟨_, List.mem_map_of_mem hf, rfl⟩)
  obtain ⟨data, hdata⟩ := Option.isSome_iff_exists.mp hsome
  refine ⟨⟨f.pgno, data⟩, ?_, rfl⟩
  exact List.mem_map.mpr ⟨_, ExtTreeMap.mem_toList_iff_getElem?_eq_some.mpr hdata, rfl⟩

/-! ## Segments -/

/-- A segment stands for a list of transactions: it has their range, the sizes of
the last one, and their newest post-image of every page within the size. -/
structure Seals (l : Ltx) (deltas : List Delta) : Prop where
  first : deltas.head?.map (·.txid) = some l.txidStart
  last : deltas.getLast?.map (fun d => (d.txid, d.pageSize, d.dbSize)) =
    some (l.txidEnd, l.pageSize, l.dbSize)
  pages : ∀ pgno, pgno ≤ l.dbSize →
    newest (writes l.pages) pgno = newest (writes (framesOf deltas)) pgno

/-- Merging a segment shows what its transactions do. -/
theorem Seals.view_merge {l : Ltx} {deltas : List Delta} (h : Seals l deltas) (image : DbImage) :
    (image.mergeLtx l).view = (image.applied deltas).view := by
  obtain ⟨d, hd, hl⟩ := Option.map_eq_some_iff.mp h.last
  obtain ⟨htxid, hpage, hsize⟩ := image.applied_of_getLast hd
  simp only [Prod.mk.injEq] at hl
  obtain ⟨h₁, h₂, h₃⟩ := hl
  refine DbImage.view_eq ?_ ?_ ?_ fun pgno hle => ?_
  · rw [htxid, h₁]
    rfl
  · rw [hpage, h₂]
    rfl
  · rw [hsize, h₃]
    rfl
  · rw [hsize, h₃] at hle
    rw [DbImage.getElem?_applied, ← h.pages pgno hle]
    exact getElem?_write _ _ _

/-- Merging segments in order shows what all their transactions do. -/
theorem view_merge_all {ls : List Ltx} {parts : List (List Delta)}
    (h : List.Forall₂ Seals ls parts) : ∀ image : DbImage,
    Grows image.dbSize parts.flatten →
      (ls.foldl DbImage.mergeLtx image).view = (image.applied parts.flatten).view := by
  induction h with
  | nil => exact fun _ _ => rfl
  | @cons l part ls parts hl _ ih =>
      intro image hg
      rw [List.flatten_cons, Grows.append] at hg
      have hmerge := hl.view_merge image
      have hsize : (image.mergeLtx l).dbSize = sizeAfter image.dbSize part := by
        rw [DbImage.dbSize_eq hmerge, DbImage.dbSize_applied]
      rw [List.foldl_cons, ih _ (hsize ▸ hg.2), List.flatten_cons, DbImage.applied_append]
      refine DbImage.view_applied_congr hmerge ?_
      rw [DbImage.dbSize_applied]
      exact hg.2

/-- The builder over some transactions holds their newest post-images. -/
theorem getElem?_built (deltas : List Delta) (pgno : Nat) :
    (LtxBuilder.built deltas).pages[pgno]? = newest (writes (framesOf deltas)) pgno := by
  suffices h : ∀ b : LtxBuilder, (deltas.foldl LtxBuilder.apply b).pages[pgno]? =
      (newest (writes (framesOf deltas)) pgno).or b.pages[pgno]? by
    refine (h {}).trans ?_
    simp
  induction deltas with
  | nil => exact fun _ => rfl
  | cons d deltas ih =>
      intro b
      have hd : (b.apply d).pages[pgno]? =
          (newest (writes d.pages) pgno).or b.pages[pgno]? := getElem?_write _ _ _
      rw [List.foldl_cons, ih, hd, ← Option.or_assoc, ← newest_append, ← writes_append]
      rfl

namespace LtxBuilder

theorem built_append (deltas deltas' : List Delta) :
    built (deltas ++ deltas') = deltas'.foldl apply (built deltas) := List.foldl_append

theorem txidStart_built (deltas : List Delta) :
    (built deltas).txidStart = deltas.head?.map (·.txid) := by
  suffices h : ∀ b : LtxBuilder,
      (deltas.foldl apply b).txidStart = b.txidStart.or (deltas.head?.map (·.txid)) from h {}
  induction deltas with
  | nil => intro b; simp
  | cons d deltas ih =>
      intro b
      rw [List.foldl_cons, ih]
      cases hb : b.txidStart with
      | none => simp [apply, hb]
      | some t => simp [apply, hb]

theorem built_of_getLast {deltas : List Delta} {d : Delta} (h : deltas.getLast? = some d) :
    (built deltas).txidEnd = d.txid ∧ (built deltas).pageSize = d.pageSize ∧
      (built deltas).dbSize = d.dbSize := by
  obtain ⟨init, rfl⟩ := List.getLast?_eq_some_iff.mp h
  rw [built_append]
  exact ⟨rfl, rfl, rfl⟩

/-- A sealed builder stands for the transactions it was fed. -/
theorem seals_built {deltas : List Delta} (hne : deltas ≠ []) :
    Seals (built deltas).intoLtx deltas := by
  have hlast := List.getLast?_eq_some_getLast hne
  obtain ⟨htxid, hpage, hsize⟩ := built_of_getLast hlast
  refine ⟨?_, ?_, fun pgno _ => ?_⟩
  · rw [intoLtx, txidStart_built, List.head?_eq_some_head hne]
    rfl
  · rw [hlast, intoLtx, htxid, hpage, hsize]
    rfl
  · rw [intoLtx, newest_pageFrames, getElem?_built]

/-- A builder that has started was fed some transaction. -/
theorem seals_started {b : LtxBuilder} {deltas : List Delta} (hb : b = .built deltas)
    (hstarted : b.txidStart ≠ none) : Seals b.intoLtx deltas := by
  subst hb
  refine seals_built ?_
  rintro rfl
  rw [txidStart_built] at hstarted
  exact hstarted rfl

/-- Merging a sealed builder is applying the transactions it was fed. -/
theorem mergeLtx_built (image : DbImage) {deltas : List Delta} (hne : deltas ≠ []) :
    image.mergeLtx (built deltas).intoLtx = image.applied deltas := by
  have hlast := List.getLast?_eq_some_getLast hne
  obtain ⟨htxid, hpage, hsize⟩ := built_of_getLast hlast
  -- the builder and the folded batch hold the same pages
  have hpages : (built deltas).pages = write ∅ (writes (framesOf deltas)) := by
    refine ExtTreeMap.ext_getElem? fun pgno => ?_
    rw [getElem?_built, getElem?_write]
    simp
  rw [← apply_fold image hne, DbImage.mergeLtx, DbImage.apply, fold, intoLtx, htxid, hpage, hsize,
    hpages, hlast]
  rfl

end LtxBuilder

/-- Applying the folds of some groups is applying the groups. -/
theorem applied_fold_groups {groups : List (List Delta)} : ∀ image : DbImage,
    (∀ group ∈ groups, group ≠ []) →
      image.applied (groups.map fold) = image.applied groups.flatten := by
  induction groups with
  | nil => exact fun _ _ => rfl
  | cons group groups ih =>
      intro image hne
      obtain ⟨hgroup, hgroups⟩ := List.forall_mem_cons.mp hne
      rw [List.flatten_cons, DbImage.applied_append, ← ih _ hgroups, ← apply_fold image hgroup]
      rfl

/-- Applying transactions one by one, applying their fold, and merging what a fresh builder
seals of them or of the folds of any groups of them give the same image. -/
theorem folds_agree (image : DbImage) (deltas : List Delta) (hne : deltas ≠ []) :
    image.apply (fold deltas) = image.applied deltas ∧
      image.mergeLtx (LtxBuilder.built deltas).intoLtx = image.applied deltas ∧
      ∀ groups : List (List Delta), groups.flatten = deltas → (∀ group ∈ groups, group ≠ []) →
        image.mergeLtx (LtxBuilder.built (groups.map fold)).intoLtx = image.applied deltas := by
  refine ⟨apply_fold image hne, LtxBuilder.mergeLtx_built image hne, ?_⟩
  rintro groups rfl hgroups
  have hne' : groups.map fold ≠ [] := by
    rintro hnil
    rw [List.map_eq_nil_iff.mp hnil] at hne
    exact hne rfl
  rw [LtxBuilder.mergeLtx_built image hne', applied_fold_groups image hgroups]

/-- Two transactions that write the same page and shrink the database, in one group. -/
theorem folds_agree_shrunk :
    let deltas : List Delta := [⟨4, 2, 3, [⟨1, [5, 5]⟩, ⟨3, [6, 6]⟩]⟩, ⟨5, 2, 1, [⟨1, [7, 7]⟩]⟩]
    let image : DbImage := ({} : DbImage).apply ⟨3, 2, 1, [⟨1, [4, 4]⟩]⟩
    image.mergeLtx (LtxBuilder.built ([deltas].map fold)).intoLtx = image.applied deltas :=
  (folds_agree _ _ (by simp)).2.2 _ (by simp) (by simp)

theorem pages_merge_all (ls : List Ltx) (image : DbImage) :
    (ls.foldl DbImage.mergeLtx image).pages =
      write image.pages (writes (ls.flatMap (·.pages))) := by
  induction ls generalizing image with
  | nil => rfl
  | cons l ls ih =>
      rw [List.foldl_cons, ih, List.flatMap_cons, writes_append, write, write, List.foldl_append]
      rfl

theorem dbSize_merge_all {ls : List Ltx} {l : Ltx} (h : ls.getLast? = some l) (image : DbImage) :
    (ls.foldl DbImage.mergeLtx image).dbSize = l.dbSize := by
  obtain ⟨init, rfl⟩ := List.getLast?_eq_some_iff.mp h
  rw [List.foldl_append]
  rfl

theorem Seals.ne_nil {l : Ltx} {deltas : List Delta} (h : Seals l deltas) : deltas ≠ [] := by
  rintro rfl
  cases h.first

/-- The ends of segments in order are the ends of all their transactions. -/
theorem Seals.flatten_ends {ls : List Ltx} {parts : List (List Delta)}
    (h : List.Forall₂ Seals ls parts) :
    parts.flatten.head?.map (·.txid) = ls.head?.map (·.txidStart) ∧
      parts.flatten.getLast?.map (fun d => (d.txid, d.pageSize, d.dbSize)) =
        ls.getLast?.map fun l => (l.txidEnd, l.pageSize, l.dbSize) := by
  induction h with
  | nil => exact ⟨rfl, rfl⟩
  | @cons l part ls parts hl hls ih =>
      constructor
      · rw [List.flatten_cons, List.head?_append_of_ne_nil _ hl.ne_nil, hl.first]
        rfl
      · rw [List.flatten_cons, List.getLast?_append]
        cases hls with
        | nil =>
            simpa using hl.last
        | @cons l' part' ls parts hl' hls =>
            have hne : (part' :: parts).flatten ≠ [] := by simp [hl'.ne_nil]
            rw [List.getLast?_eq_some_getLast hne] at ih ⊢
            rw [Option.some_or, ih.2]
            simp [List.getLast?_cons]

/-- The segment that replaces all segments in order: their pages, newest wins, less
those beyond the final size. -/
theorem seals_coalesced {ls : List Ltx} {parts : List (List Delta)}
    (h : List.Forall₂ Seals ls parts) (hg : Grows 0 parts.flatten) {first last l : Ltx}
    (hfirst : ls.head? = some first) (hlast : ls.getLast? = some last)
    (hstart : l.txidStart = first.txidStart) (hend : l.txidEnd = last.txidEnd)
    (hpage : l.pageSize = last.pageSize) (hsize : l.dbSize = last.dbSize)
    (hpages : l.pages = pageFrames
      ((write ∅ (writes (ls.flatMap (·.pages))) : Pages).filter fun pgno _ => pgno ≤ l.dbSize)) :
    Seals l parts.flatten := by
  obtain ⟨h₁, h₂⟩ := Seals.flatten_ends h
  refine ⟨?_, ?_, fun pgno hle => ?_⟩
  · rw [h₁, hfirst, hstart]
    rfl
  · rw [h₂, hlast, hend, hpage, hsize]
    rfl
  · have hview := view_merge_all h {} hg
    have hd : (DbImage.applied {} parts.flatten).dbSize = l.dbSize := by
      rw [← DbImage.dbSize_eq hview, dbSize_merge_all hlast, hsize]
    have hp := DbImage.page_eq hview (hd ▸ hle)
    rw [pages_merge_all, DbImage.getElem?_applied] at hp
    rw [hpages, newest_pageFrames, ExtTreeMap.getElem?_filter', hp]
    cases newest (writes (framesOf parts.flatten)) pgno with
    | none => simp
    | some data => simp [hle]

/-! ## Files -/

/-- An image whose pages all have the page size is written out. -/
theorem DbImage.toBytes_isSome {image : DbImage}
    (h : ∀ (pgno : Nat) (data : Bytes), image.pages[pgno]? = some data →
      data.length = image.pageSize) :
    image.toBytes.isSome = true := by
  -- the copies keep the length of the file, and every page within the size fits in it
  have hcopies : ∀ (pages : List (Nat × Bytes)) (out : Bytes),
      (∀ p ∈ pages, p.1 ≠ 0 ∧ p.1 ≤ image.dbSize ∧ p.2.length = image.pageSize) →
      out.length = image.dbSize * image.pageSize →
      (pages.foldlM (putPage image.pageSize) out).isSome = true := by
    intro pages
    induction pages with
    | nil => exact fun _ _ _ => rfl
    | cons p pages ih =>
        intro out hpages hout
        obtain ⟨h₀, hle, hlen⟩ := hpages p List.mem_cons_self
        have hfit : (p.1 - 1) * image.pageSize + p.2.length ≤ out.length := by
          calc (p.1 - 1) * image.pageSize + p.2.length
              = (p.1 - 1 + 1) * image.pageSize := by rw [hlen, Nat.succ_mul]
            _ ≤ image.dbSize * image.pageSize := Nat.mul_le_mul_right _ (by omega)
            _ = out.length := hout.symm
        rw [List.foldlM_cons, putPage, if_pos hfit]
        refine ih _ (fun q hq => hpages q (List.mem_cons_of_mem _ hq)) ?_
        rw [List.length_append, List.length_append, List.length_take, List.length_drop, ← hout]
        omega
  rw [toBytes]
  split
  · rfl
  · refine hcopies _ _ (fun p hp => ?_) List.length_replicate
    obtain ⟨hmem, hin⟩ := List.mem_filter.mp hp
    simp only [inFile, Bool.and_eq_true, decide_eq_true_eq] at hin
    exact ⟨hin.1, hin.2, h p.1 p.2 (ExtTreeMap.mem_toList_iff_getElem?_eq_some.mp hmem)⟩

/-- Every post-image has the page size of its transaction. -/
def Delta.Sized (d : Delta) : Prop := ∀ f ∈ d.pages, f.data.length = d.pageSize

/-- The image of transactions of one page size is written out. -/
theorem toBytes_applied_isSome {deltas : List Delta} (hs : ∀ d ∈ deltas, d.Sized) {size : Nat}
    (hone : ∀ d ∈ deltas, d.pageSize = size) :
    (DbImage.applied {} deltas).toBytes.isSome = true := by
  refine DbImage.toBytes_isSome fun pgno data hdata => ?_
  rw [DbImage.getElem?_applied] at hdata
  have hnew : newest (writes (framesOf deltas)) pgno = some data := by simpa using hdata
  obtain ⟨f, hf, heq⟩ := List.mem_map.mp (newest_mem hnew)
  obtain ⟨d, hd, hfd⟩ := List.mem_flatMap.mp hf
  cases heq
  obtain ⟨last, hlast⟩ : ∃ last, deltas.getLast? = some last :=
    ⟨_, List.getLast?_eq_some_getLast (List.ne_nil_of_mem hd)⟩
  rw [hs d hd f hfd, hone d hd, (DbImage.applied_of_getLast {} hlast).2.1,
    hone last (List.mem_of_getLast? hlast)]

end Landslide.Sqlite
