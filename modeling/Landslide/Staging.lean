import Mathlib.Data.List.GetD
import Mathlib.Data.List.Induction

/-!
# Staged edits

A content is edited by writes, which fill a gap with a default element, and by changes of
its size.  Writes are staged beside the content until they are flushed, and a change of the
size is made at once and cuts what is staged.  So the two are not made in the order in which
they were asked for.

A change of the size can be moved before a write that it cuts (`resize_write`).  So what is
there together with what is staged is always the content of the steps one by one
(`Stage.content_run`).
-/

namespace Staging

variable {α : Type} (zero : α)

/-! ## Edits -/

/-- `data` over a content at `offset`. -/
def write (content : List α) (offset : Nat) (data : List α) : List α :=
  let padded := content ++ List.replicate (offset + data.length - content.length) zero
  padded.take offset ++ data ++ padded.drop (offset + data.length)

/-- A content cut or extended to `size`. -/
def resize (content : List α) (size : Nat) : List α :=
  content.take size ++ List.replicate (size - content.length) zero

inductive Step (α : Type) where
  | write (offset : Nat) (data : List α)
  | resize (size : Nat)
  | flush

/-- What a step is to do to the content. -/
def Step.apply (content : List α) : Step α → List α
  | .write offset data => Staging.write zero content offset data
  | .resize size => Staging.resize zero content size
  | .flush => content

/-- The content after some steps, one by one. -/
def edited (content : List α) (steps : List (Step α)) : List α :=
  steps.foldl (Step.apply zero) content

/-! ## Elements -/

theorem length_write (content : List α) (offset : Nat) (data : List α) :
    (write zero content offset data).length = max content.length (offset + data.length) := by
  simp only [write, List.length_append, List.length_take, List.length_drop, List.length_replicate]
  omega

theorem length_resize (content : List α) (size : Nat) :
    (resize zero content size).length = size := by
  simp only [resize, List.length_append, List.length_take, List.length_replicate]
  omega

/-- Default elements at the end of a content are what is read past its end. -/
theorem getD_append_replicate (content : List α) (n i : Nat) :
    (content ++ List.replicate n zero).getD i zero = content.getD i zero := by
  by_cases hi : i < content.length
  · rw [List.getD_append _ _ _ _ hi]
  · have hle := Nat.le_of_not_lt hi
    rw [List.getD_append_right _ _ _ _ hle, List.getD_eq_default _ _ hle,
      List.getD_eq_getElem?_getD, List.getElem?_getD_replicate_default_eq]

theorem getD_take (content : List α) (size i : Nat) :
    (content.take size).getD i zero = if i < size then content.getD i zero else zero := by
  rw [List.getD_eq_getElem?_getD, List.getD_eq_getElem?_getD, List.getElem?_take]
  split <;> rfl

theorem getD_write (content : List α) (offset : Nat) (data : List α) (i : Nat) :
    (write zero content offset data).getD i zero =
      if offset ≤ i then (data[i - offset]?).getD (content.getD i zero)
      else content.getD i zero := by
  rw [← getD_append_replicate zero content (offset + data.length - content.length) i, write]
  have hpadded : offset + data.length ≤
      (content ++ List.replicate (offset + data.length - content.length) zero).length := by
    rw [List.length_append, List.length_replicate]
    omega
  generalize content ++ List.replicate (offset + data.length - content.length) zero = padded
    at hpadded ⊢
  have htake : (padded.take offset).length = offset := List.length_take_of_le (by omega)
  rw [List.append_assoc]
  split
  · next hle =>
    rw [List.getD_append_right _ _ _ _ (by omega), htake]
    by_cases hin : i - offset < data.length
    · rw [List.getD_append _ _ _ _ hin, List.getD_eq_getElem?_getD, List.getElem?_eq_getElem hin]
      rfl
    · rw [List.getD_append_right _ _ _ _ (by omega), List.getElem?_eq_none (by omega),
        List.getD_eq_getElem?_getD, List.getElem?_drop, Option.getD_none,
        List.getD_eq_getElem?_getD]
      congr 2
      omega
  · next hlt => rw [List.getD_append _ _ _ _ (by omega), getD_take, if_pos (by omega)]

theorem getD_resize (content : List α) (size i : Nat) :
    (resize zero content size).getD i zero = if i < size then content.getD i zero else zero := by
  rw [resize, getD_append_replicate, getD_take]

theorem ext_getD {a b : List α} (hlength : a.length = b.length)
    (h : ∀ i, a.getD i zero = b.getD i zero) : a = b := by
  refine List.ext_getElem hlength fun i ha hb => ?_
  rw [← List.getD_eq_getElem a zero ha, ← List.getD_eq_getElem b zero hb, h i]

/-! ## A change of the size before a write -/

/-- A staged write cut to a size. -/
def cut (size : Nat) (e : Nat × List α) : Option (Nat × List α) :=
  if size ≤ e.1 then none else some (e.1, e.2.take (size - e.1))

/-- Staged writes over a content. -/
def overlay (content : List α) (extents : List (Nat × List α)) : List α :=
  extents.foldl (fun c e => write zero c e.1 e.2) content

theorem overlay_concat (content : List α) (extents : List (Nat × List α)) (e : Nat × List α) :
    overlay zero content (extents ++ [e]) = write zero (overlay zero content extents) e.1 e.2 := by
  rw [overlay, List.foldl_append]
  rfl

/-- A write is cut by a change of the size after it. -/
theorem resize_write (content : List α) (e : Nat × List α) (size : Nat) :
    resize zero (write zero content e.1 e.2) size =
      overlay zero (resize zero content size) (cut size e).toList := by
  rw [cut]
  split
  · next hle =>
    refine ext_getD zero (by rw [length_resize]; exact (length_resize zero content size).symm) ?_
    intro i
    show _ = (resize zero content size).getD i zero
    rw [getD_resize, getD_resize, getD_write]
    split
    · rw [if_neg (by omega)]
    · rfl
  · next hlt =>
    show _ = write zero (resize zero content size) e.1 (e.2.take (size - e.1))
    refine ext_getD zero ?_ fun i => ?_
    · rw [length_resize, length_write, length_resize, List.length_take]
      omega
    · rw [getD_resize, getD_write, getD_write, getD_resize, List.getElem?_take]
      by_cases hi : i < size
      · simp only [hi, if_true]
        split
        · rw [if_pos (by omega)]
        · rfl
      · rw [if_neg hi, if_neg hi]
        split
        · rw [if_neg (by omega)]
          rfl
        · rfl

theorem resize_overlay (content : List α) (extents : List (Nat × List α)) (size : Nat) :
    resize zero (overlay zero content extents) size =
      overlay zero (resize zero content size) (extents.filterMap (cut size)) := by
  induction extents using List.reverseRecOn with
  | nil => rfl
  | append_singleton extents e ih =>
      rw [overlay_concat, resize_write, ih, List.filterMap_append, overlay, overlay, overlay,
        List.foldl_append]
      rfl

/-! ## Stages -/

/-- A content, with the writes that are staged over it. -/
structure Stage (α : Type) where
  base : List α
  extents : List (Nat × List α) := []

namespace Stage

/-- What is there together with what is staged. -/
def content (s : Stage α) : List α := overlay zero s.base s.extents

/-- A write is staged, a change of the size cuts what is staged, and a flush makes the staged
writes in order. -/
def step (s : Stage α) : Step α → Stage α
  | .write offset data => { s with extents := s.extents ++ [(offset, data)] }
  | .resize size => { base := resize zero s.base size, extents := s.extents.filterMap (cut size) }
  | .flush => { base := s.content zero }

def run (s : Stage α) (steps : List (Step α)) : Stage α := steps.foldl (step zero) s

theorem run_concat (s : Stage α) (steps : List (Step α)) (step : Step α) :
    s.run zero (steps ++ [step]) = (s.run zero steps).step zero step := by
  rw [run, List.foldl_append]
  rfl

theorem content_step (s : Stage α) (step : Step α) :
    (s.step zero step).content zero = step.apply zero (s.content zero) := by
  cases step with
  | write offset data => exact overlay_concat zero s.base s.extents (offset, data)
  | resize size => exact (resize_overlay zero s.base s.extents size).symm
  | flush => rfl

/-- The content is that of the steps one by one. -/
theorem content_run (steps : List (Step α)) : ∀ s : Stage α,
    (s.run zero steps).content zero = edited zero (s.content zero) steps := by
  induction steps with
  | nil => exact fun _ => rfl
  | cons step steps ih =>
      intro s
      refine (ih (s.step zero step)).trans ?_
      rw [content_step]
      rfl

end Stage

end Staging
