import Landslide.Fuse.Shapes

/-!
# Attributes without the time

The label of a node is its mode, its owner and its extended attributes: all that it carries
besides its shape, but for the time.  What a delta does to the labels of an image depends
on its shapes and labels only (`FsImage.labels_apply`).  A write of bytes keeps the label
of an inline file and leaves that of a new file everywhere else, a block write keeps the
label of whatever is at its path.
-/

namespace Landslide.Fuse

open Std

def NodeMeta.label (attrs : NodeMeta) : NodeMeta := { attrs with mtimeMs := 0 }

/-- The labels of an image. -/
abbrev Labels : Type := String → Option NodeMeta

def FsImage.labels (image : FsImage) : Labels := fun q =>
  (image.get q).map fun node => node.attrs.label

namespace Labels

/-- The label that a write leaves at a path. -/
def written (shape : Option Shape) (label : Option NodeMeta) : Data → NodeMeta
  | .blocks _ => label.getD (.file 0)
  | .inline _ =>
      match shape with
      | some (.file (.inline _)) => label.getD (.file 0)
      | _ => .file 0

def move (g : Labels) (m : String × String) : Labels :=
  match g m.1 with
  | some label => Function.update (Function.update g m.1 none) m.2 (some label)
  | none => g

/-- What a delta does to labels, next to the shapes it is applied to. -/
def apply (moves : List (String × String)) (f : Shapes) (g : Labels) : Delta → Labels
  | .write path _ data => Function.update g path (some (written (f path) (g path) data))
  | .mkdir path => Function.update g path (some ((g path).getD (.dir 0)))
  | .remove path => Subtree.erase Below g path
  | .rename _ _ => moves.foldl move g
  | .symlink path _ => Function.update g path (some (.symlink 0))
  | .setAttr path mode uid gid _ =>
      Function.update g path ((g path).map (FsImage.setAttr mode uid gid none))
  | .setXattr path name value =>
      Function.update g path ((g path).map (FsImage.setXattr name value))

/-- A write leaves the same label wherever it finds the same shape and label, and a block
write wherever it finds the same label. -/
theorem apply_congr {moves : List (String × String)} {f f' : Shapes} {g : Labels} {d : Delta}
    (h : ∀ path offset data, d = .write path offset (.inline data) → f path = f' path) :
    apply moves f g d = apply moves f' g d := by
  cases d with
  | mkdir | remove | rename | symlink | setAttr | setXattr => rfl
  | write path offset data =>
      cases data with
      | blocks refs => rfl
      | inline data => rw [apply, apply, h path offset data rfl]

end Labels

namespace FsImage

theorem labels_eq_none {image : FsImage} {q : String} :
    image.labels q = none ↔ image.get q = none :=
  Option.map_eq_none_iff

theorem labels_insert (m : ExtTreeMap String Node compare) (path : String) (node : Node) :
    labels { nodes := m.insert path node } =
      Function.update (labels { nodes := m }) path (some node.attrs.label) := by
  funext q
  rw [labels, get_insert, Function.update_apply, Function.update_apply]
  split
  · rfl
  · rfl

theorem labels_modify (image : FsImage) (path : String) {f f' : NodeMeta → NodeMeta}
    (hf : ∀ attrs, (f attrs).label = f' attrs.label) :
    labels { nodes := image.nodes.modify path (.mapAttrs f) } =
      Function.update image.labels path ((image.labels path).map f') := by
  funext q
  rw [labels, get_modify, Function.update_apply, Function.update_apply]
  split
  · rw [labels, Option.map_map, Option.map_map]
    congr 1
    funext node
    cases node <;> exact hf _
  · rfl

theorem labels_move (image : FsImage) (p q : String) :
    (image.move p q).labels = image.labels.move (p, q) := by
  funext x
  rw [Labels.move, labels, labels]
  cases h : image.get p with
  | none =>
      rw [move_none h]
      rfl
  | some node =>
      rw [get_move h]
      dsimp only [Option.map_some]
      rw [Function.update_apply, Function.update_apply, Function.update_apply,
        Function.update_apply]
      split
      · rfl
      split
      · rfl
      · rfl

theorem labels_moves (ms : List (String × String)) : ∀ image : FsImage,
    (ms.foldl (fun image m => image.move m.1 m.2) image).labels = ms.foldl Labels.move image.labels := by
  induction ms with
  | nil => exact fun _ => rfl
  | cons m ms ih =>
      intro image
      rw [List.foldl_cons, List.foldl_cons, ih, labels_move]

/-- The label of the node that a write leaves. -/
theorem label_written (now : Int) (image : FsImage) (path : String) (offset : Nat) (data : Data) :
    (image.written now path offset data).attrs.label =
      Labels.written (image.shapes path) (image.labels path) data := by
  cases hget : image.get path with
  | none =>
      have hnode : image.nodes[path]? = none := hget
      cases data <;> simp only [written, Labels.written, shapes, labels, hget, hnode] <;> rfl
  | some node =>
      have hnode : image.nodes[path]? = some node := hget
      cases data with
      | blocks refs =>
          simp only [written, Labels.written, labels, hget, hnode]
          rfl
      | inline data =>
          simp only [written, Labels.written, shapes, labels, hget, hnode]
          cases node with
          | file content attrs => cases content <;> rfl
          | dir attrs => rfl
          | symlink target attrs => rfl

/-- What a delta does to the labels does not depend on the clock. -/
theorem labels_apply (now : Int) (image : FsImage) (d : Delta) :
    (image.apply now d).labels = image.labels.apply (image.movesOf d) image.shapes d := by
  cases d with
  | write path offset data =>
      rw [apply, labels_insert, label_written]
      rfl
  | mkdir path =>
      funext q
      rw [labels, get_mkdir, Labels.apply, Function.update_apply, Function.update_apply]
      split
      · rw [labels]
        cases image.get path with
        | none => rfl
        | some node => rfl
      · rfl
  | remove path =>
      funext q
      rw [apply, labels, get_remove, Labels.apply, Subtree.erase, Subtree.erase]
      split
      · rfl
      · rfl
  | rename source dest =>
      rw [apply, rename_eq_moves, labels_moves]
      rfl
  | symlink path target => exact labels_insert image.nodes path _
  | setAttr path mode uid gid mtimeMs => exact image.labels_modify path fun _ => rfl
  | setXattr path name value =>
      refine image.labels_modify path fun attrs => ?_
      cases value <;> rfl

/-! ## Images that differ by their times -/

/-- Two images show the same, but for the times. -/
structure SameFaces (a b : FsImage) : Prop where
  shapes : a.shapes = b.shapes
  labels : a.labels = b.labels

namespace SameFaces

theorem refl (image : FsImage) : image.SameFaces image := ⟨rfl, rfl⟩

theorem symm {a b : FsImage} (h : a.SameFaces b) : b.SameFaces a := ⟨h.shapes.symm, h.labels.symm⟩

theorem trans {a b c : FsImage} (h : a.SameFaces b) (h' : b.SameFaces c) : a.SameFaces c :=
  ⟨h.shapes.trans h'.shapes, h.labels.trans h'.labels⟩

theorem apply {a b : FsImage} (h : a.SameFaces b) (now now' : Int) (d : Delta) :
    (a.apply now d).SameFaces (b.apply now' d) := by
  have hmoves : a.movesOf d = b.movesOf d := movesOf_congr (fun q => by rw [h.shapes]) d
  refine ⟨shapes_apply_congr h.shapes now now' d, ?_⟩
  rw [labels_apply, labels_apply, hmoves, h.shapes, h.labels]

theorem applied (clock clock' : Nat → Int) (deltas : List Delta) : ∀ {a b : FsImage} (n m : Nat),
    a.SameFaces b → (applied clock n a deltas).SameFaces (FsImage.applied clock' m b deltas) := by
  induction deltas with
  | nil => exact fun _ _ h => h
  | cons d deltas ih => exact fun n m h => ih (n + 1) (m + 1) (h.apply _ _ d)

end SameFaces

end FsImage

end Landslide.Fuse
