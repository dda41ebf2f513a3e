import Landslide.Fuse.Handles

/-!
# Images without attributes

The shape of a node is its kind, the content of a file and the target of a symlink.
What a delta does to the shapes of an image depends on nothing else: not on the clock
(`FsImage.shapes_apply`), and for a rename only on which paths there are
(`FsImage.movesOf_congr`), since a rename is a list of moves.
-/

namespace Landslide.Fuse

open Std

/-! ## Shapes -/

/-- A node without its attributes. -/
inductive Shape where
  | file (content : Content)
  | dir
  | symlink (target : String)
deriving DecidableEq

def Node.shape : Node → Shape
  | .file content _ => .file content
  | .dir _ => .dir
  | .symlink target _ => .symlink target

theorem Node.shape_mapAttrs (f : NodeMeta → NodeMeta) (node : Node) :
    (node.mapAttrs f).shape = node.shape := by
  cases node <;> rfl

/-- The shapes of an image. -/
abbrev Shapes : Type := String → Option Shape

def FsImage.shapes (image : FsImage) : Shapes := fun q => (image.get q).map Node.shape

namespace Shapes

/-- The content that a write leaves at a path. -/
def written (shape : Option Shape) (offset : Nat) : Data → Content
  | .blocks blocks => .blocks blocks (blocks.map (·.len)).sum
  | .inline data =>
      match shape with
      | some (.file (.inline bytes)) => .inline (FsImage.splice bytes offset data)
      | _ => .inline (FsImage.splice [] offset data)

/-- Moves the file at one path to another, if it is there. -/
def move (f : Shapes) (m : String × String) : Shapes :=
  match f m.1 with
  | some shape => Function.update (Function.update f m.1 none) m.2 (some shape)
  | none => f

/-- What a delta does to shapes, a rename by a list of moves. -/
def apply (moves : List (String × String)) (f : Shapes) : Delta → Shapes
  | .write path offset data =>
      Function.update f path (some (.file (written (f path) offset data)))
  | .mkdir path => Function.update f path (some ((f path).getD .dir))
  | .remove path => Subtree.erase Below f path
  | .rename _ _ => moves.foldl move f
  | .symlink path target => Function.update f path (some (.symlink target))
  | .setAttr .. => f
  | .setXattr .. => f

end Shapes

namespace FsImage

/-- The moves of a rename, in order. -/
def moves (image : FsImage) (source dest : String) : List (String × String) :=
  (source, dest) :: ((image.move source dest).descendants (slash source)).map fun p =>
    (p, moved source dest p)

def movesOf (image : FsImage) : Delta → List (String × String)
  | .rename source dest => image.moves source dest
  | _ => []

theorem shapes_eq_none {image : FsImage} {q : String} :
    image.shapes q = none ↔ image.get q = none :=
  Option.map_eq_none_iff

theorem get_of_shapes {image : FsImage} {path : String} {content : Content}
    (h : image.shapes path = some (.file content)) :
    ∃ attrs, image.get path = some (.file content attrs) := by
  obtain ⟨node, hget, hshape⟩ := Option.map_eq_some_iff.mp h
  cases node with
  | file c attrs =>
      cases hshape
      exact ⟨attrs, hget⟩
  | dir attrs => cases hshape
  | symlink target attrs => cases hshape

theorem shapes_move (image : FsImage) (p q : String) :
    (image.move p q).shapes = image.shapes.move (p, q) := by
  funext x
  rw [Shapes.move, shapes, shapes]
  cases h : image.get p with
  | none =>
      rw [move_none h]
      rfl
  | some node =>
      rw [get_move h]
      dsimp only [Option.map_some]
      rw [Function.update_apply, Function.update_apply, Function.update_apply,
        Function.update_apply]
      split
      · rfl
      split
      · rfl
      · rfl

theorem rename_eq_moves (image : FsImage) (source dest : String) :
    image.rename source dest =
      (image.moves source dest).foldl (fun image m => image.move m.1 m.2) image := by
  rw [rename, range_eq_filter _ ExtTreeMap.ordered_keys, moves, List.foldl_cons, List.foldl_map]
  rfl

theorem shapes_moves (ms : List (String × String)) : ∀ image : FsImage,
    (ms.foldl (fun image m => image.move m.1 m.2) image).shapes = ms.foldl Shapes.move image.shapes := by
  induction ms with
  | nil => exact fun _ => rfl
  | cons m ms ih =>
      intro image
      rw [List.foldl_cons, List.foldl_cons, ih, shapes_move]

theorem shapes_insert (m : ExtTreeMap String Node compare) (path : String) (node : Node) :
    shapes { nodes := m.insert path node } =
      Function.update (shapes { nodes := m }) path (some node.shape) := by
  funext q
  rw [shapes, get_insert, Function.update_apply, Function.update_apply]
  split
  · rfl
  · rfl

/-- What a delta does to the shapes does not depend on the clock. -/
theorem shapes_apply (now : Int) (image : FsImage) (d : Delta) :
    (image.apply now d).shapes = image.shapes.apply (image.movesOf d) d := by
  cases d with
  | write path offset data =>
      rw [apply, shapes_insert, Shapes.apply]
      congr 2
      cases data with
      | blocks blocks => rfl
      | inline data =>
          cases hget : image.get path with
          | none =>
              have hnode : image.nodes[path]? = none := hget
              simp only [written, shapes, hget, hnode]
              rfl
          | some node =>
              have hnode : image.nodes[path]? = some node := hget
              simp only [written, shapes, hget, hnode]
              cases node with
              | file content attrs => cases content <;> rfl
              | dir attrs => rfl
              | symlink target attrs => rfl
  | mkdir path =>
      funext q
      rw [shapes, get_mkdir, Shapes.apply, Function.update_apply, Function.update_apply]
      split
      · rw [shapes]
        cases image.get path with
        | none => rfl
        | some node => rfl
      · rfl
  | remove path =>
      funext q
      rw [apply, shapes, get_remove, Shapes.apply, Subtree.erase, Subtree.erase]
      split
      · rfl
      · rfl
  | rename source dest =>
      rw [apply, rename_eq_moves, shapes_moves]
      rfl
  | symlink path target => exact shapes_insert image.nodes path _
  | setAttr path mode uid gid mtimeMs =>
      funext q
      rw [apply, shapes, get_modify, Function.update_apply, Shapes.apply, shapes]
      split
      · next hq =>
        rw [hq, Option.map_map]
        congr 1
        funext node
        exact Node.shape_mapAttrs _ node
      · rfl
  | setXattr path name value =>
      funext q
      rw [apply, shapes, get_modify, Function.update_apply, Shapes.apply, shapes]
      split
      · next hq =>
        rw [hq, Option.map_map]
        congr 1
        funext node
        exact Node.shape_mapAttrs _ node
      · rfl

/-- Images with the same paths make the same moves. -/
theorem movesOf_congr {a b : FsImage} (h : ∀ q, a.shapes q = none ↔ b.shapes q = none) (d : Delta) :
    a.movesOf d = b.movesOf d := by
  cases d with
  | rename source dest =>
      have hmoved : ∀ q, (a.move source dest).shapes q = none ↔
          (b.move source dest).shapes q = none := by
        intro q
        rw [shapes_move, shapes_move, Shapes.move, Shapes.move]
        cases ha : a.shapes source with
        | none =>
            rw [(h source).mp ha]
            exact h q
        | some x =>
            cases hb : b.shapes source with
            | none => rw [(h source).mpr hb] at ha; cases ha
            | some y =>
                dsimp only
                rw [Function.update_apply, Function.update_apply, Function.update_apply,
                  Function.update_apply]
                split
                · simp
                split
                · simp
                · exact h q
      have hdesc : (a.move source dest).descendants (slash source) =
          (b.move source dest).descendants (slash source) := by
        refine descendants_congr fun p _ => ?_
        rw [ne_eq, ne_eq, ← shapes_eq_none, ← shapes_eq_none, hmoved]
      rw [movesOf, movesOf, moves, moves, hdesc]
  | write | mkdir | remove | symlink | setAttr | setXattr => rfl

/-- Images of the same shapes keep the same shapes, whatever the clock. -/
theorem shapes_apply_congr {a b : FsImage} (h : a.shapes = b.shapes) (now now' : Int) (d : Delta) :
    (a.apply now d).shapes = (b.apply now' d).shapes := by
  have hmoves : a.movesOf d = b.movesOf d := movesOf_congr (fun q => by rw [h]) d
  rw [shapes_apply, shapes_apply, hmoves, h]

theorem shapes_applied_congr (clock clock' : Nat → Int) (deltas : List Delta) :
    ∀ {a b : FsImage} (n m : Nat), a.shapes = b.shapes →
      (applied clock n a deltas).shapes = (applied clock' m b deltas).shapes := by
  induction deltas with
  | nil => exact fun _ _ h => h
  | cons d deltas ih => exact fun n m h => ih (n + 1) (m + 1) (shapes_apply_congr h _ _ d)

end FsImage

end Landslide.Fuse
