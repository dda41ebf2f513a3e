import Landslide.Envelope
import Landslide.Fuse.Path

/-!
# File system images

The nodes, deltas and segments of `landslide-fuse/src/lib.rs`, and what a delta and
a segment do to the in-memory image of a volume.  A node that a delta creates is
stamped by the clock, so `apply` takes the reading of the clock as an argument.

A rename moves nodes one by one (`move`): the node at the path itself, and then
those below it in the order of their paths.  When neither of the two paths lies
below the other, these are the descendants of the image before (`rename_eq`).
-/

namespace Landslide.Fuse

open Std

/-! ## Nodes -/

structure NodeMeta where
  mode : UInt32
  uid : UInt32
  gid : UInt32
  mtimeMs : Int
  xattrs : ExtTreeMap String Bytes compare := ∅
deriving DecidableEq

namespace NodeMeta

def file (now : Int) : NodeMeta := { mode := 0o644, uid := 0, gid := 0, mtimeMs := now }
def dir (now : Int) : NodeMeta := { mode := 0o755, uid := 0, gid := 0, mtimeMs := now }
def symlink (now : Int) : NodeMeta := { mode := 0o777, uid := 0, gid := 0, mtimeMs := now }

end NodeMeta

/-- Location of a block of content in the bucket. -/
structure BlockRef where
  hash : String
  len : Nat
deriving DecidableEq, Repr

/-- File bytes, or the blocks that hold them. -/
inductive Content where
  | inline (bytes : Bytes)
  | blocks (blocks : List BlockRef) (size : Nat)
deriving DecidableEq, Repr

def Content.len : Content → Nat
  | .inline bytes => bytes.length
  | .blocks _ size => size

inductive Node where
  | file (content : Content) (attrs : NodeMeta)
  | dir (attrs : NodeMeta)
  | symlink (target : String) (attrs : NodeMeta)
deriving DecidableEq

namespace Node

def attrs : Node → NodeMeta
  | .file _ attrs => attrs
  | .dir attrs => attrs
  | .symlink _ attrs => attrs

def mapAttrs (f : NodeMeta → NodeMeta) : Node → Node
  | .file content attrs => .file content (f attrs)
  | .dir attrs => .dir (f attrs)
  | .symlink target attrs => .symlink target (f attrs)

end Node

/-! ## Deltas and segments -/

/-- File data of a write. -/
inductive Data where
  | inline (bytes : Bytes)
  | blocks (blocks : List BlockRef)
deriving DecidableEq, Repr

/-- Chunk size for block storage. -/
def chunk : Nat := 1024 * 1024

/-- One file system mutation. -/
inductive Delta where
  | write (path : String) (offset : Nat) (data : Data)
  | mkdir (path : String)
  | remove (path : String)
  | rename (source dest : String)
  | symlink (path target : String)
  | setAttr (path : String) (mode uid gid : Option UInt32) (mtimeMs : Option Int)
  | setXattr (path name : String) (value : Option Bytes)
deriving DecidableEq, Repr

/-- A sealed set of changes: a node or a tombstone for every path. -/
structure Segment where
  entries : ExtTreeMap String (Option Node) compare := ∅
deriving DecidableEq

/-- The segments that compose the state, in order. -/
structure Manifest where
  segments : List String := []
deriving DecidableEq, Repr

/-- In-memory image of a volume. -/
structure FsImage where
  nodes : ExtTreeMap String Node compare := ∅
deriving DecidableEq

namespace FsImage

/-! ## Apply -/

/-- Writes `data` over `bytes` at `offset`, with zeros for a gap. -/
def splice (bytes : Bytes) (offset : Nat) (data : Bytes) : Bytes :=
  let c := bytes ++ List.replicate (offset + data.length - bytes.length) 0
  c.take offset ++ data ++ c.drop (offset + data.length)

/-- The node that a write leaves at its path. -/
def written (now : Int) (image : FsImage) (path : String) (offset : Nat) : Data → Node
  | .blocks blocks =>
      .file (.blocks blocks (blocks.map (·.len)).sum)
        ((image.nodes[path]?.map Node.attrs).getD (.file now))
  | .inline data =>
      match image.nodes[path]? with
      | some (.file (.inline bytes) attrs) => .file (.inline (splice bytes offset data)) attrs
      | _ => .file (.inline (splice [] offset data)) (.file now)

/-- Takes away a path and everything below it. -/
def remove (image : FsImage) (path : String) : FsImage :=
  { nodes := (image.nodes.erase path).filter fun p _ => !startsWith p (slash path) }

/-- Moves one node, if it is there. -/
def move (image : FsImage) (p q : String) : FsImage :=
  match image.nodes[p]? with
  | some node => { nodes := (image.nodes.erase p).insert q node }
  | none => image

/-- Where a rename takes a path below `source`. -/
def moved (source dest p : String) : String := slash dest ++ dropStart p (slash source)

def rename (image : FsImage) (source dest : String) : FsImage :=
  let image := image.move source dest
  (range image.nodes.keys (slash source)).foldl
    (fun image p => image.move p (moved source dest p)) image

def setAttr (mode uid gid : Option UInt32) (mtimeMs : Option Int) (attrs : NodeMeta) : NodeMeta :=
  { attrs with
    mode := mode.getD attrs.mode
    uid := uid.getD attrs.uid
    gid := gid.getD attrs.gid
    mtimeMs := mtimeMs.getD attrs.mtimeMs }

def setXattr (name : String) (value : Option Bytes) (attrs : NodeMeta) : NodeMeta :=
  match value with
  | some v => { attrs with xattrs := attrs.xattrs.insert name v }
  | none => { attrs with xattrs := attrs.xattrs.erase name }

/-- What a delta does to an image when the clock shows `now`. -/
def apply (now : Int) (image : FsImage) : Delta → FsImage
  | .write path offset data =>
      { nodes := image.nodes.insert path (image.written now path offset data) }
  | .mkdir path => { nodes := image.nodes.insertIfNew path (.dir (.dir now)) }
  | .remove path => image.remove path
  | .rename source dest => image.rename source dest
  | .symlink path target => { nodes := image.nodes.insert path (.symlink target (.symlink now)) }
  | .setAttr path mode uid gid mtimeMs =>
      { nodes := image.nodes.modify path (.mapAttrs (setAttr mode uid gid mtimeMs)) }
  | .setXattr path name value =>
      { nodes := image.nodes.modify path (.mapAttrs (setXattr name value)) }

/-- Applies deltas in order.  `clock v` is the reading for the delta of version
`v`. -/
def applied (clock : Nat → Int) : Nat → FsImage → List Delta → FsImage
  | _, image, [] => image
  | v, image, d :: deltas => applied clock (v + 1) (image.apply (clock v) d) deltas

/-- One entry of a segment. -/
def mergeEntry (image : FsImage) (entry : String × Option Node) : FsImage :=
  match entry.2 with
  | some node => { nodes := image.nodes.insert entry.1 node }
  | none => image.remove entry.1

def mergeSegment (image : FsImage) (segment : Segment) : FsImage :=
  segment.entries.toList.foldl mergeEntry image

/-! ## Images as maps -/

/-- The node at a path. -/
def get (image : FsImage) (path : String) : Option Node := image.nodes[path]?

theorem ext_get {a b : FsImage} (h : a.get = b.get) : a = b := by
  obtain ⟨m⟩ := a
  obtain ⟨m'⟩ := b
  congr 1
  exact ExtTreeMap.ext_getElem? fun path => congrFun h path

theorem get_insert (m : ExtTreeMap String Node compare) (path : String) (node : Node) :
    get { nodes := m.insert path node } = Function.update (get { nodes := m }) path (some node) := by
  funext q
  rw [get, ExtTreeMap.getElem?_insert, Function.update_apply]
  by_cases hq : q = path
  · simp [hq]
  · simp [hq, Ne.symm hq, get]

theorem get_remove (image : FsImage) (path : String) :
    (image.remove path).get = Subtree.erase Below image.get path := by
  funext q
  rw [get, remove, ExtTreeMap.getElem?_filter', ExtTreeMap.getElem?_erase, Subtree.erase]
  by_cases hq : q = path
  · simp [hq]
  · by_cases hb : Below path q
    · have hs : startsWith q (slash path) = true := hb
      simp [hq, Ne.symm hq, hb, hs]
    · have hs : startsWith q (slash path) = false := by simpa [Below] using hb
      cases hget : image.nodes[q]? <;> simp [hq, Ne.symm hq, hb, hs, get, hget]

theorem get_mergeEntry (image : FsImage) (entry : String × Option Node) :
    (image.mergeEntry entry).get = Subtree.mergeEntry Below image.get entry := by
  obtain ⟨path, node⟩ := entry
  cases node with
  | some node => exact get_insert image.nodes path node
  | none => exact get_remove image path

/-- A segment is merged entry by entry, in the order of its paths. -/
theorem get_mergeSegment (image : FsImage) (segment : Segment) :
    (image.mergeSegment segment).get = Subtree.merge Below image.get segment.entries.toList := by
  rw [mergeSegment, Subtree.merge]
  generalize segment.entries.toList = l
  induction l generalizing image with
  | nil => rfl
  | cons entry l ih => rw [List.foldl_cons, ih, get_mergeEntry, List.foldl_cons]

/-- The paths of an image with a prefix. -/
def descendants (image : FsImage) (pre : String) : List String :=
  image.nodes.keys.filter fun p => startsWith p pre

theorem mem_keys {image : FsImage} {p : String} :
    p ∈ image.nodes.keys ↔ image.get p ≠ none := by
  rw [ExtTreeMap.mem_keys, get, ← ExtTreeMap.isSome_getElem?_iff_mem]
  cases image.nodes[p]? <;> simp

theorem mem_descendants {image : FsImage} {k p : String} :
    p ∈ image.descendants (slash k) ↔ Below k p ∧ image.get p ≠ none := by
  rw [descendants, List.mem_filter, mem_keys]
  exact And.comm

theorem descendants_sorted (image : FsImage) (pre : String) :
    (image.descendants pre).Pairwise fun a b => compare a b = .lt :=
  List.Pairwise.filter _ ExtTreeMap.ordered_keys

theorem descendants_nodup (image : FsImage) (pre : String) : (image.descendants pre).Nodup :=
  (image.descendants_sorted pre).imp fun h => by
    rintro rfl
    simp at h

/-- Images with the same paths below `k` have the same descendants. -/
theorem descendants_congr {a b : FsImage} {k : String}
    (h : ∀ p, Below k p → (a.get p ≠ none ↔ b.get p ≠ none)) :
    a.descendants (slash k) = b.descendants (slash k) := by
  have hirr : Std.Irrefl fun p q : String => compare p q = .lt := ⟨fun p => by simp⟩
  have hanti : Std.Antisymm fun p q : String => compare p q = .lt :=
    ⟨fun p q hpq hqp => absurd (TransCmp.lt_trans hpq hqp) (by simp)⟩
  refine (a.descendants_sorted _).eq_of_mem_iff (b.descendants_sorted _) fun p => ?_
  rw [mem_descendants, mem_descendants]
  constructor
  · rintro ⟨hb, hp⟩
    exact ⟨hb, (h p hb).mp hp⟩
  · rintro ⟨hb, hp⟩
    exact ⟨hb, (h p hb).mpr hp⟩

/-! ## Moves -/

theorem move_none {image : FsImage} {p : String} (h : image.get p = none) (q : String) :
    image.move p q = image := by
  have h : image.nodes[p]? = none := h
  rw [move, h]

theorem get_move {image : FsImage} {p : String} {node : Node} (h : image.get p = some node)
    (q : String) :
    (image.move p q).get = Function.update (Function.update image.get p none) q (some node) := by
  have hmove : image.move p q = { nodes := (image.nodes.erase p).insert q node } := by
    have h : image.nodes[p]? = some node := h
    rw [move, h]
  have herase : get { nodes := image.nodes.erase p } = Function.update image.get p none := by
    funext x
    rw [get, ExtTreeMap.getElem?_erase, Function.update_apply]
    by_cases hx : x = p
    · simp [hx]
    · simp [hx, Ne.symm hx, get]
  rw [hmove, get_insert, herase]

/-- A move changes nothing but its two paths. -/
theorem get_move_of_ne {image : FsImage} {p q x : String} (hp : x ≠ p) (hq : x ≠ q) :
    (image.move p q).get x = image.get x := by
  cases h : image.get p with
  | none => rw [move_none h]
  | some node => rw [get_move h, Function.update_of_ne hq, Function.update_of_ne hp]

theorem not_below_self (k : String) : ¬ Below k k := by
  intro h
  have hlt := h.lt
  simp at hlt

/-- A rename between paths that are not nested moves the descendants it starts
with. -/
theorem rename_eq {source dest : String} (hn : ¬ Nested source dest) (image : FsImage) :
    image.rename source dest = (image.descendants (slash source)).foldl
      (fun image p => image.move p (moved source dest p)) (image.move source dest) := by
  have hsame : (image.move source dest).descendants (slash source) =
      image.descendants (slash source) := by
    refine descendants_congr fun p hp => ?_
    rw [get_move_of_ne]
    · rintro rfl
      exact not_below_self p hp
    · rintro rfl
      exact hn (.inl hp)
  rw [rename, range_eq_filter _ ExtTreeMap.ordered_keys]
  change ((image.move source dest).descendants (slash source)).foldl _ _ = _
  rw [hsame]

/-- Where a rename takes a path is below the destination, so not below a source
that is not nested with it. -/
theorem not_below_moved {source dest : String} (hn : ¬ Nested source dest) (hne : source ≠ dest)
    (p : String) : ¬ Below source (moved source dest p) :=
  not_below_of_not_nested hn hne (below_slash dest _)

/-- A rename of a path to itself takes what is below to itself. -/
theorem moved_self {source p : String} (h : Below source p) : moved source source p = p := by
  obtain ⟨x, rfl⟩ := below_iff.mp h
  rw [moved, dropStart_append]

/-! ## What a rename leaves -/

theorem get_moves_other {f : String → String} {q : String} : ∀ {l : List String} {image : FsImage},
    q ∉ l → (∀ p ∈ l, f p ≠ q) →
      (l.foldl (fun image p => image.move p (f p)) image).get q = image.get q
  | [], _, _, _ => rfl
  | p :: l, image, hq, hf => by
      rw [List.mem_cons, not_or] at hq
      rw [List.foldl_cons, get_moves_other hq.2 fun p' hp' => hf p' (List.mem_cons_of_mem _ hp')]
      exact get_move_of_ne hq.1 (hf p List.mem_cons_self).symm

theorem get_moves_source {f : String → String} {q : String} : ∀ {l : List String}
    {image : FsImage}, (∀ p ∈ l, f p ∉ l) → q ∈ l →
      (l.foldl (fun image p => image.move p (f p)) image).get q = none
  | p :: l, image, hf, hq => by
      have hrest : ∀ p' ∈ l, f p' ∉ l := fun p' hp' hmem =>
        hf p' (List.mem_cons_of_mem _ hp') (List.mem_cons_of_mem _ hmem)
      rw [List.foldl_cons]
      by_cases hmem : q ∈ l
      · exact get_moves_source hrest hmem
      obtain rfl : q = p := (List.mem_cons.mp hq).resolve_right hmem
      rw [get_moves_other hmem]
      · cases hget : image.get q with
        | none => rw [move_none hget, hget]
        | some node =>
            rw [get_move hget, Function.update_of_ne, Function.update_self]
            rintro heq
            exact hf q List.mem_cons_self (heq ▸ List.mem_cons_self)
      · rintro p' hp' rfl
        exact hf p' (List.mem_cons_of_mem _ hp') List.mem_cons_self

theorem get_moves_target {f : String → String} {q : String} {node : Node} : ∀ {l : List String}
    {image : FsImage}, l.Nodup → (∀ p ∈ l, f p ∉ l) → (∀ p ∈ l, ∀ p' ∈ l, f p = f p' → p = p') →
      q ∈ l → image.get q = some node →
      (l.foldl (fun image p => image.move p (f p)) image).get (f q) = some node
  | p :: l, image, hnodup, hf, hinj, hq, hget => by
      obtain ⟨hp, hnodup⟩ := List.nodup_cons.mp hnodup
      rw [List.foldl_cons]
      rcases List.mem_cons.mp hq with rfl | hmem
      · rw [get_moves_other, get_move hget, Function.update_self]
        · exact fun h => hf q List.mem_cons_self (List.mem_cons_of_mem _ h)
        · rintro p' hp' heq
          have := hinj p' (List.mem_cons_of_mem _ hp') q List.mem_cons_self heq
          exact hp (this ▸ hp')
      · refine get_moves_target hnodup (fun p' hp' h => ?_) (fun p₁ h₁ p₂ h₂ => ?_) hmem ?_
        · exact hf p' (List.mem_cons_of_mem _ hp') (List.mem_cons_of_mem _ h)
        · exact hinj p₁ (List.mem_cons_of_mem _ h₁) p₂ (List.mem_cons_of_mem _ h₂)
        · rw [get_move_of_ne, hget]
          · rintro rfl
            exact hp hmem
          · rintro rfl
            exact hf p List.mem_cons_self (List.mem_cons_of_mem _ hmem)

/-- Where a rename takes a path below its source is not a path below the source. -/
theorem moved_notMem_descendants {source dest : String} (hn : ¬ Nested source dest)
    (hne : source ≠ dest) (image : FsImage) (p : String) :
    moved source dest p ∉ image.descendants (slash source) := fun h =>
  not_below_moved hn hne p (mem_descendants.mp h).1

theorem moved_inj {source dest p q : String} (hp : Below source p) (hq : Below source q)
    (h : moved source dest p = moved source dest q) : p = q := by
  obtain ⟨x, rfl⟩ := below_iff.mp hp
  obtain ⟨y, rfl⟩ := below_iff.mp hq
  rw [moved, moved, dropStart_append, dropStart_append] at h
  rw [slash_append_inj h]

/-- A path that is not nested with another one, and none that lies below it, is a path
below that one. -/
theorem not_below_of_apart {source dest : String} (hn : ¬ Nested source dest) (hne : source ≠ dest)
    {q : String} (hq : q = dest ∨ Below dest q) : q ≠ source ∧ ¬ Below source q := by
  rcases hq with rfl | hq
  · exact ⟨hne.symm, fun h => hn (.inl h)⟩
  · refine ⟨?_, not_below_of_not_nested hn hne hq⟩
    rintro rfl
    exact hn (.inr hq)

/-- A rename takes its source to the destination. -/
theorem get_rename_source {source dest : String} (hn : ¬ Nested source dest) {image : FsImage}
    {node : Node} (h : image.get source = some node) :
    (image.rename source dest).get dest = some node := by
  rw [rename_eq hn, get_moves_other, get_move h, Function.update_self]
  · exact fun hmem => hn (.inl (mem_descendants.mp hmem).1)
  · intro p _ heq
    have hbelow := below_slash dest (dropStart p (slash source))
    rw [show slash dest ++ _ = dest from heq] at hbelow
    exact not_below_self dest hbelow

/-- A rename takes what is below its source to below the destination. -/
theorem get_rename_below {source dest : String} (hn : ¬ Nested source dest) (hne : source ≠ dest)
    {image : FsImage} {p : String} {node : Node} (hp : Below source p)
    (h : image.get p = some node) :
    (image.rename source dest).get (moved source dest p) = some node := by
  rw [rename_eq hn]
  refine get_moves_target (image.descendants_nodup _)
    (fun q _ => moved_notMem_descendants hn hne image q)
    (fun q hq q' hq' heq => moved_inj (mem_descendants.mp hq).1 (mem_descendants.mp hq').1 heq)
    (mem_descendants.mpr ⟨hp, by simp [h]⟩) ?_
  rw [get_move_of_ne, h]
  · rintro rfl
    exact not_below_self p hp
  · rintro rfl
    exact hn (.inl hp)

/-- A rename leaves nothing at its source and below it. -/
theorem get_rename_gone {source dest : String} (hn : ¬ Nested source dest) (hne : source ≠ dest)
    {image : FsImage} {p : String} (hp : p = source ∨ Below source p) :
    (image.rename source dest).get p = none := by
  rw [rename_eq hn]
  by_cases hmem : p ∈ image.descendants (slash source)
  · exact get_moves_source (fun q _ => moved_notMem_descendants hn hne image q) hmem
  · rw [get_moves_other hmem]
    · cases hsource : image.get source with
      | none =>
          rw [move_none hsource]
          rcases hp with rfl | hp
          · exact hsource
          · by_contra hget
            exact hmem (mem_descendants.mpr ⟨hp, hget⟩)
      | some node =>
          have hpd : p ≠ dest := by
            rintro rfl
            rcases hp with rfl | hp
            · exact hne rfl
            · exact hn (.inl hp)
          rw [get_move hsource, Function.update_of_ne hpd, Function.update_apply]
          split
          · rfl
          · next hps =>
            by_contra hget
            exact hmem (mem_descendants.mpr ⟨hp.resolve_left hps, hget⟩)
    · rintro q - rfl
      rcases hp with heq | hp
      · exact (not_below_of_apart hn hne (.inr (below_slash dest _))).1 heq
      · exact not_below_moved hn hne q hp

/-- A rename leaves every other path, unless something is taken there. -/
theorem get_rename_other {source dest : String} (hn : ¬ Nested source dest) {image : FsImage}
    {p : String} (hps : p ≠ source) (hp : ¬ Below source p) (hpd : p ≠ dest)
    (hfree : Below dest p → image.get (moved dest source p) = none) :
    (image.rename source dest).get p = image.get p := by
  rw [rename_eq hn, get_moves_other, get_move_of_ne hps hpd]
  · exact fun hmem => hp (mem_descendants.mp hmem).1
  · rintro q hq rfl
    obtain ⟨hbelow, hget⟩ := mem_descendants.mp hq
    obtain ⟨x, rfl⟩ := below_iff.mp hbelow
    have hback := hfree (below_slash dest _)
    rw [moved, moved, dropStart_append, dropStart_append] at hback
    exact hget hback

/-- A rename of a path to itself changes nothing. -/
theorem get_rename_self (image : FsImage) (path : String) :
    (image.rename path path).get = image.get := by
  have hmove : ∀ (image : FsImage) (p : String), (image.move p p).get = image.get := by
    intro image p
    cases h : image.get p with
    | none => rw [move_none h]
    | some node => rw [get_move h, Function.update_idem, ← h, Function.update_eq_self]
  have hn : ¬ Nested path path := fun h => h.elim (not_below_self path) (not_below_self path)
  have hall : ∀ (l : List String), (∀ p ∈ l, Below path p) → ∀ image : FsImage,
      (l.foldl (fun image p => image.move p (moved path path p)) image).get = image.get := by
    intro l
    induction l with
    | nil => exact fun _ _ => rfl
    | cons p l ih =>
        intro hl image
        rw [List.foldl_cons, ih fun q hq => hl q (List.mem_cons_of_mem _ hq),
          moved_self (hl p List.mem_cons_self), hmove]
  rw [rename_eq hn, hall _ fun p hp => (mem_descendants.mp hp).1, hmove]

/-- A rename between paths that are not nested, with nothing below the destination, moves the
subtree and leaves every other path. -/
theorem apply_rename_moves (now : Int) (image : FsImage) (source dest : String)
    (hn : ¬ Nested source dest) (hfree : ∀ p, Below dest p → image.get p = none) :
    let after := image.apply now (.rename source dest)
    (∀ x, after.get (slash dest ++ x) = image.get (slash source ++ x)) ∧
      after.get dest = (image.get source).or (image.get dest) ∧
      (source ≠ dest → ∀ p, p = source ∨ Below source p → after.get p = none) ∧
      ∀ p, p ≠ source → ¬ Below source p → p ≠ dest → ¬ Below dest p →
        after.get p = image.get p := by
  rw [apply]
  by_cases hne : source = dest
  · subst hne
    simp only [get_rename_self]
    refine ⟨fun _ => trivial, ?_, fun h => absurd rfl h, fun _ _ _ _ _ => trivial⟩
    cases image.get source <;> rfl
  refine ⟨fun x => ?_, ?_, fun _ p hp => get_rename_gone hn hne hp, fun p hps hp hpd hbelow =>
    get_rename_other hn hps hp hpd fun h => absurd h hbelow⟩
  · cases hget : image.get (slash source ++ x) with
    | some node =>
        have hmoved := get_rename_below hn hne (below_slash source x) hget
        rwa [moved, dropStart_append] at hmoved
    | none =>
        obtain ⟨hps, hp⟩ := not_below_of_apart hn hne (.inr (below_slash dest x))
        have hpd : slash dest ++ x ≠ dest := by
          intro heq
          have hbelow := below_slash dest x
          rw [heq] at hbelow
          exact not_below_self dest hbelow
        rw [get_rename_other hn hps hp hpd fun _ => by rwa [moved, dropStart_append]]
        exact hfree _ (below_slash dest x)
  · cases hget : image.get source with
    | some node => exact get_rename_source hn hget
    | none =>
        obtain ⟨hps, hp⟩ := not_below_of_apart hn hne (.inl rfl)
        rw [rename_eq hn, move_none hget, get_moves_other]
        · rfl
        · exact fun hmem => hp (mem_descendants.mp hmem).1
        · intro p _ heq
          have hbelow := below_slash dest (dropStart p (slash source))
          rw [show slash dest ++ _ = dest from heq] at hbelow
          exact not_below_self dest hbelow

/-- A directory with a file, and a sibling whose name starts the same. -/
def siblings : FsImage where
  nodes := .ofList ([("/d", .dir (.dir 1)), ("/d-x", .file (.inline []) (.file 1)),
    ("/d/f", .file (.inline [7]) (.file 1))] : List (String × Node)) compare

theorem apply_rename_moves_siblings :
    (siblings.apply 2 (.rename "/d" "/e")).get "/e/f" = siblings.get "/d/f" ∧
      (siblings.apply 2 (.rename "/d" "/e")).get "/d-x" = siblings.get "/d-x" := by
  have hfree : ∀ p, Below "/e" p → siblings.get p = none := by
    intro p hp
    by_contra hget
    have hmem : p ∈ siblings.nodes.keys := mem_keys.mpr hget
    have hkeys : siblings.nodes.keys = ["/d", "/d-x", "/d/f"] := by decide +kernel
    rw [hkeys] at hmem
    simp only [List.mem_cons, List.not_mem_nil, or_false] at hmem
    rcases hmem with rfl | rfl | rfl
    · exact absurd hp (by decide)
    · exact absurd hp (by decide)
    · exact absurd hp (by decide)
  obtain ⟨hbelow, -, -, hother⟩ :=
    apply_rename_moves 2 siblings "/d" "/e" (by decide) hfree
  exact ⟨hbelow "f", hother "/d-x" (by decide) (by decide) (by decide) (by decide)⟩

/-! ## Deltas that touch one path -/

/-- The one path that a delta changes, unless it is about a subtree. -/
def target : Delta → Option String
  | .write path _ _ => some path
  | .mkdir path => some path
  | .remove _ => none
  | .rename _ _ => none
  | .symlink path _ => some path
  | .setAttr path _ _ _ _ => some path
  | .setXattr path _ _ => some path

theorem get_modify (image : FsImage) (path : String) (f : Node → Node) :
    get { nodes := image.nodes.modify path f } =
      Function.update image.get path ((image.get path).map f) := by
  funext q
  rw [get, ExtTreeMap.getElem?_modify, Function.update_apply]
  by_cases hq : q = path
  · simp [hq, get]
  · simp [hq, Ne.symm hq, get]

theorem get_mkdir (now : Int) (image : FsImage) (path : String) :
    (image.apply now (.mkdir path)).get =
      Function.update image.get path (some ((image.get path).getD (.dir (.dir now)))) := by
  have hmem : path ∈ image.nodes ↔ image.get path ≠ none := by
    rw [← mem_keys, ExtTreeMap.mem_keys]
  funext q
  rw [apply, get, ExtTreeMap.getElem?_insertIfNew, Function.update_apply]
  simp only [Std.compare_eq_iff_eq, hmem]
  by_cases hq : q = path
  · subst hq
    rw [if_pos rfl]
    cases hget : image.get q with
    | none =>
        rw [if_pos (by simp)]
        rfl
    | some node =>
        rw [if_neg (by simp)]
        exact hget
  · rw [if_neg hq, if_neg fun h => hq h.1.symm]
    rfl

/-- A delta about one path changes that path only, and never leaves it empty when
there was a node. -/
theorem get_apply_of_target {d : Delta} {path : String} (ht : target d = some path) (now : Int)
    (image : FsImage) :
    (∀ q, q ≠ path → (image.apply now d).get q = image.get q) ∧
      ((image.apply now d).get path = none → image.get path = none) := by
  cases d with
  | remove => cases ht
  | rename => cases ht
  | write p offset data =>
      cases ht
      rw [apply, get_insert]
      refine ⟨fun q hq => Function.update_of_ne hq _ _, fun h => ?_⟩
      rw [Function.update_self] at h
      cases h
  | symlink p target =>
      cases ht
      rw [apply, get_insert]
      refine ⟨fun q hq => Function.update_of_ne hq _ _, fun h => ?_⟩
      rw [Function.update_self] at h
      cases h
  | mkdir path =>
      cases ht
      rw [get_mkdir]
      refine ⟨fun q hq => Function.update_of_ne hq _ _, fun h => ?_⟩
      rw [Function.update_self] at h
      cases h
  | setAttr p mode uid gid mtimeMs =>
      cases ht
      rw [apply, get_modify]
      refine ⟨fun q hq => Function.update_of_ne hq _ _, fun h => ?_⟩
      rw [Function.update_self] at h
      exact Option.map_eq_none_iff.mp h
  | setXattr p name value =>
      cases ht
      rw [apply, get_modify]
      refine ⟨fun q hq => Function.update_of_ne hq _ _, fun h => ?_⟩
      rw [Function.update_self] at h
      exact Option.map_eq_none_iff.mp h

/-! ## Runs of deltas -/

theorem applied_append (clock : Nat → Int) (v : Nat) (image : FsImage) (ds ds' : List Delta) :
    applied clock v image (ds ++ ds') =
      applied clock (v + ds.length) (applied clock v image ds) ds' := by
  induction ds generalizing v image with
  | nil => rfl
  | cons d ds ih =>
      rw [List.cons_append, applied, applied, ih, List.length_cons]
      congr 1
      omega

/-- Only the readings for the versions of the deltas matter. -/
theorem applied_congr {clock clock' : Nat → Int} {v : Nat} {ds : List Delta}
    (h : ∀ w, v ≤ w → w < v + ds.length → clock w = clock' w) (image : FsImage) :
    applied clock v image ds = applied clock' v image ds := by
  induction ds generalizing v image with
  | nil => rfl
  | cons d ds ih =>
      rw [List.length_cons] at h
      rw [applied, applied, h v le_rfl (by omega)]
      exact ih (fun w hv hw => h w (by omega) (by omega)) _

end FsImage

end Landslide.Fuse
