import Landslide.NameTree
import Landslide.Fuse.Requests

/-!
# Stored paths as names

An image stores nodes by strings.  `spell` is the string of a path of names, as `join`
builds it from the root down, and no two paths have the same one.  An image stands for a
tree of names if its nodes are those of the tree, under the strings of their paths
(`FsImage.Stands`).

A string that starts with that of a path and a slash is that of a path below it
(`below_stem_iff`).  So what `readdir` lists are the names in a directory
(`FsImage.Stands.mem_children`), a removal takes away one node of the tree, and a rename
a subtree.
-/

namespace Landslide.Fuse

open Std TxnKv

/-! ## Paths of names -/

/-- What an entry of a directory can be called. -/
def ValidName (name : String) : Prop := name ≠ "" ∧ '/' ∉ name.toList

instance : DecidablePred ValidName := fun _ => inferInstanceAs (Decidable (_ ∧ _))

abbrev Name : Type := { name : String // ValidName name }

/-- The name first, then the names of the directories up to the root. -/
abbrev NamePath : Type := List Name

abbrev Names : Type := NameTree Name FileType .directory

/-- The string of a path, which is empty for the root. -/
def stem : NamePath → String
  | [] => ""
  | n :: p => slash (stem p) ++ n.1

/-- The string of a path. -/
def spell (p : NamePath) : String := if p = [] then "/" else stem p

theorem toList_stem_cons (n : Name) (p : NamePath) :
    (stem (n :: p)).toList = (stem p).toList ++ '/' :: n.1.toList := by
  rw [stem, slash, String.toList_append, String.toList_append, List.append_assoc]
  rfl

/-- What precedes the last slash, and what follows it. -/
theorem last_slash_inj {l m a b : List Char} (ha : '/' ∉ a) (hb : '/' ∉ b)
    (h : l ++ '/' :: a = m ++ '/' :: b) : l = m ∧ a = b := by
  rcases List.append_eq_append_iff.mp h with ⟨y, rfl, hy⟩ | ⟨y, rfl, hy⟩
  · cases y with
    | nil => exact ⟨(List.append_nil l).symm, (List.cons.inj hy).2⟩
    | cons c y =>
        rw [List.cons_append, List.cons.injEq] at hy
        rw [hy.2] at ha
        exact absurd (by simp) ha
  · cases y with
    | nil => exact ⟨List.append_nil m, (List.cons.inj hy).2.symm⟩
    | cons c y =>
        rw [List.cons_append, List.cons.injEq] at hy
        rw [hy.2] at hb
        exact absurd (by simp) hb

theorem stem_inj : ∀ {p q : NamePath}, stem p = stem q → p = q
  | [], [], _ => rfl
  | [], n :: q, h => by
      have hlist := congrArg String.toList h
      rw [toList_stem_cons] at hlist
      simp [stem] at hlist
  | n :: p, [], h => by
      have hlist := congrArg String.toList h
      rw [toList_stem_cons] at hlist
      simp [stem] at hlist
  | n :: p, m :: q, h => by
      have hlist := congrArg String.toList h
      rw [toList_stem_cons, toList_stem_cons] at hlist
      obtain ⟨hstem, hname⟩ := last_slash_inj n.2.2 m.2.2 hlist
      rw [stem_inj (String.toList_inj.mp hstem), Subtype.ext (String.toList_inj.mp hname)]

theorem spell_cons (n : Name) (p : NamePath) : spell (n :: p) = stem (n :: p) :=
  if_neg (List.cons_ne_nil n p)

theorem spell_of_ne {p : NamePath} (h : p ≠ []) : spell p = stem p := if_neg h

theorem stem_ne_slash : ∀ p : NamePath, stem p ≠ "/"
  | [], h => absurd h (by decide)
  | n :: p, h => by
      have hlist := congrArg String.toList h
      rw [toList_stem_cons] at hlist
      obtain ⟨-, hname⟩ := last_slash_inj (m := []) n.2.2 (List.not_mem_nil (a := '/')) hlist
      exact n.2.1 (String.toList_inj.mp hname)

@[simp] theorem spell_eq_slash_iff {p : NamePath} : spell p = "/" ↔ p = [] := by
  constructor
  · intro h
    by_contra hne
    rw [spell_of_ne hne] at h
    exact stem_ne_slash p h
  · rintro rfl
    rfl

theorem spell_injective : Function.Injective spell := by
  intro p q h
  by_cases hp : p = []
  · subst hp
    exact (spell_eq_slash_iff.mp h.symm).symm
  · have hq : q ≠ [] := by
      rintro rfl
      exact hp (spell_eq_slash_iff.mp h)
    rw [spell_of_ne hp, spell_of_ne hq] at h
    exact stem_inj h

/-- The path that a string spells. -/
noncomputable def unspell : String → Option NamePath := Function.partialInv spell

@[simp] theorem unspell_spell (p : NamePath) : unspell (spell p) = some p :=
  Function.partialInv_left spell_injective p

/-- The prefix of the entries of a directory. -/
theorem dirPrefix_spell (p : NamePath) :
    (if spell p = "/" then "/" else slash (spell p)) = slash (stem p) := by
  by_cases hp : p = []
  · subst hp
    rfl
  · rw [if_neg fun h => hp (spell_eq_slash_iff.mp h), spell_of_ne hp]

theorem join_spell (p : NamePath) (name : String) :
    join (spell p) name = slash (stem p) ++ name := by
  rw [← dirPrefix_spell, join]
  split <;> rfl

theorem join_spell_name (p : NamePath) (n : Name) : join (spell p) n.1 = spell (n :: p) := by
  rw [join_spell, spell_cons, stem]

theorem parentPath_spell (n : Name) (p : NamePath) : parentPath (spell (n :: p)) = spell p := by
  have hname : ∀ c ∈ n.1.toList.reverse, decide (c ≠ '/') = true := by
    intro c hc
    refine decide_eq_true ?_
    rintro rfl
    exact n.2.2 (List.mem_reverse.mp hc)
  have hpre : (((spell (n :: p)).toList.reverse.dropWhile (fun c => decide (c ≠ '/'))).drop
      1).reverse = (stem p).toList := by
    rw [spell_cons, toList_stem_cons, List.reverse_append, List.reverse_cons, List.append_assoc,
      List.dropWhile_append_of_pos hname]
    simp
  show (if _ = [] then "/" else String.ofList _) = _
  rw [hpre, String.ofList_toList]
  by_cases hp : p = []
  · subst hp
    rfl
  · rw [spell_of_ne hp, if_neg]
    intro hnil
    exact hp (stem_inj (String.toList_inj.mp hnil))

theorem parentPath_root : parentPath (spell []) = spell [] := by decide

/-! ## Paths below a path -/

theorem stem_append (p : NamePath) : ∀ x : NamePath, stem (x ++ p) = stem p ++ stem x
  | [] => by rw [List.nil_append, stem, String.append_empty]
  | n :: x => by
      rw [List.cons_append, stem, stem, stem_append p x, slash, slash]
      simp only [String.append_assoc]

theorem slash_stem_append (p : NamePath) (n : Name) (x : NamePath) :
    ∃ rest, stem (n :: x) = "/" ++ rest ∧ stem ((n :: x) ++ p) = slash (stem p) ++ rest := by
  induction x generalizing n with
  | nil =>
      refine ⟨n.1, ?_, rfl⟩
      rw [stem, stem, slash, String.empty_append]
  | cons m x ih =>
      obtain ⟨rest, hrest, -⟩ := ih m
      refine ⟨slash rest ++ n.1, ?_, ?_⟩
      · rw [stem, hrest, slash, slash]
        simp only [String.append_assoc]
      · rw [stem_append, stem, hrest, slash, slash, slash]
        simp only [String.append_assoc]

theorem prefix_last_slash {l m a : List Char} (ha : '/' ∉ a) :
    l ++ ['/'] <+: m ++ '/' :: a ↔ l = m ∨ l ++ ['/'] <+: m := by
  constructor
  · rintro ⟨x, hx⟩
    rw [List.append_assoc, List.singleton_append] at hx
    rcases List.append_eq_append_iff.mp hx with ⟨y, rfl, hy⟩ | ⟨y, rfl, hy⟩
    · cases y with
      | nil => exact .inl (List.append_nil l).symm
      | cons c y =>
          rw [List.cons_append, List.cons.injEq] at hy
          obtain ⟨rfl, -⟩ := hy
          exact .inr ⟨y, by simp⟩
    · cases y with
      | nil => exact .inl (List.append_nil m)
      | cons c y =>
          rw [List.cons_append, List.cons.injEq] at hy
          obtain ⟨-, hy⟩ := hy
          rw [hy] at ha
          exact absurd (by simp) ha
  · rintro (rfl | h)
    · exact ⟨a, by simp⟩
    · exact h.trans (List.prefix_append m _)

/-- Below the string of a path are those of the paths below it. -/
theorem below_stem_iff {p : NamePath} : ∀ {q : NamePath},
    Below (stem p) (stem q) ↔ ∃ x, x ≠ [] ∧ q = x ++ p
  | [] => by
      rw [below_iff_isPrefixOf]
      constructor
      · intro h
        have := h.length_le
        simp [stem] at this
      · rintro ⟨x, hx, h⟩
        exact absurd (List.append_eq_nil_iff.mp h.symm).1 hx
  | n :: q => by
      rw [below_iff_isPrefixOf, toList_stem_cons, prefix_last_slash n.2.2, String.toList_inj,
        ← below_iff_isPrefixOf, below_stem_iff]
      constructor
      · rintro (h | ⟨x, -, rfl⟩)
        · exact ⟨[n], List.cons_ne_nil _ _, by rw [stem_inj h]; rfl⟩
        · exact ⟨n :: x, List.cons_ne_nil _ _, rfl⟩
      · rintro ⟨x, hx, h⟩
        cases x with
        | nil => exact absurd rfl hx
        | cons m x =>
            rw [List.cons_append, List.cons.injEq] at h
            obtain ⟨rfl, rfl⟩ := h
            by_cases hnil : x = []
            · subst hnil
              exact .inl rfl
            · exact .inr ⟨x, hnil, rfl⟩

theorem not_below_root (n : Name) (p : NamePath) : ¬ Below (stem (n :: p)) (spell []) := by
  intro hbelow
  have hlen := (below_iff_isPrefixOf.mp hbelow).length_le
  rw [toList_stem_cons] at hlen
  simp [spell] at hlen
  omega

/-- A rename takes the string of a path to that of the path it is taken to. -/
theorem moved_stem (p q : NamePath) (n : Name) (x : NamePath) :
    FsImage.moved (stem p) (stem q) (stem ((n :: x) ++ p)) = stem ((n :: x) ++ q) := by
  obtain ⟨rest, hrest, hp⟩ := slash_stem_append p n x
  have hq : stem ((n :: x) ++ q) = slash (stem q) ++ rest := by
    rw [stem_append, hrest, slash, String.append_assoc]
  rw [hp, hq, FsImage.moved, dropStart_append]

/-! ## Images as trees of names -/

namespace FsImage

/-- The kind of node at each path. -/
def kinds (image : FsImage) (q : String) : Option FileType := (image.get q).map Node.kind

/-- The nodes of an image are those of a tree of names, without its root. -/
structure Stands (image : FsImage) (t : Names) : Prop where
  node : ∀ {p : NamePath}, p ≠ [] → image.kinds (spell p) = t.kindAt p
  spelled : ∀ {q : String}, image.kinds q ≠ none → ∃ p, p ≠ [] ∧ spell p = q

theorem kinds_eq_none_iff {image : FsImage} {q : String} :
    image.kinds q = none ↔ image.get q = none := Option.map_eq_none_iff

section

variable {image : FsImage} {t : Names}

theorem Stands.congr {image' : FsImage} (h : image.Stands t) (heq : image'.kinds = image.kinds) :
    image'.Stands t where
  node hp := by rw [heq]; exact h.node hp
  spelled hq := h.spelled (by rwa [heq] at hq)

theorem Stands.kinds_cons (h : image.Stands t) (n : Name) (p : NamePath) :
    image.kinds (spell (n :: p)) = t.kindAt (n :: p) := h.node (List.cons_ne_nil n p)

theorem Stands.get_none_iff (h : image.Stands t) (n : Name) (p : NamePath) :
    image.get (spell (n :: p)) = none ↔ t.kindAt (n :: p) = none := by
  rw [← kinds_eq_none_iff, h.kinds_cons]

theorem Stands.isDir_iff (h : image.Stands t) {p : NamePath} :
    isDir image (spell p) = true ↔ t.kindAt p = some .directory := by
  by_cases hp : p = []
  · subst hp
    exact iff_of_true rfl t.root
  · rw [← h.node hp, kinds, isDir, decide_eq_false fun hs => hp (spell_eq_slash_iff.mp hs),
      Bool.false_or]
    cases image.get (spell p) with
    | none => simp
    | some node => cases node <;> simp [Node.kind]

theorem mem_children {dir name : String} {kind : FileType} :
    (name, kind) ∈ children image dir ↔ ValidName name ∧
      image.kinds ((if dir = "/" then "/" else slash dir) ++ name) = some kind := by
  rw [children]
  dsimp only
  generalize (if dir = "/" then "/" else slash dir) = pre
  rw [List.mem_filterMap]
  constructor
  · rintro ⟨⟨q, node⟩, hmem, hq⟩
    dsimp only at hq
    split at hq
    case isFalse => cases hq
    next hs =>
    obtain ⟨x, rfl⟩ := startsWith_iff.mp hs
    rw [dropStart_append] at hq
    split at hq
    · cases hq
    next hvalid =>
    cases hq
    refine ⟨by simpa [ValidName] using hvalid, ?_⟩
    rw [kinds, show image.get _ = some node from ExtTreeMap.mem_toList_iff_getElem?_eq_some.mp hmem]
    rfl
  · rintro ⟨hvalid, hkind⟩
    obtain ⟨node, hget, rfl⟩ := Option.map_eq_some_iff.mp hkind
    refine ⟨(pre ++ name, node), ExtTreeMap.mem_toList_iff_getElem?_eq_some.mpr hget, ?_⟩
    dsimp only
    rw [if_pos (startsWith_iff.mpr ⟨name, rfl⟩), dropStart_append, if_neg]
    simpa [ValidName] using hvalid

/-- A listing shows the names in a directory. -/
theorem Stands.mem_children (h : image.Stands t) {p : NamePath} {name : String} {kind : FileType} :
    (name, kind) ∈ children image (spell p) ↔
      ∃ n : Name, n.1 = name ∧ t.kindAt (n :: p) = some kind := by
  rw [FsImage.mem_children, dirPrefix_spell]
  constructor
  · rintro ⟨hvalid, hkind⟩
    refine ⟨⟨name, hvalid⟩, rfl, ?_⟩
    rw [← h.kinds_cons]
    exact hkind
  · rintro ⟨n, rfl, hkind⟩
    rw [← h.kinds_cons] at hkind
    exact ⟨n.2, hkind⟩

theorem Stands.children_eq_nil_iff (h : image.Stands t) {p : NamePath} :
    children image (spell p) = [] ↔ t.Bare p := by
  rw [List.eq_nil_iff_forall_not_mem]
  constructor
  · intro hnone n
    by_contra hthere
    obtain ⟨kind, hkind⟩ := Option.ne_none_iff_exists'.mp hthere
    exact hnone _ (h.mem_children.mpr ⟨n, rfl, hkind⟩)
  · rintro hbare ⟨name, kind⟩ hmem
    obtain ⟨n, -, hkind⟩ := h.mem_children.mp hmem
    rw [hbare n] at hkind
    cases hkind

end

/-! ## What the deltas do to the tree -/

section

variable {image : FsImage} {t : Names}

/-- Attributes do not change what a node is. -/
theorem kinds_mapAttrs (path : String) (f : NodeMeta → NodeMeta) :
    kinds { nodes := image.nodes.modify path (.mapAttrs f) } = image.kinds := by
  funext q
  rw [kinds, kinds, get_modify, Function.update_apply]
  split
  · next hq =>
    subst hq
    cases image.get q with
    | none => rfl
    | some node => cases node <;> rfl
  · rfl

theorem kinds_of_get {image' : FsImage} {path : String} {node : Node}
    (h : image'.get = Function.update image.get path (some node)) :
    image'.kinds = Function.update image.kinds path (some node.kind) := by
  funext q
  rw [kinds, h, Function.update_apply, Function.update_apply]
  split <;> rfl

theorem kinds_write (now : Int) (path : String) (offset : Nat) (data : Data) :
    (image.apply now (.write path offset data)).kinds =
      Function.update image.kinds path (some .regularFile) := by
  have hkind : (image.written now path offset data).kind = .regularFile := by
    rw [written.eq_def]
    cases data with
    | blocks refs => rfl
    | inline data => dsimp only; split <;> rfl
  rw [← hkind]
  exact kinds_of_get (get_insert image.nodes path _)

theorem kinds_symlink (now : Int) (path target : String) :
    (image.apply now (.symlink path target)).kinds =
      Function.update image.kinds path (some .symlink) :=
  kinds_of_get (get_insert image.nodes path _)

theorem kinds_mkdir (now : Int) {path : String} (h : image.get path = none) :
    (image.apply now (.mkdir path)).kinds =
      Function.update image.kinds path (some .directory) := by
  have hget : (image.apply now (.mkdir path)).get =
      Function.update image.get path (some (.dir (.dir now))) := by
    rw [get_mkdir, h]
    rfl
  exact kinds_of_get hget

/-- A node that is made or replaced. -/
theorem Stands.put (h : image.Stands t) {image' : FsImage} {n : Name} {p : NamePath}
    {k : FileType} (heq : image'.kinds = Function.update image.kinds (spell (n :: p)) (some k))
    (hp : t.kindAt p = some .directory) (hbare : t.Bare (n :: p)) :
    image'.Stands (t.put n p k hp hbare) where
  node {q} hq := by
    rw [heq, NameTree.kindAt_put]
    by_cases hself : q = n :: p
    · rw [hself, Function.update_self, Function.update_self]
    · rw [Function.update_of_ne hself, Function.update_of_ne (spell_injective.ne hself), h.node hq]
  spelled {q} hq := by
    by_cases hself : q = spell (n :: p)
    · exact ⟨n :: p, List.cons_ne_nil n p, hself.symm⟩
    · rw [heq, Function.update_of_ne hself] at hq
      exact h.spelled hq

/-- A node that is taken away. -/
theorem Stands.remove (h : image.Stands t) {n : Name} {p : NamePath} (hbare : t.Bare (n :: p)) :
    (image.remove (spell (n :: p))).Stands (t.remove n p hbare) where
  node {q} hq := by
    rw [kinds, get_remove, Subtree.erase, NameTree.kindAt_remove, Function.update_apply]
    by_cases hself : q = n :: p
    · rw [if_pos hself, if_pos (.inl (congrArg spell hself))]
      rfl
    rw [if_neg hself, ← h.node hq]
    split
    · next hgone =>
      have hbelow := hgone.resolve_left fun heq => hself (spell_injective heq)
      rw [spell_cons, spell_of_ne hq, below_stem_iff] at hbelow
      obtain ⟨x, hx, rfl⟩ := hbelow
      rw [h.node hq, hbare.below hx]
      rfl
    · rfl
  spelled {q} hq := by
    rw [kinds, get_remove, Subtree.erase] at hq
    split at hq
    · exact absurd rfl hq
    · exact h.spelled hq

theorem Stands.kinds_stem (h : image.Stands t) {x : NamePath} (hx : x ≠ []) :
    image.kinds (stem x) = t.kindAt x := by
  rw [← spell_of_ne hx, h.node hx]

/-- The paths of a rename that the tree allows are not nested. -/
theorem not_nested {m n : Name} {p q : NamePath} (hthere : t.kindAt (m :: p) ≠ none)
    (hp : ¬ m :: p <:+ q) (hbare : t.Bare (n :: q)) :
    ¬ Nested (stem (m :: p)) (stem (n :: q)) := by
  rintro (hbelow | hbelow)
  · obtain ⟨x, hx, heq⟩ := below_stem_iff.mp hbelow
    cases x with
    | nil => exact hx rfl
    | cons k x => exact hp ⟨x, (List.cons.inj heq).2.symm⟩
  · obtain ⟨x, hx, heq⟩ := below_stem_iff.mp hbelow
    rw [heq] at hthere
    exact hthere (hbare.below hx)

/-- What a rename leaves at and below its destination is what was at and below its source. -/
theorem Stands.kinds_rename_dest (h : image.Stands t) {m n : Name} {p q : NamePath}
    (hthere : t.kindAt (m :: p) ≠ none) (hp : ¬ m :: p <:+ q) (hne : m :: p ≠ n :: q)
    (hbare : t.Bare (n :: q)) (y : NamePath) :
    (image.rename (stem (m :: p)) (stem (n :: q))).kinds (stem (y ++ n :: q)) =
      t.kindAt (y ++ m :: p) := by
  have hn := not_nested hthere hp hbare
  have hne' : stem (m :: p) ≠ stem (n :: q) := fun heq => hne (stem_inj heq)
  cases y with
  | nil =>
      rw [List.nil_append, List.nil_append]
      have hkind := h.kinds_stem (List.cons_ne_nil m p)
      obtain ⟨node, hget⟩ := Option.ne_none_iff_exists'.mp
        fun hnone => hthere (hkind ▸ kinds_eq_none_iff.mpr hnone)
      rw [kinds, get_rename_source hn hget, ← hkind, kinds, hget]
  | cons k y =>
      have hkind := h.kinds_stem (x := k :: y ++ m :: p) (List.cons_ne_nil k _)
      have hbelow : ∀ z : NamePath, Below (stem z) (stem (k :: y ++ z)) := fun z =>
        below_stem_iff.mpr ⟨k :: y, List.cons_ne_nil k y, rfl⟩
      cases hget : image.get (stem (k :: y ++ m :: p)) with
      | some node =>
          have hmoved := get_rename_below hn hne' (hbelow _) hget
          rw [moved_stem] at hmoved
          rw [kinds, hmoved, ← hkind, kinds, hget]
      | none =>
          -- nothing comes here, and there was nothing below the destination
          obtain ⟨hps, hbelow'⟩ := not_below_of_apart hn hne' (.inr (hbelow (n :: q)))
          have hself : stem (k :: y ++ n :: q) ≠ stem (n :: q) := fun heq => by
            have hlen := congrArg List.length (stem_inj heq)
            rw [List.length_append, List.length_cons] at hlen
            omega
          rw [kinds, get_rename_other hn hps hbelow' hself fun _ => by rw [moved_stem, hget],
            ← hkind, kinds, hget, ← kinds,
            h.kinds_stem (x := k :: y ++ n :: q) (List.cons_ne_nil k _)]
          exact hbare.below (List.cons_ne_nil k y)

/-- What a rename leaves at the paths of the tree. -/
theorem Stands.kinds_rename (h : image.Stands t) {m n : Name} {p q : NamePath}
    (hthere : t.kindAt (m :: p) ≠ none) (hp : ¬ m :: p <:+ q) (hne : m :: p ≠ n :: q)
    (hbare : t.Bare (n :: q)) {x : NamePath} (hx : x ≠ []) :
    (image.rename (stem (m :: p)) (stem (n :: q))).kinds (stem x) =
      t.carried (m :: p) (n :: q) x := by
  have hn := not_nested hthere hp hbare
  have hne' : stem (m :: p) ≠ stem (n :: q) := fun heq => hne (stem_inj heq)
  by_cases hdest : n :: q <:+ x
  · obtain ⟨y, rfl⟩ := hdest
    rw [t.carried_dest, h.kinds_rename_dest hthere hp hne hbare]
  by_cases hsource : m :: p <:+ x
  · rw [t.carried_source hdest hsource, kinds_eq_none_iff]
    refine get_rename_gone hn hne' ?_
    obtain ⟨y, rfl⟩ := hsource
    by_cases hy : y = []
    · subst hy
      exact .inl rfl
    · exact .inr (below_stem_iff.mpr ⟨y, hy, rfl⟩)
  · have hapart : ∀ {z : NamePath}, ¬ z <:+ x → stem x ≠ stem z ∧ ¬ Below (stem z) (stem x) := by
      refine fun hz => ⟨fun heq => hz (stem_inj heq ▸ List.suffix_rfl), fun hbelow => hz ?_⟩
      obtain ⟨y, -, rfl⟩ := below_stem_iff.mp hbelow
      exact List.suffix_append y _
    rw [t.carried_other hdest hsource, kinds, get_rename_other hn (hapart hsource).1
      (hapart hsource).2 (hapart hdest).1 fun hbelow => absurd hbelow (hapart hdest).2, ← kinds,
      h.kinds_stem hx]

/-- A subtree that is taken to a path with nothing below it. -/
theorem Stands.rename (h : image.Stands t) {m n : Name} {p q : NamePath}
    (hthere : t.kindAt (m :: p) ≠ none) (hq : t.kindAt q = some .directory)
    (hp : ¬ m :: p <:+ q) (hne : m :: p ≠ n :: q) (hbare : t.Bare (n :: q)) :
    (image.rename (spell (m :: p)) (spell (n :: q))).Stands (t.move (m :: p) n q hq hp) := by
  have hn := not_nested hthere hp hbare
  have hne' : stem (m :: p) ≠ stem (n :: q) := fun heq => hne (stem_inj heq)
  rw [spell_cons, spell_cons]
  refine ⟨fun {x} hx => ?_, fun {y} hy => ?_⟩
  · rw [spell_of_ne hx, h.kinds_rename hthere hp hne hbare hx, NameTree.kindAt_move]
  -- a string that is not that of a path holds no node, before the rename and after
  by_contra hno
  have hnot : ∀ z : NamePath, z ≠ [] → stem z ≠ y := fun z hz heq =>
    hno ⟨z, hz, by rw [spell_of_ne hz, heq]⟩
  have hnone : image.get y = none := by
    by_contra hget
    exact hno (h.spelled fun hkind => hget (kinds_eq_none_iff.mp hkind))
  refine hy (kinds_eq_none_iff.mpr ?_)
  by_cases hbelow : Below (stem (m :: p)) y
  · exact get_rename_gone hn hne' (.inr hbelow)
  rw [get_rename_other hn (hnot _ (List.cons_ne_nil m p)).symm hbelow
    (hnot _ (List.cons_ne_nil n q)).symm fun hdest => ?_, hnone]
  obtain ⟨rest, rfl⟩ := below_iff.mp hdest
  rw [moved, dropStart_append]
  by_contra hget
  obtain ⟨z, hz, heq⟩ := h.spelled fun hkind => hget (kinds_eq_none_iff.mp hkind)
  rw [spell_of_ne hz] at heq
  obtain ⟨x, hx, rfl⟩ := below_stem_iff.mp (heq ▸ below_slash (stem (m :: p)) rest)
  cases x with
  | nil => exact hx rfl
  | cons k x =>
      have hmoved := moved_stem (m :: p) (n :: q) k x
      rw [heq, moved, dropStart_append] at hmoved
      exact hnot _ (List.cons_ne_nil k _) hmoved.symm

end

end FsImage

end Landslide.Fuse
