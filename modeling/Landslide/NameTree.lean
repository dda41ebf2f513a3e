import Mathlib.Tactic

/-!
# Trees of named nodes

The nodes of a tree by their paths.  A path is the list of the names on the way to the
root, that of the node first, so the path of the parent is its tail.  One kind of node,
`dir`, is that of the root and of every node that has others below it: the structure
carries this, and each operation takes what it needs to keep it.

`put` makes or replaces a node, `remove` takes one away and `move` takes a subtree to
another path, in place of what is there.
-/

/-- What kind of node there is at each path. -/
structure NameTree (N K : Type) (dir : K) where
  kindAt : List N → Option K
  root : kindAt [] = some dir
  closed : ∀ {n : N} {p : List N}, kindAt (n :: p) ≠ none → kindAt p = some dir

namespace NameTree

variable {N K : Type} {dir : K}

@[ext] theorem ext {t u : NameTree N K dir} (h : t.kindAt = u.kindAt) : t = u := by
  cases t
  cases u
  cases h
  rfl

section

variable {t : NameTree N K dir}

/-- There is nothing in a path. -/
def Bare (t : NameTree N K dir) (p : List N) : Prop := ∀ n, t.kindAt (n :: p) = none

theorem Bare.below {p : List N} (h : t.Bare p) : ∀ {x : List N}, x ≠ [] → t.kindAt (x ++ p) = none
  | [], hx => absurd rfl hx
  | [n], _ => h n
  | n :: m :: x, _ => by
      by_contra hthere
      have hdir := t.closed hthere
      rw [List.append_eq, Bare.below h (List.cons_ne_nil m x)] at hdir
      cases hdir

/-- What is no directory has nothing in it. -/
theorem bare_of_ne {p : List N} (h : t.kindAt p ≠ some dir) : t.Bare p := fun n => by
  by_contra hthere
  exact h (t.closed hthere)

theorem bare_of_none {p : List N} (h : t.kindAt p = none) : t.Bare p :=
  bare_of_ne (by rw [h]; simp)

end

/-! ## Operations -/

variable [DecidableEq N]

/-- Makes a node in a directory, or gives a node another kind. -/
def put (t : NameTree N K dir) (n : N) (p : List N) (k : K) (hp : t.kindAt p = some dir)
    (hbare : t.Bare (n :: p)) : NameTree N K dir where
  kindAt := Function.update t.kindAt (n :: p) (some k)
  root := by rw [Function.update_of_ne (List.cons_ne_nil n p).symm]; exact t.root
  closed {m q} h := by
    have hself : q ≠ n :: p := by
      rintro rfl
      rw [Function.update_of_ne (List.cons_ne_self m _), hbare] at h
      exact h rfl
    rw [Function.update_of_ne hself]
    by_cases hq : m :: q = n :: p
    · rw [(List.cons.inj hq).2]
      exact hp
    · rw [Function.update_of_ne hq] at h
      exact t.closed h

@[simp] theorem kindAt_put (t : NameTree N K dir) (n : N) (p : List N) (k : K)
    (hp : t.kindAt p = some dir) (hbare : t.Bare (n :: p)) :
    (t.put n p k hp hbare).kindAt = Function.update t.kindAt (n :: p) (some k) := rfl

/-- Takes away a node that has nothing in it. -/
def remove (t : NameTree N K dir) (n : N) (p : List N) (hbare : t.Bare (n :: p)) :
    NameTree N K dir where
  kindAt := Function.update t.kindAt (n :: p) none
  root := by rw [Function.update_of_ne (List.cons_ne_nil n p).symm]; exact t.root
  closed {m q} h := by
    by_cases hq : m :: q = n :: p
    · rw [hq, Function.update_self] at h
      exact absurd rfl h
    rw [Function.update_of_ne hq] at h
    rw [Function.update_of_ne]
    · exact t.closed h
    · rintro rfl
      exact h (hbare m)

@[simp] theorem kindAt_remove (t : NameTree N K dir) (n : N) (p : List N)
    (hbare : t.Bare (n :: p)) :
    (t.remove n p hbare).kindAt = Function.update t.kindAt (n :: p) none := rfl

/-- Where the nodes are when what is at `p` and below it is taken to `q`. -/
def carried (t : NameTree N K dir) (p q x : List N) : Option K :=
  if q <:+ x then t.kindAt (x.take (x.length - q.length) ++ p)
  else if p <:+ x then none
  else t.kindAt x

theorem carried_dest (t : NameTree N K dir) (p q x : List N) :
    t.carried p q (x ++ q) = t.kindAt (x ++ p) := by
  rw [carried, if_pos (List.suffix_append x q), List.length_append, Nat.add_sub_cancel,
    List.take_left]

theorem carried_source {p q x : List N} (t : NameTree N K dir) (hq : ¬ q <:+ x) (hp : p <:+ x) :
    t.carried p q x = none := by
  rw [carried, if_neg hq, if_pos hp]

theorem carried_other {p q x : List N} (t : NameTree N K dir) (hq : ¬ q <:+ x) (hp : ¬ p <:+ x) :
    t.carried p q x = t.kindAt x := by
  rw [carried, if_neg hq, if_neg hp]

theorem carried_self (t : NameTree N K dir) (p : List N) : t.carried p p = t.kindAt := by
  funext x
  by_cases hx : p <:+ x
  · obtain ⟨y, rfl⟩ := hx
    rw [carried_dest]
  · rw [t.carried_other hx hx]

/-- Takes a subtree to a path in a directory that is not in this subtree. -/
def move (t : NameTree N K dir) (p : List N) (n : N) (q : List N) (hq : t.kindAt q = some dir)
    (hp : ¬ p <:+ q) : NameTree N K dir where
  kindAt := t.carried p (n :: q)
  root := by
    rw [t.carried_other (by simp) fun h => hp ?_]
    · exact t.root
    · rw [List.suffix_nil.mp h]
      exact List.nil_suffix
  closed {m x} h := by
    by_cases hx : n :: q <:+ m :: x
    · rcases List.suffix_cons_iff.mp hx with heq | hx
      · rw [(List.cons.inj heq).2] at hq hp
        rw [t.carried_other _ hp]
        · exact hq
        · rw [(List.cons.inj heq).2]
          intro hlong
          have := hlong.length_le
          simp at this
      · obtain ⟨y, rfl⟩ := hx
        rw [← List.cons_append, carried_dest] at h
        rw [carried_dest]
        exact t.closed h
    · have hdest : ¬ n :: q <:+ x := fun h => hx (h.trans (List.suffix_cons m x))
      by_cases hsource : p <:+ m :: x
      · rw [t.carried_source hx hsource] at h
        exact absurd rfl h
      · rw [t.carried_other hx hsource] at h
        rw [t.carried_other hdest fun h => hsource (h.trans (List.suffix_cons m x))]
        exact t.closed h

@[simp] theorem kindAt_move (t : NameTree N K dir) (p : List N) (n : N) (q : List N)
    (hq : t.kindAt q = some dir) (hp : ¬ p <:+ q) :
    (t.move p n q hq hp).kindAt = t.carried p (n :: q) := rfl

end NameTree
