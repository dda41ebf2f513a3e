import Landslide.Txn.Rely

/-!
# Programs over coded keys

A `Coding` writes the keys and values of one store down in another: every key has a name
there and every value a code, which is read back when the key is read.  `Prog.lower` and
`Proc.lower` turn a program over the keys into the program over their names.  A code that
cannot be read ends the program with an error.

Only reads of single keys are carried over.  A scan depends on how names are ordered and
which of them start alike, so it is written for the names directly, and the programs that
are lowered have none (`Prog.NoScan`).
-/

namespace TxnKv

/-- Names of the keys and codes of the values of one store in another. -/
structure Coding (K : Type) (V : K → Type) (N : Type) (C : N → Type) (X : Type) where
  name : K → N
  encode : (k : K) → V k → C (name k)
  decode : (k : K) → C (name k) → Except X (V k)

namespace Coding

variable {K N X : Type} {V : K → Type} {C : N → Type}

/-- What a read of a key gives. -/
def decode? (c : Coding K V N C X) (k : K) : Option (C (c.name k)) → Except X (Option (V k))
  | none => .ok none
  | some b => (c.decode k b).map some

end Coding

section

variable {K N X E A R α β : Type} {V : K → Type} {C : N → Type}

/-! ## Programs -/

/-- The program over the names.  Its scans find nothing. -/
def Prog.lower (c : Coding K V N C X) (bad : X → E) : Prog K V E α → Prog N C E α
  | .pure a => .pure a
  | .throw e => .throw e
  | .get k next => .get (c.name k) fun o =>
      match c.decode? k o with
      | .ok v => (next v).lower c bad
      | .error x => .throw (bad x)
  | .scan _ next => .scan (fun _ => false) fun _ => (next []).lower c bad
  | .put k v next => .put (c.name k) (c.encode k v) (next.lower c bad)
  | .delete k next => .delete (c.name k) (next.lower c bad)
  | .unmark k next => .unmark (c.name k) (next.lower c bad)

/-- The program does not scan. -/
def Prog.NoScan : Prog K V E α → Prop
  | .pure _ => True
  | .throw _ => True
  | .get _ next => ∀ o, (next o).NoScan
  | .scan _ _ => False
  | .put _ _ next => next.NoScan
  | .delete _ next => next.NoScan
  | .unmark _ next => next.NoScan

variable (c : Coding K V N C X) (bad : X → E)

@[simp] theorem Prog.lower_bind (p : Prog K V E α) (f : α → Prog K V E β) :
    (p >>= f).lower c bad = p.lower c bad >>= fun a => (f a).lower c bad := by
  change (p.bind f).lower c bad = (p.lower c bad).bind fun a => (f a).lower c bad
  induction p with
  | pure a => rfl
  | throw e => rfl
  | get k next ih =>
      simp only [Prog.bind, Prog.lower, Prog.get.injEq, heq_eq_eq, true_and]
      funext o
      cases c.decode? k o with
      | error x => rfl
      | ok v => exact ih v
  | scan range next ih =>
      simp only [Prog.bind, Prog.lower, Prog.scan.injEq, true_and]
      funext es
      exact ih []
  | put k v next ih => simp only [Prog.bind, Prog.lower, ih]
  | delete k next ih => simp only [Prog.bind, Prog.lower, ih]
  | unmark k next ih => simp only [Prog.bind, Prog.lower, ih]

theorem Prog.NoScan.bind {p : Prog K V E α} {f : α → Prog K V E β} (hp : p.NoScan)
    (hf : ∀ a, (f a).NoScan) : (p >>= f).NoScan := by
  change (p.bind f).NoScan
  induction p with
  | pure a => exact hf a
  | throw e => trivial
  | get k next ih => exact fun o => ih o (hp o)
  | scan range next => exact hp.elim
  | put k v next ih => exact ih hp
  | delete k next ih => exact ih hp
  | unmark k next ih => exact ih hp

/-- The lowered program writes the names of the keys that the program writes. -/
theorem Prog.Within.lower {W U : K → Prop} {W' U' : N → Prop} {Q : E → Prop}
    (hW : ∀ k, W k → W' (c.name k)) (hU : ∀ k, U k → U' (c.name k)) (hQ : ∀ x, Q (bad x))
    {p : Prog K V E α} (h : p.Within W U Q) : (p.lower c bad).Within W' U' Q := by
  induction p with
  | pure a => trivial
  | throw e => exact h
  | get k next ih =>
      rw [Prog.lower, Prog.Within]
      intro o
      cases c.decode? k o with
      | error x => exact hQ x
      | ok v => exact ih v (h v)
  | scan range next ih => exact fun _ => ih [] (h [])
  | put k v next ih => exact ⟨hW k h.1, ih h.2⟩
  | delete k next ih => exact ⟨hW k h.1, ih h.2⟩
  | unmark k next ih => exact ⟨hU k h.1, ih h.2⟩

/-- A lowered read decodes what it finds. -/
theorem Prog.run_lower_read [Ord N] [Std.TransOrd N] [Std.LawfulEqOrd N] [DecidableEq N] (k : K)
    (t : Txn N C) :
    ((Prog.read k).lower c bad : Prog N C E (Option (V k))).run t =
      match c.decode? k (t.view.get (c.name k)) with
      | .ok v => .ok (v, t.noteRead (· = c.name k))
      | .error x => .error (bad x) := by
  rw [Prog.read, Prog.lower, Prog.run]
  cases c.decode? k (t.view.get (c.name k)) with
  | ok v => rfl
  | error x => rfl

/-- Sequences that go on alike after what their first part gives here. -/
theorem Prog.run_lower_bind_congr [Ord N] [Std.TransOrd N] [Std.LawfulEqOrd N] [DecidableEq N]
    {p : Prog K V E α} {f g : α → Prog K V E β} {t : Txn N C}
    (h : ∀ a t', (p.lower c bad).run t = .ok (a, t') →
      ((f a).lower c bad).run t' = ((g a).lower c bad).run t') :
    ((p >>= f).lower c bad).run t = ((p >>= g).lower c bad).run t := by
  rw [Prog.lower_bind, Prog.lower_bind, Prog.run_bind, Prog.run_bind]
  cases hp : (p.lower c bad).run t with
  | error e => rfl
  | ok r => exact h r.1 r.2 hp

/-! ## Calls -/

/-- The call over the names.  Its scans find nothing. -/
def Proc.lower (c : Coding K V N C X) (bad : X → E) (fail : X → R) :
    Proc K V E A R → Proc N C E A R
  | .ret r => .ret r
  | .get k next => .get (c.name k) fun o =>
      match c.decode? k o with
      | .ok v => (next v).lower c bad fail
      | .error x => .ret (fail x)
  | .scan _ next => .scan (fun _ => false) fun _ => (next []).lower c bad fail
  | .txn body next => .txn (body.lower c bad) fun o => (next o).lower c bad fail

/-- Neither the call nor its transactions scan. -/
def Proc.NoScan : Proc K V E A R → Prop
  | .ret _ => True
  | .get _ next => ∀ o, (next o).NoScan
  | .scan _ _ => False
  | .txn body next => body.NoScan ∧ ∀ o, (next o).NoScan

/-- The bodies of the lowered call are those of the call, lowered. -/
theorem Proc.Bodies.lower {B : Prog K V E A → Prop} {B' : Prog N C E A → Prop} (fail : X → R)
    (hB : ∀ body, B body → B' (body.lower c bad)) {p : Proc K V E A R} (h : p.Bodies B) :
    (p.lower c bad fail).Bodies B' := by
  induction p with
  | ret r => trivial
  | get k next ih =>
      rw [Proc.lower, Proc.Bodies]
      intro o
      cases c.decode? k o with
      | error x => trivial
      | ok v => exact ih v (h v)
  | scan range next ih => exact fun _ => ih [] (h [])
  | txn body next ih => exact ⟨hB body h.1, fun o => ih o (h.2 o)⟩

end

end TxnKv
