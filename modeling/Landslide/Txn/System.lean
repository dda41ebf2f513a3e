import Landslide.Txn.Prog

/-!
# Clients over a store with optimistic transactions

A `Proc` is what one call of a client does: reads through the store handle,
transactions, and a result.  A system has any number of clients.  Its steps are
the finest ones that can be told apart: a client invokes a call, reads one key
or range through the handle, begins a transaction, executes one operation of
it, or tries to commit.  A schedule is a list of such steps in any order.

A transaction reads the state at its begin with its own writes on top.  Its
commit is refused exactly when a key or range it read, or a key it wrote, was
written with tracking by a transaction that committed since it began.  The
committed transactions form the log, and the state after `n` of them is
`stateAt`.

`Sys.Valid` is what every schedule keeps: the store is the replay of the log,
and each log entry is the run of its body on the state at its begin, free of
conflicts with the entries since.
-/

set_option linter.unusedSectionVars false

namespace TxnKv

open Std

/-! ## Calls -/

/-- How a transaction ended. -/
inductive Outcome (E A : Type) where
  /-- Committed with this value. -/
  | committed (a : A)
  /-- Refused by conflict detection. -/
  | conflict
  /-- Dropped by its own body. -/
  | aborted (e : E)

/-- What a call does: handle reads, transactions and a result. -/
inductive Proc (K : Type) (V : K → Type) (E A R : Type) : Type where
  | ret (r : R)
  | get (k : K) (next : Option (V k) → Proc K V E A R)
  | scan (range : K → Bool) (next : List ((k : K) × V k) → Proc K V E A R)
  | txn (body : Prog K V E A) (next : Outcome E A → Proc K V E A R)

namespace Proc

variable {K : Type} {V : K → Type} {E E' A R α : Type}

/-- Every transaction body the call can reach, along any answers, satisfies `B`. -/
def Bodies (B : Prog K V E A → Prop) : Proc K V E A R → Prop
  | .ret _ => True
  | .get _ next => ∀ o, (next o).Bodies B
  | .scan _ next => ∀ es, (next es).Bodies B
  | .txn body next => B body ∧ ∀ o, (next o).Bodies B

theorem Bodies.mono {B B' : Prog K V E A → Prop} (h : ∀ body, B body → B' body)
    {p : Proc K V E A R} (hp : p.Bodies B) : p.Bodies B' := by
  induction p with
  | ret r => trivial
  | get k next ih => exact fun o => ih o (hp o)
  | scan range next ih => exact fun es => ih es (hp es)
  | txn body next ih => exact ⟨h body hp.1, fun o => ih o (hp.2 o)⟩

/-- The call ends with `ok a` right after its first commit, of value `a`, and
every end it reaches without a commit satisfies `bad`. -/
def OneShot (ok : A → R) (bad : R → Prop) : Proc K V E A R → Prop
  | .ret r => bad r
  | .get _ next => ∀ o, (next o).OneShot ok bad
  | .scan _ next => ∀ es, (next es).OneShot ok bad
  | .txn body next => (∀ a, next (.committed a) = .ret (ok a)) ∧
      (next .conflict).OneShot ok bad ∧
      body.Within (fun _ => True) (fun _ => True) fun e => (next (.aborted e)).OneShot ok bad

/-- A read-only program through the handle: each read is a step of its own.
Writes of the program are skipped. -/
def ofReads : Prog K V E' α → (Except E' α → Proc K V E A R) → Proc K V E A R
  | .pure a, next => next (.ok a)
  | .throw e, next => next (.error e)
  | .get k p, next => .get k fun o => ofReads (p o) next
  | .scan range p, next => .scan range fun es => ofReads (p es) next
  | .put _ _ p, next => ofReads p next
  | .delete _ p, next => ofReads p next
  | .unmark _ p, next => ofReads p next

end Proc

section

variable {K : Type} [Ord K] [TransOrd K] [LawfulEqOrd K] [DecidableEq K] {V : K → Type}
variable {E A R C α : Type}

/-- A call with no other client: every transaction commits. -/
def Proc.exec : Proc K V E A R → Store K V → R × Store K V
  | .ret r, σ => (r, σ)
  | .get k next, σ => (next (σ.get k)).exec σ
  | .scan range next, σ => (next (σ.scan range)).exec σ
  | .txn body next, σ =>
      match body.run (.begin σ) with
      | .ok (a, t) => (next (.committed a)).exec t.view
      | .error e => (next (.aborted e)).exec σ

/-- Reads through the handle of a store that no one else changes are one read. -/
theorem Proc.exec_ofReads {E' : Type} (p : Prog K V E' α) (next : Except E' α → Proc K V E A R)
    (σ : Store K V) : (ofReads p next).exec σ = (next (p.eval σ)).exec σ := by
  induction p with
  | pure a => rfl
  | throw e => rfl
  | get k p ih => exact ih _
  | scan range p ih => exact ih _
  | put k v p ih => exact ih
  | delete k p ih => exact ih
  | unmark k p ih => exact ih

/-! ## Systems -/

/-- One committed transaction. -/
structure Commit (K : Type) (V : K → Type) (E A C : Type) where
  /-- The invocation it belongs to. -/
  id : Nat
  /-- The call of that invocation. -/
  call : C
  /-- How many transactions had committed when it began. -/
  start : Nat
  /-- Its body. -/
  body : Prog K V E A
  /-- Its value. -/
  value : A
  /-- What it read and wrote. -/
  foot : Footprint K V

/-- One finished call. -/
structure Return (R C : Type) where
  id : Nat
  call : C
  result : R
deriving DecidableEq

/-- A client in the middle of a call. -/
inductive Session (K : Type) [Ord K] (V : K → Type) (E A R C : Type) where
  /-- Outside a transaction. -/
  | running (id : Nat) (call : C) (p : Proc K V E A R)
  /-- Inside a transaction begun at `start`, with `rest` of `body` to run. -/
  | inTxn (id : Nat) (call : C) (start : Nat) (body rest : Prog K V E A) (t : Txn K V)
      (next : Outcome E A → Proc K V E A R)

/-- The state of a system. -/
structure Sys (K : Type) [Ord K] (V : K → Type) (E A R C : Type) where
  /-- The committed state. -/
  store : Store K V
  /-- The committed transactions, oldest first. -/
  log : List (Commit K V E A C) := []
  /-- What each client is doing. -/
  sessions : Nat → Option (Session K V E A R C) := fun _ => none
  /-- The finished calls, oldest first. -/
  returned : List (Return R C) := []
  /-- The number of invocations so far. -/
  calls : Nat := 0

/-- One step of a schedule. -/
inductive Action (C : Type) where
  /-- An idle client invokes a call. -/
  | invoke (client : Nat) (call : C)
  /-- A busy client takes its next step. -/
  | step (client : Nat)

/-- A key written with tracking by `c` is one that `f` read or wrote. -/
def Commit.conflictsWith (c : Commit K V E A C) (f : Footprint K V) : Bool :=
  c.foot.tracked.any fun k => decide (f.Reads k ∨ f.Writes k)

/-- The state after the first `n` transactions of a log. -/
def stateAt (σ₀ : Store K V) (log : List (Commit K V E A C)) (n : Nat) : Store K V :=
  (log.take n).foldl (fun σ c => σ.applyAll c.foot.writes) σ₀

namespace Sys

/-- What one client is doing changes. -/
def set (s : Sys K V E A R C) (client : Nat) (o : Option (Session K V E A R C)) :
    Sys K V E A R C :=
  { s with sessions := Function.update s.sessions client o }

/-- A client continues with `p`, and is done when `p` is a result. -/
def settle (s : Sys K V E A R C) (client id : Nat) (call : C) :
    Proc K V E A R → Sys K V E A R C
  | .ret r => { s.set client none with returned := s.returned ++ [⟨id, call, r⟩] }
  | p => s.set client (some (.running id call p))

/-- The state after a commit. -/
def append (s : Sys K V E A R C) (c : Commit K V E A C) : Sys K V E A R C :=
  { s with store := s.store.applyAll c.foot.writes, log := s.log ++ [c] }

/-- Some transaction since `start` conflicts with the footprint. -/
def conflict (s : Sys K V E A R C) (start : Nat) (f : Footprint K V) : Bool :=
  (s.log.drop start).any fun c => c.conflictsWith f

/-- The next step of a busy client. -/
def advance (s : Sys K V E A R C) (client : Nat) : Session K V E A R C → Sys K V E A R C
  | .running id call (.ret r) => s.settle client id call (.ret r)
  | .running id call (.get k next) => s.settle client id call (next (s.store.get k))
  | .running id call (.scan range next) => s.settle client id call (next (s.store.scan range))
  | .running id call (.txn body next) =>
      s.set client (some (.inTxn id call s.log.length body body (.begin s.store) next))
  | .inTxn id call start body (.pure a) t next =>
      if s.conflict start t.foot then s.settle client id call (next .conflict)
      else (s.append ⟨id, call, start, body, a, t.foot⟩).settle client id call (next (.committed a))
  | .inTxn id call _ _ (.throw e) _ next => s.settle client id call (next (.aborted e))
  | .inTxn id call start body rest t next =>
      match rest.step t with
      | some (rest', t') => s.set client (some (.inTxn id call start body rest' t' next))
      | none => s

/-- One step of a schedule; a step that is not enabled does nothing. -/
def step (exec : C → Proc K V E A R) (s : Sys K V E A R C) : Action C → Sys K V E A R C
  | .invoke client call =>
      match s.sessions client with
      | none => { s with calls := s.calls + 1 }.settle client s.calls call (exec call)
      | some _ => s
  | .step client =>
      match s.sessions client with
      | none => s
      | some session => s.advance client session

/-- The state a schedule reaches. -/
def run (exec : C → Proc K V E A R) (s : Sys K V E A R C) (acts : List (Action C)) :
    Sys K V E A R C :=
  acts.foldl (step exec) s

/-- The initial state over a store. -/
def init (σ₀ : Store K V) : Sys K V E A R C := { store := σ₀ }

end Sys

/-! ## Replaying the log -/

@[simp] theorem stateAt_zero (σ₀ : Store K V) (log : List (Commit K V E A C)) :
    stateAt σ₀ log 0 = σ₀ := rfl

theorem stateAt_succ {σ₀ : Store K V} {log : List (Commit K V E A C)} {n : Nat}
    {c : Commit K V E A C} (h : log[n]? = some c) :
    stateAt σ₀ log (n + 1) = (stateAt σ₀ log n).applyAll c.foot.writes := by
  simp [stateAt, List.take_add_one, h]

/-- Later entries do not change earlier states. -/
theorem stateAt_append (σ₀ : Store K V) (log : List (Commit K V E A C)) (c : Commit K V E A C)
    {n : Nat} (hn : n ≤ log.length) : stateAt σ₀ (log ++ [c]) n = stateAt σ₀ log n := by
  simp [stateAt, List.take_append_of_le_length hn]

theorem stateAt_append_length (σ₀ : Store K V) (log : List (Commit K V E A C))
    (c : Commit K V E A C) :
    stateAt σ₀ (log ++ [c]) (log.length + 1) =
      (stateAt σ₀ log log.length).applyAll c.foot.writes := by
  rw [stateAt_succ (c := c) (by simp), stateAt_append σ₀ log c le_rfl]

/-! ## Valid systems -/

/-- Entry `n` of the log is the run of its body on the state at its begin, with
no conflicting entry since. -/
structure Commit.Valid (σ₀ : Store K V) (B : C → Prog K V E A → Prop)
    (log : List (Commit K V E A C)) (n : Nat) (c : Commit K V E A C) : Prop where
  start_le : c.start ≤ n
  body : B c.call c.body
  run : ∃ t, c.body.run (.begin (stateAt σ₀ log c.start)) = .ok (c.value, t) ∧ t.foot = c.foot
  free : ∀ m c', c.start ≤ m → m < n → log[m]? = some c' → c'.conflictsWith c.foot = false

/-- A session has run a prefix of a body of its call on the state at its begin. -/
def Session.Valid (σ₀ : Store K V) (B : C → Prog K V E A → Prop)
    (log : List (Commit K V E A C)) : Session K V E A R C → Prop
  | .running _ call p => p.Bodies (B call)
  | .inTxn _ call start body rest t next =>
      start ≤ log.length ∧ B call body ∧
        body.run (.begin (stateAt σ₀ log start)) = rest.run t ∧ ∀ o, (next o).Bodies (B call)

/-- What every schedule keeps. -/
structure Sys.Valid (σ₀ : Store K V) (B : C → Prog K V E A → Prop)
    (s : Sys K V E A R C) : Prop where
  store : s.store = stateAt σ₀ s.log s.log.length
  log : ∀ n (c : Commit K V E A C), s.log[n]? = some c → c.Valid σ₀ B s.log n
  sessions : ∀ client (session : Session K V E A R C), s.sessions client = some session →
    session.Valid σ₀ B s.log

variable {σ₀ : Store K V} {B : C → Prog K V E A → Prop} {s : Sys K V E A R C}

theorem Commit.Valid.append {log : List (Commit K V E A C)} {n : Nat} {c : Commit K V E A C}
    (h : c.Valid σ₀ B log n) (hn : n < log.length) (d : Commit K V E A C) :
    c.Valid σ₀ B (log ++ [d]) n where
  start_le := h.start_le
  body := h.body
  run := by
    rw [stateAt_append σ₀ log d (by have := h.start_le; omega)]
    exact h.run
  free := by
    intro m c' hs hm hc'
    rw [List.getElem?_append_left (by omega)] at hc'
    exact h.free m c' hs hm hc'

theorem Session.Valid.append {log : List (Commit K V E A C)} {session : Session K V E A R C}
    (h : session.Valid σ₀ B log) (d : Commit K V E A C) : session.Valid σ₀ B (log ++ [d]) := by
  cases session with
  | running id call p => exact h
  | inTxn id call start body rest t next =>
      obtain ⟨hs, hb, hr, hn⟩ := h
      exact ⟨by simp; omega, hb, by rw [stateAt_append σ₀ log d hs]; exact hr, hn⟩

namespace Sys

theorem valid_init : (init σ₀ : Sys K V E A R C).Valid σ₀ B where
  store := rfl
  log := by intro n c h; simp [init] at h
  sessions := by intro client session h; simp [init] at h

/-- Changing the session of one client keeps validity. -/
theorem Valid.set (h : s.Valid σ₀ B) (client : Nat) {o : Option (Session K V E A R C)}
    (ho : ∀ session, o = some session → session.Valid σ₀ B s.log) :
    (s.set client o).Valid σ₀ B where
  store := h.store
  log := h.log
  sessions := by
    intro cl session hcl
    simp only [Sys.set] at hcl ⊢
    by_cases hc : cl = client
    · subst hc
      rw [Function.update_self] at hcl
      exact ho session hcl
    · rw [Function.update_of_ne hc] at hcl
      exact h.sessions cl session hcl

theorem Valid.settle (h : s.Valid σ₀ B) (client id : Nat) {call : C} {p : Proc K V E A R}
    (hp : p.Bodies (B call)) : (s.settle client id call p).Valid σ₀ B := by
  cases p with
  | ret r =>
      have h' := h.set client (o := none) (by simp)
      exact ⟨h'.store, h'.log, h'.sessions⟩
  | get k next => exact h.set client (by rintro _ ⟨⟩; exact hp)
  | scan range next => exact h.set client (by rintro _ ⟨⟩; exact hp)
  | txn body next => exact h.set client (by rintro _ ⟨⟩; exact hp)

theorem conflict_eq_false {start : Nat} {f : Footprint K V} (h : s.conflict start f = false)
    {m : Nat} {c : Commit K V E A C} (hs : start ≤ m) (hc : s.log[m]? = some c) :
    c.conflictsWith f = false := by
  simp only [conflict, List.any_eq_false, Bool.not_eq_true] at h
  refine h c (List.mem_of_getElem? (i := m - start) ?_)
  rw [List.getElem?_drop, Nat.add_sub_cancel' hs]
  exact hc

/-- A commit that conflict detection lets through keeps validity. -/
theorem Valid.append (h : s.Valid σ₀ B) {id start : Nat} {call : C} {body : Prog K V E A}
    {a : A} {t : Txn K V} (hs : start ≤ s.log.length) (hb : B call body)
    (hr : body.run (.begin (stateAt σ₀ s.log start)) = .ok (a, t))
    (hfree : s.conflict start t.foot = false) :
    (s.append ⟨id, call, start, body, a, t.foot⟩).Valid σ₀ B where
  store := by
    simp only [Sys.append, List.length_append, List.length_singleton]
    rw [stateAt_append_length, h.store]
  log := by
    intro n c hc
    simp only [Sys.append] at hc ⊢
    by_cases hn : n < s.log.length
    · rw [List.getElem?_append_left hn] at hc
      exact (h.log n c hc).append hn _
    · have hn' : n = s.log.length := by
        have := (List.getElem?_eq_some_iff.mp hc).1
        simp at this
        omega
      subst hn'
      simp only [List.getElem?_append_right le_rfl, Nat.sub_self, List.getElem?_cons_zero,
        Option.some.injEq] at hc
      subst hc
      refine ⟨hs, hb, ⟨t, ?_, rfl⟩, ?_⟩
      · rw [stateAt_append σ₀ s.log _ hs]
        exact hr
      · intro m c' hm hmn hc'
        rw [List.getElem?_append_left hmn] at hc'
        exact conflict_eq_false hfree hm hc'
  sessions := by
    intro client session hcl
    exact (h.sessions client session hcl).append _

theorem Valid.advance (h : s.Valid σ₀ B) (client : Nat) {session : Session K V E A R C}
    (hv : session.Valid σ₀ B s.log) : (s.advance client session).Valid σ₀ B := by
  cases session with
  | running id call p =>
      cases p with
      | ret r => exact h.settle client id hv
      | get k next => exact h.settle client id (hv _)
      | scan range next => exact h.settle client id (hv _)
      | txn body next =>
          refine h.set client ?_
          rintro _ ⟨⟩
          exact ⟨le_rfl, hv.1, by rw [h.store], hv.2⟩
  | inTxn id call start body rest t next =>
      obtain ⟨hs, hb, hr, hn⟩ := hv
      have stepCase : ∀ rest' t', rest.step t = some (rest', t') →
          (s.set client (some (.inTxn id call start body rest' t' next))).Valid σ₀ B := by
        intro rest' t' hst
        refine h.set client ?_
        rintro _ ⟨⟩
        exact ⟨hs, hb, by rw [hr, Prog.run_step hst], hn⟩
      cases rest with
      | pure a =>
          simp only [Sys.advance]
          split
          · exact h.settle client id (hn _)
          · next hfree =>
            exact (h.append hs hb hr (by simpa using hfree)).settle client id (hn _)
      | throw e => exact h.settle client id (hn _)
      | get k next' => exact stepCase _ _ rfl
      | scan range next' => exact stepCase _ _ rfl
      | put k v next' => exact stepCase _ _ rfl
      | delete k next' => exact stepCase _ _ rfl
      | unmark k next' => exact stepCase _ _ rfl

variable {exec : C → Proc K V E A R}

theorem Valid.step (h : s.Valid σ₀ B) {act : Action C}
    (hexec : ∀ client call, act = .invoke client call → (exec call).Bodies (B call)) :
    (s.step exec act).Valid σ₀ B := by
  cases act with
  | invoke client call =>
      simp only [Sys.step]
      split
      · have h' : ({ s with calls := s.calls + 1 } : Sys K V E A R C).Valid σ₀ B :=
          ⟨h.store, h.log, h.sessions⟩
        exact h'.settle client s.calls (hexec client call rfl)
      · exact h
  | step client =>
      simp only [Sys.step]
      split
      · exact h
      · next session hsess => exact h.advance client (h.sessions client session hsess)

/-- Every schedule reaches a valid system. -/
theorem valid_run {acts : List (Action C)} (h : s.Valid σ₀ B)
    (hexec : ∀ client call, .invoke client call ∈ acts → (exec call).Bodies (B call)) :
    (s.run exec acts).Valid σ₀ B := by
  induction acts generalizing s with
  | nil => exact h
  | cons act acts ih =>
      refine ih (h.step fun client call hact => ?_) fun client call hact => ?_
      · exact hexec client call (by rw [hact]; exact List.mem_cons_self)
      · exact hexec client call (List.mem_cons_of_mem _ hact)

end Sys

end

end TxnKv
