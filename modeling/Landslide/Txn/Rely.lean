import Landslide.Txn.Serial

/-!
# Calls that rely on the states they read

The handle reads of a call see whatever state is committed at the time.  When every
such state satisfies `I`, what the call goes on to do is limited: `Proc.Under I B`
says that every transaction body it then reaches satisfies `B`, and `Prog.Yields I Q`
says the same of the result of a read-only program.

`Sys.Relies` is the rule for whole runs.  As long as `I` holds of the committed
states, every transaction that the calls in `T` commit from then on satisfies `B`
(`Sys.Relies.body_of_commit`).
-/

set_option linter.unusedSectionVars false

namespace TxnKv

open Std

section

variable {K : Type} [Ord K] [TransOrd K] [LawfulEqOrd K] [DecidableEq K] {V : K → Type}
variable {E E' A R C α β : Type}
variable {I : Store K V → Prop} {B : Prog K V E A → Prop}

/-! ## Programs -/

/-- With each read answered by a state in `I`, the program ends in `Q`. -/
def Prog.Yields (I : Store K V → Prop) (Q : Except E α → Prop) : Prog K V E α → Prop
  | .pure a => Q (.ok a)
  | .throw e => Q (.error e)
  | .get k next => ∀ σ, I σ → (next (σ.get k)).Yields I Q
  | .scan range next => ∀ σ, I σ → (next (σ.scan range)).Yields I Q
  | .put _ _ next => next.Yields I Q
  | .delete _ next => next.Yields I Q
  | .unmark _ next => next.Yields I Q

/-- With each handle read answered by a state in `I`, every body that the call
reaches satisfies `B`. -/
def Proc.Under (I : Store K V → Prop) (B : Prog K V E A → Prop) : Proc K V E A R → Prop
  | .ret _ => True
  | .get k next => ∀ σ, I σ → (next (σ.get k)).Under I B
  | .scan range next => ∀ σ, I σ → (next (σ.scan range)).Under I B
  | .txn body next => B body ∧ ∀ o, (next o).Under I B

/-- What is left of a session, with each handle read answered by a state in `I`. -/
def Session.Under (I : Store K V → Prop) (B : Prog K V E A → Prop) : Session K V E A R C → Prop
  | .running _ _ p => p.Under I B
  | .inTxn _ _ _ body _ _ next => B body ∧ ∀ o, (next o).Under I B

theorem Proc.Under.mono {I' : Store K V → Prop} (h : ∀ σ, I' σ → I σ) {p : Proc K V E A R}
    (hp : p.Under I B) : p.Under I' B := by
  induction p with
  | ret r => trivial
  | get k next ih => exact fun σ hσ => ih _ (hp σ (h σ hσ))
  | scan range next ih => exact fun σ hσ => ih _ (hp σ (h σ hσ))
  | txn body next ih => exact ⟨hp.1, fun o => ih o (hp.2 o)⟩

theorem Proc.bodies_of_forall (h : ∀ body, B body) {p : Proc K V E A R} : p.Bodies B := by
  induction p with
  | ret r => trivial
  | get k next ih => exact ih
  | scan range next ih => exact ih
  | txn body next ih => exact ⟨h body, ih⟩

/-- What holds of the bodies along any answers holds along those of the states. -/
theorem Proc.Bodies.under {p : Proc K V E A R} (hp : p.Bodies B) : p.Under I B := by
  induction p with
  | ret r => trivial
  | get k next ih => exact fun σ _ => ih _ (hp _)
  | scan range next ih => exact fun σ _ => ih _ (hp _)
  | txn body next ih => exact ⟨hp.1, fun o => ih o (hp.2 o)⟩

theorem Session.Under.mono {I' : Store K V → Prop} (h : ∀ σ, I' σ → I σ)
    {ss : Session K V E A R C} (hs : ss.Under I B) : ss.Under I' B := by
  cases ss with
  | running id call p => exact Proc.Under.mono h hs
  | inTxn id call start body rest t next => exact ⟨hs.1, fun o => (hs.2 o).mono h⟩

theorem Proc.Under.ofReads {Q : Except E' α → Prop} {p : Prog K V E' α}
    {next : Except E' α → Proc K V E A R} (hp : p.Yields I Q)
    (hnext : ∀ r, Q r → (next r).Under I B) : (Proc.ofReads p next).Under I B := by
  induction p with
  | pure a => exact hnext _ hp
  | throw e => exact hnext _ hp
  | get k p ih => exact fun σ hσ => ih _ (hp σ hσ)
  | scan range p ih => exact fun σ hσ => ih _ (hp σ hσ)
  | put k v p ih => exact ih hp
  | delete k p ih => exact ih hp
  | unmark k p ih => exact ih hp

theorem Prog.yields_of_forall {Q : Except E α → Prop} (h : ∀ r, Q r) {p : Prog K V E α} :
    p.Yields I Q := by
  induction p with
  | pure a => exact h _
  | throw e => exact h _
  | get k next ih => exact fun σ _ => ih _
  | scan range next ih => exact fun σ _ => ih _
  | put k v next ih => exact ih
  | delete k next ih => exact ih
  | unmark k next ih => exact ih

theorem Prog.Yields.bind {Q : Except E α → Prop} {Q' : Except E β → Prop} {p : Prog K V E α}
    {f : α → Prog K V E β} (hp : p.Yields I Q) (herr : ∀ e, Q (.error e) → Q' (.error e))
    (hf : ∀ a, Q (.ok a) → (f a).Yields I Q') : (p >>= f).Yields I Q' := by
  show (p.bind f).Yields I Q'
  induction p with
  | pure a => exact hf a hp
  | throw e => exact herr e hp
  | get k next ih => exact fun σ hσ => ih _ (hp σ hσ)
  | scan range next ih => exact fun σ hσ => ih _ (hp σ hσ)
  | put k v next ih => exact ih hp
  | delete k next ih => exact ih hp
  | unmark k next ih => exact ih hp

/-! ## Runs -/

/-- The sessions of the calls in `T` lead to `B` only, and so did the log from entry
`n` on. -/
structure Sys.Relies (T : C → Prop) (I : Store K V → Prop) (B : Prog K V E A → Prop) (n : Nat)
    (s : Sys K V E A R C) : Prop where
  session : ∀ cl (ss : Session K V E A R C), s.sessions cl = some ss → T ss.call → ss.Under I B
  log : ∀ m (c : Commit K V E A C), n ≤ m → s.log[m]? = some c → T c.call → B c.body

namespace Sys

variable {T : C → Prop} {n : Nat} {s : Sys K V E A R C} {exec : C → Proc K V E A R}

theorem Relies.set (h : s.Relies T I B n) (client : Nat) {o : Option (Session K V E A R C)}
    (ho : ∀ ss, o = some ss → T ss.call → ss.Under I B) : (s.set client o).Relies T I B n where
  session := by
    intro cl ss hcl
    rcases sessions_set hcl with ⟨-, ho'⟩ | ⟨-, hcl⟩
    · exact ho ss ho'
    · exact h.session cl ss hcl
  log := h.log

theorem Relies.settle (h : s.Relies T I B n) (client id : Nat) {call : C} {p : Proc K V E A R}
    (hp : T call → p.Under I B) : (s.settle client id call p).Relies T I B n := by
  cases p with
  | ret r =>
      have h' := h.set client (o := none) (by simp)
      exact ⟨h'.session, h'.log⟩
  | get k next => exact h.set client (by rintro _ ⟨⟩; exact hp)
  | scan range next => exact h.set client (by rintro _ ⟨⟩; exact hp)
  | txn body next => exact h.set client (by rintro _ ⟨⟩; exact hp)

theorem Relies.append (h : s.Relies T I B n) {c : Commit K V E A C} (hc : T c.call → B c.body) :
    (s.append c).Relies T I B n where
  session := h.session
  log := by
    intro m d hm hd hT
    by_cases hlt : m < s.log.length
    · refine h.log m d hm ?_ hT
      rw [Sys.append, List.getElem?_append_left hlt] at hd
      exact hd
    · rw [Sys.append, List.getElem?_append_right (by omega)] at hd
      obtain rfl : d = c := List.mem_singleton.mp (List.mem_of_getElem? hd)
      exact hc hT

theorem Relies.advance (h : s.Relies T I B n) (hI : I s.store) (client : Nat)
    {ss : Session K V E A R C} (hs : T ss.call → ss.Under I B) :
    (s.advance client ss).Relies T I B n := by
  cases ss with
  | running id call p =>
      cases p with
      | ret r => exact h.settle client id hs
      | get k next => exact h.settle client id fun hT => hs hT _ hI
      | scan range next => exact h.settle client id fun hT => hs hT _ hI
      | txn body next =>
          refine h.set client ?_
          rintro _ ⟨⟩
          exact hs
  | inTxn id call start body rest t next =>
      have stepCase : ∀ rest' t',
          (s.set client (some (.inTxn id call start body rest' t' next))).Relies T I B n := by
        intro rest' t'
        refine h.set client ?_
        rintro _ ⟨⟩
        exact hs
      cases rest with
      | pure a =>
          simp only [Sys.advance]
          split
          · exact h.settle client id fun hT => (hs hT).2 _
          · exact (h.append fun hT => (hs hT).1).settle client id fun hT => (hs hT).2 _
      | throw e => exact h.settle client id fun hT => (hs hT).2 _
      | get k next' => exact stepCase _ _
      | scan range next' => exact stepCase _ _
      | put k v next' => exact stepCase _ _
      | delete k next' => exact stepCase _ _
      | unmark k next' => exact stepCase _ _

theorem Relies.step (h : s.Relies T I B n) (hI : I s.store)
    (hexec : ∀ call, T call → (exec call).Under I B) (act : Action C) :
    (s.step exec act).Relies T I B n := by
  cases act with
  | invoke client call =>
      simp only [Sys.step]
      split
      · have h' : ({ s with calls := s.calls + 1 } : Sys K V E A R C).Relies T I B n :=
          ⟨h.session, h.log⟩
        exact h'.settle client s.calls (hexec call)
      · exact h
  | step client =>
      simp only [Sys.step]
      split
      · exact h
      · next ss hss => exact h.advance hI client (h.session client ss hss)

end Sys

/-! ## Where a log entry was committed -/

namespace Sys

variable {s : Sys K V E A R C} {exec : C → Proc K V E A R}

theorem log_settle (s : Sys K V E A R C) (client id : Nat) (call : C) (p : Proc K V E A R) :
    (s.settle client id call p).log = s.log := by
  cases p <;> rfl

/-- A step adds at most one log entry. -/
theorem log_step (exec : C → Proc K V E A R) (s : Sys K V E A R C) (act : Action C) :
    (s.step exec act).log = s.log ∨ ∃ c, (s.step exec act).log = s.log ++ [c] := by
  cases act with
  | invoke client call =>
      simp only [Sys.step]
      split
      · exact .inl (log_settle _ _ _ _ _)
      · exact .inl rfl
  | step client =>
      simp only [Sys.step]
      split
      · exact .inl rfl
      · next ss hss =>
        cases ss with
        | running id call p =>
            cases p with
            | ret r => exact .inl (log_settle _ _ _ _ _)
            | get k next => exact .inl (log_settle _ _ _ _ _)
            | scan range next => exact .inl (log_settle _ _ _ _ _)
            | txn body next => exact .inl rfl
        | inTxn id call start body rest t next =>
            cases rest with
            | pure a =>
                simp only [Sys.advance]
                split
                · exact .inl (log_settle _ _ _ _ _)
                · exact .inr ⟨_, log_settle _ _ _ _ _⟩
            | throw e => exact .inl (log_settle _ _ _ _ _)
            | get | scan | put | delete | unmark => exact .inl rfl

/-- A commit is one of a client that was busy. -/
theorem session_of_commit {act : Action C} {c : Commit K V E A C}
    (h : (s.step exec act).log = s.log ++ [c]) :
    ∃ cl ss, s.sessions cl = some ss ∧ ss.call = c.call := by
  have same : ∀ {l : List (Commit K V E A C)}, l = s.log → l ≠ s.log ++ [c] := by
    rintro l rfl hl
    simpa using congrArg List.length hl
  cases act with
  | invoke client call =>
      simp only [Sys.step] at h
      split at h
      · exact absurd h (same (log_settle _ _ _ _ _))
      · exact absurd h (same rfl)
  | step client =>
      simp only [Sys.step] at h
      split at h
      · exact absurd h (same rfl)
      next ss hss =>
      refine ⟨client, ss, hss, ?_⟩
      cases ss with
      | running id call p =>
          cases p with
          | ret r => exact absurd h (same (log_settle _ _ _ _ _))
          | get k next => exact absurd h (same (log_settle _ _ _ _ _))
          | scan range next => exact absurd h (same (log_settle _ _ _ _ _))
          | txn body next => exact absurd h (same rfl)
      | inTxn id call start body rest t next =>
          cases rest with
          | throw e => exact absurd h (same (log_settle _ _ _ _ _))
          | get | scan | put | delete | unmark => exact absurd h (same rfl)
          | pure a =>
              simp only [Sys.advance] at h
              split at h
              · exact absurd h (same (log_settle _ _ _ _ _))
              · rw [log_settle, Sys.append] at h
                cases List.append_cancel_left h
                rfl

/-- Every client that is busy is in a call of this kind. -/
def CallsIn (P : C → Prop) (s : Sys K V E A R C) : Prop :=
  ∀ cl ss, s.sessions cl = some ss → P ss.call

theorem CallsIn.set {P : C → Prop} (h : s.CallsIn P) (client : Nat)
    {o : Option (Session K V E A R C)} (ho : ∀ ss, o = some ss → P ss.call) :
    (s.set client o).CallsIn P := by
  intro cl ss hcl
  rcases sessions_set hcl with ⟨-, ho'⟩ | ⟨-, hcl⟩
  · exact ho ss ho'
  · exact h cl ss hcl

theorem CallsIn.settle {P : C → Prop} (h : s.CallsIn P) (client id : Nat) {call : C}
    (hcall : P call) (p : Proc K V E A R) : (s.settle client id call p).CallsIn P := by
  cases p with
  | ret r => exact h.set client (o := none) (by simp)
  | get | scan | txn => exact h.set client (by rintro _ ⟨⟩; exact hcall)

theorem CallsIn.advance {P : C → Prop} (h : s.CallsIn P) (client : Nat)
    {ss : Session K V E A R C} (hs : P ss.call) : (s.advance client ss).CallsIn P := by
  cases ss with
  | running id call p =>
      cases p with
      | ret r => exact h.settle client id hs (.ret r)
      | get k next => exact h.settle client id hs (next (s.store.get k))
      | scan range next => exact h.settle client id hs (next (s.store.scan range))
      | txn body next => exact h.set client (by rintro _ ⟨⟩; exact hs)
  | inTxn id call start body rest t next =>
      cases rest with
      | pure a =>
          simp only [Sys.advance]
          split
          · exact h.settle client id hs _
          · exact CallsIn.settle (s := s.append _) h client id hs _
      | throw e => exact h.settle client id hs _
      | get | scan | put | delete | unmark => exact h.set client (by rintro _ ⟨⟩; exact hs)

/-- If only calls of a kind are invoked, clients are in no others. -/
theorem CallsIn.run {P : C → Prop} {acts : List (Action C)} (h : s.CallsIn P)
    (hacts : ∀ client call, .invoke client call ∈ acts → P call) : (s.run exec acts).CallsIn P := by
  induction acts generalizing s with
  | nil => exact h
  | cons act acts ih =>
      refine ih ?_ fun client call hmem => hacts client call (List.mem_cons_of_mem _ hmem)
      cases act with
      | invoke client call =>
          simp only [Sys.step]
          split
          · exact CallsIn.settle (s := { s with calls := s.calls + 1 }) h client s.calls
              (hacts client call List.mem_cons_self) _
          · exact h
      | step client =>
          simp only [Sys.step]
          split
          · exact h
          · next ss hss => exact h.advance client (h client ss hss)

/-- The log of a run begins with the log it started from. -/
theorem log_run (exec : C → Proc K V E A R) (s : Sys K V E A R C) (acts : List (Action C)) :
    s.log <+: (s.run exec acts).log := by
  induction acts generalizing s with
  | nil => exact List.prefix_rfl
  | cons act acts ih =>
      refine List.IsPrefix.trans ?_ (ih (s.step exec act))
      rcases log_step exec s act with h | ⟨c, h⟩
      · rw [h]
      · rw [h]
        exact List.prefix_append _ _

theorem run_append (exec : C → Proc K V E A R) (s : Sys K V E A R C) (acts acts' : List (Action C)) :
    s.run exec (acts ++ acts') = (s.run exec acts).run exec acts' := by
  simp [Sys.run]

/-- An entry that a call in `T` commits while the committed states are in `I` is in
`B`. -/
theorem Relies.body_of_commit {T : C → Prop} {n : Nat} (h : s.Relies T I B n)
    (hexec : ∀ call, T call → (exec call).Under I B) {acts : List (Action C)} {k : Nat}
    {d : Commit K V E A C} (hk : n ≤ k) (hd : (s.run exec acts).log[k]? = some d) (hT : T d.call)
    (hI : ∀ earlier later, acts = earlier ++ later → (s.run exec earlier).log.length ≤ k →
      I (s.run exec earlier).store) : B d.body := by
  induction acts generalizing s with
  | nil => exact h.log k d hk hd hT
  | cons act acts ih =>
      by_cases hlen : s.log.length ≤ k
      · refine ih (h.step (hI [] _ rfl hlen) hexec act) hd fun earlier later heq => ?_
        exact hI (act :: earlier) later (by rw [heq]; rfl)
      · -- the entry was there before
        obtain ⟨rest, hrest⟩ := log_run exec s (act :: acts)
        rw [← hrest, List.getElem?_append_left (by omega)] at hd
        exact h.log k d hk hd hT

/-- Every log entry was committed by one action of the schedule. -/
theorem exists_commit (exec : C → Proc K V E A R) (s : Sys K V E A R C)
    (acts : List (Action C)) {n : Nat} (hn : s.log.length ≤ n)
    (hlt : n < (s.run exec acts).log.length) : ∃ earlier act later c,
      acts = earlier ++ act :: later ∧ (s.run exec earlier).log.length = n ∧
        (s.run exec (earlier ++ [act])).log = (s.run exec earlier).log ++ [c] ∧
        (s.run exec acts).log[n]? = some c := by
  -- the last action is the one sought, or it comes earlier
  induction acts using List.reverseRecOn with
  | nil => exact absurd hlt (Nat.not_lt.mpr hn)
  | append_singleton acts act ih =>
      by_cases hearlier : n < (s.run exec acts).log.length
      · obtain ⟨earlier, act', later, c, heq, hlen, hlog, hget⟩ := ih hearlier
        refine ⟨earlier, act', later ++ [act], c, by rw [heq]; simp, hlen, hlog, ?_⟩
        have hpre := log_run exec (s.run exec acts) [act]
        rw [run_append]
        obtain ⟨rest, hrest⟩ := hpre
        rw [← hrest, List.getElem?_append_left hearlier]
        exact hget
      · have hone : (s.run exec (acts ++ [act])).log =
            ((s.run exec acts).step exec act).log := by rw [run_append]; rfl
        rcases log_step exec (s.run exec acts) act with h | ⟨c, h⟩
        · rw [hone, h] at hlt
          exact absurd hlt hearlier
        · rw [hone, h, List.length_append, List.length_singleton] at hlt
          have hlen : (s.run exec acts).log.length = n := by omega
          refine ⟨acts, act, [], c, rfl, hlen, hone.trans h, ?_⟩
          rw [hone, h, ← hlen]
          simp

/-- When every transaction that the calls can commit moves a state along `Rel`, whatever
state it began on, so does every run. -/
theorem run_related {P : C → Prop} {Rel : Store K V → Store K V → Prop} (hrefl : ∀ σ, Rel σ σ)
    (htrans : ∀ {σ σ' σ''}, Rel σ σ' → Rel σ' σ'' → Rel σ σ'')
    (hexec : ∀ call, P call → (exec call).Under (fun _ => True) fun body =>
      ∀ τ a t, body.run (.begin τ) = .ok (a, t) → ∀ σ, Rel σ (σ.applyAll t.foot.writes))
    {acts : List (Action C)} (hacts : ∀ client call, .invoke client call ∈ acts → P call)
    (σ₀ : Store K V) : Rel σ₀ ((init σ₀).run exec acts).store := by
  have hvalid : ((init σ₀).run exec acts).Valid σ₀ fun call _ => P call :=
    valid_run valid_init fun client call hmem => Proc.bodies_of_forall fun _ => hacts client call hmem
  have hrelies : (init σ₀ : Sys K V E A R C).Relies P (fun _ => True)
      (fun body => ∀ τ a t, body.run (.begin τ) = .ok (a, t) →
        ∀ σ, Rel σ (σ.applyAll t.foot.writes)) 0 :=
    ⟨by simp [init], by simp [init]⟩
  -- along the log
  have hlog : ∀ n ≤ ((init σ₀).run exec acts).log.length,
      Rel σ₀ (stateAt σ₀ ((init σ₀).run exec acts).log n) := by
    intro n hn
    induction n with
    | zero => exact hrefl _
    | succ n ih =>
        have hc := List.getElem?_eq_getElem (Nat.lt_of_succ_le hn)
        have hentry := hvalid.log n _ hc
        obtain ⟨t, hrun, hfoot⟩ := hentry.run
        rw [stateAt_succ hc, ← hfoot]
        refine htrans (ih (Nat.le_of_succ_le hn)) ?_
        exact hrelies.body_of_commit hexec (Nat.zero_le n) hc hentry.body (fun _ _ _ _ => trivial)
          _ _ _ hrun _
  rw [hvalid.store]
  exact hlog _ le_rfl

end Sys

end

end TxnKv
