import Landslide.Txn.Rely

/-!
# Traces of calls

What a call can end with is decided by the log alone.  Its reads saw states of the log, one
no earlier than the other, and each of its transactions began on such a state and then
committed as an entry, lost to an entry that came in between, or ended itself
(`Proc.Moves`).

Every result handed to a client has such a trace, which starts where the call was invoked
(`Sys.exists_trace`).  So what a result says of the commits that ran beside the call is
proved by going through its program, and no schedule is looked at any more.
-/

set_option linter.unusedSectionVars false

namespace TxnKv

open Std Relation

section

variable {K : Type} [Ord K] [TransOrd K] [LawfulEqOrd K] [DecidableEq K] {V : K → Type}
variable {E A R C : Type}
variable {σ₀ : Store K V} {log log' : List (Commit K V E A C)}

/-- One move of a call: from state `n` of the log and a program to a later state and what
is left of the program. -/
inductive Proc.Moves (σ₀ : Store K V) (log : List (Commit K V E A C)) :
    Nat × Proc K V E A R → Nat × Proc K V E A R → Prop where
  | wait {n m : Nat} {p : Proc K V E A R} : n ≤ m → m ≤ log.length → Moves σ₀ log (n, p) (m, p)
  | get {n : Nat} {k : K} {next : Option (V k) → Proc K V E A R} :
      Moves σ₀ log (n, .get k next) (n, next ((stateAt σ₀ log n).get k))
  | scan {n : Nat} {range : K → Bool} {next : List ((k : K) × V k) → Proc K V E A R} :
      Moves σ₀ log (n, .scan range next) (n, next ((stateAt σ₀ log n).scan range))
  | commit {n k : Nat} {body : Prog K V E A} {next : Outcome E A → Proc K V E A R} {a : A}
      {t : Txn K V} {c : Commit K V E A C} :
      body.run (.begin (stateAt σ₀ log n)) = .ok (a, t) → n ≤ k → log[k]? = some c →
      c.start = n → c.body = body → c.value = a → c.foot = t.foot →
      Moves σ₀ log (n, .txn body next) (k + 1, next (.committed a))
  | conflict {n k : Nat} {body : Prog K V E A} {next : Outcome E A → Proc K V E A R} {a : A}
      {t : Txn K V} {c : Commit K V E A C} :
      body.run (.begin (stateAt σ₀ log n)) = .ok (a, t) → n ≤ k → log[k]? = some c →
      c.conflictsWith t.foot = true → Moves σ₀ log (n, .txn body next) (k + 1, next .conflict)
  | abort {n : Nat} {body : Prog K V E A} {next : Outcome E A → Proc K V E A R} {e : E} :
      body.run (.begin (stateAt σ₀ log n)) = .error e →
      Moves σ₀ log (n, .txn body next) (n, next (.aborted e))

/-- Any number of moves. -/
abbrev Proc.Trace (σ₀ : Store K V) (log : List (Commit K V E A C)) :
    Nat × Proc K V E A R → Nat × Proc K V E A R → Prop :=
  ReflTransGen (Proc.Moves σ₀ log)

/-! ## Traces and longer logs -/

theorem stateAt_of_starts (h : log <+: log') {n : Nat} (hn : n ≤ log.length) :
    stateAt σ₀ log' n = stateAt σ₀ log n := by
  obtain ⟨more, rfl⟩ := h
  rw [stateAt, stateAt, List.take_append_of_le_length hn]

theorem getElem?_of_starts {α : Type} {l l' : List α} (h : l <+: l') {n : Nat} {a : α}
    (hn : l[n]? = some a) : l'[n]? = some a := by
  obtain ⟨more, rfl⟩ := h
  rw [List.getElem?_append_left (List.getElem?_eq_some_iff.mp hn).1, hn]

namespace Proc.Moves

variable {x y : Nat × Proc K V E A R}

/-- Moves go forward in the log and stay in it. -/
theorem le (h : Moves σ₀ log x y) : x.1 ≤ y.1 ∧ (x.1 ≤ log.length → y.1 ≤ log.length) := by
  cases h with
  | wait hle hm => exact ⟨hle, fun _ => hm⟩
  | get | scan | abort => exact ⟨Nat.le_refl _, id⟩
  | commit _ hle hc | conflict _ hle hc =>
      exact ⟨Nat.le_succ_of_le hle, fun _ => (List.getElem?_eq_some_iff.mp hc).1⟩

theorem mono (hlog : log <+: log') (hx : x.1 ≤ log.length) (h : Moves σ₀ log x y) :
    Moves σ₀ log' x y := by
  cases h with
  | wait hle hm => exact .wait hle (hm.trans hlog.length_le)
  | get =>
      rw [← stateAt_of_starts hlog hx]
      exact .get
  | scan =>
      rw [← stateAt_of_starts hlog hx]
      exact .scan
  | commit hr hle hc hstart hbody hvalue hfoot =>
      rw [← stateAt_of_starts hlog hx] at hr
      exact .commit hr hle (getElem?_of_starts hlog hc) hstart hbody hvalue hfoot
  | conflict hr hle hc hconf =>
      rw [← stateAt_of_starts hlog hx] at hr
      exact .conflict hr hle (getElem?_of_starts hlog hc) hconf
  | abort hr =>
      rw [← stateAt_of_starts hlog hx] at hr
      exact .abort hr

end Proc.Moves

namespace Proc.Trace

variable {x y : Nat × Proc K V E A R}

theorem le (h : Trace σ₀ log x y) : x.1 ≤ y.1 ∧ (x.1 ≤ log.length → y.1 ≤ log.length) := by
  induction h with
  | refl => exact ⟨Nat.le_refl _, id⟩
  | tail _ hmove ih => exact ⟨ih.1.trans hmove.le.1, hmove.le.2 ∘ ih.2⟩

/-- A trace in a log is one in every longer log. -/
theorem mono (hlog : log <+: log') (hx : x.1 ≤ log.length) (h : Trace σ₀ log x y) :
    Trace σ₀ log' x y := by
  induction h with
  | refl => exact .refl
  | tail htrace hmove ih => exact .tail ih (hmove.mono hlog ((Trace.le htrace).2 hx))

/-- A trace may wait at its end. -/
theorem wait {n m : Nat} {p : Proc K V E A R} (h : Trace σ₀ log x (n, p)) (hle : n ≤ m)
    (hm : m ≤ log.length) : Trace σ₀ log x (m, p) :=
  h.tail (.wait hle hm)

/-! ## Going through a program -/

end Proc.Trace

/-! ## Traces of a schedule -/

theorem concat_of_eq {α : Type} {l before after : List α} {a : α} (h : l = before ++ a :: after)
    (b : α) : l ++ [b] = before ++ a :: (after ++ [b]) := by
  rw [h, List.append_assoc, List.cons_append]

/-- What a client is in goes back to an invocation of `acts`. -/
def Session.Traced (exec : C → Proc K V E A R) (σ₀ : Store K V) (acts : List (Action C))
    (log : List (Commit K V E A C)) (ss : Session K V E A R C) : Prop :=
  ∃ before client after, acts = before ++ .invoke client ss.call :: after ∧
    ((Sys.init σ₀).run exec before).calls = ss.id ∧
      ((Sys.init σ₀).run exec before).log.length ≤ log.length ∧
      match ss with
      | .running _ call p => Proc.Trace σ₀ log
          (((Sys.init σ₀).run exec before).log.length, exec call) (log.length, p)
      | .inTxn _ call start body rest t next => start ≤ log.length ∧
          body.run (.begin (stateAt σ₀ log start)) = rest.run t ∧ Proc.Trace σ₀ log
            (((Sys.init σ₀).run exec before).log.length, exec call) (start, .txn body next)

/-- A result goes back to an invocation of `acts`. -/
def Return.Traced (exec : C → Proc K V E A R) (σ₀ : Store K V) (acts : List (Action C))
    (log : List (Commit K V E A C)) (r : Return R C) : Prop :=
  ∃ before client after n, acts = before ++ .invoke client r.call :: after ∧
    ((Sys.init σ₀).run exec before).calls = r.id ∧
      ((Sys.init σ₀).run exec before).log.length ≤ log.length ∧ Proc.Trace σ₀ log
        (((Sys.init σ₀).run exec before).log.length, exec r.call) (n, .ret r.result)

theorem Session.Traced.mono {exec : C → Proc K V E A R} {acts : List (Action C)}
    {ss : Session K V E A R C} (h : ss.Traced exec σ₀ acts log) (act : Action C)
    (hlog : log <+: log') : ss.Traced exec σ₀ (acts ++ [act]) log' := by
  obtain ⟨before, client, after, hacts, hid, hle, htrace⟩ := h
  refine ⟨before, client, after ++ [act], concat_of_eq hacts act, hid,
    hle.trans hlog.length_le, ?_⟩
  cases ss with
  | running id call p =>
      exact (Proc.Trace.mono hlog hle htrace).wait hlog.length_le (Nat.le_refl _)
  | inTxn id call start body rest t next =>
      obtain ⟨hs, hr, htrace⟩ := htrace
      refine ⟨hs.trans hlog.length_le, ?_, Proc.Trace.mono hlog hle htrace⟩
      rw [stateAt_of_starts hlog hs, hr]

theorem Return.Traced.mono {exec : C → Proc K V E A R} {acts : List (Action C)}
    {r : Return R C} (h : r.Traced exec σ₀ acts log) (act : Action C) (hlog : log <+: log') :
    r.Traced exec σ₀ (acts ++ [act]) log' := by
  obtain ⟨before, client, after, n, hacts, hid, hle, htrace⟩ := h
  exact ⟨before, client, after ++ [act], n, concat_of_eq hacts act, hid,
    hle.trans hlog.length_le, Proc.Trace.mono hlog hle htrace⟩

/-- A conflict is with an entry that came after the begin. -/
theorem Sys.exists_of_conflict {s : Sys K V E A R C} {start : Nat} {f : Footprint K V}
    (h : s.conflict start f = true) :
    ∃ m c, start ≤ m ∧ s.log[m]? = some c ∧ c.conflictsWith f = true := by
  obtain ⟨c, hc, hf⟩ := List.any_eq_true.mp h
  obtain ⟨i, hi⟩ := List.mem_iff_getElem?.mp hc
  exact ⟨start + i, c, Nat.le_add_right _ _, by rw [← List.getElem?_drop, hi], hf⟩

/-- Everything that clients are in and were told has a trace. -/
structure Sys.Traced (exec : C → Proc K V E A R) (σ₀ : Store K V) (acts : List (Action C))
    (s : Sys K V E A R C) : Prop where
  session : ∀ cl (ss : Session K V E A R C), s.sessions cl = some ss →
    ss.Traced exec σ₀ acts s.log
  returned : ∀ r ∈ s.returned, r.Traced exec σ₀ acts s.log

namespace Sys.Traced

variable {exec : C → Proc K V E A R} {acts : List (Action C)} {s : Sys K V E A R C}

theorem mono (h : s.Traced exec σ₀ acts) (act : Action C) : s.Traced exec σ₀ (acts ++ [act]) where
  session cl ss hss := (h.session cl ss hss).mono act (List.prefix_refl _)
  returned r hr := (h.returned r hr).mono act (List.prefix_refl _)

theorem set (h : s.Traced exec σ₀ acts) (client : Nat) {o : Option (Session K V E A R C)}
    (ho : ∀ ss, o = some ss → ss.Traced exec σ₀ acts s.log) :
    (s.set client o).Traced exec σ₀ acts where
  session := by
    intro cl ss hcl
    rcases sessions_set hcl with ⟨-, ho'⟩ | ⟨-, hcl⟩
    · exact ho ss ho'
    · exact h.session cl ss hcl
  returned := h.returned

theorem append (h : s.Traced exec σ₀ acts) (c : Commit K V E A C) (act : Action C) :
    (s.append c).Traced exec σ₀ (acts ++ [act]) where
  session cl ss hss := (h.session cl ss hss).mono act (List.prefix_append _ _)
  returned r hr := (h.returned r hr).mono act (List.prefix_append _ _)

theorem settle (h : s.Traced exec σ₀ acts) (client id : Nat) (call : C) {p : Proc K V E A R}
    (hp : (Session.running id call p).Traced exec σ₀ acts s.log) :
    (s.settle client id call p).Traced exec σ₀ acts := by
  cases p with
  | ret r =>
      have h' := h.set client (o := none) (by simp)
      refine ⟨h'.session, ?_⟩
      intro r' hr'
      rcases List.mem_append.mp hr' with hr' | hr'
      · exact h.returned r' hr'
      · obtain ⟨before, cl, after, hacts, hid, hle, htrace⟩ := hp
        cases List.mem_singleton.mp hr'
        exact ⟨before, cl, after, s.log.length, hacts, hid, hle, htrace⟩
  | get k next => exact h.set client (by rintro _ ⟨⟩; exact hp)
  | scan range next => exact h.set client (by rintro _ ⟨⟩; exact hp)
  | txn body next => exact h.set client (by rintro _ ⟨⟩; exact hp)

/-- A client whose trace goes on settles. -/
theorem settle_moves (h : s.Traced exec σ₀ acts) (client : Nat) {id : Nat} {call : C} {n : Nat}
    {p p' : Proc K V E A R} (act : Action C)
    (hp : ∃ before cl after, acts = before ++ .invoke cl call :: after ∧
      ((Sys.init σ₀).run exec before).calls = id ∧
        ((Sys.init σ₀).run exec before).log.length ≤ s.log.length ∧ Proc.Trace σ₀ s.log
          (((Sys.init σ₀).run exec before).log.length, exec call) (n, p))
    (hmove : Proc.Trace σ₀ s.log (n, p) (s.log.length, p')) :
    (s.settle client id call p').Traced exec σ₀ (acts ++ [act]) := by
  refine (h.mono act).settle client id call ?_
  obtain ⟨before, cl, after, hacts, hid, hle, htrace⟩ := hp
  exact ⟨before, cl, after ++ [act], concat_of_eq hacts act, hid, hle, htrace.trans hmove⟩

/-- A transaction that commits goes on behind the entry that it adds. -/
theorem commit (h : s.Traced exec σ₀ acts) (client : Nat) {id : Nat} {call : C} {start : Nat}
    {body : Prog K V E A} {a : A} {t : Txn K V} {next : Outcome E A → Proc K V E A R}
    (act : Action C) (hs : start ≤ s.log.length)
    (hr : body.run (.begin (stateAt σ₀ s.log start)) = .ok (a, t))
    (hp : ∃ before cl after, acts = before ++ .invoke cl call :: after ∧
      ((Sys.init σ₀).run exec before).calls = id ∧
        ((Sys.init σ₀).run exec before).log.length ≤ s.log.length ∧ Proc.Trace σ₀ s.log
          (((Sys.init σ₀).run exec before).log.length, exec call) (start, .txn body next)) :
    ((s.append ⟨id, call, start, body, a, t.foot⟩).settle client id call
      (next (.committed a))).Traced exec σ₀ (acts ++ [act]) := by
  obtain ⟨before, cl, after, hacts, hid, hle, htrace⟩ := hp
  have hget : (s.log ++ [(⟨id, call, start, body, a, t.foot⟩ : Commit K V E A C)])[
      s.log.length]? = some ⟨id, call, start, body, a, t.foot⟩ := by simp
  have hstarts : s.log <+: s.log ++ [(⟨id, call, start, body, a, t.foot⟩ :
      Commit K V E A C)] := List.prefix_append _ _
  refine (h.append ⟨id, call, start, body, a, t.foot⟩ act).settle client id call ?_
  refine ⟨before, cl, after ++ [act], concat_of_eq hacts act, hid,
    hle.trans hstarts.length_le, ?_⟩
  have htrace' := Proc.Trace.mono hstarts hle htrace
  rw [← stateAt_of_starts hstarts hs] at hr
  show Proc.Trace σ₀ (s.log ++ [_]) _ ((s.log ++ [_]).length, next (.committed a))
  rw [List.length_append, List.length_singleton]
  exact htrace'.tail (.commit hr hs hget rfl rfl rfl rfl)

theorem advance (h : s.Traced exec σ₀ acts) (hstore : s.store = stateAt σ₀ s.log s.log.length)
    {client : Nat} {ss : Session K V E A R C} (hss : s.sessions client = some ss)
    (act : Action C) : (s.advance client ss).Traced exec σ₀ (acts ++ [act]) := by
  have hold := h.session client ss hss
  cases ss with
  | running id call p =>
      cases p with
      | ret r => exact h.settle_moves client act hold .refl
      | get k next =>
          refine h.settle_moves client act hold (.single ?_)
          rw [hstore]
          exact .get
      | scan range next =>
          refine h.settle_moves client act hold (.single ?_)
          rw [hstore]
          exact .scan
      | txn body next =>
          obtain ⟨before, cl, after, hacts, hid, hle, htrace⟩ := hold
          refine (h.mono act).set client ?_
          rintro _ ⟨⟩
          exact ⟨before, cl, after ++ [act], concat_of_eq hacts act, hid, hle, Nat.le_refl _,
            by rw [hstore], htrace⟩
  | inTxn id call start body rest t next =>
      obtain ⟨before, cl, after, hacts, hid, hle, hs, hr, htrace⟩ := hold
      have stepCase : ∀ rest' t', rest.step t = some (rest', t') →
          (s.set client (some (.inTxn id call start body rest' t' next))).Traced exec σ₀
            (acts ++ [act]) := by
        intro rest' t' hst
        refine (h.mono act).set client ?_
        rintro _ ⟨⟩
        exact ⟨before, cl, after ++ [act], concat_of_eq hacts act, hid, hle, hs,
          by rw [hr, Prog.run_step hst], htrace⟩
      cases rest with
      | pure a =>
          simp only [Sys.advance]
          split
          · next hconf =>
            refine h.settle_moves client act ⟨before, cl, after, hacts, hid, hle, htrace⟩ ?_
            obtain ⟨m, c, hm, hc, hc'⟩ := Sys.exists_of_conflict hconf
            have hlt : m < s.log.length := (List.getElem?_eq_some_iff.mp hc).1
            exact (ReflTransGen.single (.conflict hr hm hc hc')).tail (.wait hlt (Nat.le_refl _))
          · exact h.commit client act hs hr ⟨before, cl, after, hacts, hid, hle, htrace⟩
      | throw e =>
          refine h.settle_moves client act ⟨before, cl, after, hacts, hid, hle, htrace⟩ ?_
          exact (ReflTransGen.single (.abort hr)).tail (.wait hs (Nat.le_refl _))
      | get k next' => exact stepCase _ _ rfl
      | scan range next' => exact stepCase _ _ rfl
      | put k v next' => exact stepCase _ _ rfl
      | delete k next' => exact stepCase _ _ rfl
      | unmark k next' => exact stepCase _ _ rfl

end Sys.Traced

/-- Every part of a log that leaves nothing out before it is the log of an earlier point of
the schedule. -/
theorem Sys.exists_earlier (exec : C → Proc K V E A R) (s : Sys K V E A R C)
    (acts : List (Action C)) {n : Nat} (hn : s.log.length ≤ n)
    (hle : n ≤ (s.run exec acts).log.length) :
    ∃ earlier later, acts = earlier ++ later ∧
      (s.run exec earlier).log = (s.run exec acts).log.take n := by
  rcases Nat.lt_or_ge n (s.run exec acts).log.length with hlt | hge
  · obtain ⟨earlier, act, later, c, rfl, hlen, -, -⟩ := exists_commit exec s acts hn hlt
    refine ⟨earlier, act :: later, rfl, ?_⟩
    have hstarts : (s.run exec earlier).log <+: (s.run exec (earlier ++ act :: later)).log := by
      rw [run_append]
      exact log_run _ _ _
    rw [← hlen]
    exact List.prefix_iff_eq_take.mp hstarts
  · exact ⟨acts, [], (List.append_nil acts).symm, (List.take_of_length_le hge).symm⟩

end

end TxnKv
