import Landslide.Txn.Traces

/-!
# Crashes

A commit is seen by every client at once and is durable later.  The watermark says how many
entries of the log are durable.  A crash ends every call that is under way and keeps a part
of the log that has at least the durable entries; the next opener goes on from there.

Nothing that a client can read tells such a run from one without crashes: the log is that of
a schedule in which the calls that a crash ended were never taken up again, the numbers of
the invocations aside (`Crashing.exists_schedule`).  And durable entries stay
(`Crashing.durable_prefix`).
-/

set_option linter.unusedSectionVars false

namespace TxnKv

open Std

section

variable {K : Type} [Ord K] [TransOrd K] [LawfulEqOrd K] [DecidableEq K] {V : K → Type}
variable {E A R C : Type}

/-! ## Runs with crashes -/

/-- One event of a run. -/
inductive CrashEvent (C : Type) where
  /-- A client does something. -/
  | act (a : Action C)
  /-- The watermark moves up to `n` entries. -/
  | flush (n : Nat)
  /-- Everything under way is lost, and the durable entries, or the first `n`, are kept. -/
  | crash (n : Nat)

/-- A system and how many entries of its log are durable. -/
structure Crashing (K : Type) [Ord K] (V : K → Type) (E A R C : Type) where
  sys : Sys K V E A R C
  durable : Nat := 0

namespace Crashing

def init (σ₀ : Store K V) : Crashing K V E A R C := { sys := Sys.init σ₀ }

/-- The entries that are kept when `n` are found, and at least the durable ones. -/
def kept (s : Crashing K V E A R C) (n : Nat) : Nat := max s.durable (min n s.sys.log.length)

def step (exec : C → Proc K V E A R) (σ₀ : Store K V) (s : Crashing K V E A R C) :
    CrashEvent C → Crashing K V E A R C
  | .act a => { s with sys := s.sys.step exec a }
  | .flush n => { s with durable := s.kept n }
  | .crash n =>
      { sys :=
          { store := stateAt σ₀ s.sys.log (s.kept n)
            log := s.sys.log.take (s.kept n)
            returned := s.sys.returned
            calls := s.sys.calls }
        durable := s.kept n }

def run (exec : C → Proc K V E A R) (σ₀ : Store K V) (s : Crashing K V E A R C)
    (events : List (CrashEvent C)) : Crashing K V E A R C :=
  events.foldl (step exec σ₀) s

variable {exec : C → Proc K V E A R} {σ₀ : Store K V} {s : Crashing K V E A R C}

theorem run_append (events events' : List (CrashEvent C)) :
    s.run exec σ₀ (events ++ events') = (s.run exec σ₀ events).run exec σ₀ events' := by
  simp [run]

/-! ## What is durable stays -/

theorem durable_step (exec : C → Proc K V E A R) (σ₀ : Store K V)
    (h : s.durable ≤ s.sys.log.length) (event : CrashEvent C) :
    s.durable ≤ (s.step exec σ₀ event).durable ∧
      (s.step exec σ₀ event).durable ≤ (s.step exec σ₀ event).sys.log.length ∧
      s.sys.log.take s.durable <+: (s.step exec σ₀ event).sys.log := by
  cases event with
  | act a =>
      have hlog : s.sys.log <+: (s.sys.step exec a).log := Sys.log_run exec s.sys [a]
      exact ⟨Nat.le_refl _, h.trans hlog.length_le, (List.take_prefix _ _).trans hlog⟩
  | flush n =>
      refine ⟨Nat.le_max_left _ _, ?_, List.take_prefix _ _⟩
      show s.kept n ≤ s.sys.log.length
      rw [kept]
      omega
  | crash n =>
      refine ⟨Nat.le_max_left _ _, ?_, ?_⟩
      · show s.kept n ≤ (s.sys.log.take (s.kept n)).length
        rw [List.length_take, kept]
        omega
      · exact List.take_prefix_take_left (Nat.le_max_left _ _)

/-- Durable entries stay in the log, at their places. -/
theorem durable_kept (exec : C → Proc K V E A R) (σ₀ : Store K V)
    (events : List (CrashEvent C)) (h : s.durable ≤ s.sys.log.length) :
    s.durable ≤ (s.run exec σ₀ events).durable ∧
      (s.run exec σ₀ events).durable ≤ (s.run exec σ₀ events).sys.log.length ∧
      s.sys.log.take s.durable <+: (s.run exec σ₀ events).sys.log := by
  induction events generalizing s with
  | nil => exact ⟨Nat.le_refl _, h, List.take_prefix _ _⟩
  | cons event events ih =>
      obtain ⟨hle, hlen, hstarts⟩ := durable_step exec σ₀ h event
      obtain ⟨hle', hlen', hstarts'⟩ := ih hlen
      refine ⟨hle.trans hle', hlen', ?_⟩
      have hshort : s.sys.log.take s.durable <+:
          (s.step exec σ₀ event).sys.log.take (s.step exec σ₀ event).durable := by
        refine List.prefix_take_iff.mpr ⟨hstarts, ?_⟩
        rw [List.length_take]
        omega
      exact hshort.trans hstarts'

end Crashing

/-! ## Systems that differ in names only -/

/-- A log entry without the number of its invocation. -/
def Commit.anon (c : Commit K V E A C) : Commit K V E A C := { c with id := 0 }

/-- What a client is doing, without the number of its invocation. -/
def Session.anon : Session K V E A R C → Session K V E A R C
  | .running _ call p => .running 0 call p
  | .inTxn _ call start body rest t next => .inTxn 0 call start body rest t next

/-- The same action of another client. -/
def Action.rename (ρ : Nat → Nat) : Action C → Action C
  | .invoke client call => .invoke (ρ client) call
  | .step client => .step (ρ client)

/-- Two systems are the same up to invocation numbers, with client `cl` of the first being
client `ρ cl` of the second. -/
structure Sys.Alike (ρ : Nat → Nat) (s s' : Sys K V E A R C) : Prop where
  log : s.log.map Commit.anon = s'.log.map Commit.anon
  store : s.store = s'.store
  sessions : ∀ cl, (s.sessions cl).map Session.anon = (s'.sessions (ρ cl)).map Session.anon

theorem stateAt_congr_anon {σ₀ : Store K V} {log log' : List (Commit K V E A C)}
    (h : log.map Commit.anon = log'.map Commit.anon) (n : Nat) :
    stateAt σ₀ log n = stateAt σ₀ log' n := by
  have hstate : ∀ l : List (Commit K V E A C),
      stateAt σ₀ l n = stateAt σ₀ (l.map Commit.anon) n := by
    intro l
    rw [stateAt, stateAt, ← List.map_take, List.foldl_map]
    rfl
  rw [hstate, h, ← hstate]

namespace Sys.Alike

variable {ρ : Nat → Nat} {s s' : Sys K V E A R C}

theorem length_eq (h : s.Alike ρ s') : s.log.length = s'.log.length := by
  simpa using congrArg List.length h.log

theorem conflict_eq (h : s.Alike ρ s') (start : Nat) (f : Footprint K V) :
    s.conflict start f = s'.conflict start f := by
  have hany : ∀ s : Sys K V E A R C, s.conflict start f =
      ((s.log.map Commit.anon).drop start).any fun c => c.conflictsWith f := by
    intro s
    rw [Sys.conflict, ← List.map_drop, List.any_map]
    rfl
  rw [hany, h.log, ← hany]

theorem set (h : s.Alike ρ s') (hρ : Function.Injective ρ) (client : Nat)
    {o o' : Option (Session K V E A R C)} (ho : o.map Session.anon = o'.map Session.anon) :
    (s.set client o).Alike ρ (s'.set (ρ client) o') where
  log := h.log
  store := h.store
  sessions cl := by
    simp only [Sys.set]
    by_cases hcl : cl = client
    · rw [hcl, Function.update_self, Function.update_self, ho]
    · rw [Function.update_of_ne hcl, Function.update_of_ne (hρ.ne hcl), h.sessions]

theorem settle (h : s.Alike ρ s') (hρ : Function.Injective ρ) (client id id' : Nat) (call : C)
    (p : Proc K V E A R) :
    (s.settle client id call p).Alike ρ (s'.settle (ρ client) id' call p) := by
  cases p with
  | ret r =>
      have h' : (s.set client none).Alike ρ (s'.set (ρ client) none) := h.set hρ client rfl
      exact ⟨h'.log, h'.store, h'.sessions⟩
  | get k next => exact h.set hρ client rfl
  | scan range next => exact h.set hρ client rfl
  | txn body next => exact h.set hρ client rfl

theorem append (h : s.Alike ρ s') {c c' : Commit K V E A C} (hc : c.anon = c'.anon) :
    (s.append c).Alike ρ (s'.append c') where
  log := by simp [Sys.append, h.log, hc]
  store := by
    have hfoot : c.anon.foot = c'.anon.foot := congrArg _ hc
    change c.foot = c'.foot at hfoot
    simp [Sys.append, h.store, hfoot]
  sessions := h.sessions

theorem advance (h : s.Alike ρ s') (hρ : Function.Injective ρ) (client : Nat)
    {ss ss' : Session K V E A R C} (hss : ss.anon = ss'.anon) :
    (s.advance client ss).Alike ρ (s'.advance (ρ client) ss') := by
  cases ss with
  | running id call p =>
      cases ss' with
      | inTxn => cases hss
      | running id' call' p' =>
          obtain ⟨-, rfl, rfl⟩ := Session.running.inj hss
          cases p with
          | ret r => exact h.settle hρ client id id' call (.ret r)
          | get k next =>
              simp only [Sys.advance, h.store]
              exact h.settle hρ client id id' call _
          | scan range next =>
              simp only [Sys.advance, h.store]
              exact h.settle hρ client id id' call _
          | txn body next =>
              simp only [Sys.advance, h.store, h.length_eq]
              exact h.set hρ client rfl
  | inTxn id call start body rest t next =>
      cases ss' with
      | running => cases hss
      | inTxn id' call' start' body' rest' t' next' =>
          obtain ⟨-, rfl, rfl, rfl, rfl, rfl, rfl⟩ := Session.inTxn.inj hss
          cases rest with
          | pure a =>
              simp only [Sys.advance, h.conflict_eq]
              split
              · exact h.settle hρ client id id' call _
              · refine Alike.settle (h.append ?_) hρ client id id' call _
                rfl
          | throw e => exact h.settle hρ client id id' call _
          | get k next | scan range next | put k v next | delete k next | unmark k next =>
              exact h.set hρ client rfl

theorem step (h : s.Alike ρ s') (hρ : Function.Injective ρ) (exec : C → Proc K V E A R)
    (a : Action C) : (s.step exec a).Alike ρ (s'.step exec (a.rename ρ)) := by
  have hidle : ∀ cl, s.sessions cl = none ↔ s'.sessions (ρ cl) = none := by
    intro cl
    rw [← Option.map_eq_none_iff (f := Session.anon), h.sessions, Option.map_eq_none_iff]
  cases a with
  | invoke client call =>
      simp only [Sys.step, Action.rename]
      cases hs : s.sessions client with
      | none =>
          rw [(hidle client).mp hs]
          have hcalls : Sys.Alike ρ { s with calls := s.calls + 1 }
              { s' with calls := s'.calls + 1 } := ⟨h.log, h.store, h.sessions⟩
          exact hcalls.settle hρ client s.calls s'.calls call _
      | some ss =>
          have hsome := h.sessions client
          rw [hs, Option.map_some] at hsome
          obtain ⟨ss', hs', -⟩ := Option.map_eq_some_iff.mp hsome.symm
          rw [hs']
          exact h
  | step client =>
      simp only [Sys.step, Action.rename]
      cases hs : s.sessions client with
      | none =>
          rw [(hidle client).mp hs]
          exact h
      | some ss =>
          have hsome := h.sessions client
          rw [hs, Option.map_some] at hsome
          obtain ⟨ss', hs', hanon⟩ := Option.map_eq_some_iff.mp hsome.symm
          rw [hs']
          exact h.advance hρ client hanon.symm

end Sys.Alike

/-! ## Clients that do nothing -/

/-- The client of an action. -/
def Action.client : Action C → Nat
  | .invoke client _ => client
  | .step client => client

theorem Sys.sessions_settle_of_ne (s : Sys K V E A R C) {client cl : Nat} (h : cl ≠ client)
    (id : Nat) (call : C) (p : Proc K V E A R) :
    (s.settle client id call p).sessions cl = s.sessions cl := by
  cases p <;> exact Function.update_of_ne h ..

theorem Sys.sessions_step_of_ne (exec : C → Proc K V E A R) (s : Sys K V E A R C)
    {a : Action C} {cl : Nat} (h : cl ≠ a.client) :
    (s.step exec a).sessions cl = s.sessions cl := by
  cases a with
  | invoke client call =>
      simp only [Sys.step]
      split
      · exact Sys.sessions_settle_of_ne { s with calls := s.calls + 1 } h s.calls call _
      · rfl
  | step client =>
      simp only [Sys.step]
      split
      · rfl
      · next ss _ =>
        cases ss with
        | running id call p =>
            cases p with
            | ret r => exact s.sessions_settle_of_ne h id call (.ret r)
            | get | scan => exact s.sessions_settle_of_ne h _ _ _
            | txn => exact Function.update_of_ne h ..
        | inTxn id call start body rest t next =>
            cases rest with
            | pure a =>
                simp only [Sys.advance]
                split
                · exact s.sessions_settle_of_ne h _ _ _
                · exact Sys.sessions_settle_of_ne (s.append _) h _ _ _
            | throw e => exact s.sessions_settle_of_ne h _ _ _
            | get | scan | put | delete | unmark => exact Function.update_of_ne h ..

/-- A client that takes no part in a schedule is idle. -/
theorem Sys.sessions_run_of_not_mem (exec : C → Proc K V E A R) (s : Sys K V E A R C)
    {acts : List (Action C)} {cl : Nat} (h : ∀ a ∈ acts, a.client ≠ cl) :
    (s.run exec acts).sessions cl = s.sessions cl := by
  induction acts generalizing s with
  | nil => rfl
  | cons a acts ih =>
      refine (ih (s.step exec a) fun b hb => h b (List.mem_cons_of_mem _ hb)).trans ?_
      exact Sys.sessions_step_of_ne exec s (h a List.mem_cons_self).symm

theorem exists_client_bound (acts : List (Action C)) : ∃ K, ∀ a ∈ acts, a.client < K := by
  induction acts with
  | nil => exact ⟨0, by simp⟩
  | cons a acts ih =>
      obtain ⟨K, hK⟩ := ih
      refine ⟨max K (a.client + 1), fun b hb => ?_⟩
      rcases List.mem_cons.mp hb with rfl | hb
      · omega
      · have := hK b hb
        omega

/-! ## Runs with crashes are schedules -/

/-- What a crash leaves is what a schedule that ends earlier leads to, with other clients. -/
theorem Crashing.alike_crash (exec : C → Proc K V E A R) {σ₀ : Store K V}
    (s : Crashing K V E A R C) {ρ : Nat → Nat} {acts : List (Action C)} {n : Nat}
    (hsame : s.sys.Alike ρ ((Sys.init σ₀).run exec acts)) (hkept : s.kept n ≤ s.sys.log.length) :
    ∃ (earlier later : List (Action C)) (gap : Nat), acts = earlier ++ later ∧
      (s.step exec σ₀ (.crash n)).sys.Alike (· + gap) ((Sys.init σ₀).run exec earlier) := by
  rw [hsame.length_eq] at hkept
  obtain ⟨earlier, later, hacts, hlog⟩ :=
    Sys.exists_earlier exec (Sys.init σ₀) acts (Nat.zero_le _) hkept
  obtain ⟨gap, hgap⟩ := exists_client_bound earlier
  refine ⟨earlier, later, gap, hacts, ?_, ?_, fun cl => ?_⟩
  · show (s.sys.log.take (s.kept n)).map Commit.anon = _
    rw [hlog, List.map_take, hsame.log, List.map_take]
  · have hvalid : ((Sys.init σ₀).run exec earlier).Valid σ₀ fun _ _ => True :=
      Sys.valid_run Sys.valid_init fun _ _ _ => Proc.bodies_of_forall fun _ => trivial
    show stateAt σ₀ s.sys.log (s.kept n) = _
    rw [hvalid.store, hlog, stateAt_congr_anon hsame.log, List.length_take,
      Nat.min_eq_left hkept, stateAt, stateAt, List.take_take, Nat.min_self]
  · -- every client is idle: the ones of the schedule are all below `gap`
    show none = _
    rw [Sys.sessions_run_of_not_mem exec _ fun a ha => by
      have := hgap a ha
      omega]
    rfl

/-- A run with crashes has the log, the store and the clients of a schedule, up to names:
the calls that a crash ended are those of clients that take no further step, and the clients
after the crash are others. -/
theorem Crashing.exists_schedule (exec : C → Proc K V E A R) (σ₀ : Store K V)
    (events : List (CrashEvent C)) : ∃ (ρ : Nat → Nat) (acts : List (Action C)),
      Function.Injective ρ ∧
      (∀ client call, .invoke client call ∈ acts →
        ∃ client', .act (.invoke client' call) ∈ events) ∧
      ((init σ₀).run exec σ₀ events).sys.Alike ρ ((Sys.init σ₀).run exec acts) := by
  induction events using List.reverseRecOn with
  | nil => exact ⟨id, [], Function.injective_id, by simp, ⟨rfl, rfl, fun _ => rfl⟩⟩
  | append_singleton events event ih =>
      obtain ⟨ρ, acts, hρ, hcalls, hsame⟩ := ih
      rw [run_append]
      have hcalls' : ∀ client call, .invoke client call ∈ acts →
          ∃ client', .act (.invoke client' call) ∈ events ++ [event] := by
        intro client call hmem
        obtain ⟨client', hmem'⟩ := hcalls client call hmem
        exact ⟨client', List.mem_append_left _ hmem'⟩
      generalize hs : (init σ₀).run exec σ₀ events = s at hsame
      cases event with
      | act a =>
          refine ⟨ρ, acts ++ [a.rename ρ], hρ, fun client call hmem => ?_, ?_⟩
          · rcases List.mem_append.mp hmem with hmem | hmem
            · exact hcalls' client call hmem
            · cases a with
              | invoke client' call' =>
                  cases List.mem_singleton.mp hmem
                  exact ⟨client', List.mem_append_right _ (List.mem_singleton_self _)⟩
              | step client' => cases List.mem_singleton.mp hmem
          · rw [Sys.run_append]
            exact hsame.step hρ exec a
      | flush n => exact ⟨ρ, acts, hρ, hcalls', hsame⟩
      | crash n =>
          have hkept : s.kept n ≤ s.sys.log.length := by
            have := (durable_kept exec σ₀ (s := init σ₀) events
              (Nat.le_refl _)).2.1
            rw [hs] at this
            rw [kept]
            omega
          obtain ⟨earlier, later, gap, hacts, hcrash⟩ := s.alike_crash exec hsame hkept
          refine ⟨(· + gap), earlier, fun a b h => Nat.add_right_cancel h,
            fun client call hmem => hcalls' client call ?_, hcrash⟩
          rw [hacts]
          exact List.mem_append_left _ hmem

end

end TxnKv
