import Landslide.Txn.System

/-!
# Serializability and replies

Conflict detection with one key left out is serializability up to that key.
Let `u` be the only key that is ever unmarked.  Then a committed transaction
repeats, with the same value and writes, on the state at its own commit, except
that `u` still reads as it did when the transaction began
(`Sys.Valid.runs_at_commit`).  So a property of committed states is proved one
log entry at a time, as if the calls ran alone.

A call is one shot when its first commit is its last step.  For such calls the
results handed to the clients and the log say the same: a success is one log
entry with that value, and a call that failed has none (`Sys.Replies`).
-/

set_option linter.unusedSectionVars false

namespace TxnKv

open Std

section

variable {K : Type} [Ord K] [TransOrd K] [LawfulEqOrd K] [DecidableEq K] {V : K → Type}
variable {E A R C : Type}
variable {σ₀ : Store K V} {B : C → Prog K V E A → Prop} {log : List (Commit K V E A C)}
variable {s : Sys K V E A R C}

/-! ## What a transaction read is still there when it commits -/

theorem Commit.conflictsWith_of_mem {c : Commit K V E A C} {f : Footprint K V} {k : K}
    (hk : k ∈ c.foot.tracked) (hf : f.Reads k ∨ f.Writes k) : c.conflictsWith f = true := by
  simp only [conflictsWith, List.any_eq_true, decide_eq_true_eq]
  exact ⟨k, hk, hf⟩

/-- The writes of a valid entry that are never unmarked are tracked. -/
theorem Commit.Valid.tracked {U : K → Prop}
    (hB : ∀ call body, B call body → body.Within (fun _ => True) U fun _ => True)
    {n : Nat} {c : Commit K V E A C} (h : c.Valid σ₀ B log n) {k : K} (hu : ¬ U k)
    (hk : c.foot.Writes k) : k ∈ c.foot.tracked := by
  obtain ⟨t, hr, hf⟩ := h.run
  rw [← hf] at hk ⊢
  exact (hB _ _ h.body).tracked hr hu (by rintro ⟨w, hw, -⟩; simp at hw) hk

/-- A key that is never unmarked, and that an entry read or wrote, has at its commit the
value it had at its begin. -/
theorem get_stateAt_of_free {U : K → Prop}
    (hB : ∀ call body, B call body → body.Within (fun _ => True) U fun _ => True)
    (hlog : ∀ n (c : Commit K V E A C), log[n]? = some c → c.Valid σ₀ B log n)
    {n : Nat} {c : Commit K V E A C} (hc : log[n]? = some c) {k : K} (hu : ¬ U k)
    (hk : c.foot.Reads k ∨ c.foot.Writes k) :
    ∀ m, c.start ≤ m → m ≤ n → (stateAt σ₀ log m).get k = (stateAt σ₀ log c.start).get k := by
  intro m hsm
  -- induction on the entries between the begin and `m`
  induction m, hsm using Nat.le_induction with
  | base => exact fun _ => rfl
  | succ m hsm ih =>
      intro hmn
      have hlt : m < log.length := by
        have := (List.getElem?_eq_some_iff.mp hc).1
        omega
      have hd : log[m]? = some log[m] := List.getElem?_eq_getElem hlt
      rw [stateAt_succ hd, Store.get_applyAll_of_notMem, ih (by omega)]
      intro w hw hwk
      have htr := (hlog m _ hd).tracked hB hu ⟨w, hw, hwk⟩
      have hfree := (hlog n c hc).free m _ hsm (by omega) hd
      rw [Commit.conflictsWith_of_mem htr hk] at hfree
      cases hfree

/-- Running the body of `c` on `τ` gives the value and the footprint of `c`. -/
def Commit.RunsOn (c : Commit K V E A C) (τ : Store K V) : Prop :=
  ∃ t, c.body.run (.begin τ) = .ok (c.value, t) ∧ t.foot = c.foot

/-- The state at the commit of an entry, with `u` as of its begin. -/
def Commit.viewAt (σ₀ : Store K V) (log : List (Commit K V E A C)) (u : K) (n : Nat)
    (c : Commit K V E A C) : Store K V :=
  (stateAt σ₀ log n).apply ⟨u, (stateAt σ₀ log c.start).get u⟩

theorem Commit.get_viewAt_of_ne {u k : K} {n : Nat} {c : Commit K V E A C} (h : k ≠ u) :
    (c.viewAt σ₀ log u n).get k = (stateAt σ₀ log n).get k :=
  Store.get_apply_of_ne _ _ h

@[simp] theorem Commit.get_viewAt_self {u : K} {n : Nat} {c : Commit K V E A C} :
    (c.viewAt σ₀ log u n).get u = (stateAt σ₀ log c.start).get u := by
  simp [viewAt]

/-- A committed transaction repeats at its commit point, up to `u`. -/
theorem Sys.Valid.runs_at_commit {u : K} (h : s.Valid σ₀ B)
    (hB : ∀ call body, B call body → body.Within (fun _ => True) (· = u) fun _ => True)
    {n : Nat} {c : Commit K V E A C} (hc : s.log[n]? = some c) :
    c.RunsOn (c.viewAt σ₀ s.log u n) := by
  have hv := h.log n c hc
  obtain ⟨t, hr, hf⟩ := hv.run
  have agree : ∀ k, t.foot.Reads k →
      (c.viewAt σ₀ s.log u n).get k = (stateAt σ₀ s.log c.start).get k := by
    intro k hk
    rw [hf] at hk
    by_cases hu : k = u
    · subst hu
      simp
    · rw [Commit.get_viewAt_of_ne hu]
      exact get_stateAt_of_free hB h.log hc hu (.inl hk) n hv.start_le le_rfl
  obtain ⟨t', hr', hf'⟩ := Prog.run_congr (u := .begin (c.viewAt σ₀ s.log u n)) hr rfl agree
  exact ⟨t', hr', hf'.trans hf⟩

/-- Where nothing is ever unmarked, a committed transaction repeats at its commit
point. -/
theorem Sys.Valid.runs_serially (h : s.Valid σ₀ B)
    (hB : ∀ call body, B call body → body.Within (fun _ => True) (fun _ => False) fun _ => True)
    {n : Nat} {c : Commit K V E A C} (hc : s.log[n]? = some c) :
    c.RunsOn (stateAt σ₀ s.log n) := by
  have hv := h.log n c hc
  obtain ⟨t, hr, hf⟩ := hv.run
  have agree : ∀ k, t.foot.Reads k →
      (stateAt σ₀ s.log n).get k = (stateAt σ₀ s.log c.start).get k := by
    intro k hk
    rw [hf] at hk
    exact get_stateAt_of_free hB h.log hc id (.inl hk) n hv.start_le le_rfl
  obtain ⟨t', hr', hf'⟩ := Prog.run_congr (u := .begin (stateAt σ₀ s.log n)) hr rfl agree
  exact ⟨t', hr', hf'.trans hf⟩

/-- After the commit, every key but `u` is as the repeated run left it. -/
theorem Commit.get_stateAt_succ {u k : K} {n : Nat} {c : Commit K V E A C}
    (hc : log[n]? = some c) (hu : k ≠ u) :
    (stateAt σ₀ log (n + 1)).get k = ((c.viewAt σ₀ log u n).applyAll c.foot.writes).get k := by
  rw [stateAt_succ hc]
  exact Store.get_applyAll_congr _ _ _ (Commit.get_viewAt_of_ne hu).symm

/-- A key that the entry wrote is as the repeated run left it, `u` included. -/
theorem Commit.get_stateAt_succ_of_writes {u k : K} {n : Nat} {c : Commit K V E A C}
    (hc : log[n]? = some c) (hk : c.foot.Writes k) :
    (stateAt σ₀ log (n + 1)).get k = ((c.viewAt σ₀ log u n).applyAll c.foot.writes).get k := by
  rw [stateAt_succ hc]
  exact Store.get_applyAll_of_mem _ _ _ hk

/-- A key that the entry did not write keeps its value. -/
theorem Commit.get_stateAt_succ_of_not_writes {k : K} {n : Nat} {c : Commit K V E A C}
    (hc : log[n]? = some c) (hk : ¬ c.foot.Writes k) :
    (stateAt σ₀ log (n + 1)).get k = (stateAt σ₀ log n).get k := by
  rw [stateAt_succ hc]
  exact Store.get_applyAll_of_notMem _ _ fun w hw hwk => hk ⟨w, hw, hwk⟩

/-! ## Replies -/

/-- The invocation of a session. -/
def Session.id : Session K V E A R C → Nat
  | .running id _ _ => id
  | .inTxn id _ _ _ _ _ _ => id

/-- The call of a session. -/
def Session.call : Session K V E A R C → C
  | .running _ call _ => call
  | .inTxn _ call _ _ _ _ _ => call

/-- What is left of a one-shot call. -/
def Session.OneShot (ok : A → R) (bad : R → Prop) : Session K V E A R C → Prop
  | .running _ _ p => p.OneShot ok bad
  | .inTxn _ _ _ _ rest _ next => (Proc.txn rest next).OneShot ok bad

/-- The results of the calls in `T` and the log say the same. -/
structure Sys.Replies (T : C → Prop) (ok : C → A → R) (bad : C → R → Prop)
    (s : Sys K V E A R C) : Prop where
  session_lt : ∀ cl (ss : Session K V E A R C), s.sessions cl = some ss → ss.id < s.calls
  session_inj : ∀ cl cl' (ss ss' : Session K V E A R C), s.sessions cl = some ss →
    s.sessions cl' = some ss' → ss.id = ss'.id → cl = cl'
  session_shape : ∀ cl (ss : Session K V E A R C), s.sessions cl = some ss → T ss.call →
    ss.OneShot (ok ss.call) (bad ss.call)
  session_log : ∀ cl (ss : Session K V E A R C), s.sessions cl = some ss → T ss.call →
    ∀ c ∈ s.log, c.id ≠ ss.id
  session_ret : ∀ cl (ss : Session K V E A R C), s.sessions cl = some ss →
    ∀ r ∈ s.returned, r.id ≠ ss.id
  log_lt : ∀ c ∈ s.log, c.id < s.calls
  ret_lt : ∀ r ∈ s.returned, r.id < s.calls
  returned : ∀ r ∈ s.returned, T r.call →
    (bad r.call r.result ∧ ∀ c ∈ s.log, c.id ≠ r.id) ∨
    ∃ c ∈ s.log, c.id = r.id ∧ c.call = r.call ∧ r.result = ok r.call c.value
  committed : ∀ c ∈ s.log, T c.call → ⟨c.id, c.call, ok c.call c.value⟩ ∈ s.returned
  once : s.log.Pairwise fun c d => T d.call → c.id ≠ d.id

variable {T : C → Prop} {ok : C → A → R} {bad : C → R → Prop}

namespace Sys

theorem replies_init : (init σ₀ : Sys K V E A R C).Replies T ok bad := by
  constructor <;> simp [init]

theorem sessions_set {client cl : Nat} {o : Option (Session K V E A R C)}
    {ss : Session K V E A R C} (h : (s.set client o).sessions cl = some ss) :
    (cl = client ∧ o = some ss) ∨ (cl ≠ client ∧ s.sessions cl = some ss) := by
  simp only [Sys.set] at h
  by_cases hc : cl = client
  · subst hc
    rw [Function.update_self] at h
    exact .inl ⟨rfl, h⟩
  · rw [Function.update_of_ne hc] at h
    exact .inr ⟨hc, h⟩

/-- An invocation number that no session and no result uses. -/
structure Fresh (s : Sys K V E A R C) (id : Nat) : Prop where
  lt : id < s.calls
  session : ∀ cl (ss : Session K V E A R C), s.sessions cl = some ss → ss.id ≠ id
  ret : ∀ r ∈ s.returned, r.id ≠ id

/-- A client leaves its session. -/
theorem Replies.drop (h : s.Replies T ok bad) (client : Nat) :
    (s.set client none).Replies T ok bad := by
  have old : ∀ {cl ss}, (s.set client none).sessions cl = some ss → s.sessions cl = some ss := by
    intro cl ss hcl
    rcases sessions_set hcl with ⟨-, ho⟩ | ⟨-, hcl⟩
    · cases ho
    · exact hcl
  exact {
    session_lt := fun cl ss hcl => h.session_lt cl ss (old hcl)
    session_inj := fun cl cl' ss ss' h₁ h₂ => h.session_inj cl cl' ss ss' (old h₁) (old h₂)
    session_shape := fun cl ss hcl => h.session_shape cl ss (old hcl)
    session_log := fun cl ss hcl => h.session_log cl ss (old hcl)
    session_ret := fun cl ss hcl => h.session_ret cl ss (old hcl)
    log_lt := h.log_lt
    ret_lt := h.ret_lt
    returned := h.returned
    committed := h.committed
    once := h.once }

/-- The number of a session is fresh once its client has left it. -/
theorem Replies.fresh (h : s.Replies T ok bad) {client : Nat} {ss : Session K V E A R C}
    (hs : s.sessions client = some ss) : (s.set client none).Fresh ss.id where
  lt := h.session_lt _ _ hs
  session := by
    intro cl ss' hcl he
    rcases sessions_set hcl with ⟨-, ho⟩ | ⟨hne, hcl⟩
    · cases ho
    · exact hne (h.session_inj cl client ss' ss hcl hs he)
  ret := h.session_ret _ _ hs

/-- A client takes up a session with a fresh number. -/
theorem Replies.set (h : s.Replies T ok bad) {client : Nat} (ss : Session K V E A R C)
    (hf : s.Fresh ss.id) (hshape : T ss.call → ss.OneShot (ok ss.call) (bad ss.call))
    (hlog : T ss.call → ∀ c ∈ s.log, c.id ≠ ss.id) :
    (s.set client (some ss)).Replies T ok bad := by
  have split : ∀ {cl ss'}, (s.set client (some ss)).sessions cl = some ss' →
      (cl = client ∧ ss' = ss) ∨ s.sessions cl = some ss' := by
    intro cl ss' hcl
    rcases sessions_set hcl with ⟨hc, ho⟩ | ⟨-, hcl⟩
    · exact .inl ⟨hc, (Option.some.inj ho).symm⟩
    · exact .inr hcl
  refine ⟨?_, ?_, ?_, ?_, ?_, h.log_lt, h.ret_lt, h.returned, h.committed, h.once⟩
  · intro cl ss' hcl
    rcases split hcl with ⟨-, rfl⟩ | hcl
    · exact hf.lt
    · exact h.session_lt _ _ hcl
  · intro cl cl' s₁ s₂ h₁ h₂ he
    rcases split h₁ with ⟨hc, e₁⟩ | h₁ <;> rcases split h₂ with ⟨hc', e₂⟩ | h₂
    · rw [hc, hc']
    · exact absurd (by rw [← he, e₁]) (hf.session _ _ h₂)
    · exact absurd (by rw [he, e₂]) (hf.session _ _ h₁)
    · exact h.session_inj _ _ _ _ h₁ h₂ he
  · intro cl ss' hcl
    rcases split hcl with ⟨-, rfl⟩ | hcl
    · exact hshape
    · exact h.session_shape _ _ hcl
  · intro cl ss' hcl
    rcases split hcl with ⟨-, rfl⟩ | hcl
    · exact hlog
    · exact h.session_log _ _ hcl
  · intro cl ss' hcl
    rcases split hcl with ⟨-, rfl⟩ | hcl
    · exact hf.ret
    · exact h.session_ret _ _ hcl

/-- A fresh invocation ends without a commit. -/
theorem Replies.fail (h : s.Replies T ok bad) {id : Nat} {call : C} {r : R} (hf : s.Fresh id)
    (hbad : T call → bad call r) (hlog : T call → ∀ c ∈ s.log, c.id ≠ id) :
    ({ s with returned := s.returned ++ [⟨id, call, r⟩] } : Sys K V E A R C).Replies T ok bad := by
  refine ⟨h.session_lt, h.session_inj, h.session_shape, h.session_log, ?_, h.log_lt, ?_, ?_, ?_,
    h.once⟩
  · intro cl ss hcl r' hr' he
    rcases List.mem_append.mp hr' with hr' | hr'
    · exact h.session_ret _ _ hcl r' hr' he
    · rw [List.mem_singleton] at hr'
      subst hr'
      exact hf.session _ _ hcl he.symm
  · intro r' hr'
    rcases List.mem_append.mp hr' with hr' | hr'
    · exact h.ret_lt r' hr'
    · rw [List.mem_singleton] at hr'
      subst hr'
      exact hf.lt
  · intro r' hr' hT
    rcases List.mem_append.mp hr' with hr' | hr'
    · exact h.returned r' hr' hT
    · rw [List.mem_singleton] at hr'
      subst hr'
      exact .inl ⟨hbad hT, hlog hT⟩
  · intro c hc hT
    exact List.mem_append_left _ (h.committed c hc hT)

/-- A fresh invocation of a call outside `T` commits. -/
theorem Replies.append (h : s.Replies T ok bad) {c : Commit K V E A C} (hf : s.Fresh c.id)
    (hT : ¬ T c.call) : (s.append c).Replies T ok bad := by
  have split : ∀ {d : Commit K V E A C}, d ∈ (s.append c).log → d ∈ s.log ∨ d = c := by
    intro d hd
    rcases List.mem_append.mp hd with hd | hd
    · exact .inl hd
    · exact .inr (List.mem_singleton.mp hd)
  refine ⟨h.session_lt, h.session_inj, h.session_shape, ?_, h.session_ret, ?_, h.ret_lt, ?_, ?_,
    ?_⟩
  · intro cl ss hcl hTs d hd he
    rcases split hd with hd | rfl
    · exact h.session_log _ _ hcl hTs d hd he
    · exact hf.session _ _ hcl he.symm
  · intro d hd
    rcases split hd with hd | rfl
    · exact h.log_lt d hd
    · exact hf.lt
  · intro r hr hTr
    rcases h.returned r hr hTr with ⟨hbad, hno⟩ | ⟨d, hd, hval⟩
    · refine .inl ⟨hbad, fun d hd he => ?_⟩
      rcases split hd with hd | rfl
      · exact hno d hd he
      · exact hf.ret r hr he.symm
    · exact .inr ⟨d, List.mem_append_left _ hd, hval⟩
  · intro d hd hTd
    rcases split hd with hd | rfl
    · exact h.committed d hd hTd
    · exact absurd hTd hT
  · refine List.pairwise_append.mpr ⟨h.once, List.pairwise_singleton _ _, fun d _ d' hd' hTd => ?_⟩
    rw [List.mem_singleton] at hd'
    subst hd'
    exact absurd hTd hT

/-- A fresh invocation of a one-shot call commits and returns. -/
theorem Replies.commit (h : s.Replies T ok bad) {c : Commit K V E A C} (hf : s.Fresh c.id)
    (hlog : ∀ d ∈ s.log, d.id ≠ c.id) :
    ({ s.append c with
        returned := s.returned ++ [⟨c.id, c.call, ok c.call c.value⟩] } :
      Sys K V E A R C).Replies T ok bad := by
  have split : ∀ {d : Commit K V E A C}, d ∈ s.log ++ [c] → d ∈ s.log ∨ d = c := by
    intro d hd
    rcases List.mem_append.mp hd with hd | hd
    · exact .inl hd
    · exact .inr (List.mem_singleton.mp hd)
  refine ⟨h.session_lt, h.session_inj, h.session_shape, ?_, ?_, ?_, ?_, ?_, ?_, ?_⟩
  · intro cl ss hcl hTs d hd he
    rcases split hd with hd | rfl
    · exact h.session_log _ _ hcl hTs d hd he
    · exact hf.session _ _ hcl he.symm
  · intro cl ss hcl r hr he
    rcases List.mem_append.mp hr with hr | hr
    · exact h.session_ret _ _ hcl r hr he
    · rw [List.mem_singleton] at hr
      subst hr
      exact hf.session _ _ hcl he.symm
  · intro d hd
    rcases split hd with hd | rfl
    · exact h.log_lt d hd
    · exact hf.lt
  · intro r hr
    rcases List.mem_append.mp hr with hr | hr
    · exact h.ret_lt r hr
    · rw [List.mem_singleton] at hr
      subst hr
      exact hf.lt
  · intro r hr hTr
    rcases List.mem_append.mp hr with hr' | hr'
    · rcases h.returned r hr' hTr with ⟨hbad, hno⟩ | ⟨d, hd, hval⟩
      · refine .inl ⟨hbad, fun d hd he => ?_⟩
        rcases split hd with hd | hdc
        · exact hno d hd he
        · exact hf.ret r hr' (by rw [← he, hdc])
      · exact .inr ⟨d, List.mem_append_left _ hd, hval⟩
    · rw [List.mem_singleton] at hr'
      subst hr'
      exact .inr ⟨c, List.mem_append_right _ (List.mem_singleton_self _), rfl, rfl, rfl⟩
  · intro d hd hTd
    rcases split hd with hd | rfl
    · exact List.mem_append_left _ (h.committed d hd hTd)
    · exact List.mem_append_right _ (List.mem_singleton_self _)
  · refine List.pairwise_append.mpr ⟨h.once, List.pairwise_singleton _ _, fun d hd d' hd' _ => ?_⟩
    rw [List.mem_singleton] at hd'
    subst hd'
    exact hlog d hd

@[simp] theorem set_set (s : Sys K V E A R C) (client : Nat)
    (o o' : Option (Session K V E A R C)) : (s.set client o).set client o' = s.set client o' := by
  simp [Sys.set]

/-- Leaving the session first does not change where a client settles. -/
theorem settle_drop (s : Sys K V E A R C) (client id : Nat) (call : C) (p : Proc K V E A R) :
    (s.set client none).settle client id call p = s.settle client id call p := by
  cases p with
  | ret r => simp only [Sys.settle, set_set]; rfl
  | get k next => simp only [Sys.settle, set_set]
  | scan range next => simp only [Sys.settle, set_set]
  | txn body next => simp only [Sys.settle, set_set]

/-- A client continues without a commit. -/
theorem Replies.settle (h : s.Replies T ok bad) {client id : Nat} {call : C}
    {p : Proc K V E A R} (hf : s.Fresh id) (hp : T call → p.OneShot (ok call) (bad call))
    (hlog : T call → ∀ c ∈ s.log, c.id ≠ id) : (s.settle client id call p).Replies T ok bad := by
  cases p with
  | ret r =>
      have hf' : (s.set client none).Fresh id := by
        refine ⟨hf.lt, fun cl ss hcl => ?_, hf.ret⟩
        rcases sessions_set hcl with ⟨-, ho⟩ | ⟨-, hcl⟩
        · cases ho
        · exact hf.session _ _ hcl
      exact (h.drop client).fail hf' hp hlog
  | get k next => exact h.set (.running id call (.get k next)) hf hp hlog
  | scan range next => exact h.set (.running id call (.scan range next)) hf hp hlog
  | txn body next => exact h.set (.running id call (.txn body next)) hf hp hlog

theorem Replies.advance (h : s.Replies T ok bad) {client : Nat} {ss : Session K V E A R C}
    (hs : s.sessions client = some ss) : (s.advance client ss).Replies T ok bad := by
  have hd := h.drop client
  have hf := h.fresh hs
  have hsh := h.session_shape _ _ hs
  have hlog := h.session_log _ _ hs
  cases ss with
  | running id call p =>
      cases p with
      | ret r =>
          rw [Sys.advance, ← settle_drop]
          exact hd.settle hf hsh hlog
      | get k next =>
          rw [Sys.advance, ← settle_drop]
          exact hd.settle hf (fun hT => hsh hT _) hlog
      | scan range next =>
          rw [Sys.advance, ← settle_drop]
          exact hd.settle hf (fun hT => hsh hT _) hlog
      | txn body next =>
          rw [Sys.advance, ← set_set s client none]
          exact hd.set _ hf hsh hlog
  | inTxn id call start body rest t next =>
      have stepCase : ∀ rest' t', rest.step t = some (rest', t') →
          (s.set client (some (.inTxn id call start body rest' t' next))).Replies T ok bad := by
        intro rest' t' hst
        rw [← set_set s client none]
        refine hd.set (.inTxn id call start body rest' t' next) hf (fun hT => ?_) hlog
        exact ⟨(hsh hT).1, (hsh hT).2.1, (hsh hT).2.2.step hst⟩
      cases rest with
      | pure a =>
          simp only [Sys.advance]
          split
          · rw [← settle_drop]
            exact hd.settle hf (fun hT => (hsh hT).2.1) hlog
          · by_cases hT : T call
            · rw [(hsh hT).1 a]
              exact hd.commit (c := ⟨id, call, start, body, a, t.foot⟩) hf (hlog hT)
            · rw [← settle_drop]
              refine (hd.append (c := ⟨id, call, start, body, a, t.foot⟩) hf hT).settle ?_
                (fun h' => absurd h' hT) (fun h' => absurd h' hT)
              exact ⟨hf.lt, hf.session, hf.ret⟩
      | throw e =>
          simp only [Sys.advance]
          rw [← settle_drop]
          exact hd.settle hf (fun hT => (hsh hT).2.2) hlog
      | get k next' => exact stepCase _ _ rfl
      | scan range next' => exact stepCase _ _ rfl
      | put k v next' => exact stepCase _ _ rfl
      | delete k next' => exact stepCase _ _ rfl
      | unmark k next' => exact stepCase _ _ rfl

variable {exec : C → Proc K V E A R}

theorem Replies.step (hexec : ∀ call, T call → (exec call).OneShot (ok call) (bad call))
    (h : s.Replies T ok bad) (act : Action C) : (s.step exec act).Replies T ok bad := by
  cases act with
  | invoke client call =>
      simp only [Sys.step]
      split
      · have h' : ({ s with calls := s.calls + 1 } : Sys K V E A R C).Replies T ok bad :=
          { h with
            session_lt := fun cl ss hcl => Nat.lt_succ_of_lt (h.session_lt cl ss hcl)
            log_lt := fun c hc => Nat.lt_succ_of_lt (h.log_lt c hc)
            ret_lt := fun r hr => Nat.lt_succ_of_lt (h.ret_lt r hr) }
        refine h'.settle ⟨Nat.lt_succ_self _, ?_, ?_⟩ (hexec call) ?_
        · exact fun cl ss hcl => Nat.ne_of_lt (h.session_lt cl ss hcl)
        · exact fun r hr => Nat.ne_of_lt (h.ret_lt r hr)
        · exact fun _ c hc => Nat.ne_of_lt (h.log_lt c hc)
      · exact h
  | step client =>
      simp only [Sys.step]
      split
      · exact h
      · next ss hs => exact h.advance hs

/-- In every state a schedule reaches, results and log say the same. -/
theorem replies_run (hexec : ∀ call, T call → (exec call).OneShot (ok call) (bad call))
    (h : s.Replies T ok bad) (acts : List (Action C)) : (s.run exec acts).Replies T ok bad := by
  induction acts generalizing s with
  | nil => exact h
  | cons act acts ih => exact ih (h.step hexec act)

end Sys

end

end TxnKv
