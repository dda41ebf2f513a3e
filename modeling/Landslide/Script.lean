import Mathlib.Logic.Basic

/-!
# Scripts that may be cut off

A script issues commands one by one and goes on with their replies.  What a command does
is a relation, so that it can have several outcomes, and a script can be cut off between
any two commands.

`Along` is the rule for such scripts: an invariant holds in every state that the script
passes, every command is issued where its guard holds, and a script that is done meets
its postcondition.  A script that fails, or that is cut off, owes only the invariant.
-/

/-- A script with commands in `C`, replies in `R`, errors in `E` and values in `α`. -/
inductive Script (C : Type) (R : C → Type) (E α : Type) : Type where
  | done (a : α)
  | fail (e : E)
  | call (c : C) (next : R c → Script C R E α)

namespace Script

variable {C : Type} {R : C → Type} {E α β σ : Type}

/-- Sequencing.  A failure ends the whole script. -/
def bind : Script C R E α → (α → Script C R E β) → Script C R E β
  | .done a, f => f a
  | .fail e, _ => .fail e
  | .call c next, f => .call c fun r => (next r).bind f

instance : Monad (Script C R E) where
  pure := .done
  bind := .bind

/-- A result that was computed without a command. -/
def lift : Except E α → Script C R E α
  | .ok a => .done a
  | .error e => .fail e

/-! ## Runs with one outcome for each command -/

/-- The result and the state of a script that is not cut off, with the outcomes of
`exec`. -/
def run (exec : (c : C) → σ → R c × σ) : Script C R E α → σ → Except E α × σ
  | .done a, s => (.ok a, s)
  | .fail e, s => (.error e, s)
  | .call c next, s => (next (exec c s).1).run exec (exec c s).2

/-- What is left after the first `n` commands, with the outcomes of `exec`. -/
def advance (exec : (c : C) → σ → R c × σ) : Nat → Script C R E α → σ → Script C R E α × σ
  | n + 1, .call c next, s => (next (exec c s).1).advance exec n (exec c s).2
  | _, p, s => (p, s)

section

variable {exec : (c : C) → σ → R c × σ}

theorem run_bind (p : Script C R E α) (f : α → Script C R E β) (s : σ) :
    (p >>= f).run exec s =
      match p.run exec s with
      | (.ok a, s') => (f a).run exec s'
      | (.error e, s') => (.error e, s') := by
  show (p.bind f).run exec s = _
  induction p generalizing s with
  | done a => rfl
  | fail e => rfl
  | call c next ih => exact ih _ _

theorem run_bind_ok {p : Script C R E α} {f : α → Script C R E β} {s s' : σ} {a : α}
    (h : p.run exec s = (.ok a, s')) : (p >>= f).run exec s = (f a).run exec s' := by
  rw [run_bind, h]

theorem run_bind_error {p : Script C R E α} {f : α → Script C R E β} {s s' : σ} {e : E}
    (h : p.run exec s = (.error e, s')) : (p >>= f).run exec s = (.error e, s') := by
  rw [run_bind, h]

theorem run_lift (r : Except E α) (s : σ) :
    (lift r : Script C R E α).run exec s = (r, s) := by
  cases r <;> rfl

/-- What every command keeps holds of what is left. -/
theorem advance_induct {P : Script C R E α → σ → Prop}
    (hstep : ∀ c next s, P (.call c next) s → P (next (exec c s).1) (exec c s).2) :
    ∀ (n : Nat) {p : Script C R E α} {s : σ}, P p s →
      P (p.advance exec n s).1 (p.advance exec n s).2
  | 0, p, s, h => by cases p <;> exact h
  | n + 1, .done a, s, h => h
  | n + 1, .fail e, s, h => h
  | n + 1, .call c next, s, h => advance_induct hstep n (hstep c next s h)

end

/-! ## What holds along a script -/

/-- With outcomes in `does`, every state that the script passes satisfies `I`, every
command is issued where `G` holds, and the script is done where `Q` holds. -/
def Along (does : (c : C) → σ → R c → σ → Prop) (I : σ → Prop) (G : C → σ → Prop)
    (Q : α → σ → Prop) : Script C R E α → σ → Prop
  | .done a, s => I s ∧ Q a s
  | .fail _, s => I s
  | .call c next, s => I s ∧ G c s ∧ ∀ r s', does c s r s' → (next r).Along does I G Q s'

section

variable {does : (c : C) → σ → R c → σ → Prop} {I : σ → Prop} {G : C → σ → Prop}
variable {Q : α → σ → Prop} {Q' : β → σ → Prop} {s : σ}

theorem Along.inv {p : Script C R E α} (h : p.Along does I G Q s) : I s := by
  cases p with
  | done a => exact h.1
  | fail e => exact h
  | call c next => exact h.1

/-- What is to follow a script may be proved from its postcondition. -/
theorem Along.bind {p : Script C R E α} {f : α → Script C R E β}
    (hp : p.Along does I G Q s)
    (hf : ∀ a s', I s' → Q a s' → (f a).Along does I G Q' s') :
    (p >>= f).Along does I G Q' s := by
  show (p.bind f).Along does I G Q' s
  induction p generalizing s with
  | done a => exact hf a s hp.1 hp.2
  | fail e => exact hp
  | call c next ih => exact ⟨hp.1, hp.2.1, fun r s' hdoes => ih r (hp.2.2 r s' hdoes)⟩

theorem Along.lift {r : Except E α} (hI : I s) (hr : ∀ a, r = .ok a → Q a s) :
    (Script.lift r : Script C R E α).Along does I G Q s := by
  cases r with
  | ok a => exact ⟨hI, hr a rfl⟩
  | error e => exact hI

end

end Script
