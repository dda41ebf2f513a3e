import Landslide.Script
import Mathlib.Logic.Function.Basic

/-!
# Scripts side by side

Any number of processes share a state.  Each runs one script after another, goes on with the
value of the last one, and can stop between any two commands.  Whatever else happens to the
state happens between commands too.

`Amid` is the rule for one script among others.  It sees the state move along `Later` before
each of its commands, and owes the others that its own commands do the same.  The rule for the
whole pool follows (`Pool.Reached.inv`): scripts that each keep to this keep the invariant of
the state together.
-/

/-- What processes rely on, and what they owe each other. -/
structure Sharing (C : Type) (R : C → Type) (σ : Type) where
  /-- The outcomes of a command. -/
  does : (c : C) → σ → R c → σ → Prop
  /-- What holds of the state all along. -/
  Inv : σ → Prop
  /-- How the state may move. -/
  Later : σ → σ → Prop
  refl : ∀ s, Later s s
  trans : ∀ {s s' s'' : σ}, Later s s' → Later s' s'' → Later s s''

namespace Script

variable {C : Type} {R : C → Type} {E α β σ : Type}

/-- A script whose error is its value. -/
def attempt : Script C R E α → Script C R E (Except E α)
  | .done a => .done (.ok a)
  | .fail e => .done (.error e)
  | .call c next => .call c fun r => (next r).attempt

theorem run_attempt (exec : (c : C) → σ → R c × σ) (p : Script C R E α) (s : σ) :
    p.attempt.run exec s = (.ok (p.run exec s).1, (p.run exec s).2) := by
  induction p generalizing s with
  | done a => rfl
  | fail e => rfl
  | call c next ih => exact ih _ _

/-- While the others move the state, every command keeps the invariant and moves the state
along `Later`, and the script is done where `Q` holds. -/
def Amid (sh : Sharing C R σ) (Q : α → σ → Prop) : Script C R E α → σ → Prop
  | .done a, s => Q a s
  | .fail _, _ => True
  | .call c next, s => ∀ s', sh.Inv s' → sh.Later s s' → ∀ r s'', sh.does c s' r s'' →
      (sh.Inv s'' ∧ sh.Later s' s'') ∧ (next r).Amid sh Q s''

variable {sh : Sharing C R σ} {Q : α → σ → Prop} {Q' : β → σ → Prop} {s s' : σ}

/-- A script may be held up. -/
theorem Amid.later (hQ : ∀ a s s', Q a s → sh.Inv s' → sh.Later s s' → Q a s')
    {p : Script C R E α} (h : p.Amid sh Q s) (hinv : sh.Inv s') (hlater : sh.Later s s') :
    p.Amid sh Q s' := by
  cases p with
  | done a => exact hQ a s s' h hinv hlater
  | fail e => trivial
  | call c next => exact fun t ht hlater' => h t ht (sh.trans hlater hlater')

theorem Amid.mono {Q₁ Q₂ : α → σ → Prop} (hQ : ∀ a s, Q₁ a s → Q₂ a s) {p : Script C R E α}
    (h : p.Amid sh Q₁ s) : p.Amid sh Q₂ s := by
  induction p generalizing s with
  | done a => exact hQ a s h
  | fail e => trivial
  | call c next ih =>
      intro s' hinv hlater r s'' hdoes
      obtain ⟨hkeeps, hnext⟩ := h s' hinv hlater r s'' hdoes
      exact ⟨hkeeps, ih r hnext⟩

/-- What later states keep is there when the script is done. -/
theorem Amid.frame {P : σ → Prop} (hP : ∀ s s', P s → sh.Later s s' → P s')
    {p : Script C R E α} (h : p.Amid sh Q s) (hs : P s) :
    p.Amid sh (fun a s => Q a s ∧ P s) s := by
  induction p generalizing s with
  | done a => exact ⟨h, hs⟩
  | fail e => trivial
  | call c next ih =>
      intro s' hinv hlater r s'' hdoes
      obtain ⟨⟨hinv', hlater'⟩, hnext⟩ := h s' hinv hlater r s'' hdoes
      exact ⟨⟨hinv', hlater'⟩, ih r hnext (hP _ _ (hP _ _ hs hlater) hlater')⟩

/-- What is to follow a script is proved from its postcondition, in the state that it leaves.
That state has the invariant, and it is a later one. -/
theorem Amid.bind {p : Script C R E α} {f : α → Script C R E β} (hinv : sh.Inv s)
    (hp : p.Amid sh Q s)
    (hf : ∀ a s', sh.Inv s' → sh.Later s s' → Q a s' → (f a).Amid sh Q' s') :
    (p >>= f).Amid sh Q' s := by
  show (p.bind f).Amid sh Q' s
  induction p generalizing s with
  | done a => exact hf a s hinv (sh.refl s) hp
  | fail e => trivial
  | call c next ih =>
      intro s' hinv' hlater r s'' hdoes
      obtain ⟨⟨hinv'', hlater'⟩, hnext⟩ := hp s' hinv' hlater r s'' hdoes
      refine ⟨⟨hinv'', hlater'⟩, ih r hinv'' hnext fun a t ht hlater'' => ?_⟩
      exact hf a t ht (sh.trans hlater (sh.trans hlater' hlater''))

theorem Amid.attempt {p : Script C R E α} (h : p.Amid sh Q s) :
    p.attempt.Amid sh (fun out s => ∀ a, out = .ok a → Q a s) s := by
  induction p generalizing s with
  | done a => exact fun b hb => Except.ok.inj hb ▸ h
  | fail e => exact fun b hb => by cases hb
  | call c next ih =>
      intro s' hinv hlater r s'' hdoes
      obtain ⟨hkeeps, hnext⟩ := h s' hinv hlater r s'' hdoes
      exact ⟨hkeeps, ih r hnext⟩

end Script

/-! ## Pools -/

/-- A state and the processes that share it. -/
structure Pool (C : Type) (R : C → Type) (E α σ : Type) where
  state : σ
  procs : Nat → Option (Script C R E α) := fun _ => none

namespace Pool

variable {C : Type} {R : C → Type} {E α σ : Type}

/-- A process gets another script, or none. -/
def set (w : Pool C R E α σ) (i : Nat) (p : Option (Script C R E α)) : Pool C R E α σ :=
  { w with procs := Function.update w.procs i p }

@[simp] theorem procs_set_self (w : Pool C R E α σ) (i : Nat) (p : Option (Script C R E α)) :
    (w.set i p).procs i = p :=
  Function.update_self ..

/-- One step of a pool.  `starts` are the scripts that a new process can start with, `follows`
those that one can go on with, and `others` is what else happens to the state. -/
inductive Step (does : (c : C) → σ → R c → σ → Prop) (starts : Script C R E α → Prop)
    (follows : α → σ → Script C R E α → Prop) (others : σ → σ → Prop) :
    Pool C R E α σ → Pool C R E α σ → Prop where
  | start (w : Pool C R E α σ) (i : Nat) {p : Script C R E α} : starts p →
      Step does starts follows others w (w.set i (some p))
  | follow (w : Pool C R E α σ) (i : Nat) {a : α} {p : Script C R E α} :
      w.procs i = some (.done a) → follows a w.state p →
        Step does starts follows others w (w.set i (some p))
  | call (w : Pool C R E α σ) (i : Nat) {c : C} {next : R c → Script C R E α} {r : R c} {s : σ} :
      w.procs i = some (.call c next) → does c w.state r s →
        Step does starts follows others w ({ w with state := s }.set i (some (next r)))
  | stop (w : Pool C R E α σ) (i : Nat) : Step does starts follows others w (w.set i none)
  | other (w : Pool C R E α σ) {s : σ} : others w.state s →
      Step does starts follows others w { w with state := s }

/-- The pools that are reached from a state without processes. -/
inductive Reached (does : (c : C) → σ → R c → σ → Prop) (starts : Script C R E α → Prop)
    (follows : α → σ → Script C R E α → Prop) (others : σ → σ → Prop) (s₀ : σ) :
    Pool C R E α σ → Prop where
  | init : Reached does starts follows others s₀ { state := s₀ }
  | step {w w' : Pool C R E α σ} : Reached does starts follows others s₀ w →
      Step does starts follows others w w' → Reached does starts follows others s₀ w'

variable {sh : Sharing C R σ} {Q : α → σ → Prop}

/-- The invariant holds, and every process keeps to it from here on. -/
structure Sound (sh : Sharing C R σ) (Q : α → σ → Prop) (w : Pool C R E α σ) : Prop where
  inv : sh.Inv w.state
  procs : ∀ i p, w.procs i = some p → p.Amid sh Q w.state

theorem Sound.set {w : Pool C R E α σ} (h : w.Sound sh Q) (i : Nat)
    {o : Option (Script C R E α)} (ho : ∀ p, o = some p → p.Amid sh Q w.state) :
    (w.set i o).Sound sh Q := by
  refine ⟨h.inv, fun j p hp => ?_⟩
  change Function.update w.procs i o j = some p at hp
  by_cases hj : j = i
  · rw [hj, Function.update_self] at hp
    exact ho p hp
  · rw [Function.update_of_ne hj] at hp
    exact h.procs j p hp

/-- A later state keeps every process sound. -/
theorem Sound.move (hQ : ∀ a s s', Q a s → sh.Inv s' → sh.Later s s' → Q a s')
    {w : Pool C R E α σ} (h : w.Sound sh Q) {s : σ} (hinv : sh.Inv s)
    (hlater : sh.Later w.state s) : ({ w with state := s } : Pool C R E α σ).Sound sh Q where
  inv := hinv
  procs i p hp := (h.procs i p hp).later hQ hinv hlater

variable {starts : Script C R E α → Prop} {follows : α → σ → Script C R E α → Prop}
variable {others : σ → σ → Prop}

/-- If scripts keep to the invariant where they begin, the pool does all along. -/
theorem Reached.inv (hQ : ∀ a s s', Q a s → sh.Inv s' → sh.Later s s' → Q a s')
    (hstart : ∀ p s, starts p → sh.Inv s → p.Amid sh Q s)
    (hfollow : ∀ a s p, follows a s p → sh.Inv s → Q a s → p.Amid sh Q s)
    (hother : ∀ s s', others s s' → sh.Inv s → sh.Inv s' ∧ sh.Later s s') {s₀ : σ}
    (hinit : sh.Inv s₀) {w : Pool C R E α σ} (h : Reached sh.does starts follows others s₀ w) :
    w.Sound sh Q := by
  induction h with
  | init => exact ⟨hinit, fun i p hp => by cases hp⟩
  | step h hstep ih =>
      cases hstep with
      | start i hp =>
          exact ih.set i fun p heq => Option.some.inj heq ▸ hstart _ _ hp ih.inv
      | follow i hdone hp =>
          exact ih.set i fun p heq =>
            Option.some.inj heq ▸ hfollow _ _ _ hp ih.inv (ih.procs i _ hdone)
      | call i hcall hdoes =>
          obtain ⟨⟨hinv, hlater⟩, hnext⟩ :=
            ih.procs i _ hcall _ ih.inv (sh.refl _) _ _ hdoes
          exact (ih.move hQ hinv hlater).set i fun p heq => Option.some.inj heq ▸ hnext
      | stop i => exact ih.set i fun p heq => by cases heq
      | other hother' =>
          obtain ⟨hinv, hlater⟩ := hother _ _ hother' ih.inv
          exact ih.move hQ hinv hlater

/-- A process that is not disturbed does what its script does alone. -/
theorem Reached.run {does : (c : C) → σ → R c → σ → Prop} {exec : (c : C) → σ → R c × σ}
    (hexec : ∀ c s, does c s (exec c s).1 (exec c s).2) {s₀ : σ} {i : Nat}
    {p : Script C R E α} {w : Pool C R E α σ} (h : Reached does starts follows others s₀ w)
    (hp : w.procs i = some p) {a : α} {s' : σ} (hrun : p.run exec w.state = (.ok a, s')) :
    ∃ w', Reached does starts follows others s₀ w' ∧ w'.procs i = some (.done a) ∧
      w'.state = s' := by
  induction p generalizing w with
  | done b =>
      cases hrun
      exact ⟨w, h, hp, rfl⟩
  | fail e => cases hrun
  | call c next ih =>
      exact ih _ (h.step (.call w i hp (hexec c w.state))) (procs_set_self ..) hrun

end Pool
