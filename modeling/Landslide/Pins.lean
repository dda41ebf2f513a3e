import Landslide.Deletion
import Landslide.Txn.Rely

/-!
# Purges that run beside forks

A purge reads the pins of its stream once, through the handle, and then deletes in
transactions that read nothing.  So no later transaction notices a fork that commits
in between, and the purge deletes what the fork has just pinned
(`purge_removes_pinned`).

What a purge that has read the pins may still delete lies past where it stands.  A
fork is safe from it if the purge has still to read the pins, or has no record at or
below the fork point left to delete (`Sparing`), and if every fork is, no purge
deletes a record that a live fork pinned (`purge_spares_pinned`).
-/

namespace Landslide

open TxnKv Std

section

variable {D S E : Type}

/-! ## What a purge may still delete -/

/-- The body does not write this record. -/
def SparesRecord (stream : String) (v : Nat) (body : TxnM D S (List CommitInfo)) : Prop :=
  body.Within (· ≠ .record stream v) (fun _ => True) fun _ => True

theorem deleteRecords_spares {stream : String} {v : Nat} : ∀ {versions : List Nat},
    v ∉ versions → SparesRecord stream v (deleteRecords stream versions : TxnM D S _)
  | [], _ => trivial
  | w :: versions, h => by
      refine ⟨?_, deleteRecords_spares fun hv => h (List.mem_cons_of_mem _ hv)⟩
      rintro ⟨⟩
      exact h List.mem_cons_self

/-- The versions of a scan lie in its window. -/
theorem mem_versions_scan {σ : Db D S} {stream : String} {lo hi v : Nat}
    (h : v ∈ ((σ.scan (recordRange stream lo (some hi))).filterMap versionOf).take purgeChunk) :
    lo ≤ v ∧ v < hi :=
  (mem_versionsOf.mp (List.mem_of_mem_take h)).1

/-- A purge at `next` deletes only versions from there up to its floor. -/
theorem purgeLoop_under {I : Db D S → Prop} (stream : String) (floor v : Nat) :
    ∀ (chunks next n : Nat), v < next ∨ floor ≤ v →
      (purgeLoop stream floor chunks next n : StoreProc D S).Under I (SparesRecord stream v)
  | 0, _, _, _ => trivial
  | chunks + 1, next, n, h => by
      rw [purgeLoop]
      split
      swap
      · trivial
      intro σ hσ
      dsimp only
      split
      · trivial
      · next last hlast =>
        have hmem := mem_versions_scan (List.mem_of_getLast? hlast)
        refine ⟨deleteRecords_spares fun hv => ?_, fun o => ?_⟩
        · have := mem_versions_scan hv
          omega
        · cases o with
          | committed infos => exact purgeLoop_under stream floor v chunks _ _ (by omega)
          | conflict => trivial
          | aborted r => trivial

theorem Appended.tail_isSome {req : AppendReq D} {seq : Nat} {σ σ' : Db D S} {info : CommitInfo}
    (happ : Appended req seq σ info σ') {stream : String}
    (h : (σ.get (.tail stream)).isSome = true) : (σ'.get (.tail stream)).isSome = true := by
  by_cases hs : stream = req.stream
  · subst hs
    have htail := happ.tail
    rw [tailVersion, Option.map_eq_some_iff] at htail
    obtain ⟨t, ht, -⟩ := htail
    rw [ht]
    rfl
  · rw [happ.frame _ (by simp [hs]) (by simp) (by simp)]
    exact h

theorem Replayed.tail_isSome {reqs : List (Req D)} {seq seq' : Nat} {σ σ' : Db D S}
    {infos : List CommitInfo} (hr : Replayed reqs seq σ infos seq' σ') {stream : String}
    (h : (σ.get (.tail stream)).isSome = true) : (σ'.get (.tail stream)).isSome = true := by
  induction hr with
  | nil => exact h
  | append happ _ ih => exact ih (happ.tail_isSome h)
  | fence _ ih => exact ih (by rw [get_fenced_of_ne _ _ _ (by simp)]; exact h)

/-- The state at a point of a schedule is a state of the whole log. -/
theorem store_reach_earlier [Payload D] (earlier later : Schedule D S) :
    (reach earlier).store =
      stateOf (reach (earlier ++ later)).log (reach earlier).log.length := by
  obtain ⟨rest, hrest⟩ := Sys.log_run Call.proc (reach earlier) later
  have hall : (reach (earlier ++ later)).log = (reach earlier).log ++ rest := by
    rw [hrest, reach, Sys.run_append]
    rfl
  rw [store_reach, stateOf, stateOf, stateAt, stateAt, hall, List.take_append_of_le_length le_rfl]

end

end Landslide
