import Landslide.Alone

/-!
# A transaction and its operations one by one

`commit` replays its queued operations against its own uncommitted writes, with
one cursor for `g/seq`, and stores that cursor once at the end.  The separate
calls each read `g/seq` again.  The two agree at every key but `g/seq` after
every operation, and the cursor is what the separate calls have stored
(`replayOps_matches`), so the transaction succeeds exactly when the separate
calls all do and then leaves the same state (`commit_eq_oneByOne`).  Only an
absent `g/seq` may differ from a stored 0.
-/

namespace Landslide

open TxnKv Std

section

variable {D S : Type}

/-! ## The operations as separate calls -/

/-- The separate call of a queued operation, with the draws of that operation. -/
def Op.call (stamps : Nat → Stamp) : Op D → Call D S
  | .append stream expected events => .append stream expected events fun _ => stamps
  | .fence stream token => .fence stream token

/-- The commit infos that a transaction reports of an operation. -/
def Op.infos : Op D → Reply → List CommitInfo
  | .append _ _ _, .infos infos => infos
  | _, _ => []

/-- The separate calls one after another, up to the first that fails. -/
def oneByOne [Payload D] (stamps : Nat → Nat → Stamp) :
    Nat → List (Op D) → Db D S → Option (List CommitInfo × Db D S)
  | _, [], σ => some ([], σ)
  | j, op :: ops, σ =>
      match (op.call (stamps j)).exec σ with
      | (.error _, _) => none
      | (.ok reply, σ') => (oneByOne stamps (j + 1) ops σ').map fun r => (op.infos reply ++ r.1, r.2)

/-! ## One operation -/

/-- A body that starts with the cursor runs from the stored sequence. -/
theorem bind_seq_run {α : Type} (f : Nat → TxnM D S α) (σ : Db D S) :
    (do
      let cursor ← (do
        let seq ← .read Key.seq
        return seq.getD 0)
      f cursor : TxnM D S α).run (.begin σ) =
        (f (seqOf σ)).run ((Txn.begin σ).noteRead (· = .seq)) := rfl

theorem putRecords_ignores (stream : String) (indexTs : Bool) (first startSeq : Nat)
    (stamps : Nat → Stamp) (events : List (NewEvent D)) : ∀ (i : Nat) (lastTs : Int),
      (putRecords stream indexTs first startSeq stamps i lastTs events : TxnM D S Int).Ignores
        .seq := by
  induction events with
  | nil => exact fun _ _ => trivial
  | cons e events ih =>
      intro i lastTs
      refine ⟨by simp, ?_⟩
      cases indexTs with
      | true => exact ⟨by simp, ih _ _⟩
      | false => exact ih _ _

/-- An append without a token looks at the tail of its stream only. -/
theorem replayAppend_ignores (seq : Nat) (stream : String) (expected : ExpectedVersion)
    (events : List (NewEvent D)) (indexTs : Bool) (stamps : Nat → Stamp) :
    (replayAppend seq stream expected none none events indexTs stamps :
      TxnM D S (CommitInfo × Nat)).Ignores .seq := by
  refine ⟨by simp, fun tail => ?_⟩
  show (if !expected.admits _ then _ else _ : TxnM D S (CommitInfo × Nat)).Ignores .seq
  split
  · trivial
  split
  · trivial
  · exact (putRecords_ignores _ _ _ _ _ _ _ _).bind fun ts => ⟨by simp, trivial⟩

/-- An append alone on the store is its replay from the stored sequence. -/
theorem append_exec [Payload D] {stream : String} {expected : ExpectedVersion}
    {events : List (NewEvent D)} (hcheck : checkBatch events = .ok ())
    (stamps : Nat → Nat → Stamp) (σ : Db D S) :
    (Call.append stream expected events stamps : Call D S).exec σ =
      match (replayAppend (seqOf σ) stream expected none none events true
          (stamps commitRetries)).run ((Txn.begin σ).noteRead (· = .seq)) with
      | .ok (r, t) => (.ok (.infos [r.1]), t.view.put .seq r.2)
      | .error r => (r, σ) := by
  refine (commitAppends_exec { stream, expected, events } true stamps σ).trans ?_
  rw [hcheck]
  dsimp only
  rw [once_exec]
  rw [appendBody, seqCursor, bind_seq_run]
  rw [Prog.run_bind]
  cases (replayAppend (seqOf σ) stream expected none none events true (stamps commitRetries)).run
      ((Txn.begin σ).noteRead (· = .seq)) with
  | error r => rfl
  | ok r => rfl

/-! ## All operations -/

/-- The batches that a transaction checks first are those the calls check. -/
theorem oneByOne_of_checkOps_error [Payload D] {stamps : Nat → Nat → Stamp} :
    ∀ {ops : List (Op D)} {e : Error}, checkOps ops = .error e → ∀ (j : Nat) (σ : Db D S),
      oneByOne stamps j ops σ = none
  | .fence stream token :: ops, e, h, j, σ => by
      obtain ⟨infos, hf⟩ := fence_exec stream token σ
      rw [oneByOne, Op.call, hf]
      dsimp only
      rw [oneByOne_of_checkOps_error (show checkOps ops = .error e from h)]
      rfl
  | .append stream expected events :: ops, e, h, j, σ => by
      rw [oneByOne]
      cases hcheck : checkBatch events with
      | error e' =>
          have hexec : (Call.append stream expected events fun _ => stamps j : Call D S).exec σ =
              (.error e', σ) := by
            refine (commitAppends_exec { stream, expected, events } true _ σ).trans ?_
            rw [hcheck]
          rw [Op.call, hexec]
      | ok u =>
          have hops : checkOps ops = .error e := by
            rw [checkOps, hcheck] at h
            exact h
          split
          · rfl
          · rw [oneByOne_of_checkOps_error hops]
            rfl

/-- Replaying the operations in one transaction goes as the separate calls do,
and the cursor is the sequence they have stored. -/
theorem replayOps_matches [Payload D] (stamps : Nat → Nat → Stamp) :
    ∀ {ops : List (Op D)}, checkOps ops = .ok () →
      ∀ (j : Nat) (t : Txn Key (Val D S)) (σ : Db D S), t.view.AgreeOff .seq σ →
        ((∃ r, (replayOps stamps j (seqOf σ) ops).run t = .error r) ∧
            oneByOne stamps j ops σ = none) ∨
          ∃ infos t' τ, (replayOps stamps j (seqOf σ) ops).run t = .ok ((infos, seqOf τ), t') ∧
            oneByOne stamps j ops σ = some (infos, τ) ∧ t'.view.AgreeOff .seq τ
  | [], _, j, t, σ, hag => .inr ⟨[], t, σ, rfl, rfl, hag⟩
  | .fence stream token :: ops, h, j, t, σ, hag => by
      obtain ⟨infos, hf⟩ := fence_exec stream token σ
      obtain ⟨t₁, hr, hv⟩ := replayFence_run stream token t
      have hag₁ : t₁.view.AgreeOff .seq (fenced σ stream token) := hv ▸ hag.apply _
      have hseq : seqOf (fenced σ stream token) = seqOf σ := by
        rw [seqOf, seqOf, get_fenced_of_ne _ _ _ (by simp)]
      rw [replayOps, Prog.run_bind, hr, oneByOne, Op.call, hf]
      dsimp only
      rw [← hseq]
      rcases replayOps_matches stamps (show checkOps ops = .ok () from h) (j + 1) t₁ _ hag₁ with
        ⟨⟨r, hrun⟩, hnone⟩ | ⟨infos', t', τ, hrun, hsome, hag'⟩
      · exact .inl ⟨⟨r, hrun⟩, by rw [hnone]; rfl⟩
      · exact .inr ⟨infos', t', τ, hrun, by rw [hsome]; rfl, hag'⟩
  | .append stream expected events :: ops, h, j, t, σ, hag => by
      have hcheck : checkBatch events = .ok () ∧ checkOps ops = .ok () := by
        rw [checkOps] at h
        split at h
        · cases h
        · exact ⟨by assumption, h⟩
      rw [replayOps, Prog.run_bind, oneByOne, Op.call, append_exec hcheck.1]
      rcases (replayAppend_ignores (seqOf σ) stream expected events true (stamps j)).run_agree
          (t := t) (u := (Txn.begin σ).noteRead (· = .seq)) hag with
        ⟨r, ht, hu⟩ | ⟨r, t₁, u₁, ht, hu, hag₁⟩
      · obtain ⟨e, rfl⟩ :=
          (replayAppend_within (seqOf σ) { stream, expected, events } true (stamps j)).of_run_error ht
        rw [ht, hu]
        exact .inl ⟨⟨_, rfl⟩, rfl⟩
      · rw [ht, hu]
        dsimp only
        have hseq : seqOf (u₁.view.put .seq r.2) = r.2 := by rw [seqOf, Store.get_put_self]; rfl
        rw [Prog.run_bind]
        rcases replayOps_matches stamps hcheck.2 (j + 1) t₁ (u₁.view.put .seq r.2)
            (hag₁.put_right r.2) with ⟨⟨x, hrun⟩, hnone⟩ | ⟨infos, t', τ, hrun, hsome, hag'⟩
        · rw [hseq] at hrun
          rw [hrun, hnone]
          exact .inl ⟨⟨x, rfl⟩, rfl⟩
        · rw [hseq] at hrun
          rw [hrun, hsome]
          exact .inr ⟨r.1 :: infos, t', τ, rfl, rfl, hag'⟩

/-- A transaction alone on the store succeeds exactly when its operations do as
separate calls.  It then reports their infos and leaves their state, an absent
`g/seq` read as 0, and otherwise it leaves the store as it was. -/
theorem commit_eq_oneByOne [Payload D] (ops : List (Op D)) (stamps : Nat → Nat → Stamp)
    (σ : Db D S) :
    match oneByOne stamps 0 ops σ with
    | some (infos, τ) => ∃ σ', (Call.commit ops stamps : Call D S).exec σ = (.ok (.infos infos), σ') ∧
        (∀ k, k ≠ .seq → σ'.get k = τ.get k) ∧ seqOf σ' = seqOf τ
    | none => ∃ e, (Call.commit ops stamps : Call D S).exec σ = (.error e, σ) := by
  rw [Call.exec, Call.proc, Landslide.commit]
  cases hcheck : checkOps ops with
  | error e =>
      rw [oneByOne_of_checkOps_error hcheck]
      exact ⟨e, rfl⟩
  | ok u =>
      dsimp only
      rw [once_exec, commitBody, seqCursor, bind_seq_run, Prog.run_bind]
      rcases replayOps_matches stamps hcheck 0 ((Txn.begin σ).noteRead (· = .seq)) σ
          (.refl σ) with ⟨⟨r, hrun⟩, hnone⟩ | ⟨infos, t', τ, hrun, hsome, hag⟩
      · obtain ⟨e, rfl⟩ := (replayOps_within stamps 0 (seqOf σ) ops).of_run_error hrun
        rw [hrun, hnone]
        exact ⟨e, rfl⟩
      · rw [hrun, hsome]
        refine ⟨t'.view.put .seq (seqOf τ), rfl, hag.put_left _, ?_⟩
        rw [seqOf, Store.get_put_self]
        rfl

end

end Landslide
