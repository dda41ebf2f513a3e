import Landslide.Forks

/-!
# Deleted streams

`delete_stream` sets a mark that each operation has to look at.  `list_streams`
does, and the mark is never taken away, so a deleted stream is never listed again
(`not_mem_listStreams`).  Appends, transactions and forks do not: an append to
a deleted stream is taken like any other, so no deletion makes a stream id terminal
(`deleteStream_never_terminal`).
-/

namespace Landslide

open TxnKv Std

section

variable {D S : Type}

/-! ## Listing streams -/

/-- The keys under `m/`. -/
def metaRange : Key → Bool
  | .tail _ => true
  | .fence _ => true
  | .trim _ => true
  | .deleted _ => true
  | .fork _ => true
  | .forks _ _ => true
  | .rollback _ _ => true
  | _ => false

/-- What stands before `/{name}` at the end of a key under `m/`.  The pin of a child
with that name ends the same way. -/
def beforeName (name : String) : Key → Option String
  | .tail stream => if name = "tail" then some stream else none
  | .deleted stream => if name = "deleted" then some stream else none
  | .forks stream child => if child = name then some s!"{stream}/forks" else none
  | _ => none

/-- `EventStore::list_streams` on a committed state: the streams that have a tail and
are not deleted. -/
def listStreams (σ : Db D S) : List String :=
  let rows := σ.scan metaRange
  let deleted := rows.filterMap fun row => beforeName "deleted" row.1
  (rows.filterMap fun row => beforeName "tail" row.1).filter fun stream => stream ∉ deleted

/-- A stream with a deletion mark is not listed. -/
theorem not_mem_listStreams {σ : Db D S} {stream : String}
    (h : (σ.get (.deleted stream)).isSome = true) : stream ∉ listStreams σ := by
  intro hmem
  obtain ⟨u, hu⟩ := Option.isSome_iff_exists.mp h
  have hnot := (List.mem_filter.mp hmem).2
  simp only [decide_not, Bool.not_eq_eq_eq_not, Bool.not_true, decide_eq_false_iff_not] at hnot
  refine hnot (List.mem_filterMap.mpr ⟨⟨.deleted stream, u⟩, ?_, rfl⟩)
  rw [Store.mem_scan]
  exact ⟨rfl, hu⟩

/-! ## The mark stays -/

/-- No call takes a deletion mark away. -/
theorem Call.Effect.keeps_deleted {call : Call D S} {σ σ' : Db D S} {infos : List CommitInfo}
    (h : call.Effect σ infos σ') {stream : String}
    (hd : (σ.get (.deleted stream)).isSome = true) :
    (σ'.get (.deleted stream)).isSome = true := by
  have stamped : ∀ {reqs : List (Req D)}, Stamped reqs σ infos σ' →
      (σ'.get (.deleted stream)).isSome = true := by
    rintro reqs ⟨seq', σ₁, hr, rfl⟩
    rw [Store.get_put_of_ne _ _ (by simp), hr.get_of_not_replay rfl]
    exact hd
  cases call with
  | append | appendWithToken | appendAt | commit => exact stamped h
  | fence s token =>
      cases h
      rw [get_fenced_of_ne _ _ _ (by simp)]
      exact hd
  | fork parent atVersion child =>
      obtain ⟨parentTail, -, -, -, rfl⟩ := h
      rw [get_forked_of_ne (by simp) (by simp) (by simp)]
      exact hd
  | trim s fromVersion txn =>
      cases h
      rw [Store.get_put_of_ne _ _ (by simp)]
      exact hd
  | trimBelow s floor =>
      cases h
      rw [Store.get_put_of_ne _ _ (by simp)]
      exact hd
  | purgeBelow s floor =>
      obtain ⟨versions, rfl⟩ := h
      rw [get_purged_of_ne _ _ (by simp)]
      exact hd
  | deleteStream s =>
      obtain ⟨-, rfl⟩ := h
      by_cases hs : stream = s
      · subst hs
        rw [Store.get_put_self]
        rfl
      · rw [Store.get_put_of_ne _ _ (by simp [hs])]
        exact hd
  | publishSnapshot s record state ulid =>
      cases h
      rw [get_published_of_ne (by simp) (by simp) (by simp)]
      exact hd
  | compact depth s jobId build nowMs ulid =>
      obtain ⟨record, state, rfl⟩ := h
      rw [get_published_of_ne (by simp) (by simp) (by simp)]
      exact hd

theorem deleted_after [Payload D] {stream : String} : ∀ (calls : List (Call D S)) {σ : Db D S},
    (σ.get (.deleted stream)).isSome = true →
      ((after calls σ).get (.deleted stream)).isSome = true
  | [], _, h => h
  | call :: calls, σ, h => by
      refine deleted_after calls (σ := (call.exec σ).2) ?_
      rcases call.exec_cases σ with hsame | ⟨infos, heff⟩
      · rw [hsame]
        exact h
      · exact heff.keeps_deleted h

/-! ## Appends to a deleted stream -/

/-- The calls that append to a stream. -/
def Call.AppendsTo (stream : String) : Call D S → Prop
  | .append s _ _ _ => s = stream
  | .appendWithToken s _ _ _ _ _ => s = stream
  | .appendAt s _ _ _ _ => s = stream
  | .commit ops _ => ∃ expected events, Op.append stream expected events ∈ ops
  | _ => False

/-- What a terminal stream id would be, from a state on: appends to the stream fail,
it is not listed, and no call shows events of it that were not shown. -/
structure Terminal [Payload D] (σ : Db D S) (stream : String) : Prop where
  refused : ∀ calls (call : Call D S), call.AppendsTo stream →
    ∃ e, (call.exec (after calls σ)).1 = .error e
  unlisted : ∀ calls : List (Call D S), stream ∉ listStreams (after calls σ)
  shrinks : ∀ (calls calls' : List (Call D S)) events events',
    readStream (after calls σ) stream .unbounded .unbounded = .ok events →
    readStream (after calls' (after calls σ)) stream .unbounded .unbounded = .ok events' →
      ∀ e ∈ events', e ∈ events

theorem deleteStream_exec [Payload D] {σ : Db D S} {stream : String}
    (h : (σ.get (.tail stream)).isSome = true) :
    (Call.deleteStream stream : Call D S).exec σ = (.ok .done, σ.put (.deleted stream) ()) := by
  rw [Call.exec, Call.proc, Landslide.deleteStream, once_exec, deleteStreamBody, tail,
    Prog.run_read_bind]
  rw [if_pos (by simpa using h)]
  rfl

/-- A deletion mark does not keep an append out. -/
theorem append_exec_ok [Payload D] (σ : Db D S) (stream : String) (events : List (NewEvent D))
    (hcheck : checkBatch events = .ok ()) (hne : events ≠ []) (stamps : Nat → Nat → Stamp) :
    ∃ info σ', (Call.append stream .any events stamps : Call D S).exec σ =
      (.ok (.infos [info]), σ') := by
  obtain ⟨info, σ₁, -, hexec⟩ := commitAppends_exec_ok { stream, expected := .any, events } true
    stamps σ hcheck (by simp) rfl hne
  exact ⟨info, _, hexec⟩

/-- Whatever the reachable state, deleting an existing stream succeeds and does not
make its id terminal: it is never listed again, but in every later state an append
within the caps is taken. -/
theorem deleteStream_never_terminal (acts : Schedule Bytes S) (stream : String)
    (hexists : ((reach acts).store.get (.tail stream)).isSome = true) :
    ∃ σ, (Call.deleteStream stream : Call Bytes S).exec (reach acts).store = (.ok .done, σ) ∧
      (∀ calls : List (Call Bytes S), stream ∉ listStreams (after calls σ)) ∧
      (∀ calls events stamps, checkBatch events = .ok () → events ≠ [] →
        ∃ info σ', (Call.append stream .any events stamps).exec (after calls σ) =
          (.ok (.infos [info]), σ')) ∧
      ¬ Terminal σ stream := by
  refine ⟨_, deleteStream_exec hexists, fun calls => ?_, fun calls events stamps hcheck hne => ?_,
    fun hterm => ?_⟩
  · exact not_mem_listStreams (deleted_after calls (by rw [Store.get_put_self]; rfl))
  · exact append_exec_ok _ stream events hcheck hne stamps
  · obtain ⟨e, he⟩ := hterm.refused [] (.append stream .any [{ eventType := "x", data := [] }]
      fun _ _ => { ulid := "u", nowMs := 5 }) rfl
    obtain ⟨info, σ', hexec⟩ := append_exec_ok
      (after [] ((reach acts).store.put (.deleted stream) ())) stream
      [{ eventType := "x", data := [] }] (by decide) (by simp)
      fun _ _ => { ulid := "u", nowMs := 5 }
    rw [hexec] at he
    cases he

/-- An append of two events to `s`. -/
def twoEvents : Call Bytes Unit :=
  .append "s" .any [{ eventType := "x", data := [] }, { eventType := "y", data := [] }]
    fun _ _ => { ulid := "u", nowMs := 5 }

theorem deleteStream_never_terminal_twoEvents :
    ∃ σ, (Call.deleteStream "s" : Call Bytes Unit).exec (reach (alone [twoEvents])).store =
        (.ok .done, σ) ∧ ¬ Terminal σ "s" := by
  obtain ⟨σ, hexec, -, -, hterm⟩ :=
    deleteStream_never_terminal (alone [twoEvents]) "s" (by decide)
  exact ⟨σ, hexec, hterm⟩

/-- The versions that a read of one stream shows. -/
def versionsShown (σ : Db Bytes Unit) (stream : String) : Option (List Nat) :=
  ((readStream σ stream .unbounded .unbounded).map fun events => events.map (·.version)).toOption

/-- After a deletion nothing of `s` is shown.  An append to it is taken all the same,
and a fork off it shows its events again. -/
theorem deleted_stream_reused :
    let σ := (reach (alone [twoEvents, .deleteStream "s"])).store
    (reach (alone [twoEvents, .deleteStream "s"])).returned.map (·.result.isOk) = [true, true] ∧
      versionsShown σ "s" = some [] ∧ (twoEvents.exec σ).1.isOk = true ∧
      ((Call.fork "s" 1 "c" : Call Bytes Unit).exec σ).1.isOk = true ∧
      versionsShown ((Call.fork "s" 1 "c" : Call Bytes Unit).exec σ).2 "s" = some [0, 1] := by
  refine ⟨?_, ?_, ?_, ?_, ?_⟩ <;> decide

end

end Landslide
