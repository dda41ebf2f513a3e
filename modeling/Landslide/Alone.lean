import Landslide.Reads

/-!
# Calls alone on the store

What a call returns and does when no other client runs: every transaction
commits at the first attempt.  A call of one transaction either fails and
leaves the state as it was, or has the effect of its body
(`Call.exec_effect`).  A purge removes the records of its window and nothing
else (`purgeBelow_exec`).
-/

namespace Landslide

open TxnKv Std

section

variable {D S : Type}

/-- A call on a state that no one else changes: its result and the state after. -/
def Call.exec [Payload D] (call : Call D S) (σ : Db D S) : Result × Db D S := call.proc.exec σ

/-! ## Calls of one transaction -/

theorem once_exec (body : TxnM D S (List CommitInfo)) (ok : List CommitInfo → Reply)
    (σ : Db D S) :
    (once body ok).exec σ =
      match body.run (.begin σ) with
      | .ok (infos, t) => (.ok (ok infos), t.view)
      | .error r => (r, σ) := by
  rw [once, Proc.exec]
  cases body.run (.begin σ) with
  | error r => rfl
  | ok r => rfl

theorem commitAppends_exec [Payload D] (req : AppendReq D) (indexTs : Bool)
    (stamps : Nat → Nat → Stamp) (σ : Db D S) :
    (commitAppends req.stream req.expected req.fromVersion req.fenceToken req.events indexTs
      stamps : StoreProc D S).exec σ =
      match checkBatch req.events with
      | .error e => (.error e, σ)
      | .ok () =>
          (once (appendBody req.stream req.expected req.fromVersion req.fenceToken req.events
            indexTs (stamps commitRetries)) .infos).exec σ := by
  rw [commitAppends]
  cases checkBatch req.events with
  | error e => rfl
  | ok u =>
      rw [once_exec]
      dsimp only [commitRetries]
      rw [commitLoop, Proc.exec]
      cases (appendBody req.stream req.expected req.fromVersion req.fenceToken req.events indexTs
          (stamps 8)).run (.begin σ) with
      | error r => rfl
      | ok r => rfl

/-- The calls that are one transaction, with nothing read before it. -/
def Call.OneTxn : Call D S → Prop
  | .purgeBelow .. => False
  | .compact .. => False
  | _ => True

/-- A body of a call run once is an effect of the call or changes nothing. -/
theorem once_exec_effect (call : Call D S) {body : TxnM D S (List CommitInfo)}
    (hbody : call.Body body) (ok : List CommitInfo → Reply) (σ : Db D S) :
    ((once body ok).exec σ).2 = σ ∨
      ∃ infos, ((once body ok).exec σ).1 = .ok (ok infos) ∧
        call.Effect σ infos ((once body ok).exec σ).2 := by
  rw [once_exec]
  cases hr : body.run (.begin σ) with
  | error r => exact .inl rfl
  | ok r => exact .inr ⟨r.1, rfl, hbody.effect hr⟩

/-- A call of one transaction leaves the state as it was or has one effect. -/
theorem Call.exec_effect [Payload D] (call : Call D S) (h : call.OneTxn) (σ : Db D S) :
    (call.exec σ).2 = σ ∨ ∃ infos, call.Effect σ infos (call.exec σ).2 := by
  have weaken : ∀ {r : Result × Db D S} {ok : List CommitInfo → Reply},
      (r.2 = σ ∨ ∃ infos, r.1 = .ok (ok infos) ∧ call.Effect σ infos r.2) →
        (r.2 = σ ∨ ∃ infos, call.Effect σ infos r.2) := by
    rintro r ok (h | ⟨infos, -, h⟩)
    · exact .inl h
    · exact .inr ⟨infos, h⟩
  have append_case : ∀ (req : AppendReq D) indexTs stamps,
      (∀ body : TxnM D S _, req.Body body → call.Body body) →
      let r := (commitAppends req.stream req.expected req.fromVersion req.fenceToken req.events
        indexTs stamps : StoreProc D S).exec σ
      r.2 = σ ∨ ∃ infos, call.Effect σ infos r.2 := by
    intro req indexTs stamps hbody
    rw [commitAppends_exec]
    cases checkBatch req.events with
    | error e => exact .inl rfl
    | ok u => exact weaken (once_exec_effect call (hbody _ ⟨_, _, rfl⟩) .infos σ)
  cases call with
  | append stream expected events stamps =>
      exact append_case { stream, expected, events } _ _ fun _ h => h
  | appendWithToken stream token expected events indexTs stamps =>
      exact append_case { stream, expected, fenceToken := some token, events } _ _ fun _ h => h
  | appendAt stream fromVersion expected events stamps =>
      exact append_case { stream, expected, fromVersion := some fromVersion, events } _ _
        fun _ h => h
  | commit ops stamps =>
      rw [Call.exec, Call.proc, Landslide.commit]
      split
      · exact .inl rfl
      · exact weaken (once_exec_effect (.commit ops stamps) rfl .infos σ)
  | fence stream token => exact weaken (once_exec_effect (.fence stream token) rfl .infos σ)
  | fork parent atVersion child =>
      exact weaken (once_exec_effect (.fork parent atVersion child) rfl (fun _ => .done) σ)
  | trim stream fromVersion txn =>
      exact weaken (once_exec_effect (.trim stream fromVersion txn) rfl .infos σ)
  | trimBelow stream floor =>
      exact weaken (once_exec_effect (.trimBelow stream floor) rfl .infos σ)
  | deleteStream stream =>
      exact weaken (once_exec_effect (.deleteStream stream) rfl (fun _ => .done) σ)
  | publishSnapshot stream record state ulid =>
      exact weaken (once_exec_effect (.publishSnapshot stream record state ulid) rfl
        (fun _ => .done) σ)
  | purgeBelow | compact => exact h.elim

/-- An append alone on the store fails and leaves the state, or appends its batch. -/
theorem commitAppends_exec_cases [Payload D] (req : AppendReq D) (indexTs : Bool)
    (stamps : Nat → Nat → Stamp) (σ : Db D S) :
    let r := (commitAppends req.stream req.expected req.fromVersion req.fenceToken req.events
      indexTs stamps : StoreProc D S).exec σ
    (∃ e, r = (.error e, σ)) ∨ ∃ info σ₁, Appended req (seqOf σ) σ info σ₁ ∧
      r = (.ok (.infos [info]), σ₁.put .seq (seqOf σ + req.events.length)) := by
  dsimp only
  rw [commitAppends_exec]
  cases checkBatch req.events with
  | error e => exact .inl ⟨e, rfl⟩
  | ok u =>
      dsimp only
      rw [once_exec]
      cases hr : (appendBody req.stream req.expected req.fromVersion req.fenceToken req.events
          indexTs (stamps commitRetries)).run (.begin σ) with
      | error r =>
          obtain ⟨e, rfl⟩ := (appendBody_within req indexTs _).of_run_error hr
          exact .inl ⟨e, rfl⟩
      | ok r =>
          obtain ⟨infos, t⟩ := r
          obtain ⟨seq', σ₁, hrep, hview⟩ := appendBody_run hr
          cases hrep with
          | append happ hrest =>
              cases hrest
              refine .inr ⟨_, σ₁, happ, ?_⟩
              dsimp only
              rw [hview]

/-- The token check passes on a stream that is not fenced or has this token. -/
theorem checkFence_ok {stream : String} {token : Option String} {t : Txn Key (Val D S)}
    (h : ∀ tok current, token = some tok → t.view.get (.fence stream) = some current →
      current = tok) : ∃ t', (checkFence stream token).run t = .ok ((), t') ∧ t'.view = t.view := by
  cases token with
  | none => exact ⟨t, rfl, rfl⟩
  | some tok =>
      simp only [checkFence, Prog.run_read_bind]
      cases hf : t.view.get (.fence stream) with
      | none => exact ⟨_, rfl, rfl⟩
      | some current =>
          dsimp only
          rw [if_pos (h tok current rfl hf)]
          exact ⟨_, rfl, rfl⟩

/-- A replayed append that passes its checks succeeds. -/
theorem replayAppend_ok (seq : Nat) (req : AppendReq D) (indexTs : Bool) (stamps : Nat → Stamp)
    {t : Txn Key (Val D S)}
    (hfence : ∀ token current, req.fenceToken = some token →
      t.view.get (.fence req.stream) = some current → current = token)
    (hadm : req.expected.admits (tailVersion t.view req.stream) = true) (hne : req.events ≠ []) :
    ∃ r t', (replayAppend seq req.stream req.expected req.fromVersion req.fenceToken req.events
      indexTs stamps).run t = .ok (r, t') := by
  unfold replayAppend tail
  rw [Prog.run_read_bind, Prog.run_bind]
  obtain ⟨t₁, hrun, -⟩ := checkFence_ok (t := t.noteRead (· = .tail req.stream)) hfence
  rw [hrun]
  dsimp only
  rw [if_neg (by simpa [tailVersion] using hadm), if_neg (by simpa using hne), Prog.run_bind]
  obtain ⟨ts, t₂, hput, -⟩ := putRecords_run (D := D) (S := S) req.stream indexTs
    (req.fromVersion.getD (((t.view.get (.tail req.stream)).map (·.version)).elim 0 (· + 1)))
    (seq + 1) stamps req.events 0 ((t.view.get (.tail req.stream)).elim 0 (·.tsMs)) t₁
  rw [hput]
  exact ⟨_, _, rfl⟩

/-- An append alone on the store that passes its checks appends its batch. -/
theorem commitAppends_exec_ok [Payload D] (req : AppendReq D) (indexTs : Bool)
    (stamps : Nat → Nat → Stamp) (σ : Db D S) (hcheck : checkBatch req.events = .ok ())
    (hfence : ∀ token current, req.fenceToken = some token →
      σ.get (.fence req.stream) = some current → current = token)
    (hadm : req.expected.admits (tailVersion σ req.stream) = true) (hne : req.events ≠ []) :
    ∃ info σ₁, Appended req (seqOf σ) σ info σ₁ ∧
      (commitAppends req.stream req.expected req.fromVersion req.fenceToken req.events
        indexTs stamps : StoreProc D S).exec σ =
          (.ok (.infos [info]), σ₁.put .seq (seqOf σ + req.events.length)) := by
  rcases commitAppends_exec_cases req indexTs stamps σ with ⟨e, he⟩ | ⟨info, σ₁, happ, he⟩
  swap
  · exact ⟨info, σ₁, happ, he⟩
  obtain ⟨r, t, hrun⟩ := replayAppend_ok (seqOf σ) req indexTs (stamps commitRetries)
    (t := (Txn.begin σ).noteRead (· = .seq)) hfence hadm hne
  have hbody : (appendBody req.stream req.expected req.fromVersion req.fenceToken req.events
      indexTs (stamps commitRetries)).run (.begin σ) =
        (commitSeq r.2 >>= fun _ => (pure [r.1] : TxnM D S _)).run t := by
    show (replayAppend (seqOf σ) req.stream req.expected req.fromVersion req.fenceToken req.events
      indexTs (stamps commitRetries) >>= _).run ((Txn.begin σ).noteRead (· = .seq)) = _
    rw [Prog.run_bind, hrun]
  rw [commitAppends_exec, hcheck] at he
  dsimp only at he
  rw [once_exec, hbody] at he
  cases he

theorem fence_exec [Payload D] (stream : String) (token : Option String) (σ : Db D S) :
    ∃ infos, (Call.fence stream token : Call D S).exec σ =
      (.ok (.infos infos), fenced σ stream token) := by
  obtain ⟨t', hr, hv⟩ := replayFence_run stream token
    ((Txn.begin σ).noteRead (· = Key.tail stream))
  refine ⟨[tailCommitInfo (σ.get (.tail stream))], ?_⟩
  rw [Call.exec, Call.proc, fence, once_exec, fenceBody, tail, Prog.run_read_bind, Prog.run_bind, hr]
  change (Except.ok _, t'.view) = _
  rw [hv]
  rfl

theorem publishSnapshot_exec [Payload D] (stream : String) (record : CompactionRecord) (state : S)
    (ulid : String) (σ : Db D S) :
    (Call.publishSnapshot stream record state ulid : Call D S).exec σ =
      (.ok .done, published σ stream record state ulid) := rfl

/-! ## Purges -/

/-- The versions of a stream in `[lo, hi)`, in order. -/
def versionsOf (σ : Db D S) (stream : String) (lo hi : Nat) : List Nat :=
  (σ.scan (recordRange stream lo (some hi))).filterMap versionOf

theorem mem_versionsOf {σ : Db D S} {stream : String} {lo hi v : Nat} :
    v ∈ versionsOf σ stream lo hi ↔
      (lo ≤ v ∧ v < hi) ∧ (σ.get (.record stream v)).isSome = true := by
  simp only [versionsOf, List.mem_filterMap]
  constructor
  · rintro ⟨⟨k, x⟩, hmem, hk⟩
    rw [Store.mem_scan] at hmem
    cases k with
    | record s w =>
        cases hk
        obtain ⟨hrange, hget⟩ := hmem
        simp only [recordRange, Bool.and_eq_true, decide_eq_true_eq, Option.all_some] at hrange
        obtain ⟨⟨rfl, hlo⟩, hhi⟩ := hrange
        exact ⟨⟨hlo, hhi⟩, by rw [hget]; rfl⟩
    | tail | fence | trim | deleted | fork | forks | rollback | ts | snap | compaction | seq =>
        cases hk
  · rintro ⟨⟨hlo, hhi⟩, hsome⟩
    obtain ⟨env, henv⟩ := Option.isSome_iff_exists.mp hsome
    refine ⟨⟨.record stream v, env⟩, ?_, rfl⟩
    rw [Store.mem_scan]
    exact ⟨by simp [recordRange, hlo, hhi], henv⟩

theorem versionsOf_sorted (σ : Db D S) (stream : String) (lo hi : Nat) :
    (versionsOf σ stream lo hi).Pairwise (· < ·) := by
  refine List.pairwise_filterMap.mpr ((Store.scan_sorted σ _).imp_of_mem ?_)
  rintro ⟨k, x⟩ ⟨k', x'⟩ hmem hmem' hlt v hv v' hv'
  rw [Store.mem_scan] at hmem hmem'
  cases k with
  | record s w =>
      cases k' with
      | record s' w' =>
          cases hv
          cases hv'
          have h₁ := hmem.1
          have h₂ := hmem'.1
          simp only [recordRange, Bool.and_eq_true, decide_eq_true_eq] at h₁ h₂
          obtain ⟨⟨rfl, -⟩, -⟩ := h₁
          obtain ⟨⟨rfl, -⟩, -⟩ := h₂
          exact Key.record_lt.mp hlt
      | tail | fence | trim | deleted | fork | forks | rollback | ts | snap | compaction | seq =>
          cases hv'
  | tail | fence | trim | deleted | fork | forks | rollback | ts | snap | compaction | seq =>
      cases hv

/-- One chunk of a purge. -/
theorem purgeLoop_exec_succ (stream : String) (floor chunks next n : Nat) (σ : Db D S) :
    (purgeLoop stream floor (chunks + 1) next n : StoreProc D S).exec σ =
      if next < floor then
        match ((versionsOf σ stream next floor).take purgeChunk).getLast? with
        | none => (.ok (.purged n), σ)
        | some last =>
            (purgeLoop stream floor chunks (last + 1)
              (n + ((versionsOf σ stream next floor).take purgeChunk).length)).exec
                (purged σ stream ((versionsOf σ stream next floor).take purgeChunk))
      else (.ok (.purged n), σ) := by
  rw [purgeLoop]
  split
  swap
  · rfl
  change Proc.exec (match ((versionsOf σ stream next floor).take purgeChunk).getLast? with
    | none => _
    | some last => _) σ = _
  cases ((versionsOf σ stream next floor).take purgeChunk).getLast? with
  | none => rfl
  | some last =>
      obtain ⟨t, hr, hv⟩ := deleteRecords_run (D := D) (S := S) stream
        ((versionsOf σ stream next floor).take purgeChunk) (.begin σ)
      dsimp only
      rw [Proc.exec, versionsOf] at *
      rw [hr]
      dsimp only
      rw [hv]
      rfl

theorem get_purged {σ : Db D S} {stream : String} (versions : List Nat) (k : Key) :
    (purged σ stream versions).get k =
      if ∃ v ∈ versions, k = .record stream v then none else σ.get k := by
  split
  · next h =>
    obtain ⟨v, hv, rfl⟩ := h
    exact get_purged_of_mem versions σ hv
  · next h => exact get_purged_of_ne versions σ fun v hv hk => h ⟨v, hv, hk⟩

/-- What is left of an increasing list when some are taken is what is above the last of
them. -/
theorem mem_drop_iff {vs : List Nat} {n last v : Nat} (hsorted : vs.Pairwise (· < ·))
    (hlast : (vs.take n).getLast? = some last) : v ∈ vs.drop n ↔ v ∈ vs ∧ last < v := by
  have hmem := List.mem_of_getLast? hlast
  constructor
  · intro hv
    refine ⟨List.mem_of_mem_drop hv, ?_⟩
    rw [← List.take_append_drop n vs] at hsorted
    exact (List.pairwise_append.mp hsorted).2.2 last hmem v hv
  · rintro ⟨hv, hlt⟩
    rw [← List.take_append_drop n vs] at hv
    rcases List.mem_append.mp hv with htake | hdrop
    · -- the last one taken is the greatest one taken
      have htaken := hsorted.sublist (List.take_sublist n _)
      obtain ⟨init, hinit⟩ := List.getLast?_eq_some_iff.mp hlast
      rw [hinit] at htake htaken
      rcases List.mem_append.mp htake with hv | hv
      · have := (List.pairwise_append.mp htaken).2.2 v hv last (List.mem_singleton_self _)
        omega
      · rw [List.mem_singleton] at hv
        omega
    · exact hdrop

/-- Purging a prefix of the window leaves the rest of its versions. -/
theorem versionsOf_purged {σ : Db D S} {stream : String} {next floor n last : Nat}
    (hlast : ((versionsOf σ stream next floor).take n).getLast? = some last) :
    versionsOf (purged σ stream ((versionsOf σ stream next floor).take n)) stream (last + 1)
        floor = (versionsOf σ stream next floor).drop n := by
  have hsorted := versionsOf_sorted σ stream next floor
  refine (versionsOf_sorted _ _ _ _).eq_of_mem_iff (hsorted.sublist (List.drop_sublist n _)) ?_
  intro v
  have hmem := List.mem_of_getLast? hlast
  have hdrop := mem_drop_iff (v := v) hsorted hlast
  rw [hdrop, mem_versionsOf, mem_versionsOf]
  have hlo := (mem_versionsOf.mp (List.mem_of_mem_take hmem)).1.1
  constructor
  · rintro ⟨⟨hv, hf⟩, hsome⟩
    refine ⟨⟨⟨by omega, hf⟩, ?_⟩, by omega⟩
    rw [get_purged] at hsome
    split at hsome
    · cases hsome
    · exact hsome
  · rintro ⟨⟨⟨-, hf⟩, hsome⟩, hv⟩
    refine ⟨⟨by omega, hf⟩, ?_⟩
    rw [get_purged, if_neg]
    · exact hsome
    · rintro ⟨w, hw, hk⟩
      cases hk
      have hv' := hdrop.mpr ⟨mem_versionsOf.mpr ⟨⟨by omega, hf⟩, hsome⟩, by omega⟩
      rw [← List.take_append_drop n (versionsOf σ stream next floor)] at hsorted
      exact Nat.lt_irrefl v ((List.pairwise_append.mp hsorted).2.2 v hw v hv')

theorem purged_append (σ : Db D S) (stream : String) (versions versions' : List Nat) :
    purged (purged σ stream versions) stream versions' =
      purged σ stream (versions ++ versions') := by
  simp [purged]

/-- With enough chunks a purge removes its whole window and counts it. -/
theorem purgeLoop_exec (stream : String) (floor : Nat) : ∀ (chunks next n : Nat) (σ : Db D S),
    floor - next < chunks →
      (purgeLoop stream floor chunks next n : StoreProc D S).exec σ =
        (.ok (.purged (n + (versionsOf σ stream next floor).length)),
          purged σ stream (versionsOf σ stream next floor))
  | 0, _, _, _, h => by omega
  | chunks + 1, next, n, σ, h => by
      rw [purgeLoop_exec_succ]
      split
      swap
      · next hge =>
        have hnil : versionsOf σ stream next floor = [] := by
          refine List.eq_nil_iff_forall_not_mem.mpr fun v hv => ?_
          have := (mem_versionsOf.mp hv).1
          omega
        rw [hnil]
        rfl
      cases hlast : ((versionsOf σ stream next floor).take purgeChunk).getLast? with
      | none =>
          have htake := List.getLast?_eq_none_iff.mp hlast
          have hnil : versionsOf σ stream next floor = [] := by
            rcases List.take_eq_nil_iff.mp htake with h₀ | h₀
            · cases h₀
            · exact h₀
          rw [hnil]
          rfl
      | some last =>
          have hlo := (mem_versionsOf.mp (List.mem_of_mem_take (List.mem_of_getLast? hlast))).1
          dsimp only
          rw [purgeLoop_exec stream floor chunks _ _ _ (by omega), versionsOf_purged hlast,
            purged_append, List.take_append_drop, Nat.add_assoc, ← List.length_append,
            List.take_append_drop]

/-- The window of a purge starts right above the highest live pin. -/
def purgeFrom (σ : Db D S) (stream : String) : Nat := (ceilingOf σ stream).elim 0 (· + 1)

/-- A purge removes the records of its window and returns their number. -/
theorem purgeBelow_exec [Payload D] (σ : Db D S) (stream : String) (floor : Nat) :
    (Call.purgeBelow stream floor : Call D S).exec σ =
      (.ok (.purged (versionsOf σ stream (purgeFrom σ stream) floor).length),
        purged σ stream (versionsOf σ stream (purgeFrom σ stream) floor)) := by
  rw [Call.exec, Call.proc, purgeBelow, Proc.exec_ofReads, ceiling_eval]
  change (purgeLoop stream floor (floor + 1) (purgeFrom σ stream) 0 : StoreProc D S).exec σ = _
  rw [purgeLoop_exec stream floor _ _ _ _ (by omega), Nat.zero_add]

theorem trimBelow_exec [Payload D] (σ : Db D S) (stream : String) (floor : Nat) :
    ((Call.trimBelow stream floor : Call D S).exec σ).2 =
      σ.put (.trim stream) (trimFloor σ stream floor) := by
  rw [Call.exec, Call.proc, trimBelow, once_exec]
  exact trimBelowBody_run rfl

/-! ## Compactions -/

/-- A compaction reads the history, builds the snapshot and publishes it. -/
theorem compact_exec [Payload D] (σ : Db D S) (stream : String) (jobId : Option String)
    (build : List (Event D) → Except Error S) (nowMs : Int) (ulid : String) :
    (Call.compact ((forkRefs σ).length + 1) stream jobId build nowMs ulid : Call D S).exec σ =
      match readHistory σ stream (.included 0) .unbounded with
      | .error e => (.error e, σ)
      | .ok events =>
          match build events with
          | .error e => (.error e, σ)
          | .ok state =>
              match events.getLast? with
              | none => (.error (.invalidInput s!"'{stream}' has no events to compact"), σ)
              | some last =>
                  let record : CompactionRecord :=
                    { stream := stream, throughVersion := last.version,
                      eventsCompacted := events.length, jobId := jobId, tsMs := nowMs }
                  (.ok (.compacted record), published σ stream record state ulid) := by
  rw [Call.exec, Call.proc, compactInner, Proc.exec_ofReads]
  change Proc.exec (match readHistory σ stream (.included 0) .unbounded with
    | .error e => _
    | .ok events => _) σ = _
  cases readHistory σ stream (.included 0) .unbounded with
  | error e => rfl
  | ok events =>
      dsimp only
      cases build events with
      | error e => rfl
      | ok state =>
          dsimp only
          cases events.getLast? with
          | none => rfl
          | some last => rfl

/-- A compaction leaves the state as it was or publishes a snapshot. -/
theorem compactInner_exec_cases (depth : Nat) (stream : String) (jobId : Option String)
    (build : List (Event D) → Except Error S) (nowMs : Int) (ulid : String) (σ : Db D S) :
    let out := (compactInner depth stream jobId build nowMs ulid : StoreProc D S).exec σ
    out.2 = σ ∨ ∃ record state, out.2 = published σ stream record state ulid := by
  dsimp only
  rw [compactInner, Proc.exec_ofReads]
  cases (resolveHistory depth stream [] 0 none).eval σ with
  | error e => exact .inl rfl
  | ok events =>
      dsimp only
      cases build events with
      | error e => exact .inl rfl
      | ok state =>
          dsimp only
          cases events.getLast? with
          | none => exact .inl rfl
          | some last => exact .inr ⟨_, state, rfl⟩

/-- Every call alone on the store leaves the state as it was or has one effect. -/
theorem Call.exec_cases [Payload D] (call : Call D S) (σ : Db D S) :
    (call.exec σ).2 = σ ∨ ∃ infos, call.Effect σ infos (call.exec σ).2 := by
  cases call with
  | purgeBelow stream floor =>
      rw [purgeBelow_exec]
      exact .inr ⟨[], _, rfl⟩
  | compact depth stream jobId build nowMs ulid =>
      rcases compactInner_exec_cases depth stream jobId build nowMs ulid σ with h | h
      · exact .inl h
      · exact .inr ⟨[], h⟩
  | append | appendWithToken | appendAt | commit | fence | fork | trim | trimBelow | deleteStream
  | publishSnapshot =>
      refine Call.exec_effect _ ?_ σ
      trivial

/-- The state after some calls, one after another. -/
def after [Payload D] (calls : List (Call D S)) (σ : Db D S) : Db D S :=
  calls.foldl (fun σ call => (call.exec σ).2) σ

end

end Landslide
