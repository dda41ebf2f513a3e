import Landslide.Announcements
import Landslide.Jobs
import Landslide.Txn.Rely

/-!
# Completions and claims

A job is completed by a compaction record with its id.  `job_status` looks for one before
it folds the journal.  `claim_compaction` folds the journal only.  So a job that was
compacted and never claimed is completed, and a worker can still claim it
(`claims_completed`).

In every state of a run a claim succeeds exactly on the jobs that are pending, if and only
if no record answers a job while the journal has it pending, and no job is requested under
the id of a record (`claims_pending_iff`).

The journal and the rest of the store have no key in common, so a run steps them side by
side.
-/

namespace TxnKv.Store

open Std

variable {K : Type} [Ord K] [TransOrd K] [LawfulEqOrd K] [DecidableEq K] {V : K → Type}

/-- A key above all others is listed last. -/
theorem scan_put_above {σ : Store K V} {key : K} (v : V key)
    (habove : ∀ k v', σ.get k = some v' → compare k key = .lt) :
    (σ.put key v).scan (fun _ => true) =
      σ.scan (fun _ => true) ++ [(⟨key, v⟩ : (k : K) × V k)] := by
  have hsorted : (σ.scan (fun _ => true) ++ [(⟨key, v⟩ : (k : K) × V k)]).Pairwise
      fun a b => compare a.1 b.1 = .lt := by
    refine List.pairwise_append.mpr ⟨scan_sorted σ _, List.pairwise_singleton _ _, ?_⟩
    rintro ⟨k, v'⟩ hmem b hb
    rw [List.mem_singleton.mp hb]
    exact habove k v' (mem_scan.mp hmem).2
  refine (scan_sorted _ _).eq_of_mem_iff hsorted ?_
  rintro ⟨k, v'⟩
  rw [mem_scan, List.mem_append, mem_scan, List.mem_singleton]
  by_cases hk : k = key
  · subst hk
    have hnone : σ.get k ≠ some v' := by
      intro hget
      have := habove k v' hget
      rw [ReflOrd.compare_self] at this
      cases this
    rw [get_put_self]
    constructor
    · rintro ⟨-, hv⟩
      cases hv
      exact .inr rfl
    · rintro (⟨-, hv⟩ | hv)
      · exact absurd hv hnone
      · cases hv
        exact ⟨rfl, rfl⟩
  · rw [get_put_of_ne _ _ hk]
    constructor
    · exact .inl
    · rintro (h | h)
      · exact h
      · cases h
        exact absurd rfl hk

end TxnKv.Store

namespace Landslide

open TxnKv Std

section

variable {D S : Type}

/-! ## The journal beside the store -/

/-- The clients of the journal. -/
abbrev JobWorld : Type :=
  Sys String (fun _ => JobEvent) (Except Error JobReply) Unit (Except Error JobReply) JobCall

/-- The clients of the journal and those of the rest of the store. -/
structure Worlds (D S : Type) where
  jobs : JobWorld := Sys.init ∅
  store : World D S := Sys.init ∅

/-- One step of a client. -/
inductive WorldsAction (D S : Type) where
  | job (act : Action JobCall)
  | store (act : Action (Call D S))

/-- `EventStore::compaction_records`. -/
def compactionRecords (σ : Db D S) : List CompactionRecord := (compactionsAt σ).map (·.2)

/-- Some compaction record answers the job. -/
def Answered (σ : Db D S) (job : String) : Prop :=
  ∃ ulid record, σ.get (.compaction ulid) = some record ∧ record.jobId = some job

/-- The job that a call answers with the record it publishes. -/
def Call.answers : Call D S → Option String
  | .publishSnapshot _ record _ _ => record.jobId
  | .compact _ _ jobId _ _ _ => jobId
  | _ => none

namespace Worlds

/-- `EventStore::job_status`. -/
def jobStatus (w : Worlds D S) (job : String) : Option JobStatus :=
  if (compactionRecords w.store.store).any (·.jobId = some job) then some .completed
  else journalStatus w.jobs.store job

/-- What `EventStore::claim_compaction` returns when no one else runs. -/
def claimCompaction (w : Worlds D S) (job worker key : String) (nowMs : Int) :
    Except Error JobReply :=
  ((JobCall.claimCompaction job worker key nowMs).proc.exec w.jobs.store).1

/-- A claim succeeds exactly if the status of its job is pending. -/
def ClaimsPending (w : Worlds D S) : Prop :=
  ∀ job worker key nowMs,
    w.claimCompaction job worker key nowMs = .ok .done ↔ w.jobStatus job = some .pending

/-- No job that the journal has pending is answered. -/
def Consistent (w : Worlds D S) : Prop :=
  ∀ job, journalStatus w.jobs.store job = some .pending → ¬ Answered w.store.store job

variable [Payload D]

def step (w : Worlds D S) : WorldsAction D S → Worlds D S
  | .job act => { w with jobs := w.jobs.step JobCall.proc act }
  | .store act => { w with store := w.store.step Call.proc act }

/-- If the step commits a record, the journal does not have its job pending.  If it commits
a request, no record answers the job. -/
structure InTurn (w : Worlds D S) (act : WorldsAction D S) : Prop where
  answers : ∀ c job, (w.step act).store.log = w.store.log ++ [c] → c.call.answers = some job →
    journalStatus w.jobs.store job ≠ some .pending
  requests : ∀ c job, (w.step act).jobs.log = w.jobs.log ++ [c] → c.call.Requests job →
    ¬ Answered w.store.store job

/-- The state that a schedule reaches from an empty store. -/
def reached (acts : List (WorldsAction D S)) : Worlds D S := acts.foldl step {}

end Worlds

/-- Every entry is written above those before it. -/
def KeysIncrease (log : List JobEntry) : Prop :=
  (log.map fun c => c.call.key).Pairwise fun k k' => compare k k' = .lt

/-! ## One state -/

theorem mem_compactionRecords {σ : Db D S} {record : CompactionRecord} :
    record ∈ compactionRecords σ ↔ ∃ ulid, σ.get (.compaction ulid) = some record := by
  constructor
  · intro h
    obtain ⟨row, hrow, rfl⟩ := List.mem_map.mp h
    obtain ⟨ulid, -, hget⟩ := mem_compactionsAt.mp hrow
    exact ⟨ulid, hget⟩
  · rintro ⟨ulid, hget⟩
    exact List.mem_map.mpr ⟨(.compaction ulid, record), mem_compactionsAt.mpr ⟨ulid, rfl, hget⟩,
      rfl⟩

theorem any_answers_iff {σ : Db D S} {job : String} :
    (compactionRecords σ).any (·.jobId = some job) = true ↔ Answered σ job := by
  constructor
  · intro h
    obtain ⟨record, hmem, hjob⟩ := List.any_eq_true.mp h
    obtain ⟨ulid, hget⟩ := mem_compactionRecords.mp hmem
    exact ⟨ulid, record, hget, of_decide_eq_true hjob⟩
  · rintro ⟨ulid, record, hget, hjob⟩
    exact List.any_eq_true.mpr
      ⟨record, mem_compactionRecords.mpr ⟨ulid, hget⟩, decide_eq_true hjob⟩

/-- Any other job is refused. -/
theorem claimPending_of_ne {status : Option JobStatus} (h : status ≠ some .pending)
    (job worker key : String) (nowMs : Int) :
    ∃ e, claimPending job worker key nowMs status = .throw (.error e) := by
  unfold claimPending
  split
  · exact absurd rfl h
  · exact ⟨_, rfl⟩

/-- A claim alone on the journal succeeds if the journal has its job pending. -/
theorem claim_exec (σ : Journal) (job worker key : String) (nowMs : Int) :
    ((JobCall.claimCompaction job worker key nowMs).proc.exec σ).1 = .ok .done ↔
      journalStatus σ job = some .pending := by
  have hstatus : Jobs.fold (((σ.scan fun _ => true).map (·.2)).filter (·.jobId = job)) =
      journalStatus σ job := by
    rw [List.filter_map]
    rfl
  have hrun : (claimBody job worker key nowMs).run (.begin σ) =
      (claimPending job worker key nowMs (journalStatus σ job)).run
        ((Txn.begin σ).noteRead fun _ => true) := by
    change (claimPending job worker key nowMs (Jobs.fold _)).run _ = _
    rw [Txn.view_begin, hstatus]
  rw [JobCall.proc, Proc.exec, hrun]
  by_cases hpending : journalStatus σ job = some .pending
  · rw [hpending]
    exact ⟨fun _ => rfl, fun _ => rfl⟩
  · obtain ⟨e, he⟩ := claimPending_of_ne hpending job worker key nowMs
    rw [he]
    exact ⟨fun h => (by cases h), fun h => absurd h hpending⟩

namespace Worlds

theorem jobStatus_eq_pending {w : Worlds D S} {job : String} :
    w.jobStatus job = some .pending ↔
      ¬ Answered w.store.store job ∧ journalStatus w.jobs.store job = some .pending := by
  rw [jobStatus]
  by_cases hans : Answered w.store.store job
  · rw [if_pos (any_answers_iff.mpr hans)]
    exact ⟨fun h => (by cases h), fun h => absurd hans h.1⟩
  · rw [if_neg fun h => hans (any_answers_iff.mp h)]
    exact ⟨fun h => ⟨hans, h⟩, fun h => h.2⟩

theorem claimsPending_iff_consistent (w : Worlds D S) : w.ClaimsPending ↔ w.Consistent := by
  constructor
  · intro h job hpending
    exact (jobStatus_eq_pending.mp ((h job "" "" 0).mp ((claim_exec _ _ _ _ _).mpr hpending))).1
  · intro h job worker key nowMs
    rw [claimCompaction, claim_exec, jobStatus_eq_pending]
    exact ⟨fun hpending => ⟨h job hpending, hpending⟩, fun hpending => hpending.2⟩

end Worlds

/-! ## Steps of the journal -/

/-- An event above all others sets the status of its job. -/
theorem journalStatus_put_above {σ : Journal} {key : String} {e : JobEvent}
    (habove : ∀ k e', σ.get k = some e' → compare k key = .lt) (job : String) :
    journalStatus (σ.put key e) job =
      if e.jobId = job then some e.status else journalStatus σ job := by
  rw [journalStatus, jobRows, Store.scan_put_above e habove, List.filter_append, List.map_append]
  by_cases hjob : e.jobId = job
  · have hrow : List.filter (fun row : (_ : String) × JobEvent => decide (row.2.jobId = job))
        [⟨key, e⟩] = [⟨key, e⟩] := List.filter_cons_of_pos (decide_eq_true hjob)
    rw [if_pos hjob, hrow, Jobs.fold_eq, List.map_singleton, List.getLast?_concat]
    rfl
  · have hrow : List.filter (fun row : (_ : String) × JobEvent => decide (row.2.jobId = job))
        [⟨key, e⟩] = [] := List.filter_cons_of_neg (by simpa using hjob)
    rw [if_neg hjob, hrow, List.map_nil, List.append_nil]
    rfl

/-- A key of the journal was written by an entry. -/
theorem key_mem_of_get (acts : JobSchedule) {k : String} {e : JobEvent}
    (h : (reachJobs acts).store.get k = some e) :
    k ∈ (reachJobs acts).log.map fun c => c.call.key := by
  rw [(valid_reachJobs acts).store] at h
  obtain ⟨m, c, -, hc, rfl, -⟩ := entry_of_get acts le_rfl h
  exact List.mem_map_of_mem (List.mem_of_getElem? hc)

/-- A step that commits nothing leaves the journal. -/
theorem journal_step_of_log {acts : JobSchedule} {act : Action JobCall}
    (h : ((reachJobs acts).step JobCall.proc act).log = (reachJobs acts).log) :
    ((reachJobs acts).step JobCall.proc act).store = (reachJobs acts).store := by
  have hnext : (reachJobs acts).step JobCall.proc act = reachJobs (acts ++ [act]) :=
    (Sys.run_append JobCall.proc (Sys.init ∅) acts [act]).symm
  rw [hnext, (valid_reachJobs _).store, ← hnext, h, ← (valid_reachJobs acts).store]

/-- A step that commits an entry writes its event, above all others. -/
theorem journal_step_of_commit {acts : JobSchedule} {act : Action JobCall} {c : JobEntry}
    (h : ((reachJobs acts).step JobCall.proc act).log = (reachJobs acts).log ++ [c])
    (hkeys : KeysIncrease ((reachJobs acts).log ++ [c])) (job : String) :
    journalStatus ((reachJobs acts).step JobCall.proc act).store job =
      if c.call.event.jobId = job then some c.call.event.status
      else journalStatus (reachJobs acts).store job := by
  have hnext : (reachJobs acts).step JobCall.proc act = reachJobs (acts ++ [act]) :=
    (Sys.run_append JobCall.proc (Sys.init ∅) acts [act]).symm
  have hc : (reachJobs (acts ++ [act])).log[(reachJobs acts).log.length]? = some c := by
    rw [← hnext, h, List.getElem?_concat_length]
  have hbefore : journalAt (reachJobs (acts ++ [act])).log (reachJobs acts).log.length =
      (reachJobs acts).store := by
    rw [← hnext, h, journalAt, stateAt_append _ _ _ le_rfl, ← (valid_reachJobs acts).store]
  have hafter : ((reachJobs acts).step JobCall.proc act).store =
      (reachJobs acts).store.put c.call.key c.call.event := by
    rw [← hbefore, ← (entry_effect _ hc).1, hnext, (valid_reachJobs _).store, ← hnext, h,
      List.length_append, List.length_singleton]
    rfl
  rw [hafter]
  refine journalStatus_put_above (fun k e hget => ?_) job
  rw [KeysIncrease, List.map_append, List.pairwise_append] at hkeys
  exact hkeys.2.2 k (key_mem_of_get acts hget) _ (List.mem_singleton_self _)

theorem JobCall.requests_iff {call : JobCall} {job : String} :
    call.Requests job ↔ call.event.jobId = job ∧ call.event.status = .pending := by
  cases call with
  | requestCompaction => exact ⟨fun h => ⟨h, rfl⟩, fun h => h.1⟩
  | claimCompaction | failCompaction => exact ⟨fun h => h.elim, fun h => by cases h.2⟩

/-! ## Steps of the store -/

section

variable [Payload D]

/-- A compaction publishes a record of its job. -/
def Call.Records (call : Call D S) (body : TxnM D S (List CommitInfo)) : Prop :=
  match call with
  | .compact _ stream jobId _ _ ulid =>
      ∃ record state, body = publishBody stream record state ulid ∧ record.jobId = jobId
  | _ => True

theorem Call.proc_records (call : Call D S) : call.proc.Bodies call.Records := by
  cases call with
  | compact depth stream jobId build nowMs ulid =>
      refine ofReads_bodies _ fun r => ?_
      cases r with
      | error e => trivial
      | ok events =>
          dsimp only
          cases build events with
          | error e => trivial
          | ok state =>
              dsimp only
              cases events.getLast? with
              | none => trivial
              | some last => exact once_bodies ⟨_, _, rfl, rfl⟩
  | append | appendWithToken | appendAt | commit | fence | fork | trim | trimBelow | purgeBelow
  | deleteStream | publishSnapshot => exact Proc.bodies_of_forall fun _ => trivial

/-- An entry publishes a record of the job that its call answers, or publishes none. -/
theorem entry_records (acts : Schedule D S) {n : Nat} {c : Entry D S}
    (hc : (reach acts).log[n]? = some c) :
    (∃ stream record state ulid, c.body = publishBody stream record state ulid ∧
        c.call.announces = some ulid ∧ record.jobId = c.call.answers) ∨
      (c.call.announces = none ∧ c.call.answers = none) := by
  have hbody := ((valid_reach acts).log n c hc).body
  have hrecords : c.call.Records c.body :=
    ((Sys.valid_run Sys.valid_init fun _ call _ => call.proc_records :
      (reach acts).Valid ∅ Call.Records).log n c hc).body
  cases hcall : c.call with
  | publishSnapshot stream record state ulid =>
      rw [hcall] at hbody
      exact .inl ⟨stream, record, state, ulid, hbody, rfl, rfl⟩
  | compact depth stream jobId build nowMs ulid =>
      rw [hcall] at hrecords
      obtain ⟨record, state, hpublish, hjob⟩ := hrecords
      exact .inl ⟨stream, record, state, ulid, hpublish, rfl, hjob⟩
  | append | appendWithToken | appendAt | commit | fence | fork | trim | trimBelow | purgeBelow
  | deleteStream => exact .inr ⟨rfl, rfl⟩

/-- After an entry, the job of its call is answered, and no other that was not before. -/
theorem answered_entry (acts : Schedule D S) {n : Nat} {c : Entry D S}
    (hc : (reach acts).log[n]? = some c) (job : String) :
    (Answered (stateOf (reach acts).log (n + 1)) job →
        Answered (stateOf (reach acts).log n) job ∨ c.call.answers = some job) ∧
      (c.call.answers = some job → Answered (stateOf (reach acts).log (n + 1)) job) := by
  rcases entry_records acts hc with
    ⟨stream, record, state, ulid, hbody, hann, hjob⟩ | ⟨hann, hjob⟩
  · have hself : (stateOf (reach acts).log (n + 1)).get (.compaction ulid) = some record := by
      rw [get_stateOf_publish acts hc hbody (by simp), published,
        Store.get_put_of_ne _ _ (by simp), Store.get_put_self]
    refine ⟨?_, fun h => ⟨ulid, record, hself, hjob.trans h⟩⟩
    rintro ⟨ulid', record', hget, hjob'⟩
    by_cases hne : ulid' = ulid
    · subst hne
      rw [hself] at hget
      cases hget
      exact .inr (hjob.symm.trans hjob')
    · rw [get_not_announced acts] at hget
      · exact .inl ⟨ulid', record', hget, hjob'⟩
      · rintro ⟨c', hc', hann'⟩
        rw [hc] at hc'
        cases hc'
        rw [hann] at hann'
        exact hne (Option.some.inj hann').symm
  · refine ⟨?_, fun h => by rw [hjob] at h; cases h⟩
    rintro ⟨ulid', record', hget, hjob'⟩
    rw [get_not_announced acts] at hget
    · exact .inl ⟨ulid', record', hget, hjob'⟩
    · rintro ⟨c', hc', hann'⟩
      rw [hc] at hc'
      cases hc'
      rw [hann] at hann'
      cases hann'

theorem store_step_of_log {acts : Schedule D S} {act : Action (Call D S)}
    (h : ((reach acts).step Call.proc act).log = (reach acts).log) :
    ((reach acts).step Call.proc act).store = (reach acts).store := by
  have hnext : (reach acts).step Call.proc act = reach (acts ++ [act]) :=
    (Sys.run_append Call.proc (Sys.init ∅) acts [act]).symm
  rw [hnext, store_reach, ← hnext, h, ← store_reach]

theorem answered_step_of_commit {acts : Schedule D S} {act : Action (Call D S)} {c : Entry D S}
    (h : ((reach acts).step Call.proc act).log = (reach acts).log ++ [c]) (job : String) :
    (Answered ((reach acts).step Call.proc act).store job →
        Answered (reach acts).store job ∨ c.call.answers = some job) ∧
      (c.call.answers = some job → Answered ((reach acts).step Call.proc act).store job) := by
  have hnext : (reach acts).step Call.proc act = reach (acts ++ [act]) :=
    (Sys.run_append Call.proc (Sys.init ∅) acts [act]).symm
  have hc : (reach (acts ++ [act])).log[(reach acts).log.length]? = some c := by
    rw [← hnext, h, List.getElem?_concat_length]
  have hbefore : stateOf (reach (acts ++ [act])).log (reach acts).log.length =
      (reach acts).store := by
    rw [← hnext, h, stateOf, stateAt_append _ _ _ le_rfl, store_reach]
    rfl
  have hafter : stateOf (reach (acts ++ [act])).log ((reach acts).log.length + 1) =
      ((reach acts).step Call.proc act).store := by
    rw [hnext, store_reach, ← hnext, h, List.length_append, List.length_singleton]
  have hentry := answered_entry (acts ++ [act]) hc job
  rwa [hbefore, hafter] at hentry

/-! ## Runs -/

namespace Worlds

/-- The steps of the journal in a schedule. -/
def jobActions (acts : List (WorldsAction D S)) : JobSchedule :=
  acts.filterMap fun
    | .job act => some act
    | .store _ => none

/-- The other steps of a schedule. -/
def storeActions (acts : List (WorldsAction D S)) : Schedule D S :=
  acts.filterMap fun
    | .job _ => none
    | .store act => some act

theorem reached_concat (acts : List (WorldsAction D S)) (act : WorldsAction D S) :
    reached (acts ++ [act]) = (reached acts).step act := List.foldl_concat ..

/-- The journal and the store run on their own. -/
theorem reached_eq (acts : List (WorldsAction D S)) :
    reached acts = ⟨reachJobs (jobActions acts), reach (storeActions acts)⟩ := by
  induction acts using List.reverseRecOn with
  | nil => rfl
  | append_singleton acts act ih =>
      rw [reached_concat, ih]
      cases act with
      | job act => simp [step, jobActions, storeActions, reachJobs, Sys.run]
      | store act => simp [step, jobActions, storeActions, reach, Sys.run]

/-- A step keeps the pending jobs without a record if and only if it is taken in turn. -/
theorem consistent_step {acts : List (WorldsAction D S)} {act : WorldsAction D S}
    (hkeys : KeysIncrease ((reached acts).step act).jobs.log) (h : (reached acts).Consistent) :
    ((reached acts).step act).Consistent ↔ (reached acts).InTurn act := by
  rw [reached_eq] at h hkeys ⊢
  cases act with
  | job act =>
      have hstore : ∀ c, (reach (storeActions acts)).log ≠ (reach (storeActions acts)).log ++ [c] :=
        fun c hc => by simpa using congrArg List.length hc
      rcases Sys.log_step JobCall.proc (reachJobs (jobActions acts)) act with hlog | ⟨c, hlog⟩
      · have hnone : ∀ c, ((reachJobs (jobActions acts)).step JobCall.proc act).log ≠
            (reachJobs (jobActions acts)).log ++ [c] :=
          fun c hc => by simpa using congrArg List.length (hlog.symm.trans hc)
        refine ⟨fun _ => ⟨fun c _ hc => absurd hc (hstore c), fun c _ hc => absurd hc (hnone c)⟩,
          fun _ job hpending => ?_⟩
        rw [step, journal_step_of_log hlog] at hpending
        exact h job hpending
      · have hstatus := journal_step_of_commit hlog (hlog ▸ hkeys)
        constructor
        · refine fun hnext => ⟨fun c _ hc => absurd hc (hstore c), fun c' job hc hrequests => ?_⟩
          obtain ⟨-, hcc⟩ := List.append_inj' (hlog.symm.trans hc) rfl
          obtain rfl := List.singleton_inj.mp hcc
          obtain ⟨hjob, hevent⟩ := JobCall.requests_iff.mp hrequests
          refine hnext job ?_
          rw [step, hstatus job, if_pos hjob, hevent]
        · intro hturn job hpending
          rw [step, hstatus job] at hpending
          by_cases hjob : c.call.event.jobId = job
          · rw [if_pos hjob] at hpending
            exact hturn.requests c job hlog
              (JobCall.requests_iff.mpr ⟨hjob, Option.some.inj hpending⟩)
          · rw [if_neg hjob] at hpending
            exact h job hpending
  | store act =>
      have hjobs : ∀ c, (reachJobs (jobActions acts)).log ≠
          (reachJobs (jobActions acts)).log ++ [c] :=
        fun c hc => by simpa using congrArg List.length hc
      rcases Sys.log_step Call.proc (reach (storeActions acts)) act with hlog | ⟨c, hlog⟩
      · have hnone : ∀ c, ((reach (storeActions acts)).step Call.proc act).log ≠
            (reach (storeActions acts)).log ++ [c] :=
          fun c hc => by simpa using congrArg List.length (hlog.symm.trans hc)
        refine ⟨fun _ => ⟨fun c _ hc => absurd hc (hnone c), fun c _ hc => absurd hc (hjobs c)⟩,
          fun _ job hpending => ?_⟩
        rw [step, store_step_of_log hlog]
        exact h job hpending
      · have hanswered := answered_step_of_commit hlog
        constructor
        · refine fun hnext => ⟨fun c' job hc hanswers hpending => ?_,
            fun c _ hc => absurd hc (hjobs c)⟩
          obtain ⟨-, hcc⟩ := List.append_inj' (hlog.symm.trans hc) rfl
          obtain rfl := List.singleton_inj.mp hcc
          exact hnext job hpending ((hanswered job).2 hanswers)
        · intro hturn job hpending hans
          rcases (hanswered job).1 hans with hbefore | hanswers
          · exact h job hpending hbefore
          · exact hturn.answers c job hlog hanswers hpending

end Worlds

/-- A schedule has increased the keys if a longer one has. -/
theorem KeysIncrease.of_reached {acts later : List (WorldsAction D S)}
    (h : KeysIncrease (Worlds.reached (acts ++ later)).jobs.log) :
    KeysIncrease (Worlds.reached acts).jobs.log := by
  rw [Worlds.reached_eq] at h ⊢
  have hpre : (reachJobs (Worlds.jobActions acts)).log <+:
      (reachJobs (Worlds.jobActions (acts ++ later))).log := by
    have happend : Worlds.jobActions (acts ++ later) =
        Worlds.jobActions acts ++ Worlds.jobActions later := List.filterMap_append
    rw [happend, reachJobs, reachJobs, Sys.run_append]
    exact Sys.log_run _ _ _
  exact h.sublist (hpre.sublist.map _)

/-- In every schedule with journal keys in increasing order, a claim succeeds in every
state exactly on the jobs that are pending, if and only if every step commits its record
or its request in turn. -/
theorem claims_pending_iff (acts : List (WorldsAction D S))
    (hkeys : KeysIncrease (Worlds.reached acts).jobs.log) :
    (∀ before after, acts = before ++ after → (Worlds.reached before).ClaimsPending) ↔
      ∀ before act after, acts = before ++ act :: after → (Worlds.reached before).InTurn act := by
  have hnext : ∀ {before act after}, acts = before ++ act :: after →
      KeysIncrease ((Worlds.reached before).step act).jobs.log := by
    intro before act after hacts
    rw [hacts, List.append_cons] at hkeys
    rw [← Worlds.reached_concat]
    exact hkeys.of_reached
  simp only [Worlds.claimsPending_iff_consistent]
  constructor
  · intro h before act after hacts
    refine (Worlds.consistent_step (hnext hacts) (h before _ hacts)).mp ?_
    rw [← Worlds.reached_concat]
    exact h (before ++ [act]) after (by simp [hacts])
  · intro h before
    induction before using List.reverseRecOn with
    | nil =>
        rintro after - job - ⟨ulid, record, hget, -⟩
        cases hget
    | append_singleton before act ih =>
        intro after hacts
        have hacts' : acts = before ++ act :: after := by simp [hacts]
        rw [Worlds.reached_concat]
        exact (Worlds.consistent_step (hnext hacts') (ih _ hacts')).mpr (h before act after hacts')

/-! ## Checking a schedule -/

instance (σ : Db D S) (job : String) : Decidable (Answered σ job) :=
  decidable_of_iff _ any_answers_iff

instance (log : List JobEntry) : Decidable (KeysIncrease log) :=
  inferInstanceAs (Decidable (List.Pairwise _ _))

instance (call : JobCall) (job : String) : Decidable (call.Requests job) :=
  decidable_of_iff _ JobCall.requests_iff.symm

/-- What a list has gained, if it gained at most one element. -/
theorem mem_drop_length {α : Type} {l l' : List α} (h : l' = l ∨ ∃ a, l' = l ++ [a]) {a : α} :
    a ∈ l'.drop l.length ↔ l' = l ++ [a] := by
  rcases h with rfl | ⟨b, rfl⟩
  · rw [List.drop_length]
    exact ⟨fun h => absurd h List.not_mem_nil, fun h => by simpa using congrArg List.length h⟩
  · rw [List.drop_left, List.mem_singleton]
    constructor
    · rintro rfl
      rfl
    · intro h
      exact (List.singleton_inj.mp (List.append_cancel_left h)).symm

namespace Worlds

theorem store_log_step (w : Worlds D S) (act : WorldsAction D S) :
    (w.step act).store.log = w.store.log ∨ ∃ c, (w.step act).store.log = w.store.log ++ [c] := by
  cases act with
  | job act => exact .inl rfl
  | store act => exact Sys.log_step _ _ _

theorem jobs_log_step (w : Worlds D S) (act : WorldsAction D S) :
    (w.step act).jobs.log = w.jobs.log ∨ ∃ c, (w.step act).jobs.log = w.jobs.log ++ [c] := by
  cases act with
  | job act => exact Sys.log_step _ _ _
  | store act => exact .inl rfl

theorem inTurn_iff (w : Worlds D S) (act : WorldsAction D S) :
    w.InTurn act ↔
      (∀ c ∈ (w.step act).store.log.drop w.store.log.length, ∀ job ∈ c.call.answers,
        journalStatus w.jobs.store job ≠ some .pending) ∧
      ∀ c ∈ (w.step act).jobs.log.drop w.jobs.log.length,
        c.call.Requests c.call.event.jobId → ¬ Answered w.store.store c.call.event.jobId := by
  constructor
  · intro h
    refine ⟨fun c hc job hjob => ?_, fun c hc hjob => ?_⟩
    · exact h.answers c job ((mem_drop_length (w.store_log_step act)).mp hc) hjob
    · exact h.requests c _ ((mem_drop_length (w.jobs_log_step act)).mp hc) hjob
  · intro h
    refine ⟨fun c job hc hjob => ?_, fun c job hc hjob => ?_⟩
    · exact h.1 c ((mem_drop_length (w.store_log_step act)).mpr hc) job hjob
    · obtain rfl := (JobCall.requests_iff.mp hjob).1
      exact h.2 c ((mem_drop_length (w.jobs_log_step act)).mpr hc) hjob

instance (w : Worlds D S) (act : WorldsAction D S) : Decidable (w.InTurn act) :=
  decidable_of_iff _ (w.inTurn_iff act).symm

end Worlds

end

end

/-! ## A job without a claim -/

/-- A call of one client, with nothing in its way. -/
def wholly (act : Action JobCall ⊕ Action (Call Bytes Unit)) (steps : Nat) :
    List (WorldsAction Bytes Unit) :=
  match act with
  | .inl act => .job act :: List.replicate steps (.job (.step 0))
  | .inr act => .store act :: List.replicate steps (.store (.step 0))

/-- A compaction of `s` is requested, and claimed if `claims` says so.  Then `s` is
compacted for the job. -/
def completed (claims : Bool) : List (WorldsAction Bytes Unit) :=
  wholly (.inl (.invoke 0 (.requestCompaction "s" "j" "01A" 5))) 3 ++
    (if claims then wholly (.inl (.invoke 0 (.claimCompaction "j" "w" "01B" 6))) 4 else []) ++
    wholly (.inr (.invoke 0 (.append "s" .any [{ eventType := "x", data := [] }]
      fun _ _ => { ulid := "u", nowMs := 5 }))) 12 ++
    wholly (.inr (.invoke 0 (.compact 1 "s" (some "j") (fun _ => .ok ()) 7 "01C"))) 12

/-- If the job is claimed before it is completed, every step is in turn, and claims succeed
exactly on pending jobs all along. -/
theorem claims_pending_claimed :
    (Worlds.reached (completed true)).jobStatus "j" = some .completed ∧
      ∀ before after, completed true = before ++ after →
        (Worlds.reached before).ClaimsPending := by
  refine ⟨by decide +kernel, (claims_pending_iff _ (by decide +kernel)).mpr ?_⟩
  have hall : ∀ i (h : i < (completed true).length),
      (Worlds.reached ((completed true).take i)).InTurn (completed true)[i] := by
    decide +kernel
  intro before act after hacts
  have hi : before.length < (completed true).length := by
    rw [hacts]
    simp
  have h := hall before.length hi
  simpa [hacts] using h

/-- If it is not, the job is completed and a worker still claims it. -/
theorem claims_completed :
    KeysIncrease (Worlds.reached (completed false)).jobs.log ∧
      (Worlds.reached (completed false)).jobStatus "j" = some .completed ∧
      (Worlds.reached (completed false)).claimCompaction "j" "w" "01D" 8 = .ok .done ∧
      ¬ (Worlds.reached (completed false)).ClaimsPending := by
  have hstatus : (Worlds.reached (completed false)).jobStatus "j" = some .completed := by
    decide +kernel
  have hclaim : (Worlds.reached (completed false)).claimCompaction "j" "w" "01D" 8 =
      .ok .done := by
    decide +kernel
  refine ⟨by decide +kernel, hstatus, hclaim, fun h => ?_⟩
  have := (h "j" "w" "01D" 8).mp hclaim
  rw [hstatus] at this
  cases this

end Landslide
