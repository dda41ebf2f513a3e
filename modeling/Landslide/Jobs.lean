import Landslide.Envelope
import Landslide.Txn.Serial

/-!
# The compaction job journal

Compaction jobs are requested, claimed and failed by writing events at `j/jobs/{ulid}`.
The status of a job is that of its last event in key order.  A claim reads the whole
journal and writes in one transaction, so it sees every claim committed before it
(`entry_effect`).

The key order of the journal is the order of the ULIDs and not that of the commits.  A
claim whose key is below that of the request leaves its job pending, and a second worker
claims it too (`claimed_twice`).  If every claim is written above the request of its job,
at most one claim of a job succeeds (`claims_exclusive`).

No other call reads or writes these keys, so the journal is a store of its own here, with
the ULIDs as its keys.
-/

namespace Landslide

open TxnKv Std

/-! ## Events and status -/

/-- One lifecycle transition of a job. -/
inductive JobEvent where
  | requested (jobId stream : String) (tsMs : Int)
  | claimed (jobId worker : String) (tsMs : Int)
  | failed (jobId error : String) (tsMs : Int)
deriving DecidableEq, Repr

def JobEvent.jobId : JobEvent → String
  | .requested jobId _ _ => jobId
  | .claimed jobId _ _ => jobId
  | .failed jobId _ _ => jobId

/-- Derived state of a job. -/
inductive JobStatus where
  | pending
  | claimed (worker : String)
  | completed
  | failed (error : String)
deriving DecidableEq, Repr

/-- The status after an event. -/
def JobEvent.status : JobEvent → JobStatus
  | .requested _ _ _ => .pending
  | .claimed _ worker _ => .claimed worker
  | .failed _ error _ => .failed error

/-- A status as `{:?}` prints it. -/
def JobStatus.debug : Option JobStatus → String
  | none => "None"
  | some .pending => "Some(Pending)"
  | some (.claimed worker) => "Some(Claimed \x7b worker: " ++ worker.quote ++ " \x7d)"
  | some .completed => "Some(Completed)"
  | some (.failed error) => "Some(Failed \x7b error: " ++ error.quote ++ " \x7d)"

/-- `jobs::fold`. -/
def Jobs.fold (events : List JobEvent) : Option JobStatus :=
  events.foldl (fun _ e => some e.status) none

/-! ## Calls -/

/-- The journal: ULID to event. -/
abbrev Journal : Type := Store String fun _ => JobEvent

/-- What a job call returns. -/
inductive JobReply where
  | jobId (id : String)
  | done
deriving DecidableEq, Repr

/-- A transaction over the journal. -/
abbrev JobM (α : Type) : Type := Prog String (fun _ => JobEvent) (Except Error JobReply) α

/-- A job call in progress. -/
abbrev JobProc : Type :=
  Proc String (fun _ => JobEvent) (Except Error JobReply) Unit (Except Error JobReply)

/-- The events of a job, in key order. -/
def jobEvents (jobId : String) : JobM (List JobEvent) := do
  let rows ← .readRange fun _ => true
  return (rows.map (·.2)).filter (·.jobId = jobId)

/-- One event is written, outside any transaction of the caller. -/
def writeJob (key : String) (event : JobEvent) (ok : JobReply) : JobProc :=
  .txn (.write key event) fun
    | .committed () => .ret (.ok ok)
    | .conflict => .ret (.error .backend)
    | .aborted r => .ret r

/-- A pending job is claimed. -/
def claimPending (jobId worker key : String) (nowMs : Int) : Option JobStatus → JobM Unit
  | some .pending => .write key (.claimed jobId worker nowMs)
  | other =>
      .throw (.error (.invalidInput
        ("job '" ++ jobId ++ "' is not claimable: " ++ JobStatus.debug other)))

def claimBody (jobId worker key : String) (nowMs : Int) : JobM Unit := do
  let events ← jobEvents jobId
  claimPending jobId worker key nowMs (Jobs.fold events)

/-- The calls on the journal, with the ULIDs that they draw. -/
inductive JobCall where
  | requestCompaction (stream jobId key : String) (nowMs : Int)
  | claimCompaction (jobId worker key : String) (nowMs : Int)
  | failCompaction (jobId error key : String) (nowMs : Int)
deriving DecidableEq, Repr

namespace JobCall

def proc : JobCall → JobProc
  | .requestCompaction stream jobId key nowMs =>
      writeJob key (.requested jobId stream nowMs) (.jobId jobId)
  | .claimCompaction jobId worker key nowMs =>
      .txn (claimBody jobId worker key nowMs) fun
        | .committed () => .ret (.ok .done)
        | .conflict => .ret (.error .backend)
        | .aborted r => .ret r
  | .failCompaction jobId error key nowMs => writeJob key (.failed jobId error nowMs) .done

/-- The ULID of the event that the call writes. -/
def key : JobCall → String
  | .requestCompaction _ _ key _ => key
  | .claimCompaction _ _ key _ => key
  | .failCompaction _ _ key _ => key

/-- The event that the call writes. -/
def event : JobCall → JobEvent
  | .requestCompaction stream jobId _ nowMs => .requested jobId stream nowMs
  | .claimCompaction jobId worker _ nowMs => .claimed jobId worker nowMs
  | .failCompaction jobId error _ nowMs => .failed jobId error nowMs

/-- The call claims the job. -/
def Claims (job : String) : JobCall → Prop
  | .claimCompaction jobId _ _ _ => jobId = job
  | _ => False

/-- The call requests the job. -/
def Requests (job : String) : JobCall → Prop
  | .requestCompaction _ jobId _ _ => jobId = job
  | _ => False

/-- The transaction body of a call. -/
def body : JobCall → JobM Unit
  | .claimCompaction jobId worker key nowMs => claimBody jobId worker key nowMs
  | call => .write call.key call.event

end JobCall

/-- A schedule of job calls. -/
abbrev JobSchedule : Type := List (Action JobCall)

/-- A committed transaction of a job call. -/
abbrev JobEntry : Type :=
  Commit String (fun _ => JobEvent) (Except Error JobReply) Unit JobCall

/-- The state that a schedule of job calls reaches from an empty journal. -/
def reachJobs (acts : JobSchedule) :
    Sys String (fun _ => JobEvent) (Except Error JobReply) Unit (Except Error JobReply) JobCall :=
  Sys.run JobCall.proc (Sys.init ∅) acts

/-- The journal after the first `n` commits. -/
def journalAt (log : List JobEntry) (n : Nat) : Journal := stateAt ∅ log n

/-! ## The status of a job -/

/-- The rows of a job, in key order. -/
def jobRows (σ : Journal) (job : String) : List ((_ : String) × JobEvent) :=
  (σ.scan fun _ => true).filter fun row => row.2.jobId = job

/-- The status that a claim reads. -/
def journalStatus (σ : Journal) (job : String) : Option JobStatus :=
  Jobs.fold ((jobRows σ job).map (·.2))

theorem Jobs.fold_eq (events : List JobEvent) :
    Jobs.fold events = events.getLast?.map (·.status) := by
  have h : ∀ (events : List JobEvent) (status : Option JobStatus),
      events.foldl (fun _ e => some e.status) status =
        (events.getLast?.map (·.status)).or status := by
    intro events
    induction events with
    | nil => exact fun status => rfl
    | cons e events ih =>
        intro status
        rw [List.foldl_cons, ih, List.getLast?_cons]
        cases events.getLast? with
        | none => rfl
        | some last => rfl
  rw [Jobs.fold, h, Option.or_none]

/-- A job is pending if its last event requests it. -/
theorem journalStatus_eq_pending {σ : Journal} {job : String}
    (h : journalStatus σ job = some .pending) :
    ∃ key stream tsMs, (jobRows σ job).getLast? = some ⟨key, .requested job stream tsMs⟩ := by
  rw [journalStatus, Jobs.fold_eq, List.getLast?_map, Option.map_map] at h
  obtain ⟨⟨key, e⟩, hlast, hstatus⟩ := Option.map_eq_some_iff.mp h
  have hjob : e.jobId = job :=
    of_decide_eq_true (List.mem_filter.mp (List.mem_of_getLast? hlast)).2
  cases e with
  | requested jobId stream tsMs =>
      cases hjob
      exact ⟨key, stream, tsMs, hlast⟩
  | claimed | failed => cases hstatus

theorem mem_jobRows {σ : Journal} {job key : String} {e : JobEvent} :
    ⟨key, e⟩ ∈ jobRows σ job ↔ σ.get key = some e ∧ e.jobId = job := by
  rw [jobRows, List.mem_filter, Store.mem_scan]
  simp

/-- A job with an event above its request is not pending. -/
theorem not_pending_of_above {σ : Journal} {job key : String} {e : JobEvent}
    (hget : σ.get key = some e) (hjob : e.jobId = job)
    (habove : ∀ k stream tsMs, σ.get k = some (.requested job stream tsMs) →
      compare k key = .lt) : journalStatus σ job ≠ some .pending := by
  intro hpending
  obtain ⟨k, stream, tsMs, hlast⟩ := journalStatus_eq_pending hpending
  obtain ⟨init, hinit⟩ := List.getLast?_eq_some_iff.mp hlast
  have hlt : compare k key = .lt :=
    habove k stream tsMs (mem_jobRows.mp (List.mem_of_getLast? hlast)).1
  have hmem : ⟨key, e⟩ ∈ jobRows σ job := mem_jobRows.mpr ⟨hget, hjob⟩
  have hsorted : (jobRows σ job).Pairwise fun a b => compare a.1 b.1 = .lt :=
    (Store.scan_sorted σ _).filter _
  rw [hinit] at hmem hsorted
  -- the last event of the job is at `k`, so `key` is not above it
  rcases List.mem_append.mp hmem with hmem | hmem
  · have hgt := (List.pairwise_append.mp hsorted).2.2 _ hmem _ (List.mem_singleton_self _)
    have := TransCmp.lt_trans hlt hgt
    rw [ReflOrd.compare_self] at this
    cases this
  · cases List.mem_singleton.mp hmem
    rw [ReflOrd.compare_self] at hlt
    cases hlt

/-! ## Entries -/

namespace JobCall

theorem proc_bodies (call : JobCall) : call.proc.Bodies (· = call.body) := by
  cases call with
  | requestCompaction | claimCompaction | failCompaction =>
      refine ⟨rfl, fun o => ?_⟩
      cases o <;> trivial

theorem body_within (call : JobCall) :
    call.body.Within (fun _ => True) (fun _ => False) fun r => ∃ e, r = .error e := by
  cases call with
  | requestCompaction | failCompaction => exact ⟨trivial, trivial⟩
  | claimCompaction jobId worker key nowMs =>
      intro rows
      show Prog.Within _ _ _ (claimPending jobId worker key nowMs _)
      unfold claimPending
      split
      · exact ⟨trivial, trivial⟩
      · exact ⟨_, rfl⟩

/-- A committed call has written its event, and its job was pending if it is a claim. -/
theorem body_run {call : JobCall} {σ : Journal} {t : Txn String fun _ => JobEvent}
    (hr : call.body.run (.begin σ) = .ok ((), t)) :
    t.view = σ.put call.key call.event ∧
      ∀ job, call.Claims job → journalStatus σ job = some .pending := by
  cases call with
  | requestCompaction | failCompaction =>
      cases hr
      exact ⟨rfl, fun _ h => h.elim⟩
  | claimCompaction jobId worker key nowMs =>
      have hstatus : Jobs.fold (((σ.scan fun _ => true).map (·.2)).filter (·.jobId = jobId)) =
          journalStatus σ jobId := by
        rw [List.filter_map]
        rfl
      change (claimPending jobId worker key nowMs (Jobs.fold _)).run
        ((Txn.begin σ).noteRead _) = _ at hr
      rw [Txn.view_begin, hstatus] at hr
      unfold claimPending at hr
      split at hr
      · next hpending =>
        cases hr
        exact ⟨rfl, fun job hjob => hjob ▸ hpending⟩
      · cases hr

end JobCall

theorem valid_reachJobs (acts : JobSchedule) :
    (reachJobs acts).Valid ∅ fun call body => body = call.body :=
  Sys.valid_run Sys.valid_init fun _ call _ => call.proc_bodies

/-- Every entry of a log writes the event of its call, on a journal in which the job is
pending if the call is a claim. -/
theorem entry_effect (acts : JobSchedule) {n : Nat} {c : JobEntry}
    (hc : (reachJobs acts).log[n]? = some c) :
    journalAt (reachJobs acts).log (n + 1) =
        (journalAt (reachJobs acts).log n).put c.call.key c.call.event ∧
      ∀ job, c.call.Claims job →
        journalStatus (journalAt (reachJobs acts).log n) job = some .pending := by
  have hv := valid_reachJobs acts
  have hbody : c.body = c.call.body := (hv.log n c hc).body
  obtain ⟨t, hr, hf⟩ := hv.runs_serially (fun call body h => h ▸ (call.body_within.mono
    (fun _ h => h) (fun _ h => h) fun _ _ => trivial)) hc
  rw [hbody] at hr
  obtain ⟨hview, hpending⟩ := JobCall.body_run hr
  refine ⟨?_, hpending⟩
  rw [journalAt, stateAt_succ hc, ← hf, ← Prog.view_of_run_begin hr, hview]
  rfl

/-! ## Runs -/

/-- No journal key is drawn twice. -/
def UniqueKeys (log : List JobEntry) : Prop :=
  ∀ (m n : Nat) (c d : JobEntry), log[m]? = some c → log[n]? = some d →
    c.call.key = d.call.key → m = n

/-- No job id is drawn twice. -/
def UniqueJobIds (log : List JobEntry) : Prop :=
  ∀ (m n : Nat) (c d : JobEntry) (job : String), log[m]? = some c → log[n]? = some d →
    c.call.Requests job → d.call.Requests job → m = n

/-- Every claim is written above the request of its job. -/
def ClaimsAbove (log : List JobEntry) : Prop :=
  ∀ (n : Nat) (c : JobEntry) (job : String), log[n]? = some c → c.call.Claims job → ∀ k stream tsMs,
    (journalAt log n).get k = some (.requested job stream tsMs) → compare k c.call.key = .lt

/-- An event of the journal was written by an entry. -/
theorem entry_of_get (acts : JobSchedule) {k : String} {e : JobEvent} : ∀ {n : Nat},
    n ≤ (reachJobs acts).log.length → (journalAt (reachJobs acts).log n).get k = some e →
      ∃ (m : Nat) (c : JobEntry), m < n ∧ (reachJobs acts).log[m]? = some c ∧ c.call.key = k ∧
        c.call.event = e
  | 0, _, h => by
      rw [journalAt, stateAt_zero, Store.get_empty] at h
      cases h
  | n + 1, hn, h => by
      obtain ⟨c, hc⟩ : ∃ c, (reachJobs acts).log[n]? = some c := ⟨_, List.getElem?_eq_getElem hn⟩
      rw [(entry_effect acts hc).1] at h
      by_cases hk : k = c.call.key
      · subst hk
        rw [Store.get_put_self] at h
        exact ⟨n, c, Nat.lt_succ_self n, hc, rfl, Option.some.inj h⟩
      · rw [Store.get_put_of_ne _ _ hk] at h
        obtain ⟨m, d, hm, hd⟩ := entry_of_get acts (Nat.le_of_succ_le hn) h
        exact ⟨m, d, Nat.lt_succ_of_lt hm, hd⟩

/-- With unique keys, the event of an entry stays in the journal. -/
theorem get_of_entry {acts : JobSchedule} (hkeys : UniqueKeys (reachJobs acts).log) {m : Nat}
    {c : JobEntry} (hc : (reachJobs acts).log[m]? = some c) {n : Nat} (hmn : m < n)
    (hn : n ≤ (reachJobs acts).log.length) :
    (journalAt (reachJobs acts).log n).get c.call.key = some c.call.event := by
  induction n, hmn using Nat.le_induction with
  | base => rw [(entry_effect acts hc).1, Store.get_put_self]
  | succ n hmn ih =>
      obtain ⟨d, hd⟩ : ∃ d, (reachJobs acts).log[n]? = some d := ⟨_, List.getElem?_eq_getElem hn⟩
      have hne : c.call.key ≠ d.call.key := fun hkey => by
        have := hkeys m n c d hc hd hkey
        omega
      rw [(entry_effect acts hd).1, Store.get_put_of_ne _ _ hne, ih (Nat.le_of_succ_le hn)]

theorem JobCall.requests_of_event {call : JobCall} {job stream : String} {tsMs : Int}
    (h : call.event = .requested job stream tsMs) : call.Requests job := by
  cases call with
  | requestCompaction =>
      cases h
      rfl
  | claimCompaction | failCompaction => cases h

theorem JobCall.Claims.jobId_event {call : JobCall} {job : String} (h : call.Claims job) :
    call.event.jobId = job := by
  cases call with
  | claimCompaction => exact h
  | requestCompaction | failCompaction => exact h.elim

/-- After a claim that is written above the request of its job, the job is not pending. -/
theorem not_pending_of_claimed {acts : JobSchedule} (hkeys : UniqueKeys (reachJobs acts).log)
    (hjobs : UniqueJobIds (reachJobs acts).log) (habove : ClaimsAbove (reachJobs acts).log)
    {m n : Nat} {c : JobEntry} {job : String} (hc : (reachJobs acts).log[m]? = some c)
    (hclaim : c.call.Claims job) (hmn : m < n) (hn : n ≤ (reachJobs acts).log.length) :
    journalStatus (journalAt (reachJobs acts).log n) job ≠ some .pending := by
  refine not_pending_of_above (get_of_entry hkeys hc hmn hn) hclaim.jobId_event ?_
  intro k stream tsMs hget
  obtain ⟨i, d, hi, hd, hkey, hevent⟩ := entry_of_get acts hn hget
  -- the claim found a request of the job, and there is only one
  obtain ⟨k', stream', tsMs', hlast⟩ :=
    journalStatus_eq_pending ((entry_effect acts hc).2 job hclaim)
  have hget' := (mem_jobRows.mp (List.mem_of_getLast? hlast)).1
  obtain ⟨j, d', hj, hd', hkey', hevent'⟩ :=
    entry_of_get acts (hmn.le.trans hn) hget'
  obtain rfl : i = j := hjobs i j d d' job hd hd' (JobCall.requests_of_event hevent)
    (JobCall.requests_of_event hevent')
  rw [hd] at hd'
  cases hd'
  rw [← hkey, hkey']
  exact habove m c job hc hclaim k' stream' tsMs' hget'

/-- If every claim is written above the request of its job, at most one entry claims a
job. -/
theorem claim_entry_unique {acts : JobSchedule} (hkeys : UniqueKeys (reachJobs acts).log)
    (hjobs : UniqueJobIds (reachJobs acts).log) (habove : ClaimsAbove (reachJobs acts).log)
    {m n : Nat} {c d : JobEntry} {job : String} (hc : (reachJobs acts).log[m]? = some c)
    (hd : (reachJobs acts).log[n]? = some d) (hclaim : c.call.Claims job)
    (hclaim' : d.call.Claims job) : m = n := by
  have hm := (List.getElem?_eq_some_iff.mp hc).1
  have hn := (List.getElem?_eq_some_iff.mp hd).1
  rcases Nat.lt_trichotomy m n with hlt | heq | hgt
  · exact absurd ((entry_effect acts hd).2 job hclaim')
      (not_pending_of_claimed hkeys hjobs habove hc hclaim hlt hn.le)
  · exact heq
  · exact absurd ((entry_effect acts hc).2 job hclaim)
      (not_pending_of_claimed hkeys hjobs habove hd hclaim' hgt hm.le)

/-- The result of a committed call. -/
def JobCall.ok : JobCall → Unit → Except Error JobReply
  | .requestCompaction _ jobId _ _, _ => .ok (.jobId jobId)
  | _, _ => .ok .done

theorem JobCall.proc_oneShot (call : JobCall) :
    call.proc.OneShot call.ok fun r => ∃ e, r = .error e := by
  have hbody := call.body_within.mono (fun _ h => h) (fun _ _ => trivial) fun _ h => h
  cases call with
  | requestCompaction | claimCompaction | failCompaction =>
      exact ⟨fun _ => rfl, ⟨_, rfl⟩, hbody⟩

/-- In every schedule of requests, claims and failures with unique ULIDs, in which every
claim is written above the request of its job, at most one call that claims a job
succeeds. -/
theorem claims_exclusive (acts : JobSchedule) (hkeys : UniqueKeys (reachJobs acts).log)
    (hjobs : UniqueJobIds (reachJobs acts).log) (habove : ClaimsAbove (reachJobs acts).log)
    (job : String) : ∀ r ∈ (reachJobs acts).returned, ∀ r' ∈ (reachJobs acts).returned,
      r.call.Claims job → r.result.isOk = true → r'.call.Claims job → r'.result.isOk = true →
        r.id = r'.id := by
  have hreplies : (reachJobs acts).Replies (fun _ => True) JobCall.ok
      fun _ r => ∃ e, r = .error e :=
    Sys.replies_run (fun call _ => call.proc_oneShot) Sys.replies_init acts
  have committed : ∀ r ∈ (reachJobs acts).returned, r.result.isOk = true →
      ∃ (n : Nat) (c : JobEntry), (reachJobs acts).log[n]? = some c ∧ c.id = r.id ∧
        c.call = r.call := by
    intro r hr hok
    rcases hreplies.returned r hr trivial with ⟨⟨e, hbad⟩, -⟩ | ⟨c, hc, hid, hcall, -⟩
    · rw [hbad] at hok
      cases hok
    · obtain ⟨n, hn⟩ := List.mem_iff_getElem?.mp hc
      exact ⟨n, c, hn, hid, hcall⟩
  intro r hr r' hr' hclaim hok hclaim' hok'
  obtain ⟨m, c, hc, hid, hcall⟩ := committed r hr hok
  obtain ⟨n, d, hd, hid', hcall'⟩ := committed r' hr' hok'
  obtain rfl := claim_entry_unique hkeys hjobs habove hc hd (hcall ▸ hclaim) (hcall' ▸ hclaim')
  rw [hc] at hd
  cases hd
  rw [← hid, hid']

/-! ## Two workers -/

theorem uniqueKeys_of_nodup {log : List JobEntry} (h : (log.map fun c => c.call.key).Nodup) :
    UniqueKeys log := by
  intro m n c d hc hd hkey
  have hm : m < (log.map fun c => c.call.key).length := by
    rw [List.length_map]
    exact (List.getElem?_eq_some_iff.mp hc).1
  refine (List.getElem?_inj hm h).mp ?_
  rw [List.getElem?_map, List.getElem?_map, hc, hd, Option.map_some, Option.map_some, hkey]

/-- A log that requests a job first, and no other after it, has unique job ids. -/
theorem uniqueJobIds_of_first {log : List JobEntry} {call : JobCall} {calls : List JobCall}
    (hlog : log.map (fun c => c.call) = call :: calls)
    (hcalls : ∀ d ∈ calls, ∀ job, ¬ d.Requests job) : UniqueJobIds log := by
  have first : ∀ {n : Nat} {c : JobEntry} {job : String}, log[n]? = some c →
      c.call.Requests job → n = 0 := by
    intro n c job hc hreq
    have hget : (call :: calls)[n]? = some c.call := by
      rw [← hlog, List.getElem?_map, hc]
      rfl
    cases n with
    | zero => rfl
    | succ n => exact absurd hreq (hcalls c.call (List.mem_of_getElem? hget) job)
  intro m n c d job hc hd hreq hreq'
  rw [first hc hreq, first hd hreq']

/-- A job is requested at `01B`.  Worker `a` claims it with a key of its own, and then
worker `b`. -/
def twoWorkers (key : String) : JobSchedule :=
  .invoke 0 (.requestCompaction "s" "j" "01B" 5) :: List.replicate 3 (.step 0) ++
    .invoke 1 (.claimCompaction "j" "a" key 5) :: List.replicate 4 (.step 1) ++
      .invoke 2 (.claimCompaction "j" "b" "01D" 6) :: List.replicate 4 (.step 2)

/-- With a key above that of the request, only the claim of `a` succeeds. -/
theorem claims_exclusive_above :
    (reachJobs (twoWorkers "01C")).returned.map (fun r => r.result.isOk) = [true, true, false] ∧
      ∀ r ∈ (reachJobs (twoWorkers "01C")).returned,
        ∀ r' ∈ (reachJobs (twoWorkers "01C")).returned, r.call.Claims "j" →
          r.result.isOk = true → r'.call.Claims "j" → r'.result.isOk = true → r.id = r'.id := by
  have hlog : (reachJobs (twoWorkers "01C")).log.map (fun c => c.call) =
      [.requestCompaction "s" "j" "01B" 5, .claimCompaction "j" "a" "01C" 5] := by decide
  refine ⟨by decide, claims_exclusive _ (uniqueKeys_of_nodup (by decide))
    (uniqueJobIds_of_first hlog fun d hd job => ?_) ?_ "j"⟩
  · rw [List.mem_singleton.mp hd]
    exact id
  · intro n c job hc hclaim k stream tsMs hget
    have hcall : ∀ {n : Nat} {c : JobEntry}, (reachJobs (twoWorkers "01C")).log[n]? = some c →
        [JobCall.requestCompaction "s" "j" "01B" 5, .claimCompaction "j" "a" "01C" 5][n]? =
          some c.call := by
      intro n c hc
      rw [← hlog, List.getElem?_map, hc]
      rfl
    have hn := (List.getElem?_eq_some_iff.mp hc).1
    obtain ⟨m, d, hm, hd, rfl, hevent⟩ := entry_of_get _ hn.le hget
    have hc' := hcall hc
    have hd' := hcall hd
    cases n with
    | zero => exact absurd hm (Nat.not_lt_zero m)
    | succ n =>
        cases n with
        | zero =>
            obtain rfl : m = 0 := Nat.lt_one_iff.mp hm
            rw [← Option.some.inj hc', ← Option.some.inj hd']
            decide
        | succ n => cases hc'

/-- With a key below that of the request, the job stays pending and both claims
succeed. -/
theorem claimed_twice :
    UniqueKeys (reachJobs (twoWorkers "01A")).log ∧
      UniqueJobIds (reachJobs (twoWorkers "01A")).log ∧
      (reachJobs (twoWorkers "01A")).returned =
        [⟨0, .requestCompaction "s" "j" "01B" 5, .ok (.jobId "j")⟩,
          ⟨1, .claimCompaction "j" "a" "01A" 5, .ok .done⟩,
          ⟨2, .claimCompaction "j" "b" "01D" 6, .ok .done⟩] := by
  have hlog : (reachJobs (twoWorkers "01A")).log.map (fun c => c.call) =
      [.requestCompaction "s" "j" "01B" 5, .claimCompaction "j" "a" "01A" 5,
        .claimCompaction "j" "b" "01D" 6] := by decide
  refine ⟨uniqueKeys_of_nodup (by decide), uniqueJobIds_of_first hlog ?_, by decide⟩
  intro d hd job
  rcases List.mem_pair.mp hd with rfl | rfl
  · exact id
  · exact id

end Landslide
