import Landslide.Fencing

/-!
# The global sequence

The counter `g/seq` is read in the snapshot of a transaction and written back
without conflict detection, so the last committer wins and the counter can move
backwards.  A stream that appends after that is handed numbers it has already
passed (`sequences_increase_fails_on_overlap`).

The counter is sound as long as no transaction writes back a number below the
stored one.  Then it bounds every committed record, and within each stream the
sequence increases with the version.
-/

namespace Landslide

open TxnKv Std

section

variable {D S : Type}

/-- The stored sequence is at least that of every record. -/
def SeqBounded (σ : Db D S) : Prop :=
  ∀ stream v (env : Envelope D), σ.get (.record stream v) = some env → env.seq ≤ seqOf σ

/-- Within each stream the sequence strictly increases with the version. -/
def SeqIncreasing (σ : Db D S) : Prop :=
  ∀ stream v w (env env' : Envelope D), v < w → σ.get (.record stream v) = some env →
    σ.get (.record stream w) = some env' → env.seq < env'.seq

/-- How many numbers the transaction of a call takes from the counter. -/
def Call.taken : Call D S → Nat
  | .publishSnapshot .. => 1
  | .compact .. => 1
  | call => (call.appends.map (·.events.length)).sum

/-- No transaction of the log stores a number below the stored one: at its
commit the counter has not passed what it counted to from its snapshot. -/
def NeverBehind (log : List (Entry D S)) : Prop :=
  ∀ n c, log[n]? = some c → c.call.Stamps →
    seqOf (stateOf log n) ≤ seqOf (stateOf log c.start) + c.call.taken

/-! ## One stream -/

/-- The records of a stream lie below its tail and have sequences up to `bound`
that increase with the version. -/
structure Ordered (stream : String) (bound : Nat) (σ : Db D S) : Prop where
  below : ∀ v (env : Envelope D), σ.get (.record stream v) = some env → v < nextVersion σ stream
  bound : ∀ v (env : Envelope D), σ.get (.record stream v) = some env → env.seq ≤ bound
  increasing : ∀ v w (env env' : Envelope D), v < w → σ.get (.record stream v) = some env →
    σ.get (.record stream w) = some env' → env.seq < env'.seq

namespace Ordered

variable {stream : String} {b b' : Nat} {σ σ' : Db D S}

theorem mono (h : Ordered stream b σ) (hb : b ≤ b') : Ordered stream b' σ :=
  ⟨h.below, fun v env hv => (h.bound v env hv).trans hb, h.increasing⟩

theorem congr (h : Ordered stream b σ) (hnext : nextVersion σ stream ≤ nextVersion σ' stream)
    (hrec : ∀ v, σ'.get (.record stream v) = σ.get (.record stream v)) :
    Ordered stream b σ' where
  below := fun v env hv => (h.below v env (hrec v ▸ hv)).trans_le hnext
  bound := fun v env hv => h.bound v env (hrec v ▸ hv)
  increasing := fun v w env env' hvw hv hw =>
    h.increasing v w env env' hvw (hrec v ▸ hv) (hrec w ▸ hw)

/-- A state with the same tail and the same records below it. -/
theorem of_below (h : Ordered stream b σ) (hnext : nextVersion σ' stream = nextVersion σ stream)
    (hrec : ∀ v, v < nextVersion σ stream →
      σ'.get (.record stream v) = σ.get (.record stream v))
    (hbelow : ∀ v (env : Envelope D), σ'.get (.record stream v) = some env →
      v < nextVersion σ' stream) : Ordered stream b σ' := by
  have back : ∀ v (env : Envelope D), σ'.get (.record stream v) = some env →
      σ.get (.record stream v) = some env := by
    intro v env hv
    rw [← hrec v (by rw [← hnext]; exact hbelow v env hv)]
    exact hv
  exact ⟨hbelow, fun v env hv => h.bound v env (back v env hv), fun v w env env' hvw hv hw =>
    h.increasing v w env env' hvw (back v env hv) (back w env' hw)⟩

theorem empty : Ordered stream b (∅ : Db D S) := by
  constructor <;> simp

end Ordered

/-- A record after an append is an old one or one of the batch. -/
theorem Appended.record_cases {req : AppendReq D} {seq : Nat} {σ σ' : Db D S}
    {info : CommitInfo} (h : Appended req seq σ info σ') {v : Nat} {env : Envelope D}
    (hv : σ'.get (.record req.stream v) = some env) :
    σ.get (.record req.stream v) = some env ∨
      env.version = v ∧
        ∃ i, i < req.events.length ∧ v = info.firstVersion + i ∧ env.seq = seq + 1 + i := by
  by_cases hin : info.firstVersion ≤ v ∧ v ≤ info.lastVersion
  · have hlast := h.last
    have hi : v - info.firstVersion < req.events.length := by omega
    obtain ⟨env', h₁, -, h₃, h₄⟩ := h.records (v - info.firstVersion) _
      (List.getElem?_eq_getElem hi)
    rw [Nat.add_sub_cancel' hin.1, hv] at h₁
    cases h₁
    rw [Nat.add_sub_cancel' hin.1] at h₃
    exact .inr ⟨h₃, v - info.firstVersion, hi, by omega, by rw [h₄, h.start]⟩
  · refine .inl ?_
    rw [← h.frame (.record req.stream v) (by simp) ?_ (by simp)]
    · exact hv
    · rintro w hw₁ hw₂ hk
      cases hk
      exact hin ⟨hw₁, hw₂⟩

/-- An append keeps every stream ordered, up to the cursor it ends with. -/
theorem Appended.ordered {req : AppendReq D} {seq : Nat} {σ σ' : Db D S} {info : CommitInfo}
    (h : Appended req seq σ info σ') (hfrom : req.fromVersion = none) {stream : String}
    (ho : Ordered stream seq σ) : Ordered stream (seq + req.events.length) σ' := by
  by_cases hs : req.stream = stream
  swap
  · refine (ho.congr (nextVersion_congr (h.frame _ ?_ (by simp) (by simp))).ge fun v =>
      h.frame _ (by simp) ?_ (by simp)).mono (Nat.le_add_right _ _)
    · simp [Ne.symm hs]
    · simp [Ne.symm hs]
  subst hs
  obtain ⟨hfirst, htail⟩ := h.nextVersion_eq hfrom
  have hlast := h.last
  have hnext : nextVersion σ' req.stream = info.lastVersion + 1 := by simp [nextVersion, htail]
  refine ⟨?_, ?_, ?_⟩
  · intro v env hv
    rw [hnext]
    rcases h.record_cases hv with hold | ⟨-, i, hi, hvi, -⟩
    · have := ho.below v env hold
      omega
    · omega
  · intro v env hv
    rcases h.record_cases hv with hold | ⟨-, i, hi, -, hseq⟩
    · have := ho.bound v env hold
      omega
    · omega
  · intro v w env env' hvw hv hw
    rcases h.record_cases hv with hold | ⟨-, i, hi, hvi, hseq⟩ <;>
      rcases h.record_cases hw with hold' | ⟨-, j, hj, hwj, hseq'⟩
    · exact ho.increasing v w env env' hvw hold hold'
    · have := ho.bound v env hold
      omega
    · have := ho.below w env' hold'
      omega
    · omega

theorem Replayed.ordered {reqs : List (Req D)} {seq seq' : Nat} {σ σ' : Db D S}
    {infos : List CommitInfo} (h : Replayed reqs seq σ infos seq' σ') (hreqs : AtTail reqs)
    {stream : String} (ho : Ordered stream seq σ) : Ordered stream seq' σ' := by
  induction h with
  | nil => exact ho
  | @append req reqs seq seq' σ σ₁ σ' info infos happ _ ih =>
      exact ih (fun r hr => hreqs r (List.mem_cons_of_mem _ hr))
        (happ.ordered (hreqs req List.mem_cons_self) ho)
  | @fence s token reqs seq seq' σ σ' infos _ ih =>
      exact ih (fun r hr => hreqs r (List.mem_cons_of_mem _ hr))
        (ho.congr (nextVersion_congr (get_fenced_of_ne _ _ _ (by simp))).ge fun _ =>
          get_fenced_of_ne _ _ _ (by simp))

/-- The cursor moves by the number of events. -/
theorem Replayed.seq_eq {reqs : List (Req D)} {seq seq' : Nat} {σ σ' : Db D S}
    {infos : List CommitInfo} (h : Replayed reqs seq σ infos seq' σ') :
    seq' = seq + ((reqs.filterMap Req.append?).map (·.events.length)).sum := by
  induction h with
  | nil => rfl
  | append _ _ ih => simp [Req.append?, ih, Nat.add_assoc]
  | fence _ ih => exact ih

/-- Requests without an append to a stream leave its records alone. -/
theorem Replayed.frame_stream {reqs : List (Req D)} {seq seq' : Nat} {σ σ' : Db D S}
    {infos : List CommitInfo} (h : Replayed reqs seq σ infos seq' σ') {stream : String}
    (hnone : onStream stream (reqAcks reqs infos) = []) (v : Nat) :
    σ'.get (.record stream v) = σ.get (.record stream v) := by
  induction h with
  | nil => rfl
  | @append req reqs seq seq' σ σ₁ σ' info infos happ _ ih =>
      have hacks : reqAcks (.append req :: reqs) (info :: infos) =
          [(req, info)] ++ reqAcks reqs infos := rfl
      rw [hacks, onStream_append, List.append_eq_nil_iff] at hnone
      have hs : stream ≠ req.stream := by
        rintro rfl
        simp [onStream] at hnone
      refine (ih hnone.2).trans (happ.frame _ (by simp) ?_ (by simp))
      simp [hs]
  | @fence s token reqs seq seq' σ σ' infos _ ih =>
      exact (ih hnone).trans (get_fenced_of_ne _ _ _ (by simp))

/-! ## One transaction -/

/-- A transaction that stamps the sequence adds what it takes to the one it read. -/
theorem Call.Effect.seq_eq {call : Call D S} {σ σ' : Db D S} {infos : List CommitInfo}
    (h : call.Effect σ infos σ') (hs : call.Stamps) : seqOf σ' = seqOf σ + call.taken := by
  have stamped : Stamped call.reqs σ infos σ' →
      seqOf σ' = seqOf σ + (call.appends.map (·.events.length)).sum := by
    rintro ⟨seq', σ₁, hr, rfl⟩
    rw [seqOf, Store.get_put_self]
    exact hr.seq_eq
  cases call with
  | append | appendWithToken | appendAt | commit => exact stamped h
  | publishSnapshot => cases h; simp [published, seqOf, Call.taken]
  | compact => obtain ⟨record, state, rfl⟩ := h; simp [published, seqOf, Call.taken]
  | fence | fork | trim | trimBelow | purgeBelow | deleteStream => exact hs.elim

/-- A transaction without an append to a stream leaves its records alone. -/
theorem Call.Effect.record_eq {call : Call D S} {σ σ' : Db D S} {infos : List CommitInfo}
    (h : call.Effect σ infos σ') (hcall : call.KeepsRecords) {stream : String}
    (hnone : onStream stream (call.appends.zip infos) = []) (v : Nat) :
    σ'.get (.record stream v) = σ.get (.record stream v) := by
  have stamped : Stamped call.reqs σ infos σ' →
      σ'.get (.record stream v) = σ.get (.record stream v) := by
    rintro ⟨seq', σ₁, hr, rfl⟩
    rw [Store.get_put_of_ne _ _ (by simp)]
    exact hr.frame_stream hnone v
  have published_eq : ∀ s record state ulid, σ' = published σ s record state ulid →
      σ'.get (.record stream v) = σ.get (.record stream v) := by
    rintro s record state ulid rfl
    exact get_published_of_ne (by simp) (by simp) (by simp)
  cases call with
  | append | appendWithToken | commit => exact stamped h
  | appendAt | purgeBelow => exact hcall.elim
  | fence s token => cases h; exact get_fenced_of_ne _ _ _ (by simp)
  | fork parent atVersion child =>
      obtain ⟨parentTail, -, -, -, rfl⟩ := h
      exact get_forked_of_ne (by simp) (by simp) (by simp)
  | trim | trimBelow => cases h; exact Store.get_put_of_ne _ _ (by simp)
  | deleteStream => obtain ⟨-, rfl⟩ := h; exact Store.get_put_of_ne _ _ (by simp)
  | publishSnapshot s record state ulid => exact published_eq s record state ulid h
  | compact depth s jobId build nowMs ulid =>
      obtain ⟨record, state, h⟩ := h
      exact published_eq s record state ulid h

/-! ## Along the log -/

/-- A committed transaction keeps the records below the tail, and the tail does
not move back. -/
theorem Call.Effect.old {call : Call D S} {σ σ' : Db D S} {infos : List CommitInfo}
    (h : call.Effect σ infos σ') (hcall : call.KeepsRecords) (stream : String) :
    nextVersion σ stream ≤ nextVersion σ' stream ∧ ∀ v, v < nextVersion σ stream →
      σ'.get (.record stream v) = σ.get (.record stream v) := by
  by_cases hnew : call.Creates stream
  · cases call with
    | fork parent atVersion child =>
        obtain rfl : child = stream := hnew
        obtain ⟨parentTail, -, -, htail, rfl⟩ := h
        have hzero : nextVersion σ child = 0 := by simp [nextVersion, tailVersion, htail]
        exact ⟨by omega, fun v hv => by omega⟩
    | append | appendWithToken | appendAt | commit | fence | trim | trimBelow | purgeBelow |
      deleteStream | publishSnapshot | compact => exact hnew.elim
  · exact ⟨(h.grows hcall hnew).tiles.le, (h.grows hcall hnew).old⟩

/-- Records below the tail stay through the rest of the log. -/
theorem old_reach [Payload D] {acts : Schedule D S}
    (hacts : ∀ client call, .invoke client call ∈ acts → call.KeepsRecords) (stream : String)
    {i j : Nat} (hij : i ≤ j) (hj : j ≤ (reach acts).log.length) :
    nextVersion (stateOf (reach acts).log i) stream ≤
        nextVersion (stateOf (reach acts).log j) stream ∧
      ∀ v, v < nextVersion (stateOf (reach acts).log i) stream →
        (stateOf (reach acts).log j).get (.record stream v) =
          (stateOf (reach acts).log i).get (.record stream v) := by
  induction j, hij using Nat.le_induction with
  | base => exact ⟨le_rfl, fun _ _ => rfl⟩
  | succ j hij ih =>
      obtain ⟨hle, hold⟩ := ih (Nat.le_of_succ_le hj)
      obtain ⟨c, hc⟩ : ∃ c, (reach acts).log[j]? = some c := ⟨_, List.getElem?_eq_getElem hj⟩
      obtain ⟨σ', heff, hsucc, -⟩ := effect_reach acts hc
      have hcall : c.call.KeepsRecords := call_reach hacts hc
      obtain ⟨hle', hold'⟩ := heff.old hcall stream
      rw [nextVersion_congr (get_viewOf (by simp))] at hle' hold'
      have htail := nextVersion_congr (hsucc (.tail stream) (by simp))
      refine ⟨by omega, fun v hv => ?_⟩
      rw [hsucc _ (by simp), hold' v (by omega), get_viewOf (by simp), hold v hv]

/-- Only an appending call has appends to a stream. -/
theorem appends_of_told {c : Entry D S} {stream : String} (h : onStream stream (told c) ≠ []) :
    c.call.Appends := by
  by_contra happ
  exact h (by rw [told, Call.appends_eq_nil happ]; rfl)

theorem Call.Appends.not_creates {call : Call D S} (h : call.Appends) {stream : String} :
    ¬ call.Creates stream := by
  cases call with
  | append | appendWithToken | appendAt | commit => exact id
  | fence | fork | trim | trimBelow | purgeBelow | deleteStream | publishSnapshot | compact =>
      exact h.elim

/-- A transaction that appended to a stream found it as it was at its begin. -/
theorem tail_at_start [Payload D] {acts : Schedule D S}
    (hacts : ∀ client call, .invoke client call ∈ acts → call.KeepsRecords) {n : Nat}
    {c : Entry D S} (hc : (reach acts).log[n]? = some c) {stream : String}
    (hon : onStream stream (told c) ≠ []) :
    (stateOf (reach acts).log n).get (.tail stream) =
      (stateOf (reach acts).log c.start).get (.tail stream) := by
  have hv := valid_reach acts
  have hcall : c.call.KeepsRecords := call_reach hacts hc
  have hnew : ¬ c.call.Creates stream := (appends_of_told hon).not_creates
  -- the tail moved, so the transaction wrote it, and writes are checked for conflicts
  have hw : c.foot.Writes (.tail stream) := by
    by_contra hnw
    have hsame : nextVersion (stateOf (reach acts).log (n + 1)) stream =
        nextVersion (stateOf (reach acts).log n) stream :=
      nextVersion_congr (Commit.get_stateAt_succ_of_not_writes hc hnw)
    obtain ⟨σ', heff, hsucc, -⟩ := effect_reach acts hc
    have htiles := (heff.grows hcall hnew).tiles
    rw [nextVersion_congr (get_viewOf (by simp)),
      ← nextVersion_congr (hsucc (.tail stream) (by simp))] at htiles
    rw [hsame] at htiles
    exact hon (List.map_eq_nil_iff.mp htiles.eq_nil)
  exact get_stateAt_of_free (fun _ _ => Call.Body.within) hv.log hc (by simp) (.inr hw) n
    (hv.log n c hc).start_le le_rfl

/-- While no transaction falls behind, the counter does not move back. -/
theorem seqOf_le_succ [Payload D] {acts : Schedule D S} (hseq : NeverBehind (reach acts).log)
    {n : Nat} {c : Entry D S} (hc : (reach acts).log[n]? = some c) :
    seqOf (stateOf (reach acts).log n) ≤ seqOf (stateOf (reach acts).log (n + 1)) := by
  by_cases hs : c.call.Stamps
  · obtain ⟨σ', heff, -, hstamp⟩ := effect_reach acts hc
    have hafter : seqOf (stateOf (reach acts).log (n + 1)) = seqOf σ' := by
      rw [seqOf, hstamp hs, seqOf]
    rw [hafter, heff.seq_eq hs, seqOf_viewOf]
    exact hseq n c hc hs
  · rw [seqOf, seqOf, seq_reach acts hc hs]

/-- While no transaction falls behind, every stream is ordered up to the stored
sequence. -/
theorem ordered_reach [Payload D] {acts : Schedule D S}
    (hacts : ∀ client call, .invoke client call ∈ acts → call.KeepsRecords)
    (hseq : NeverBehind (reach acts).log) : ∀ n, n ≤ (reach acts).log.length → ∀ stream,
      Ordered stream (seqOf (stateOf (reach acts).log n)) (stateOf (reach acts).log n) := by
  intro n
  -- strong induction: a transaction numbers its records from the state it began on
  induction n using Nat.strong_induction_on with
  | _ n ih =>
  cases n with
  | zero => exact fun _ _ => .empty
  | succ n =>
      intro hn stream
      obtain ⟨c, hc⟩ : ∃ c, (reach acts).log[n]? = some c := ⟨_, List.getElem?_eq_getElem hn⟩
      have ihn := ih n (Nat.lt_succ_self n) (Nat.le_of_succ_le hn) stream
      have hcall : c.call.KeepsRecords := call_reach hacts hc
      obtain ⟨σ', heff, hsucc, hstamp⟩ := effect_reach acts hc
      by_cases hon : onStream stream (told c) = []
      · -- the records stay, and the bound can only grow
        refine (ihn.congr (old_reach hacts stream (Nat.le_succ n) hn).1 fun v => ?_).mono
          (seqOf_le_succ hseq hc)
        rw [hsucc _ (by simp), heff.record_eq hcall hon, get_viewOf (by simp)]
      · -- the records found are those of the snapshot, bounded by the number read there
        have happ := appends_of_told hon
        have hstart := ((valid_reach acts).log n c hc).start_le
        have ihs := ih c.start (Nat.lt_succ_of_le hstart) (by omega) stream
        have htail := tail_at_start hacts hc hon
        have hold := (old_reach hacts stream hstart (Nat.le_of_succ_le hn)).2
        have hview : Ordered stream (seqOf (viewOf (reach acts).log n c))
            (viewOf (reach acts).log n c) := by
          rw [seqOf_viewOf]
          refine ihs.of_below ?_ ?_ ?_
          · rw [nextVersion_congr (get_viewOf (by simp)), nextVersion_congr htail]
          · intro v hv
            rw [get_viewOf (by simp), hold v hv]
          · intro v env hv
            rw [get_viewOf (by simp)] at hv
            rw [nextVersion_congr (get_viewOf (by simp))]
            exact ihn.below v env hv
        obtain ⟨seq', σ₁, hr, rfl⟩ := happ.stamped heff
        have hafter : seqOf (stateOf (reach acts).log (n + 1)) = seq' := by
          rw [seqOf, hstamp happ.stamps, Store.get_put_self]
          rfl
        rw [hafter]
        refine (hr.ordered hcall.atTail hview).congr ?_ fun v => ?_
        · refine (nextVersion_congr ?_).ge
          rw [hsucc _ (by simp), Store.get_put_of_ne _ _ (by simp)]
        · rw [hsucc _ (by simp), Store.get_put_of_ne _ _ (by simp)]

/-- In every schedule in which no transaction falls behind the counter, every
state has a counter that bounds its records and streams that are numbered in
order. -/
theorem sequences_increase [Payload D] (acts : Schedule D S)
    (hacts : ∀ client call, .invoke client call ∈ acts → call.KeepsRecords)
    (hseq : NeverBehind (reach acts).log) : ∀ n, n ≤ (reach acts).log.length →
      SeqBounded (stateOf (reach acts).log n) ∧ SeqIncreasing (stateOf (reach acts).log n) := by
  intro n hn
  have ho := ordered_reach hacts hseq n hn
  exact ⟨fun stream => (ho stream).bound, fun stream => (ho stream).increasing⟩

/-- An append of one event. -/
def appendOne (stream : String) : Call Bytes Unit :=
  .append stream .any [{ eventType := "x", data := [] }] fun _ _ => { ulid := "u", nowMs := 5 }

/-- A client alone appends an event: an invocation and nine steps. -/
def appendAlone (client : Nat) (stream : String) : Schedule Bytes Unit :=
  .invoke client (appendOne stream) :: List.replicate 9 (.step client)

theorem sequences_increase_alone :
    (reach (appendAlone 0 "a" ++ appendAlone 1 "a")).log.length = 2 ∧
      SeqIncreasing (stateOf (reach (appendAlone 0 "a" ++ appendAlone 1 "a")).log 2) := by
  have hlen : (reach (appendAlone 0 "a" ++ appendAlone 1 "a")).log.length = 2 := by decide
  refine ⟨hlen, (sequences_increase _ ?_ ?_ 2 hlen.ge).2⟩
  · intro client call h
    simp only [appendAlone, List.cons_append, List.mem_cons, List.mem_append, List.mem_replicate,
      Action.invoke.injEq, reduceCtorEq, and_false, false_or, or_false] at h
    rcases h with ⟨-, rfl⟩ | ⟨-, rfl⟩
    · trivial
    · trivial
  · intro n c hc _
    have hn : n < 2 := hlen ▸ (List.getElem?_eq_some_iff.mp hc).1
    interval_cases n
    · cases hc
      decide
    · cases hc
      decide

/-- One client begins an append to `a` and reads the counter.  Another appends
twice to `b`, the first commits, and the other appends to `b` again. -/
def overlap : Schedule Bytes Unit :=
  .invoke 0 (appendOne "a") :: List.replicate 2 (.step 0) ++ appendAlone 1 "b" ++
    appendAlone 1 "b" ++ List.replicate 7 (.step 0) ++ appendAlone 1 "b"

/-- The commit to `a` moves the counter from 2 back to 1, below the sequence of
the last record of `b`, and the next record of `b` is numbered 2 again. -/
theorem sequences_increase_fails_on_overlap :
    (∀ client call, .invoke client call ∈ overlap → call.KeepsRecords) ∧
      ¬ SeqBounded (stateOf (reach overlap).log 3) ∧ ¬ SeqIncreasing (reach overlap).store := by
  refine ⟨?_, ?_, ?_⟩
  · intro client call h
    simp only [overlap, appendAlone, List.cons_append, List.mem_cons, List.mem_append,
      List.mem_replicate, Action.invoke.injEq, reduceCtorEq, and_false, false_or, or_false,
      List.append_assoc] at h
    rcases h with ⟨-, rfl⟩ | ⟨-, rfl⟩ | ⟨-, rfl⟩ | ⟨-, rfl⟩ <;> trivial
  · intro h
    have hb : ((stateOf (reach overlap).log 3).get (.record "b" 1)).map (·.seq) = some 2 := by
      decide
    have hg : seqOf (stateOf (reach overlap).log 3) = 1 := by decide
    obtain ⟨env, henv, hseq⟩ := Option.map_eq_some_iff.mp hb
    have := h "b" 1 env henv
    omega
  · intro h
    have h₁ : ((reach overlap).store.get (.record "b" 1)).map (·.seq) = some 2 := by decide
    have h₂ : ((reach overlap).store.get (.record "b" 2)).map (·.seq) = some 2 := by decide
    obtain ⟨env, henv, hseq⟩ := Option.map_eq_some_iff.mp h₁
    obtain ⟨env', henv', hseq'⟩ := Option.map_eq_some_iff.mp h₂
    have := h "b" 1 2 env env' (by omega) henv henv'
    omega

end

end Landslide
