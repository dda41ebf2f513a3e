import Landslide.Steps

/-!
# What a call can commit

`Call.Body` lists the transaction bodies of a call and `Call.Effect` what one of
them does to a state.  A log entry of any schedule is one such effect on the
state it was committed on, with the global sequence as of its begin
(`Sys.Valid.effect`).
-/

namespace Landslide

open TxnKv Std

section

variable {D S : Type}

/-! ## Bodies -/

/-- The body is an attempt of this append. -/
def AppendReq.Body (req : AppendReq D) (body : TxnM D S (List CommitInfo)) : Prop :=
  ∃ indexTs stamps, body = appendBody req.stream req.expected req.fromVersion req.fenceToken
    req.events indexTs stamps

/-- The transaction bodies of a call. -/
def Call.Body : Call D S → TxnM D S (List CommitInfo) → Prop
  | .append stream expected events _, body => AppendReq.Body { stream, expected, events } body
  | .appendWithToken stream token expected events _ _, body =>
      AppendReq.Body { stream, expected, fenceToken := some token, events } body
  | .appendAt stream fromVersion expected events _, body =>
      AppendReq.Body { stream, expected, fromVersion := some fromVersion, events } body
  | .commit ops stamps, body => body = commitBody ops stamps
  | .fence stream token, body => body = fenceBody stream token
  | .fork parent atVersion child, body => body = forkBody parent atVersion child
  | .trim stream fromVersion txn, body => body = trimBody stream fromVersion txn
  | .trimBelow stream floor, body => body = trimBelowBody stream floor
  | .purgeBelow stream _, body => ∃ versions, body = deleteRecords stream versions
  | .deleteStream stream, body => body = deleteStreamBody stream
  | .publishSnapshot stream record state ulid, body => body = publishBody stream record state ulid
  | .compact _ stream _ _ _ ulid, body =>
      ∃ record state, body = publishBody stream record state ulid

theorem once_bodies {B : TxnM D S (List CommitInfo) → Prop} {body : TxnM D S (List CommitInfo)}
    {ok : List CommitInfo → Reply} (h : B body) : (once body ok).Bodies B := by
  refine ⟨h, fun o => ?_⟩
  cases o <;> trivial

theorem ofReads_bodies {E α : Type} {B : TxnM D S (List CommitInfo) → Prop} (p : KvM D S E α)
    {next : Except E α → StoreProc D S} (h : ∀ r, (next r).Bodies B) :
    (Proc.ofReads p next).Bodies B := by
  induction p with
  | pure a => exact h _
  | throw e => exact h _
  | get k p ih => exact fun o => ih o
  | scan range p ih => exact fun es => ih es
  | put k v p ih => exact ih
  | delete k p ih => exact ih
  | unmark k p ih => exact ih

theorem commitLoop_bodies {B : TxnM D S (List CommitInfo) → Prop} (req : AppendReq D)
    (indexTs : Bool) (stamps : Nat → Nat → Stamp)
    (h : ∀ n, B (appendBody req.stream req.expected req.fromVersion req.fenceToken req.events
      indexTs (stamps n))) :
    ∀ retries, (commitLoop req.stream req.expected req.fromVersion req.fenceToken req.events
      indexTs stamps retries : StoreProc D S).Bodies B
  | 0 => by
      refine ⟨h 0, fun o => ?_⟩
      cases o with
      | committed infos => trivial
      | conflict => exact fun _ => trivial
      | aborted r => trivial
  | retries + 1 => by
      refine ⟨h (retries + 1), fun o => ?_⟩
      cases o with
      | committed infos => trivial
      | conflict => exact commitLoop_bodies req indexTs stamps h retries
      | aborted r => trivial

/-- An append runs attempts with its own draws. -/
theorem commitAppends_bodies [Payload D] {B : TxnM D S (List CommitInfo) → Prop}
    (req : AppendReq D) (indexTs : Bool) (stamps : Nat → Nat → Stamp)
    (h : ∀ n, B (appendBody req.stream req.expected req.fromVersion req.fenceToken req.events
      indexTs (stamps n))) :
    (commitAppends req.stream req.expected req.fromVersion req.fenceToken req.events indexTs
      stamps : StoreProc D S).Bodies B := by
  unfold commitAppends
  split
  · trivial
  · exact commitLoop_bodies req indexTs stamps h commitRetries

theorem purgeLoop_bodies (stream : String) (floor : Nat) : ∀ chunks next n,
    (purgeLoop stream floor chunks next n : StoreProc D S).Bodies
      fun body => ∃ versions, body = deleteRecords stream versions
  | 0, _, _ => trivial
  | chunks + 1, next, n => by
      unfold purgeLoop
      split
      · intro rows
        dsimp only
        split
        · trivial
        · refine ⟨⟨_, rfl⟩, fun o => ?_⟩
          cases o with
          | committed infos => exact purgeLoop_bodies stream floor chunks _ _
          | conflict => trivial
          | aborted r => trivial
      · trivial

/-- A call runs only its own bodies. -/
theorem Call.proc_bodies [Payload D] (call : Call D S) : call.proc.Bodies call.Body := by
  cases call with
  | append stream expected events stamps =>
      exact commitAppends_bodies { stream, expected, events } true stamps fun _ => ⟨_, _, rfl⟩
  | appendWithToken stream token expected events indexTs stamps =>
      exact commitAppends_bodies { stream, expected, fenceToken := some token, events } indexTs
        stamps fun _ => ⟨_, _, rfl⟩
  | appendAt stream fromVersion expected events stamps =>
      exact commitAppends_bodies { stream, expected, fromVersion := some fromVersion, events }
        true stamps fun _ => ⟨_, _, rfl⟩
  | commit ops stamps =>
      simp only [Call.proc, Landslide.commit]
      split
      · trivial
      · exact once_bodies rfl
  | fence stream token => exact once_bodies rfl
  | fork parent atVersion child => exact once_bodies rfl
  | trim stream fromVersion txn => exact once_bodies rfl
  | trimBelow stream floor => exact once_bodies rfl
  | purgeBelow stream floor =>
      refine ofReads_bodies _ fun r => ?_
      cases r with
      | error e => trivial
      | ok c => exact purgeLoop_bodies stream floor _ _ _
  | deleteStream stream => exact once_bodies rfl
  | publishSnapshot stream record state ulid => exact once_bodies rfl
  | compact depth stream jobId build nowMs ulid =>
      refine ofReads_bodies _ fun r => ?_
      cases r with
      | error e => trivial
      | ok events =>
          dsimp only
          split
          · trivial
          · split
            · trivial
            · exact once_bodies ⟨_, _, rfl⟩

/-- The calls whose transactions stamp the global sequence. -/
def Call.Stamps : Call D S → Prop
  | .append .. => True
  | .appendWithToken .. => True
  | .appendAt .. => True
  | .commit .. => True
  | .publishSnapshot .. => True
  | .compact .. => True
  | _ => False

/-- The other calls leave the global sequence alone. -/
theorem Call.Body.quiet {call : Call D S} {body : TxnM D S (List CommitInfo)}
    (h : call.Body body) (hs : ¬ call.Stamps) :
    body.Within (· ≠ .seq) (fun _ => False) fun _ => True := by
  cases call with
  | append | appendWithToken | appendAt | commit | publishSnapshot | compact =>
      exact absurd trivial hs
  | fence stream token => cases h; exact fenceBody_within stream token
  | fork parent atVersion child => cases h; exact forkBody_within parent atVersion child
  | trim stream fromVersion txn => cases h; exact trimBody_within stream fromVersion txn
  | trimBelow stream floor => cases h; exact trimBelowBody_within stream floor
  | purgeBelow stream floor =>
      obtain ⟨versions, rfl⟩ := h
      exact deleteRecords_within stream versions
  | deleteStream stream => cases h; exact deleteStreamBody_within stream

/-- No body leaves a key other than `g/seq` out of conflict detection. -/
theorem Call.Body.within {call : Call D S} {body : TxnM D S (List CommitInfo)}
    (h : call.Body body) : body.Within (fun _ => True) (· = .seq) fun _ => True := by
  by_cases hs : call.Stamps
  swap
  · exact (h.quiet hs).mono (fun _ _ => trivial) (fun _ h => h.elim) fun _ h => h
  have weaken : ∀ {body : TxnM D S (List CommitInfo)},
      body.Within (fun _ => True) (· = .seq) Failed →
        body.Within (fun _ => True) (· = .seq) fun _ => True :=
    fun hb => hb.mono (fun _ h => h) (fun _ h => h) fun _ _ => trivial
  cases call with
  | append | appendWithToken | appendAt =>
      obtain ⟨_, _, rfl⟩ := h
      exact weaken (appendBody_within _ _ _)
  | commit ops stamps => cases h; exact weaken (commitBody_within ops stamps)
  | publishSnapshot stream record state ulid =>
      cases h
      exact publishBody_within stream record state ulid
  | compact depth stream jobId build nowMs ulid =>
      obtain ⟨record, state, rfl⟩ := h
      exact publishBody_within stream record state ulid
  | fence | fork | trim | trimBelow | purgeBelow | deleteStream => exact hs.elim

/-- The bodies that stamp the global sequence always write it. -/
theorem Call.Body.alwaysWrites {call : Call D S} {body : TxnM D S (List CommitInfo)}
    (h : call.Body body) (hs : call.Stamps) : body.AlwaysWrites .seq := by
  have commitSeq_always : ∀ {α : Type} (seq : Nat) (f : Unit → TxnM D S α),
      (commitSeq seq >>= f).AlwaysWrites .seq := fun _ _ => .inl rfl
  cases call with
  | append | appendWithToken | appendAt =>
      obtain ⟨_, _, rfl⟩ := h
      exact Prog.AlwaysWrites.bind (fun _ =>
        Prog.AlwaysWrites.bind (fun _ => commitSeq_always _ _) _) _
  | commit ops stamps =>
      cases h
      exact Prog.AlwaysWrites.bind (fun _ =>
        Prog.AlwaysWrites.bind (fun _ => commitSeq_always _ _) _) _
  | publishSnapshot stream record state ulid =>
      cases h
      exact fun _ => .inr (.inr (.inl rfl))
  | compact depth stream jobId build nowMs ulid =>
      obtain ⟨record, state, rfl⟩ := h
      exact fun _ => .inr (.inr (.inl rfl))
  | fence | fork | trim | trimBelow | purgeBelow | deleteStream => exact hs.elim

/-! ## Effects -/

/-- The requests of a call that stamps the global sequence for its events. -/
def Call.reqs : Call D S → List (Req D)
  | .append stream expected events _ => [.append { stream, expected, events }]
  | .appendWithToken stream token expected events _ _ =>
      [.append { stream, expected, fenceToken := some token, events }]
  | .appendAt stream fromVersion expected events _ =>
      [.append { stream, expected, fromVersion := some fromVersion, events }]
  | .commit ops _ => ops.map Op.req
  | .fence stream token => [.fence stream token]
  | _ => []

/-- What a committed transaction of a call does to a state. -/
def Call.Effect (σ : Db D S) (infos : List CommitInfo) (σ' : Db D S) : Call D S → Prop
  | .fence stream token => σ' = fenced σ stream token
  | .fork parent atVersion child => ∃ parentTail, σ.get (.tail parent) = some parentTail ∧
      atVersion ≤ parentTail.version ∧ σ.get (.tail child) = none ∧
      σ' = forked σ parent atVersion child parentTail.tsMs
  | .trim stream fromVersion txn => σ' = σ.put (.rollback stream fromVersion) txn
  | .trimBelow stream floor => σ' = σ.put (.trim stream) (trimFloor σ stream floor)
  | .purgeBelow stream _ => ∃ versions, σ' = purged σ stream versions
  | .deleteStream stream =>
      (σ.get (.tail stream)).isSome = true ∧ σ' = σ.put (.deleted stream) ()
  | .publishSnapshot stream record state ulid => σ' = published σ stream record state ulid
  | .compact _ stream _ _ _ ulid => ∃ record state, σ' = published σ stream record state ulid
  | call => Stamped call.reqs σ infos σ'

theorem Call.Body.effect {call : Call D S} {body : TxnM D S (List CommitInfo)}
    (h : call.Body body) {σ : Db D S} {infos : List CommitInfo} {t : Txn Key (Val D S)}
    (hr : body.run (.begin σ) = .ok (infos, t)) : call.Effect σ infos t.view := by
  cases call with
  | append stream expected events stamps => obtain ⟨_, _, rfl⟩ := h; exact appendBody_run hr
  | appendWithToken stream token expected events indexTs stamps =>
      obtain ⟨_, _, rfl⟩ := h
      exact appendBody_run hr
  | appendAt stream fromVersion expected events stamps =>
      obtain ⟨_, _, rfl⟩ := h
      exact appendBody_run hr
  | commit ops stamps => cases h; exact commitBody_run hr
  | fence stream token => cases h; exact fenceBody_run hr
  | fork parent atVersion child => cases h; exact forkBody_run hr
  | trim stream fromVersion txn => cases h; exact trimBody_run hr
  | trimBelow stream floor => cases h; exact trimBelowBody_run hr
  | purgeBelow stream floor =>
      obtain ⟨versions, rfl⟩ := h
      obtain ⟨t', hr', hv⟩ := deleteRecords_run stream versions (.begin σ)
      rw [hr] at hr'
      cases hr'
      exact ⟨versions, hv⟩
  | deleteStream stream => cases h; exact deleteStreamBody_run hr
  | publishSnapshot stream record state ulid => cases h; exact publishBody_run hr
  | compact depth stream jobId build nowMs ulid =>
      obtain ⟨record, state, rfl⟩ := h
      exact ⟨record, state, publishBody_run hr⟩

/-! ## Schedules -/

/-- A schedule of the event store. -/
abbrev Schedule (D S : Type) : Type := List (Action (Call D S))

/-- A state of the system of clients. -/
abbrev World (D S : Type) : Type :=
  Sys Key (Val D S) Result (List CommitInfo) Result (Call D S)

/-- A committed transaction of the event store. -/
abbrev Entry (D S : Type) : Type := Commit Key (Val D S) Result (List CommitInfo) (Call D S)

/-- The state a schedule reaches from the empty store. -/
def reach [Payload D] (acts : Schedule D S) : World D S := Sys.run Call.proc (Sys.init ∅) acts

/-- The state after the first `n` commits of a log. -/
def stateOf (log : List (Entry D S)) (n : Nat) : Db D S := stateAt ∅ log n

/-- The state an entry was committed on, with `g/seq` as of its begin. -/
def viewOf (log : List (Entry D S)) (n : Nat) (c : Entry D S) : Db D S :=
  c.viewAt ∅ log .seq n

theorem valid_reach [Payload D] (acts : Schedule D S) : (reach acts).Valid ∅ Call.Body :=
  Sys.valid_run Sys.valid_init fun _ call _ => call.proc_bodies

/-- A log entry belongs to a call that was invoked. -/
theorem call_reach [Payload D] {acts : Schedule D S} {P : Call D S → Prop}
    (hP : ∀ client call, .invoke client call ∈ acts → P call) {n : Nat} {c : Entry D S}
    (hc : (reach acts).log[n]? = some c) : P c.call := by
  have h : (reach acts).Valid ∅ fun call _ => P call :=
    Sys.valid_run Sys.valid_init fun client call hact =>
      call.proc_bodies.mono fun _ _ => hP client call hact
  exact (h.log n c hc).body

theorem store_reach [Payload D] (acts : Schedule D S) :
    (reach acts).store = stateOf (reach acts).log (reach acts).log.length :=
  (valid_reach acts).store

theorem get_viewOf {log : List (Entry D S)} {n : Nat} {c : Entry D S} {k : Key} (h : k ≠ .seq) :
    (viewOf log n c).get k = (stateOf log n).get k :=
  Commit.get_viewAt_of_ne h

theorem seqOf_viewOf (log : List (Entry D S)) (n : Nat) (c : Entry D S) :
    seqOf (viewOf log n c) = seqOf (stateOf log c.start) := by
  simp [viewOf, seqOf, stateOf]

/-- Every log entry is an effect of its call, and every key is then as the effect
left it, `g/seq` only where the call stamps it. -/
theorem effect_reach [Payload D] (acts : Schedule D S) {n : Nat} {c : Entry D S}
    (hc : (reach acts).log[n]? = some c) :
    ∃ σ' : Db D S, c.call.Effect (viewOf (reach acts).log n c) c.value σ' ∧
      (∀ k, k ≠ .seq → (stateOf (reach acts).log (n + 1)).get k = σ'.get k) ∧
      (c.call.Stamps → (stateOf (reach acts).log (n + 1)).get .seq = σ'.get .seq) := by
  have hv := valid_reach acts
  obtain ⟨t, hr, hf⟩ := hv.runs_at_commit (fun _ _ => Call.Body.within) hc
  have hview : t.view = (viewOf (reach acts).log n c).applyAll c.foot.writes := by
    rw [Prog.view_of_run_begin hr, hf]
    rfl
  refine ⟨t.view, (hv.log n c hc).body.effect hr, fun k hk => ?_, fun hs => ?_⟩
  · rw [hview]
    exact Commit.get_stateAt_succ hc hk
  · rw [hview]
    have hw := ((hv.log n c hc).body.alwaysWrites hs).of_run hr
    rw [hf] at hw
    exact Commit.get_stateAt_succ_of_writes hc hw

/-- What holds of the empty store, and is kept by the effect of every call of a kind,
holds in every state that a schedule of such calls reaches.  The global sequence is
left out: an entry has it as of its begin. -/
theorem reach_induct_of [Payload D] {P : Db D S → Prop} {Q : Call D S → Prop} (hempty : P ∅)
    (hcongr : ∀ {σ σ' : Db D S}, P σ → (∀ k, k ≠ .seq → σ'.get k = σ.get k) → P σ')
    (heffect : ∀ {call : Call D S} {σ σ' : Db D S} {infos : List CommitInfo}, Q call →
      call.Effect σ infos σ' → P σ → P σ') {acts : Schedule D S}
    (hacts : ∀ client call, .invoke client call ∈ acts → Q call) : P (reach acts).store := by
  have : ∀ n, n ≤ (reach acts).log.length → P (stateOf (reach acts).log n) := by
    intro n
    induction n with
    | zero => exact fun _ => hempty
    | succ n ih =>
        intro hn
        obtain ⟨c, hc⟩ : ∃ c, (reach acts).log[n]? = some c := ⟨_, List.getElem?_eq_getElem hn⟩
        obtain ⟨σ', heff, hsucc, -⟩ := effect_reach acts hc
        have hview : P (viewOf (reach acts).log n c) :=
          hcongr (ih (Nat.le_of_succ_le hn)) fun k hk => get_viewOf hk
        exact hcongr (heffect (call_reach hacts hc) heff hview) hsucc
  rw [store_reach]
  exact this _ le_rfl

/-- What holds of the empty store and is kept by the effect of every call holds in every
state that a schedule reaches. -/
theorem reach_induct [Payload D] {P : Db D S → Prop} (hempty : P ∅)
    (hcongr : ∀ {σ σ' : Db D S}, P σ → (∀ k, k ≠ .seq → σ'.get k = σ.get k) → P σ')
    (heffect : ∀ {call : Call D S} {σ σ' : Db D S} {infos : List CommitInfo},
      call.Effect σ infos σ' → P σ → P σ') (acts : Schedule D S) : P (reach acts).store :=
  reach_induct_of (Q := fun _ => True) hempty hcongr (fun _ => heffect) fun _ _ _ => trivial

/-- A call that does not stamp the global sequence keeps it. -/
theorem seq_reach [Payload D] (acts : Schedule D S) {n : Nat} {c : Entry D S}
    (hc : (reach acts).log[n]? = some c) (hs : ¬ c.call.Stamps) :
    (stateOf (reach acts).log (n + 1)).get .seq = (stateOf (reach acts).log n).get .seq := by
  have hv := (valid_reach acts).log n c hc
  obtain ⟨t, hr, hf⟩ := hv.run
  refine Commit.get_stateAt_succ_of_not_writes hc fun hw => ?_
  rw [← hf] at hw
  rcases (hv.body.quiet hs).of_run hr hw with ⟨w, hmem, -⟩ | hne
  · cases hmem
  · exact hne rfl

/-! ## Replies -/

/-- The calls that append. -/
def Call.Appends : Call D S → Prop
  | .append .. => True
  | .appendWithToken .. => True
  | .appendAt .. => True
  | .commit .. => True
  | _ => False

theorem Call.Appends.stamps {call : Call D S} (h : call.Appends) : call.Stamps := by
  cases call with
  | append | appendWithToken | appendAt | commit => trivial
  | fence | fork | trim | trimBelow | purgeBelow | deleteStream | publishSnapshot | compact =>
      exact h.elim

theorem commitLoop_oneShot (req : AppendReq D) (indexTs : Bool) (stamps : Nat → Nat → Stamp) :
    ∀ retries, (commitLoop req.stream req.expected req.fromVersion req.fenceToken req.events
      indexTs stamps retries : StoreProc D S).OneShot (fun infos => .ok (.infos infos)) Failed
  | 0 => by
      refine ⟨fun _ => rfl, fun _ => ⟨_, rfl⟩, ?_⟩
      exact (appendBody_within req indexTs _).mono (fun _ h => h) (fun _ _ => trivial) fun _ h => h
  | retries + 1 => by
      refine ⟨fun _ => rfl, commitLoop_oneShot req indexTs stamps retries, ?_⟩
      exact (appendBody_within req indexTs _).mono (fun _ h => h) (fun _ _ => trivial) fun _ h => h

theorem commitAppends_oneShot [Payload D] (req : AppendReq D) (indexTs : Bool)
    (stamps : Nat → Nat → Stamp) :
    (commitAppends req.stream req.expected req.fromVersion req.fenceToken req.events indexTs
      stamps : StoreProc D S).OneShot (fun infos => .ok (.infos infos)) Failed := by
  unfold commitAppends
  split
  · exact ⟨_, rfl⟩
  · exact commitLoop_oneShot req indexTs stamps commitRetries

/-- An appending call commits at most once, and a failed one never. -/
theorem Call.Appends.oneShot [Payload D] {call : Call D S} (h : call.Appends) :
    call.proc.OneShot (fun infos => .ok (.infos infos)) Failed := by
  cases call with
  | append stream expected events stamps =>
      exact commitAppends_oneShot { stream, expected, events } true stamps
  | appendWithToken stream token expected events indexTs stamps =>
      exact commitAppends_oneShot { stream, expected, fenceToken := some token, events } indexTs
        stamps
  | appendAt stream fromVersion expected events stamps =>
      exact commitAppends_oneShot { stream, expected, fromVersion := some fromVersion, events }
        true stamps
  | commit ops stamps =>
      simp only [Call.proc, Landslide.commit]
      split
      · exact ⟨_, rfl⟩
      · refine ⟨fun _ => rfl, ⟨_, rfl⟩, ?_⟩
        exact (commitBody_within ops stamps).mono (fun _ h => h) (fun _ _ => trivial) fun _ h => h
  | fence | fork | trim | trimBelow | purgeBelow | deleteStream | publishSnapshot | compact =>
      exact h.elim

theorem replies_reach [Payload D] (acts : Schedule D S) :
    (reach acts).Replies Call.Appends (fun _ infos => .ok (.infos infos)) fun _ => Failed :=
  Sys.replies_run (fun _ h => h.oneShot) Sys.replies_init acts

end

end Landslide
