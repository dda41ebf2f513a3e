import Landslide.EventStore

/-!
# What the transactions do

Each transaction body gets one lemma that says what it may write, unmark and
throw, and one that says what a successful run did to the store.  Everything
later about the store goes through these and never unfolds a body.

An append, a transaction of several operations and a fence are one notion here:
a list of requests replayed in order (`Replayed`), each an `Appended` or a
`Fenced` step.
-/

namespace Landslide

open TxnKv Std

section

variable {D S : Type}

/-! ## Reading a state -/

/-- The last version of a stream. -/
def tailVersion (σ : Db D S) (stream : String) : Option Nat :=
  (σ.get (.tail stream)).map (·.version)

/-- The version the next append to a stream is told. -/
def nextVersion (σ : Db D S) (stream : String) : Nat :=
  (tailVersion σ stream).elim 0 (· + 1)

/-- The global sequence of a state. -/
def seqOf (σ : Db D S) : Nat := (σ.get .seq).getD 0

/-- The fork point of a stream. -/
def forkPoint (σ : Db D S) (stream : String) : Option Nat :=
  (σ.get (.fork stream)).map (·.atVersion)

/-- An early result that is an error. -/
def Failed (r : Result) : Prop := ∃ e, r = .error e

/-! ## Appends -/

/-- An append as it is replayed. -/
structure AppendReq (D : Type) where
  stream : String
  expected : ExpectedVersion
  fromVersion : Option Nat := none
  fenceToken : Option String := none
  events : List (NewEvent D)

/-- The append `req`, replayed on `σ` with the sequence cursor at `seq`, was told
`info` and led to `σ'`. -/
structure Appended (req : AppendReq D) (seq : Nat) (σ : Db D S) (info : CommitInfo)
    (σ' : Db D S) : Prop where
  fence : ∀ token current, req.fenceToken = some token →
    σ.get (.fence req.stream) = some current → current = token
  admits : req.expected.admits (tailVersion σ req.stream) = true
  nonempty : 0 < req.events.length
  first : info.firstVersion = req.fromVersion.getD (nextVersion σ req.stream)
  last : info.lastVersion + 1 = info.firstVersion + req.events.length
  start : info.startSequence = seq + 1
  tail : tailVersion σ' req.stream =
    some ((tailVersion σ req.stream).elim info.lastVersion (max · info.lastVersion))
  records : ∀ i e, req.events[i]? = some e → ∃ env : Envelope D,
    σ'.get (.record req.stream (info.firstVersion + i)) = some env ∧ env.Carries e ∧
      env.version = info.firstVersion + i ∧ env.seq = info.startSequence + i
  frame : ∀ k, k ≠ .tail req.stream →
    (∀ v, info.firstVersion ≤ v → v ≤ info.lastVersion → k ≠ .record req.stream v) →
    (∀ t v, k ≠ .ts req.stream t v) → σ'.get k = σ.get k

/-- The keys a batch of records writes. -/
def BatchKey (stream : String) (lo hi : Nat) (k : Key) : Prop :=
  (∃ v, lo ≤ v ∧ v < hi ∧ k = .record stream v) ∨ ∃ t v, k = .ts stream t v

theorem BatchKey.mono {stream : String} {lo lo' hi hi' : Nat} (hlo : lo' ≤ lo)
    (hhi : hi ≤ hi') {k : Key} (h : BatchKey stream lo hi k) : BatchKey stream lo' hi' k := by
  rcases h with ⟨v, h₁, h₂, rfl⟩ | h
  · exact .inl ⟨v, by omega, by omega, rfl⟩
  · exact .inr h

theorem putRecords_within (stream : String) (indexTs : Bool) (first startSeq : Nat)
    (stamps : Nat → Stamp) (events : List (NewEvent D)) :
    ∀ (i : Nat) (lastTs : Int),
      (putRecords stream indexTs first startSeq stamps i lastTs events : TxnM D S Int).Within
        (BatchKey stream (first + i) (first + i + events.length)) (fun _ => False) Failed := by
  induction events with
  | nil => intro i lastTs; trivial
  | cons e events ih =>
      intro i lastTs
      have rest : ∀ ts, (putRecords stream indexTs first startSeq stamps (i + 1) ts events :
          TxnM D S Int).Within (BatchKey stream (first + i) (first + i + (events.length + 1)))
            (fun _ => False) Failed := fun ts =>
        (ih (i + 1) ts).mono (fun _ h => h.mono (by omega) (by omega)) (fun _ h => h) fun _ h => h
      refine ⟨.inl ⟨first + i, le_rfl, by simp, rfl⟩, ?_⟩
      cases indexTs with
      | true => exact ⟨.inr ⟨_, _, rfl⟩, rest _⟩
      | false => exact rest _

/-- Writing a batch succeeds and leaves each event at its version. -/
theorem putRecords_run (stream : String) (indexTs : Bool) (first startSeq : Nat)
    (stamps : Nat → Stamp) (events : List (NewEvent D)) :
    ∀ (i : Nat) (lastTs : Int) (t : Txn Key (Val D S)), ∃ ts t',
      (putRecords stream indexTs first startSeq stamps i lastTs events).run t = .ok (ts, t') ∧
      ∀ j e, events[j]? = some e → ∃ env : Envelope D,
        t'.view.get (.record stream (first + (i + j))) = some env ∧ env.Carries e ∧
          env.version = first + (i + j) ∧ env.seq = startSeq + (i + j) := by
  induction events with
  | nil => intro i lastTs t; exact ⟨lastTs, t, rfl, by simp⟩
  | cons e events ih =>
      intro i lastTs t
      -- the state in which the rest of the batch is written
      obtain ⟨u, hu, hv⟩ : ∃ u : Txn Key (Val D S),
          (putRecords stream indexTs first startSeq stamps i lastTs (e :: events)).run t =
            (putRecords stream indexTs first startSeq stamps (i + 1)
              (batchEnvelope first startSeq stamps i lastTs e).tsMs events).run u ∧
          u.view.get (.record stream (first + i)) =
            some (batchEnvelope first startSeq stamps i lastTs e) := by
        cases indexTs with
        | true =>
            refine ⟨_, rfl, ?_⟩
            simp only [Txn.view_noteWrite]
            rw [Store.get_apply_of_ne _ _ (by simp), Store.get_apply_self]
        | false =>
            refine ⟨_, rfl, ?_⟩
            simp only [Txn.view_noteWrite]
            rw [Store.get_apply_self]
      obtain ⟨ts, t', hr, hrec⟩ := ih (i + 1) (batchEnvelope first startSeq stamps i lastTs e).tsMs u
      refine ⟨ts, t', hu.trans hr, ?_⟩
      intro j e' hj
      cases j with
      | zero =>
          simp only [List.getElem?_cons_zero, Option.some.injEq] at hj
          subst hj
          refine ⟨batchEnvelope first startSeq stamps i lastTs e, ?_, ⟨rfl, rfl, rfl⟩, rfl, rfl⟩
          rw [Nat.add_zero,
            (putRecords_within stream indexTs first startSeq stamps events (i + 1) _).get_view hr]
          · exact hv
          · rintro (⟨v, h₁, -, h₂⟩ | ⟨_, _, h₂⟩)
            · simp only [Key.record.injEq, true_and] at h₂
              omega
            · cases h₂
      | succ j =>
          obtain ⟨env, h₁, h₂, h₃, h₄⟩ := hrec j e' (by simpa using hj)
          rw [show i + 1 + j = i + (j + 1) by omega] at h₁ h₃ h₄
          exact ⟨env, h₁, h₂, h₃, h₄⟩

/-- The keys an append to a stream writes. -/
def AppendKey (stream : String) (k : Key) : Prop :=
  k = .tail stream ∨ (∃ v, k = .record stream v) ∨ ∃ t v, k = .ts stream t v

theorem checkFence_within (stream : String) (token : Option String) {W : Key → Prop} :
    (checkFence stream token : TxnM D S Unit).Within W (fun _ => False) Failed := by
  cases token with
  | none => trivial
  | some token =>
      intro o
      cases o with
      | none => trivial
      | some current =>
          change (if current = token then _ else _ : TxnM D S Unit).Within _ _ _
          split
          · trivial
          · exact ⟨_, rfl⟩

/-- The token check passes when the stream is not fenced or has this token, and
it writes nothing. -/
theorem checkFence_run {stream : String} {token : Option String} {t t' : Txn Key (Val D S)}
    {u : Unit} (h : (checkFence stream token).run t = .ok (u, t')) :
    t'.view = t.view ∧ ∀ tok current, token = some tok →
      t.view.get (.fence stream) = some current → current = tok := by
  cases token with
  | none => cases h; exact ⟨rfl, by simp⟩
  | some token =>
      simp only [checkFence, Prog.run_read_bind] at h
      cases hf : t.view.get (.fence stream) with
      | none => rw [hf] at h; cases h; exact ⟨rfl, by simp⟩
      | some current =>
          rw [hf] at h
          dsimp only at h
          split at h
          · next heq => cases h; exact ⟨rfl, by simp [heq]⟩
          · cases h

theorem replayAppend_within (seq : Nat) (req : AppendReq D) (indexTs : Bool)
    (stamps : Nat → Stamp) :
    (replayAppend seq req.stream req.expected req.fromVersion req.fenceToken req.events indexTs
      stamps : TxnM D S (CommitInfo × Nat)).Within (AppendKey req.stream) (fun _ => False)
        Failed := by
  intro o
  refine (checkFence_within req.stream req.fenceToken).bind fun _ => ?_
  split
  · exact ⟨_, rfl⟩
  · split
    · exact ⟨_, rfl⟩
    · refine Prog.Within.bind ((putRecords_within _ _ _ _ _ _ _ _).mono ?_ (fun _ h => h)
        fun _ h => h) fun lastTs => ⟨.inl rfl, trivial⟩
      rintro k (⟨v, -, -, rfl⟩ | ⟨t, v, rfl⟩)
      · exact .inr (.inl ⟨v, rfl⟩)
      · exact .inr (.inr ⟨t, v, rfl⟩)

/-- A replayed append passes its checks, writes its batch and stores the tail. -/
theorem replayAppend_inv {seq : Nat} (req : AppendReq D) {indexTs : Bool}
    {stamps : Nat → Stamp} {t t' : Txn Key (Val D S)} {r : CommitInfo × Nat}
    (h : (replayAppend seq req.stream req.expected req.fromVersion req.fenceToken req.events
      indexTs stamps).run t = .ok (r, t')) :
    let first := req.fromVersion.getD (nextVersion t.view req.stream)
    let last := first + req.events.length - 1
    (∀ token current, req.fenceToken = some token →
        t.view.get (.fence req.stream) = some current → current = token) ∧
      req.expected.admits (tailVersion t.view req.stream) = true ∧ 0 < req.events.length ∧
      r = ({ firstVersion := first, lastVersion := last, startSequence := seq + 1 },
        seq + 1 + req.events.length - 1) ∧
      ∃ t₁ t₂ lastTs, t₁.view = t.view ∧
        (putRecords req.stream indexTs first (seq + 1) stamps 0
          ((t.view.get (.tail req.stream)).elim 0 (·.tsMs)) req.events).run t₁ =
            .ok (lastTs, t₂) ∧
        t'.view = t₂.view.put (.tail req.stream)
          { version := (tailVersion t.view req.stream).elim last (max · last), tsMs := lastTs } := by
  unfold replayAppend tail at h
  rw [Prog.run_read_bind] at h
  obtain ⟨u, t₁, hfence, h⟩ := Prog.run_bind_ok h
  obtain ⟨hv₁, hfence⟩ := checkFence_run hfence
  simp only [Txn.view_noteRead] at hv₁ hfence h
  by_cases hadm : req.expected.admits ((t.view.get (.tail req.stream)).map (·.version)) = true
  swap
  · simp [hadm] at h
  by_cases hemp : req.events.isEmpty = true
  · simp [hadm, hemp] at h
  have hlen : 0 < req.events.length := by
    cases hev : req.events with
    | nil => simp [hev] at hemp
    | cons e events => simp
  rw [if_neg (by simp [hadm]), if_neg hemp] at h
  obtain ⟨ts, t₂, hput, h⟩ := Prog.run_bind_ok h
  rw [Prog.run_write_bind] at h
  cases h
  exact ⟨hfence, hadm, hlen, rfl, t₁, t₂, ts, hv₁, hput, Txn.view_noteWrite _ _⟩

/-- A replayed append is an `Appended` step and moves the cursor by its events. -/
theorem replayAppend_run {seq : Nat} (req : AppendReq D) {indexTs : Bool}
    {stamps : Nat → Stamp} {t t' : Txn Key (Val D S)} {r : CommitInfo × Nat}
    (h : (replayAppend seq req.stream req.expected req.fromVersion req.fenceToken req.events
      indexTs stamps).run t = .ok (r, t')) :
    Appended req seq t.view r.1 t'.view ∧ r.2 = seq + req.events.length := by
  obtain ⟨hfence, hadm, hlen, rfl, t₁, t₂, ts, hv₁, hput, hview⟩ := replayAppend_inv req h
  -- the batch does not touch the tail, and its records stay when the tail is written
  have hwithin := putRecords_within (D := D) (S := S) req.stream indexTs
    (req.fromVersion.getD (nextVersion t.view req.stream)) (seq + 1) stamps req.events 0
    ((t.view.get (.tail req.stream)).elim 0 (·.tsMs))
  obtain ⟨ts', t₂', hput', hrec⟩ := putRecords_run (D := D) (S := S) req.stream indexTs
    (req.fromVersion.getD (nextVersion t.view req.stream)) (seq + 1) stamps req.events 0
    ((t.view.get (.tail req.stream)).elim 0 (·.tsMs)) t₁
  rw [hput] at hput'
  cases hput'
  refine ⟨⟨hfence, hadm, hlen, rfl, ?_, rfl, ?_, ?_, ?_⟩, ?_⟩
  · dsimp only
    omega
  · rw [hview]
    simp [tailVersion]
  · intro i e he
    obtain ⟨env, h₁, h₂, h₃, h₄⟩ := hrec i e he
    rw [Nat.zero_add] at h₁ h₃ h₄
    refine ⟨env, ?_, h₂, h₃, h₄⟩
    rw [hview, Store.get_put_of_ne _ _ (by simp)]
    exact h₁
  · intro k hk hrec hts
    rw [hview, Store.get_put_of_ne _ _ hk, hwithin.get_view hput, hv₁]
    rintro (⟨v, h₁, h₂, rfl⟩ | ⟨x, v, rfl⟩)
    · exact hrec v h₁ (Nat.le_sub_one_of_lt h₂) rfl
    · exact hts x v rfl
  · dsimp only
    omega

/-! ## Requests -/

/-- One request of a transaction that stamps the global sequence. -/
inductive Req (D : Type) where
  | append (req : AppendReq D)
  | fence (stream : String) (token : Option String)

/-- The request of a queued operation. -/
def Op.req : Op D → Req D
  | .append stream expected events => .append { stream, expected, events }
  | .fence stream token => .fence stream token

/-- A state with the fence of a stream set or cleared. -/
def fenced (σ : Db D S) (stream : String) (token : Option String) : Db D S :=
  σ.apply ⟨.fence stream, token.filter (· ≠ "")⟩

@[simp] theorem get_fenced_self (σ : Db D S) (stream : String) (token : Option String) :
    (fenced σ stream token).get (.fence stream) = token.filter (· ≠ "") :=
  Store.get_apply_self ..

theorem get_fenced_of_ne (σ : Db D S) (stream : String) (token : Option String) {k : Key}
    (h : k ≠ .fence stream) : (fenced σ stream token).get k = σ.get k :=
  Store.get_apply_of_ne _ _ h

/-- The requests, replayed on `σ` with the cursor at `seq`, were told `infos` and
led to `σ'` with the cursor at `seq'`. -/
inductive Replayed : List (Req D) → Nat → Db D S → List CommitInfo → Nat → Db D S → Prop where
  | nil {seq : Nat} {σ : Db D S} : Replayed [] seq σ [] seq σ
  | append {req : AppendReq D} {reqs : List (Req D)} {seq seq' : Nat} {σ σ₁ σ' : Db D S}
      {info : CommitInfo} {infos : List CommitInfo} :
      Appended req seq σ info σ₁ →
      Replayed reqs (seq + req.events.length) σ₁ infos seq' σ' →
      Replayed (.append req :: reqs) seq σ (info :: infos) seq' σ'
  | fence {stream : String} {token : Option String} {reqs : List (Req D)} {seq seq' : Nat}
      {σ σ' : Db D S} {infos : List CommitInfo} :
      Replayed reqs seq (fenced σ stream token) infos seq' σ' →
      Replayed (.fence stream token :: reqs) seq σ infos seq' σ'

/-- The keys that appends and fences write. -/
def Key.OfReplay : Key → Bool
  | .record _ _ => true
  | .tail _ => true
  | .fence _ => true
  | .ts _ _ _ => true
  | _ => false

/-- Replayed requests leave every other key. -/
theorem Replayed.get_of_not_replay {reqs : List (Req D)} {seq seq' : Nat} {σ σ' : Db D S}
    {infos : List CommitInfo} (h : Replayed reqs seq σ infos seq' σ') {k : Key}
    (hk : k.OfReplay = false) : σ'.get k = σ.get k := by
  have hne : ∀ k', k'.OfReplay = true → k ≠ k' := by
    rintro k' hk' rfl
    rw [hk] at hk'
    cases hk'
  induction h with
  | nil => rfl
  | append happ _ ih =>
      exact ih.trans (happ.frame k (hne _ rfl) (fun v _ _ => hne _ rfl) fun t v => hne _ rfl)
  | fence _ ih => exact ih.trans (get_fenced_of_ne _ _ _ (hne _ rfl))

/-- A transaction that replays the requests from the stored sequence and stores
the cursor it ends with. -/
def Stamped (reqs : List (Req D)) (σ : Db D S) (infos : List CommitInfo) (σ' : Db D S) : Prop :=
  ∃ seq' σ₁, Replayed reqs (seqOf σ) σ infos seq' σ₁ ∧ σ' = σ₁.put .seq seq'

theorem replayFence_within (stream : String) (token : Option String) :
    (replayFence stream token : TxnM D S Unit).Within (· = .fence stream) (fun _ => False)
      Failed := by
  unfold replayFence
  split
  · exact ⟨rfl, trivial⟩
  · exact ⟨rfl, trivial⟩

theorem replayFence_run (stream : String) (token : Option String) (t : Txn Key (Val D S)) :
    ∃ t', (replayFence stream token).run t = .ok ((), t') ∧
      t'.view = fenced t.view stream token := by
  unfold replayFence fenced
  cases token.filter (· ≠ "") with
  | none => exact ⟨_, rfl, rfl⟩
  | some tok => exact ⟨_, rfl, rfl⟩

theorem replayOps_within (stamps : Nat → Nat → Stamp) : ∀ (j seq : Nat) (ops : List (Op D)),
    (replayOps stamps j seq ops : TxnM D S (List CommitInfo × Nat)).Within (fun _ => True)
      (fun _ => False) Failed
  | _, _, [] => trivial
  | j, seq, .append stream expected events :: ops => by
      refine Prog.Within.bind ?_ fun r => Prog.Within.bind (replayOps_within stamps _ _ ops)
        fun _ => trivial
      exact (replayAppend_within seq { stream, expected, events } true (stamps j)).mono
        (fun _ _ => trivial) (fun _ h => h) fun _ h => h
  | j, seq, .fence stream token :: ops => by
      refine Prog.Within.bind ?_ fun _ => replayOps_within stamps _ _ ops
      exact (replayFence_within stream token).mono (fun _ _ => trivial) (fun _ h => h) fun _ h => h

theorem replayOps_run {stamps : Nat → Nat → Stamp} : ∀ {j seq : Nat} {ops : List (Op D)}
    {t t' : Txn Key (Val D S)} {r : List CommitInfo × Nat},
    (replayOps stamps j seq ops).run t = .ok (r, t') →
      Replayed (ops.map Op.req) seq t.view r.1 r.2 t'.view
  | _, _, [], _, _, _, h => by
      cases h
      exact .nil
  | j, seq, .append stream expected events :: ops, t, t', r, h => by
      rw [replayOps] at h
      obtain ⟨r₁, t₁, h₁, h⟩ := Prog.run_bind_ok h
      obtain ⟨r₂, t₂, h₂, h⟩ := Prog.run_bind_ok h
      cases h
      obtain ⟨happ, hseq⟩ := replayAppend_run { stream, expected, events } h₁
      rw [hseq] at h₂
      exact .append happ (replayOps_run h₂)
  | j, seq, .fence stream token :: ops, t, t', r, h => by
      rw [replayOps] at h
      obtain ⟨u, t₁, h₁, h⟩ := Prog.run_bind_ok h
      obtain ⟨t₁', h₁', hv⟩ := replayFence_run stream token t
      rw [h₁] at h₁'
      cases h₁'
      exact .fence (hv ▸ replayOps_run h)

theorem appendBody_within (req : AppendReq D) (indexTs : Bool) (stamps : Nat → Stamp) :
    (appendBody req.stream req.expected req.fromVersion req.fenceToken req.events indexTs
      stamps : TxnM D S _).Within (fun _ => True) (· = .seq) Failed := by
  refine Prog.Within.bind (fun _ => trivial) fun seq =>
    Prog.Within.bind ?_ fun r => ⟨trivial, rfl, trivial⟩
  exact (replayAppend_within _ req indexTs stamps).mono (fun _ _ => trivial)
    (fun _ h => h.elim) fun _ h => h

theorem appendBody_run {req : AppendReq D} {indexTs : Bool} {stamps : Nat → Stamp}
    {σ : Db D S} {infos : List CommitInfo} {t : Txn Key (Val D S)}
    (h : (appendBody req.stream req.expected req.fromVersion req.fenceToken req.events indexTs
      stamps).run (.begin σ) = .ok (infos, t)) : Stamped [.append req] σ infos t.view := by
  obtain ⟨r, t₁, h₁, h⟩ := Prog.run_bind_ok
    (p := replayAppend (seqOf σ) req.stream req.expected req.fromVersion req.fenceToken
      req.events indexTs stamps) (t := (Txn.begin σ).noteRead (· = .seq)) h
  obtain ⟨happ, hseq⟩ := replayAppend_run req h₁
  cases h
  refine ⟨r.2, t₁.view, ?_, rfl⟩
  rw [hseq]
  exact .append happ .nil

theorem commitBody_within (ops : List (Op D)) (stamps : Nat → Nat → Stamp) :
    (commitBody ops stamps : TxnM D S _).Within (fun _ => True) (· = .seq) Failed := by
  refine Prog.Within.bind (fun _ => trivial) fun seq =>
    Prog.Within.bind ?_ fun r => ⟨trivial, rfl, trivial⟩
  exact (replayOps_within stamps _ _ ops).mono (fun _ _ => trivial) (fun _ h => h.elim)
    fun _ h => h

theorem commitBody_run {ops : List (Op D)} {stamps : Nat → Nat → Stamp} {σ : Db D S}
    {infos : List CommitInfo} {t : Txn Key (Val D S)}
    (h : (commitBody ops stamps).run (.begin σ) = .ok (infos, t)) :
    Stamped (ops.map Op.req) σ infos t.view := by
  obtain ⟨r, t₁, h₁, h⟩ := Prog.run_bind_ok
    (p := replayOps stamps 0 (seqOf σ) ops) (t := (Txn.begin σ).noteRead (· = .seq)) h
  cases h
  exact ⟨r.2, t₁.view, replayOps_run h₁, rfl⟩

/-! ## The other bodies -/

theorem fenceBody_within (stream : String) (token : Option String) :
    (fenceBody stream token : TxnM D S _).Within (· ≠ .seq) (fun _ => False) fun _ => True := by
  refine Prog.Within.bind (fun _ => trivial) fun t => Prog.Within.bind ?_ fun _ => trivial
  exact (replayFence_within stream token).mono (by rintro k rfl; simp) (fun _ h => h)
    fun _ _ => trivial

theorem fenceBody_run {stream : String} {token : Option String} {σ : Db D S}
    {infos : List CommitInfo} {t : Txn Key (Val D S)}
    (h : (fenceBody stream token).run (.begin σ) = .ok (infos, t)) :
    t.view = fenced σ stream token := by
  obtain ⟨u, t₁, h₁, h⟩ := Prog.run_bind_ok (p := replayFence stream token)
    (t := (Txn.begin σ).noteRead (· = .tail stream)) h
  obtain ⟨t₁', h₁', hv⟩ := replayFence_run stream token ((Txn.begin σ).noteRead (· = .tail stream))
  rw [h₁] at h₁'
  cases h₁'
  cases h
  exact hv

/-- A state with `child` forked off `parent`. -/
def forked (σ : Db D S) (parent : String) (atVersion : Nat) (child : String) (tsMs : Int) :
    Db D S :=
  ((σ.put (.fork child) { stream := parent, atVersion := atVersion }).put (.tail child)
    { version := atVersion, tsMs := tsMs }).put (.forks parent child) atVersion

theorem get_forked_of_ne {σ : Db D S} {parent child : String} {atVersion : Nat} {tsMs : Int}
    {k : Key} (h₁ : k ≠ .fork child) (h₂ : k ≠ .tail child) (h₃ : k ≠ .forks parent child) :
    (forked σ parent atVersion child tsMs).get k = σ.get k := by
  rw [forked, Store.get_put_of_ne _ _ h₃, Store.get_put_of_ne _ _ h₂, Store.get_put_of_ne _ _ h₁]

theorem forkBody_within (parent : String) (atVersion : Nat) (child : String) :
    (forkBody parent atVersion child : TxnM D S _).Within (· ≠ .seq) (fun _ => False)
      fun _ => True := by
  refine Prog.Within.bind (fun _ => trivial) fun parentTail => ?_
  cases parentTail with
  | none => trivial
  | some parentTail =>
      dsimp only
      split
      · trivial
      · refine Prog.Within.bind (fun _ => trivial) fun childTail => ?_
        split
        · trivial
        · exact ⟨by simp, by simp, by simp, trivial⟩

theorem forkBody_run {parent : String} {atVersion : Nat} {child : String} {σ : Db D S}
    {infos : List CommitInfo} {t : Txn Key (Val D S)}
    (h : (forkBody parent atVersion child).run (.begin σ) = .ok (infos, t)) :
    ∃ parentTail, σ.get (.tail parent) = some parentTail ∧ atVersion ≤ parentTail.version ∧
      σ.get (.tail child) = none ∧
      t.view = forked σ parent atVersion child parentTail.tsMs := by
  unfold forkBody tail at h
  rw [Prog.run_read_bind] at h
  cases hp : σ.get (.tail parent) with
  | none => simp [hp] at h
  | some parentTail =>
      simp only [Txn.view_begin, hp] at h
      by_cases hlt : parentTail.version < atVersion
      · simp [hlt] at h
      · rw [if_neg hlt, Prog.run_read_bind] at h
        cases hc : σ.get (.tail child) with
        | some childTail => simp [hc] at h
        | none =>
            simp only [Txn.view_noteRead, Txn.view_begin, hc] at h
            cases h
            exact ⟨parentTail, rfl, Nat.le_of_not_lt hlt, rfl, rfl⟩

theorem trimBody_within (stream : String) (fromVersion txn : Nat) :
    (trimBody stream fromVersion txn : TxnM D S _).Within (· ≠ .seq) (fun _ => False)
      fun _ => True :=
  fun _ => ⟨by simp, trivial⟩

theorem trimBody_run {stream : String} {fromVersion txn : Nat} {σ : Db D S}
    {infos : List CommitInfo} {t : Txn Key (Val D S)}
    (h : (trimBody stream fromVersion txn).run (.begin σ) = .ok (infos, t)) :
    t.view = σ.put (.rollback stream fromVersion) txn := by
  cases h
  rfl

theorem trimBelowBody_within (stream : String) (floor : Nat) :
    (trimBelowBody stream floor : TxnM D S _).Within (· ≠ .seq) (fun _ => False) fun _ => True :=
  fun _ _ => ⟨by simp, trivial⟩

/-- The floor that a trim of a stream stores. -/
def trimFloor (σ : Db D S) (stream : String) (floor : Nat) : Nat :=
  max ((tailVersion σ stream).elim floor fun v => min floor (v + 1)) ((σ.get (.trim stream)).getD 0)

theorem trimBelowBody_run {stream : String} {floor : Nat} {σ : Db D S}
    {infos : List CommitInfo} {t : Txn Key (Val D S)}
    (h : (trimBelowBody stream floor).run (.begin σ) = .ok (infos, t)) :
    t.view = σ.put (.trim stream) (trimFloor σ stream floor) := by
  cases h
  unfold trimFloor tailVersion
  cases hv : σ.get (.tail stream) with
  | none => simp [Txn.noteRead, Txn.begin, Txn.noteWrite, Store.apply, hv]
  | some tail => simp [Txn.noteRead, Txn.begin, Txn.noteWrite, Store.apply, hv]

theorem deleteStreamBody_within (stream : String) :
    (deleteStreamBody stream : TxnM D S _).Within (· ≠ .seq) (fun _ => False) fun _ => True := by
  refine Prog.Within.bind (fun _ => trivial) fun t => ?_
  split
  · exact ⟨by simp, trivial⟩
  · trivial

theorem deleteStreamBody_run {stream : String} {σ : Db D S} {infos : List CommitInfo}
    {t : Txn Key (Val D S)}
    (h : (deleteStreamBody stream).run (.begin σ) = .ok (infos, t)) :
    (σ.get (.tail stream)).isSome = true ∧ t.view = σ.put (.deleted stream) () := by
  unfold deleteStreamBody tail at h
  rw [Prog.run_read_bind] at h
  by_cases ht : (σ.get (.tail stream)).isSome = true
  · rw [if_pos (by simpa using ht)] at h
    cases h
    exact ⟨ht, rfl⟩
  · rw [if_neg (by simpa using ht)] at h
    cases h

/-- A state without some records of a stream. -/
def purged (σ : Db D S) (stream : String) (versions : List Nat) : Db D S :=
  versions.foldl (fun σ v => σ.delete (.record stream v)) σ

theorem get_purged_of_ne {stream : String} {k : Key} : ∀ (versions : List Nat) (σ : Db D S),
    (∀ v ∈ versions, k ≠ .record stream v) → (purged σ stream versions).get k = σ.get k
  | [], _, _ => rfl
  | v :: versions, σ, h => by
      rw [purged, List.foldl_cons]
      refine (get_purged_of_ne versions _ fun w hw => h w (List.mem_cons_of_mem _ hw)).trans ?_
      exact Store.get_delete_of_ne σ (h v List.mem_cons_self)

theorem get_purged_of_mem {stream : String} {v : Nat} : ∀ (versions : List Nat) (σ : Db D S),
    v ∈ versions → (purged σ stream versions).get (.record stream v) = none
  | w :: versions, σ, h => by
      rw [purged, List.foldl_cons]
      by_cases hv : v ∈ versions
      · exact get_purged_of_mem versions _ hv
      · obtain rfl : v = w := (List.mem_cons.mp h).resolve_right hv
        refine (get_purged_of_ne versions _ fun u hu hk => hv ?_).trans
          (Store.get_delete_self σ _)
        cases hk
        exact hu

theorem deleteRecords_within (stream : String) : ∀ versions : List Nat,
    (deleteRecords stream versions : TxnM D S _).Within (· ≠ .seq) (fun _ => False) fun _ => True
  | [] => trivial
  | _ :: versions => ⟨by simp, deleteRecords_within stream versions⟩

theorem deleteRecords_run (stream : String) : ∀ (versions : List Nat) (t : Txn Key (Val D S)),
    ∃ t', (deleteRecords stream versions).run t = .ok ([], t') ∧
      t'.view = purged t.view stream versions
  | [], t => ⟨t, rfl, rfl⟩
  | v :: versions, t => deleteRecords_run stream versions (t.noteWrite ⟨.record stream v, none⟩)

/-- A state with a published snapshot and its announcement. -/
def published (σ : Db D S) (stream : String) (record : CompactionRecord) (state : S)
    (ulid : String) : Db D S :=
  ((σ.put (.snap stream (seqOf σ + 1))
    { throughVersion := record.throughVersion, tsMs := record.tsMs, state := state }).put
      (.compaction ulid) record).put .seq (seqOf σ + 1)

theorem get_published_of_ne {σ : Db D S} {stream : String} {record : CompactionRecord}
    {state : S} {ulid : String} {k : Key} (h₁ : k ≠ .seq) (h₂ : k ≠ .compaction ulid)
    (h₃ : ∀ n, k ≠ .snap stream n) : (published σ stream record state ulid).get k = σ.get k := by
  rw [published, Store.get_put_of_ne _ _ h₁, Store.get_put_of_ne _ _ h₂,
    Store.get_put_of_ne _ _ (h₃ _)]

theorem publishBody_within (stream : String) (record : CompactionRecord) (state : S)
    (ulid : String) :
    (publishBody stream record state ulid : TxnM D S _).Within (fun _ => True) (· = .seq)
      fun _ => True :=
  fun _ => ⟨trivial, trivial, trivial, rfl, trivial⟩

theorem publishBody_run {stream : String} {record : CompactionRecord} {state : S}
    {ulid : String} {σ : Db D S} {infos : List CommitInfo} {t : Txn Key (Val D S)}
    (h : (publishBody stream record state ulid).run (.begin σ) = .ok (infos, t)) :
    t.view = published σ stream record state ulid := by
  cases h
  rfl

end

end Landslide
