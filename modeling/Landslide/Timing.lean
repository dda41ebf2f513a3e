import Landslide.Marks

/-!
# Timestamps

An append draws a timestamp for every event, raises it to the last one of the stream and
leaves it with the tail.  `Timed` says what it does to the records, the index and the
tail, and `reach_attempts` carries what every attempt keeps to every state reached.
-/

namespace Landslide

open TxnKv Std

section

variable {D S : Type}

/-! ## Batches -/

/-- The timestamp of the tail of a stream. -/
def tailTs (σ : Db D S) (stream : String) : Int := (σ.get (.tail stream)).elim 0 (·.tsMs)

/-- The envelopes of a batch from event `i` on. -/
def batch (first startSeq : Nat) (stamps : Nat → Stamp) :
    Nat → Int → List (NewEvent D) → List (Envelope D)
  | _, _, [] => []
  | i, lastTs, e :: events =>
      let env := batchEnvelope first startSeq stamps i lastTs e
      env :: batch first startSeq stamps (i + 1) env.tsMs events

theorem batch_versions (first startSeq : Nat) (stamps : Nat → Stamp)
    (events : List (NewEvent D)) : ∀ (i : Nat) (lastTs : Int),
      (batch first startSeq stamps i lastTs events).map (·.version) =
        List.range' (first + i) events.length := by
  induction events with
  | nil => exact fun _ _ => rfl
  | cons e events ih =>
      intro i lastTs
      rw [batch, List.map_cons, ih, List.length_cons, List.range'_succ, Nat.add_assoc]
      rfl

/-- Timestamps never move backwards in a batch. -/
theorem batch_ordered (first startSeq : Nat) (stamps : Nat → Stamp)
    (events : List (NewEvent D)) : ∀ (i : Nat) (lastTs : Int),
      (lastTs :: (batch first startSeq stamps i lastTs events).map (·.tsMs)).Pairwise (· ≤ ·) := by
  induction events with
  | nil => exact fun _ _ => List.pairwise_singleton _ _
  | cons e events ih =>
      intro i lastTs
      have hle : lastTs ≤ (batchEnvelope first startSeq stamps i lastTs e).tsMs := le_max_right _ _
      have hrest := ih (i + 1) (batchEnvelope first startSeq stamps i lastTs e).tsMs
      rw [batch, List.map_cons, List.pairwise_cons]
      refine ⟨fun ts hts => ?_, hrest⟩
      rcases List.mem_cons.mp hts with rfl | hts
      · exact hle
      · exact hle.trans ((List.pairwise_cons.mp hrest).1 ts hts)

/-- An index row stays when another one is written. -/
theorem get_ts_apply {σ : Db D S} {stream : String} {ts : Int} {v : Nat}
    (h : σ.get (.ts stream ts v) = some ()) (s : String) (ts' : Int) (v' : Nat) :
    (σ.apply ⟨.ts s ts' v', some ()⟩).get (.ts stream ts v) = some () := by
  by_cases heq : Key.ts stream ts v = .ts s ts' v'
  · cases heq
    exact Store.get_apply_self ..
  · rw [Store.get_apply_of_ne _ _ heq]
    exact h

/-- Writing a batch stores its envelopes and indexes them, and the last timestamp is told. -/
theorem putRecords_batch (stream : String) (indexTs : Bool) (first startSeq : Nat)
    (stamps : Nat → Stamp) (events : List (NewEvent D)) :
    ∀ (i : Nat) (lastTs : Int) (t : Txn Key (Val D S)),
      let envs := batch first startSeq stamps i lastTs events
      ∃ t', (putRecords stream indexTs first startSeq stamps i lastTs events).run t =
          .ok ((envs.map (·.tsMs)).getLastD lastTs, t') ∧
        (∀ env ∈ envs, t'.view.get (.record stream env.version) = some env ∧
          (indexTs = true → t'.view.get (.ts stream env.tsMs env.version) = some ())) ∧
        ∀ s ts v, t.view.get (.ts s ts v) = some () → t'.view.get (.ts s ts v) = some () := by
  induction events with
  | nil => exact fun i lastTs t => ⟨t, rfl, by simp [batch], fun _ _ _ h => h⟩
  | cons e events ih =>
      intro i lastTs t
      dsimp only
      rw [batch]
      generalize henv : batchEnvelope first startSeq stamps i lastTs e = env
      have hversion : env.version = first + i := by rw [← henv]; rfl
      -- the state in which the rest of the batch is written
      obtain ⟨u, hu, hrec, hts, hkept⟩ : ∃ u : Txn Key (Val D S),
          (putRecords stream indexTs first startSeq stamps i lastTs (e :: events)).run t =
            (putRecords stream indexTs first startSeq stamps (i + 1) env.tsMs events).run u ∧
          u.view.get (.record stream (first + i)) = some env ∧
          (indexTs = true → u.view.get (.ts stream env.tsMs (first + i)) = some ()) ∧
          ∀ s ts v, t.view.get (.ts s ts v) = some () → u.view.get (.ts s ts v) = some () := by
        subst henv
        cases indexTs with
        | true =>
            refine ⟨_, rfl, ?_, fun _ => ?_, fun s ts v h => ?_⟩
            · rw [Txn.view_noteWrite, Txn.view_noteWrite, Store.get_apply_of_ne _ _ (by simp),
                Store.get_apply_self]
            · rw [Txn.view_noteWrite, Store.get_apply_self]
            · rw [Txn.view_noteWrite, Txn.view_noteWrite]
              refine get_ts_apply ?_ _ _ _
              rw [Store.get_apply_of_ne _ _ (by simp)]
              exact h
        | false =>
            refine ⟨_, rfl, ?_, Bool.noConfusion, fun s ts v h => ?_⟩
            · rw [Txn.view_noteWrite, Store.get_apply_self]
            · rw [Txn.view_noteWrite, Store.get_apply_of_ne _ _ (by simp)]
              exact h
      obtain ⟨t', hr, henvs, hkept'⟩ := ih (i + 1) env.tsMs u
      refine ⟨t', ?_, fun env' hmem => ?_, fun s ts v h => hkept' s ts v (hkept s ts v h)⟩
      · rw [hu, hr, List.map_cons, List.getLastD_cons]
      · rcases List.mem_cons.mp hmem with rfl | hmem
        · rw [hversion]
          refine ⟨?_, fun h => hkept' _ _ _ (hts h)⟩
          rw [(putRecords_within stream indexTs first startSeq stamps events (i + 1) _).get_view hr]
          · exact hrec
          · rintro (⟨v, h₁, -, h₂⟩ | ⟨_, _, h₂⟩)
            · simp only [Key.record.injEq, true_and] at h₂
              omega
            · cases h₂
        · exact henvs env' hmem

/-! ## Appends -/

/-- The append `req`, replayed on `σ` with the index on or off, wrote `envs`. -/
structure Timed (req : AppendReq D) (indexTs : Bool) (σ : Db D S) (envs : List (Envelope D))
    (σ' : Db D S) : Prop where
  versions : envs.map (·.version) =
    List.range' (req.fromVersion.getD (nextVersion σ req.stream)) req.events.length
  stored : ∀ env ∈ envs, σ'.get (.record req.stream env.version) = some env
  others : ∀ v, (∀ env ∈ envs, env.version ≠ v) →
    σ'.get (.record req.stream v) = σ.get (.record req.stream v)
  ordered : (tailTs σ req.stream :: envs.map (·.tsMs)).Pairwise (· ≤ ·)
  tail : tailTs σ' req.stream = (envs.map (·.tsMs)).getLastD (tailTs σ req.stream)
  indexed : indexTs = true → ∀ env ∈ envs,
    σ'.get (.ts req.stream env.tsMs env.version) = some ()
  kept : ∀ s ts v, σ.get (.ts s ts v) = some () → σ'.get (.ts s ts v) = some ()

theorem replayAppend_timed {seq : Nat} (req : AppendReq D) {indexTs : Bool}
    {stamps : Nat → Stamp} {t t' : Txn Key (Val D S)} {r : CommitInfo × Nat}
    (h : (replayAppend seq req.stream req.expected req.fromVersion req.fenceToken req.events
      indexTs stamps).run t = .ok (r, t')) : ∃ envs, Timed req indexTs t.view envs t'.view := by
  obtain ⟨-, -, -, rfl, t₁, t₂, ts, hv₁, hput, hview⟩ := replayAppend_inv req h
  obtain ⟨t₂', hput', hstored, hkept⟩ := putRecords_batch req.stream indexTs
    (req.fromVersion.getD (nextVersion t.view req.stream)) (seq + 1) stamps req.events 0
    (tailTs t.view req.stream) t₁
  obtain ⟨rfl, rfl⟩ : _ = ts ∧ t₂' = t₂ := Prod.mk.inj (Except.ok.inj (hput'.symm.trans hput))
  have hget : ∀ k, k ≠ .tail req.stream → t'.view.get k = t₂'.view.get k := fun k hk => by
    rw [hview, Store.get_put_of_ne _ _ hk]
  have hversions := batch_versions (req.fromVersion.getD (nextVersion t.view req.stream)) (seq + 1)
    stamps req.events 0 (tailTs t.view req.stream)
  refine ⟨_, hversions, fun env hmem => ?_, fun v hv => ?_, batch_ordered _ _ _ _ _ _, ?_,
    fun hindex env hmem => ?_, fun s ts v h => ?_⟩
  · rw [hget _ (by simp)]
    exact (hstored env hmem).1
  · rw [hget _ (by simp), (putRecords_within _ _ _ _ _ _ _ _).get_view hput, hv₁]
    rintro (⟨w, hlo, hhi, heq⟩ | ⟨_, _, heq⟩)
    · cases heq
      obtain ⟨env, hmem, rfl⟩ := List.mem_map.mp
        (hversions ▸ List.mem_range'_1.mpr ⟨hlo, hhi⟩)
      exact hv env hmem rfl
    · cases heq
  · rw [hview, tailTs, Store.get_put_self]
    rfl
  · rw [hget _ (by simp)]
    exact (hstored env hmem).2 hindex
  · rw [hget _ (by simp)]
    exact hkept s ts v (by rwa [hv₁])

/-! ## Attempts -/

/-- The bodies that a call runs, with what it draws. -/
def Call.Attempt : Call D S → TxnM D S (List CommitInfo) → Prop
  | .append stream expected events stamps, body =>
      ∃ n, body = appendBody stream expected none none events true (stamps n)
  | .appendWithToken stream token expected events indexTs stamps, body =>
      ∃ n, body = appendBody stream expected none (some token) events indexTs (stamps n)
  | .appendAt stream fromVersion expected events stamps, body =>
      ∃ n, body = appendBody stream expected (some fromVersion) none events true (stamps n)
  | call, body => call.Body body

theorem Call.Attempt.body {call : Call D S} {body : TxnM D S (List CommitInfo)}
    (h : call.Attempt body) : call.Body body := by
  cases call with
  | append | appendWithToken | appendAt =>
      obtain ⟨n, rfl⟩ := h
      exact ⟨_, _, rfl⟩
  | commit | fence | fork | trim | trimBelow | purgeBelow | deleteStream | publishSnapshot
  | compact => exact h

/-- The appends of a call, each with whether it is indexed. -/
def Call.indexing : Call D S → List (AppendReq D × Bool)
  | .append stream expected events _ => [({ stream, expected, events }, true)]
  | .appendWithToken stream token expected events indexTs _ =>
      [({ stream, expected, fenceToken := some token, events }, indexTs)]
  | .appendAt stream fromVersion expected events _ =>
      [({ stream, expected, fromVersion := some fromVersion, events }, true)]
  | .commit ops _ => ops.filterMap fun
      | .append stream expected events => some ({ stream, expected, events }, true)
      | .fence _ _ => none
  | _ => []

section

variable {P : Db D S → Prop}

theorem appendBody_keeps (req : AppendReq D) {indexTs : Bool} {stamps : Nat → Stamp}
    (hcongr : ∀ {σ σ' : Db D S}, P σ → (∀ k, k ≠ .seq → σ'.get k = σ.get k) → P σ')
    (happend : ∀ {seq σ info envs σ'}, Appended req seq σ info σ' →
      Timed req indexTs σ envs σ' → P σ → P σ') {σ : Db D S} {infos : List CommitInfo}
    {t : Txn Key (Val D S)}
    (h : (appendBody req.stream req.expected req.fromVersion req.fenceToken req.events indexTs
      stamps).run (.begin σ) = .ok (infos, t)) (hP : P σ) : P t.view := by
  obtain ⟨r, t₁, h₁, h⟩ := Prog.run_bind_ok
    (p := replayAppend (seqOf σ) req.stream req.expected req.fromVersion req.fenceToken
      req.events indexTs stamps) (t := (Txn.begin σ).noteRead (· = .seq)) h
  cases h
  obtain ⟨envs, htimed⟩ := replayAppend_timed req h₁
  refine hcongr (happend (replayAppend_run req h₁).1 htimed hP) fun k hk => ?_
  exact Store.get_put_of_ne _ _ hk

theorem replayOps_keeps {stamps : Nat → Nat → Stamp}
    (hfence : ∀ {σ : Db D S} (s : String) (token : Option String), P σ → P (fenced σ s token)) :
    ∀ {j seq : Nat} {ops : List (Op D)} {t t' : Txn Key (Val D S)} {r : List CommitInfo × Nat},
      (∀ stream expected events, Op.append stream expected events ∈ ops →
        ∀ {seq σ info envs σ'}, Appended { stream, expected, events } seq σ info σ' →
          Timed { stream, expected, events } true σ envs σ' → P σ → P σ') →
      (replayOps stamps j seq ops).run t = .ok (r, t') → P t.view → P t'.view
  | _, _, [], _, _, _, _, h, hP => by
      cases h
      exact hP
  | j, seq, .append stream expected events :: ops, t, t', r, happend, h, hP => by
      rw [replayOps] at h
      obtain ⟨r₁, t₁, h₁, h⟩ := Prog.run_bind_ok h
      obtain ⟨r₂, t₂, h₂, h⟩ := Prog.run_bind_ok h
      cases h
      obtain ⟨envs, htimed⟩ := replayAppend_timed { stream, expected, events } h₁
      refine replayOps_keeps hfence (fun s e evs hmem => happend s e evs (.tail _ hmem)) h₂ ?_
      exact happend stream expected events List.mem_cons_self
        (replayAppend_run { stream, expected, events } h₁).1 htimed hP
  | j, seq, .fence stream token :: ops, t, t', r, happend, h, hP => by
      rw [replayOps] at h
      obtain ⟨u, t₁, h₁, h⟩ := Prog.run_bind_ok h
      obtain ⟨t₁', h₁', hv⟩ := replayFence_run stream token t
      rw [h₁] at h₁'
      cases h₁'
      refine replayOps_keeps hfence (fun s e evs hmem => happend s e evs (.tail _ hmem)) h ?_
      rw [hv]
      exact hfence stream token hP

/-- What every append and fence of an appending call keeps, its attempts keep. -/
theorem Call.Attempt.keeps {call : Call D S} {body : TxnM D S (List CommitInfo)}
    (hbody : call.Attempt body) (h : call.Appends)
    (hcongr : ∀ {σ σ' : Db D S}, P σ → (∀ k, k ≠ .seq → σ'.get k = σ.get k) → P σ')
    (hfence : ∀ {σ : Db D S} (s : String) (token : Option String), P σ → P (fenced σ s token))
    (happend : ∀ req indexTs, (req, indexTs) ∈ call.indexing → ∀ {seq σ info envs σ'},
      Appended req seq σ info σ' → Timed req indexTs σ envs σ' → P σ → P σ')
    {σ : Db D S} {infos : List CommitInfo} {t : Txn Key (Val D S)}
    (hr : body.run (.begin σ) = .ok (infos, t)) (hP : P σ) : P t.view := by
  cases call with
  | append stream expected events stamps =>
      obtain ⟨n, rfl⟩ := hbody
      exact appendBody_keeps { stream, expected, events } hcongr
        (happend _ _ List.mem_cons_self) hr hP
  | appendWithToken stream token expected events indexTs stamps =>
      obtain ⟨n, rfl⟩ := hbody
      exact appendBody_keeps { stream, expected, fenceToken := some token, events } hcongr
        (happend _ _ List.mem_cons_self) hr hP
  | appendAt stream fromVersion expected events stamps =>
      obtain ⟨n, rfl⟩ := hbody
      exact appendBody_keeps { stream, expected, fromVersion := some fromVersion, events } hcongr
        (happend _ _ List.mem_cons_self) hr hP
  | commit ops stamps =>
      cases hbody
      obtain ⟨r, t₁, h₁, hr⟩ := Prog.run_bind_ok
        (p := replayOps stamps 0 (seqOf σ) ops) (t := (Txn.begin σ).noteRead (· = .seq)) hr
      cases hr
      refine hcongr (replayOps_keeps hfence (fun s e evs hmem => ?_) h₁ hP) fun k hk =>
        Store.get_put_of_ne _ _ hk
      exact happend _ _ (List.mem_filterMap.mpr ⟨_, hmem, rfl⟩)
  | fence | fork | trim | trimBelow | purgeBelow | deleteStream | publishSnapshot | compact =>
      exact h.elim

end

end

end Landslide
