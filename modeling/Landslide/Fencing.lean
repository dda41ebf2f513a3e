import Landslide.History

/-!
# Fencing

A fenced stream takes appends with a token only when the token is the current
one.  The check reads the fence in the snapshot of the appending transaction,
and the fence is set by transactions that never touch the tail, so the check
holds at the commit point only because the read is tracked: a transaction that
read an old fence is refused.
-/

namespace Landslide

open TxnKv Std

section

variable {D S : Type}

/-- The last fence that the requests put on a stream. -/
def lastFence (stream : String) : List (Req D) → Option (Option String)
  | [] => none
  | .append _ :: reqs => lastFence stream reqs
  | .fence s token :: reqs =>
      (lastFence stream reqs).or (if s = stream then some token else none)

/-- The fence key of a stream after the fence `last`, if there is one. -/
def fenceAfter (current : Option String) : Option (Option String) → Option String
  | none => current
  | some token => token.filter (· ≠ "")

theorem Appended.fence_eq {req : AppendReq D} {seq : Nat} {σ σ' : Db D S} {info : CommitInfo}
    (h : Appended req seq σ info σ') (stream : String) :
    σ'.get (.fence stream) = σ.get (.fence stream) :=
  h.frame _ (by simp) (by simp) (by simp)

theorem Replayed.fence_eq {reqs : List (Req D)} {seq seq' : Nat} {σ σ' : Db D S}
    {infos : List CommitInfo} (h : Replayed reqs seq σ infos seq' σ') (stream : String) :
    σ'.get (.fence stream) = fenceAfter (σ.get (.fence stream)) (lastFence stream reqs) := by
  induction h with
  | nil => rfl
  | @append req reqs seq seq' σ σ₁ σ' info infos happ _ ih =>
      rw [ih, happ.fence_eq]
      rfl
  | @fence s token reqs seq seq' σ σ' infos _ ih =>
      rw [ih, lastFence]
      cases lastFence stream reqs with
      | some token' => rfl
      | none =>
          by_cases hs : s = stream
          · subst hs
            simp [fenceAfter]
          · simp [fenceAfter, hs, get_fenced_of_ne σ s token (k := .fence stream) (by simp [Ne.symm hs])]

/-- What a committed transaction does to the fence of a stream. -/
theorem Call.Effect.fence_eq {call : Call D S} {σ σ' : Db D S} {infos : List CommitInfo}
    (h : call.Effect σ infos σ') (stream : String) :
    σ'.get (.fence stream) = fenceAfter (σ.get (.fence stream)) (lastFence stream call.reqs) := by
  have stamped : Stamped call.reqs σ infos σ' → σ'.get (.fence stream) =
      fenceAfter (σ.get (.fence stream)) (lastFence stream call.reqs) := by
    rintro ⟨seq', σ₁, hr, rfl⟩
    rw [Store.get_put_of_ne _ _ (by simp)]
    exact hr.fence_eq stream
  have published_eq : ∀ s record state ulid, σ' = published σ s record state ulid →
      σ'.get (.fence stream) = σ.get (.fence stream) := by
    rintro s record state ulid rfl
    exact get_published_of_ne (by simp) (by simp) (by simp)
  cases call with
  | append | appendWithToken | appendAt | commit => exact stamped h
  | fence s token =>
      cases h
      by_cases hs : s = stream
      · subst hs
        simp [fenceAfter, lastFence, Call.reqs]
      · simp [fenceAfter, lastFence, Call.reqs, hs,
          get_fenced_of_ne σ s token (k := .fence stream) (by simp [Ne.symm hs])]
  | fork parent atVersion child =>
      obtain ⟨parentTail, -, -, -, rfl⟩ := h
      exact get_forked_of_ne (by simp) (by simp) (by simp)
  | trim | trimBelow => cases h; exact Store.get_put_of_ne _ _ (by simp)
  | purgeBelow s floor =>
      obtain ⟨versions, rfl⟩ := h
      exact get_purged_of_ne versions σ (by simp)
  | deleteStream s => obtain ⟨-, rfl⟩ := h; exact Store.get_put_of_ne _ _ (by simp)
  | publishSnapshot s record state ulid => exact published_eq s record state ulid h
  | compact depth s jobId build nowMs ulid =>
      obtain ⟨record, state, h⟩ := h
      exact published_eq s record state ulid h

/-- Along a log the fence of a stream is set only by the entries that fence it. -/
theorem fence_reach [Payload D] (acts : Schedule D S) {n : Nat} {c : Entry D S}
    (hc : (reach acts).log[n]? = some c) (stream : String) :
    (stateOf (reach acts).log (n + 1)).get (.fence stream) =
      fenceAfter ((stateOf (reach acts).log n).get (.fence stream))
        (lastFence stream c.call.reqs) := by
  obtain ⟨σ', heff, hsucc, -⟩ := effect_reach acts hc
  rw [hsucc _ (by simp), heff.fence_eq, get_viewOf (by simp)]

/-- A fence stays until an entry fences the stream again. -/
theorem fence_reach_of_le [Payload D] (acts : Schedule D S) (stream : String) {i j : Nat}
    (hij : i ≤ j) (hj : j ≤ (reach acts).log.length)
    (hfree : ∀ k e, i ≤ k → k < j → (reach acts).log[k]? = some e →
      lastFence stream e.call.reqs = none) :
    (stateOf (reach acts).log j).get (.fence stream) =
      (stateOf (reach acts).log i).get (.fence stream) := by
  induction j, hij using Nat.le_induction with
  | base => rfl
  | succ j hij ih =>
      obtain ⟨e, he⟩ : ∃ e, (reach acts).log[j]? = some e := ⟨_, List.getElem?_eq_getElem hj⟩
      rw [fence_reach acts he, hfree j e hij (Nat.lt_succ_self j) he]
      exact ih (Nat.le_of_succ_le hj) fun k e' hk hkj he' =>
        hfree k e' hk (Nat.lt_succ_of_lt hkj) he'

/-- The commit order respects the fences. -/
structure FenceSafe (w : World D S) : Prop where
  /-- An append with a token that succeeded was committed. -/
  committed : ∀ r ∈ w.returned, ∀ stream token expected events indexTs stamps,
    r.call = .appendWithToken stream token expected events indexTs stamps →
      ∀ reply, r.result = .ok reply → ∃ c ∈ w.log, c.id = r.id ∧ c.call = r.call
  /-- It was committed where the stream was not fenced, or fenced with its token. -/
  current : ∀ n c stream token expected events indexTs stamps, w.log[n]? = some c →
    c.call = .appendWithToken stream token expected events indexTs stamps →
      (stateOf w.log n).get (.fence stream) = none ∨
        (stateOf w.log n).get (.fence stream) = some token
  /-- After a fence with a token, only that token is committed until the next
  fence of the stream. -/
  exclusive : ∀ (i j : Nat) (c d : Entry D S) stream token' token expected events indexTs stamps,
    w.log[i]? = some c → lastFence stream c.call.reqs = some (some token') → token' ≠ "" →
    i < j → w.log[j]? = some d →
    (∀ (k : Nat) (e : Entry D S), i < k → k < j → w.log[k]? = some e →
      lastFence stream e.call.reqs = none) →
    d.call = .appendWithToken stream token expected events indexTs stamps → token = token'

/-- Whatever the overlap of fences and appends, no append with a stale token is
committed. -/
theorem fence_excludes_other_tokens [Payload D] (acts : Schedule D S) :
    FenceSafe (reach acts) := by
  have current : ∀ n (c : Entry D S) stream token expected events indexTs stamps,
      (reach acts).log[n]? = some c →
      c.call = .appendWithToken stream token expected events indexTs stamps →
      ∀ held, (stateOf (reach acts).log n).get (.fence stream) = some held → held = token := by
    intro n c stream token expected events indexTs stamps hc hcall held hheld
    obtain ⟨σ', heff, -, -⟩ := effect_reach acts hc
    rw [hcall] at heff
    obtain ⟨seq', σ₁, hr, -⟩ := heff
    rw [← get_viewOf (c := c) (by simp)] at hheld
    generalize c.value = infos at hr
    cases hr with
    | append happ _ => exact happ.fence token held rfl hheld
  refine ⟨?_, ?_, ?_⟩
  · intro r hr stream token expected events indexTs stamps hcall reply hok
    have happ : r.call.Appends := by rw [hcall]; trivial
    rcases (replies_reach acts).returned r hr happ with ⟨⟨e, he⟩, -⟩ | ⟨c, hc, hid, hcall, -⟩
    · rw [hok] at he
      cases he
    · exact ⟨c, hc, hid, hcall⟩
  · intro n c stream token expected events indexTs stamps hc hcall
    cases hheld : (stateOf (reach acts).log n).get (.fence stream) with
    | none => exact .inl rfl
    | some held =>
        exact .inr (congrArg some
          (current n c stream token expected events indexTs stamps hc hcall held hheld))
  · intro i j c d stream token' token expected events indexTs stamps hc hfence hne hij hd hfree hcall
    have hj : j ≤ (reach acts).log.length :=
      Nat.le_of_lt (List.getElem?_eq_some_iff.mp hd).1
    have hset : (stateOf (reach acts).log (i + 1)).get (.fence stream) = some token' := by
      rw [fence_reach acts hc, hfence]
      simp [fenceAfter, hne]
    have hheld := fence_reach_of_le acts stream hij hj fun k e hk => hfree k e hk
    rw [hset] at hheld
    exact (current j d stream token expected events indexTs stamps hd hcall token' hheld).symm

end

end Landslide
