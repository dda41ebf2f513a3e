import Landslide.Chains
import Landslide.Sequence

/-!
# Calls that go past a stream

A stream that one client appends to and takes snapshots of.  What every other call does
to it (`Call.Effect.aside`): records go and none comes, the floor rises, and the marks
of a fork, a rollback or a deletion stay once they are there.
-/

namespace Landslide

open TxnKv Std

section

variable {D S : Type}

/-- The calls that publish a snapshot of a stream. -/
def Call.PublishesOf (stream : String) : Call D S → Prop
  | .publishSnapshot s _ _ _ => s = stream
  | .compact _ s _ _ _ _ => s = stream
  | _ => False

/-- A stream that is no fork, and was neither deleted nor rolled back. -/
structure Unmarked (σ : Db D S) (stream : String) : Prop where
  fork : σ.get (.fork stream) = none
  deleted : σ.get (.deleted stream) = none
  windows : ∀ v, σ.get (.rollback stream v) = none

/-- What calls do to a stream that they neither append to nor publish snapshots of. -/
structure Aside (stream : String) (σ σ' : Db D S) : Prop where
  records : ∀ v (env : Envelope D), σ'.get (.record stream v) = some env →
    σ.get (.record stream v) = some env
  snaps : ∀ m, σ'.get (.snap stream m) = σ.get (.snap stream m)
  seq : seqOf σ ≤ seqOf σ'
  next : nextVersion σ stream ≤ nextVersion σ' stream
  floor : floorOf σ stream ≤ floorOf σ' stream
  unmarked : Unmarked σ' stream → Unmarked σ stream

namespace Aside

variable {σ σ' : Db D S} {stream : String}

theorem refl (stream : String) (σ : Db D S) : Aside stream σ σ :=
  ⟨fun _ _ h => h, fun _ => rfl, le_rfl, le_rfl, le_rfl, id⟩

/-- A state with the same keys of the stream. -/
theorem of_agree (hσ : ∀ k, OfStream stream k → σ'.get k = σ.get k) (hseq : seqOf σ ≤ seqOf σ') :
    Aside stream σ σ' where
  records v env h := by
    rw [← hσ (.record stream v) rfl]
    exact h
  snaps m := hσ _ rfl
  seq := hseq
  next := by rw [nextVersion_congr (hσ (.tail stream) rfl)]
  floor := by rw [floorOf, floorOf, hσ (.trim stream) rfl]
  unmarked h := by
    refine ⟨?_, ?_, fun v => ?_⟩
    · rw [← hσ (.fork stream) rfl]
      exact h.fork
    · rw [← hσ (.deleted stream) rfl]
      exact h.deleted
    · rw [← hσ (.rollback stream v) rfl]
      exact h.windows v

/-- A new value of a key that is not one of the stream. -/
theorem of_put {k : Key} (x : Val D S k) (hk : ¬ OfStream stream k) (hseq : k ≠ .seq) :
    Aside stream σ (σ.put k x) := by
  refine of_agree (fun k' hk' => Store.get_put_of_ne _ _ ?_) ?_
  · rintro rfl
    exact hk hk'
  · rw [seqOf, seqOf, Store.get_put_of_ne _ _ hseq.symm]

/-- Appends to other streams. -/
theorem of_replayed {reqs : List (Req D)} {seq seq' : Nat} {infos : List CommitInfo}
    (h : Replayed reqs seq σ infos seq' σ')
    (hreqs : ∀ req, Req.append req ∈ reqs → req.stream ≠ stream) :
    (∀ v, σ'.get (.record stream v) = σ.get (.record stream v)) ∧
      σ'.get (.tail stream) = σ.get (.tail stream) := by
  induction h with
  | nil => exact ⟨fun _ => rfl, rfl⟩
  | @append req reqs seq seq' σ σ₁ σ' info infos happ _ ih =>
      have hne : stream ≠ req.stream := (hreqs req List.mem_cons_self).symm
      obtain ⟨hrec, htail⟩ := ih fun r hr => hreqs r (List.mem_cons_of_mem _ hr)
      refine ⟨fun v => (hrec v).trans ?_, htail.trans ?_⟩
      · exact happ.frame _ (by simp) (by simp [hne]) (by simp)
      · exact happ.frame _ (by simp [hne]) (by simp) (by simp)
  | fence _ ih =>
      obtain ⟨hrec, htail⟩ := ih fun r hr => hreqs r (List.mem_cons_of_mem _ hr)
      exact ⟨fun v => (hrec v).trans (get_fenced_of_ne _ _ _ (by simp)),
        htail.trans (get_fenced_of_ne _ _ _ (by simp))⟩

theorem of_stamped {reqs : List (Req D)} {infos : List CommitInfo} (h : Stamped reqs σ infos σ')
    (hreqs : ∀ req, Req.append req ∈ reqs → req.stream ≠ stream) : Aside stream σ σ' := by
  obtain ⟨seq', σ₁, hr, rfl⟩ := h
  obtain ⟨hrec, htail⟩ := of_replayed hr hreqs
  refine of_agree (fun k hk => ?_) ?_
  · have hne : k ≠ .seq := by
      rintro rfl
      exact hk
    rw [Store.get_put_of_ne _ _ hne]
    cases k with
    | record s v =>
        cases hk
        exact hrec v
    | tail s =>
        cases hk
        exact htail
    | trim | deleted | fork | rollback | snap => exact hr.get_of_not_replay rfl
    | fence | forks | ts | compaction | seq => exact hk.elim
  · have hseq := hr.seq_eq
    rw [seqOf, seqOf, Store.get_put_self] at *
    simp only [Option.getD_some]
    omega

theorem of_published {s : String} (hs : s ≠ stream) (record : CompactionRecord) (state : S)
    (ulid : String) : Aside stream σ (published σ s record state ulid) := by
  refine of_agree (fun k hk => get_published_of_ne ?_ ?_ fun n => ?_) ?_
  · rintro rfl
    exact hk
  · rintro rfl
    exact hk
  · rintro rfl
    exact hs hk
  · rw [seqOf, seqOf, published, Store.get_put_self]
    exact Nat.le_succ _

/-- A new fork, of the stream or of another one. -/
theorem of_forked {parent child : String} {atVersion : Nat} {tsMs : Int}
    (hchild : σ.get (.tail child) = none) :
    Aside stream σ (forked σ parent atVersion child tsMs) := by
  by_cases hne : stream = child
  · subst hne
    have other : ∀ k : Key, (∀ s, k ≠ .fork s) → (∀ s, k ≠ .tail s) → (∀ p c, k ≠ .forks p c) →
        (forked σ parent atVersion stream tsMs).get k = σ.get k :=
      fun k hf ht hp => get_forked_of_ne (hf _) (ht _) (hp _ _)
    refine ⟨fun v env h => ?_, fun m => other _ (by simp) (by simp) (by simp), ?_, ?_, ?_, fun h => ?_⟩
    · rw [← other (.record stream v) (by simp) (by simp) (by simp)]
      exact h
    · rw [seqOf, seqOf, other _ (by simp) (by simp) (by simp)]
    · rw [nextVersion, tailVersion, hchild]
      exact Nat.zero_le _
    · rw [floorOf, floorOf, other _ (by simp) (by simp) (by simp)]
    · have hfork := h.fork
      rw [get_forked_fork] at hfork
      cases hfork
  · refine of_agree (fun k hk => get_forked_of_ne ?_ ?_ ?_) ?_
    · rintro rfl
      exact hne hk.symm
    · rintro rfl
      exact hne hk.symm
    · rintro rfl
      exact hk
    · rw [seqOf, seqOf, get_forked_of_ne (by simp) (by simp) (by simp)]

/-- A mark on the stream that an unmarked stream has not got. -/
theorem of_mark {k : Key} (x : Val D S k)
    (hk : k = .deleted stream ∨ ∃ v, k = .rollback stream v) : Aside stream σ (σ.put k x) := by
  have other : ∀ k', k' ≠ .deleted stream → (∀ v, k' ≠ .rollback stream v) →
      (σ.put k x).get k' = σ.get k' := by
    intro k' hd hr
    refine Store.get_put_of_ne _ _ ?_
    rcases hk with rfl | ⟨v, rfl⟩
    · exact hd
    · exact hr v
  refine ⟨fun v env h => ?_, fun m => other _ (by simp) (by simp), ?_, ?_, ?_, fun h => ?_⟩
  · rw [← other (.record stream v) (by simp) (by simp)]
    exact h
  · rw [seqOf, seqOf, other _ (by simp) (by simp)]
  · rw [nextVersion_congr (other _ (by simp) (by simp))]
  · rw [floorOf, floorOf, other _ (by simp) (by simp)]
  · rcases hk with rfl | ⟨v, rfl⟩
    · have hdel := h.deleted
      rw [Store.get_put_self] at hdel
      cases hdel
    · have hwin := h.windows v
      rw [Store.get_put_self] at hwin
      cases hwin

theorem of_purged (s : String) (versions : List Nat) : Aside stream σ (purged σ s versions) := by
  have other : ∀ k : Key, (∀ s v, k ≠ .record s v) → (purged σ s versions).get k = σ.get k :=
    fun k hk => get_purged_of_ne _ _ fun v _ => hk _ v
  refine ⟨fun v env h => ?_, fun m => other _ (by simp), ?_, ?_, ?_, fun h => ⟨?_, ?_, fun v => ?_⟩⟩
  · rw [get_purged] at h
    split at h
    · cases h
    · exact h
  · rw [seqOf, seqOf, other _ (by simp)]
  · rw [nextVersion_congr (other _ (by simp))]
  · rw [floorOf, floorOf, other _ (by simp)]
  · rw [← other (.fork stream) (by simp)]
    exact h.fork
  · rw [← other (.deleted stream) (by simp)]
    exact h.deleted
  · rw [← other (.rollback stream v) (by simp)]
    exact h.windows v

/-- A floor that does not go down. -/
theorem of_floor {floor : Nat} (hfloor : floorOf σ stream ≤ floor) :
    Aside stream σ (σ.put (.trim stream) floor) := by
  have other : ∀ k : Key, k ≠ .trim stream → (σ.put (.trim stream) floor).get k = σ.get k :=
    fun k hk => Store.get_put_of_ne _ _ hk
  refine ⟨fun v env h => ?_, fun m => other _ (by simp), ?_, ?_, ?_, fun h => ⟨?_, ?_, fun v => ?_⟩⟩
  · rw [← other (.record stream v) (by simp)]
    exact h
  · rw [seqOf, seqOf, other _ (by simp)]
  · rw [nextVersion_congr (other _ (by simp))]
  · have hself : floorOf (σ.put (.trim stream) floor) stream = floor := by
      rw [floorOf, Store.get_put_self]
      rfl
    rw [hself]
    exact hfloor
  · rw [← other (.fork stream) (by simp)]
    exact h.fork
  · rw [← other (.deleted stream) (by simp)]
    exact h.deleted
  · rw [← other (.rollback stream v) (by simp)]
    exact h.windows v

end Aside

/-- Every call that neither appends to a stream nor publishes a snapshot of it goes past
it. -/
theorem Call.Effect.aside {call : Call D S} {σ σ' : Db D S} {infos : List CommitInfo}
    (he : call.Effect σ infos σ') {stream : String} (happ : ¬ call.AppendsTo stream)
    (hpub : ¬ call.PublishesOf stream) : Aside stream σ σ' := by
  cases call with
  | append | appendWithToken | appendAt =>
      refine .of_stamped he fun req hreq => ?_
      cases List.mem_singleton.mp hreq
      exact happ
  | commit ops stamps =>
      refine .of_stamped he fun req hreq => ?_
      obtain ⟨op, hop, heq⟩ := List.mem_map.mp hreq
      cases op with
      | append s expected events =>
          cases heq
          rintro rfl
          exact happ ⟨expected, events, hop⟩
      | fence => cases heq
  | fence s token =>
      cases he
      refine .of_agree (fun k hk => get_fenced_of_ne _ _ _ ?_) ?_
      · rintro rfl
        exact hk
      · rw [seqOf, seqOf, get_fenced_of_ne _ _ _ (by simp)]
  | fork parent atVersion child =>
      obtain ⟨parentTail, -, -, hchild, rfl⟩ := he
      exact .of_forked hchild
  | trim s fromVersion txn =>
      cases he
      by_cases hs : s = stream
      · subst hs
        exact .of_mark _ (.inr ⟨fromVersion, rfl⟩)
      · exact .of_put _ hs (by simp)
  | trimBelow s floor =>
      cases he
      by_cases hs : s = stream
      · subst hs
        exact .of_floor (Nat.le_max_right _ _)
      · exact .of_put _ hs (by simp)
  | purgeBelow s floor =>
      obtain ⟨versions, rfl⟩ := he
      exact .of_purged s versions
  | deleteStream s =>
      obtain ⟨-, rfl⟩ := he
      by_cases hs : s = stream
      · subst hs
        exact .of_mark _ (.inl rfl)
      · exact .of_put _ hs (by simp)
  | publishSnapshot s record state ulid =>
      cases he
      exact .of_published hpub record state ulid
  | compact depth s jobId build nowMs ulid =>
      obtain ⟨record, state, rfl⟩ := he
      exact .of_published hpub record state ulid

end

end Landslide
