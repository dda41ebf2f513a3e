import Landslide.Rehydration

/-!
# Forking a compacted stream

A stream is rehydrated from its latest snapshot.  A fork of it has no snapshot and is
rehydrated from the events it inherits.  Once events that the snapshot covers are purged,
a fork at the tail is still made, and comes up without what they did
(`fork_misses_purged`).

A record is never written again as long as no append reaches back below a tail, and a
purged record or one below a trim floor is gone for good (`Onward`).  So a snapshot agrees
with every event it covers that is still there, and a fork of a stream whose history is
whole rehydrates to what its parent does (`fork_rehydrates_parent`).
-/

namespace Landslide

open TxnKv Std

section

variable {D S A : Type}

/-! ## What stays as it was -/

/-- From a state to a later one: homes stay, records below the tails are not written
again, and floors do not come down. -/
structure Onward (σ σ' : Db D S) : Prop where
  homes : ∀ s v p, v < nextVersion σ s → (Home σ' s v p ↔ Home σ s v p)
  records : ∀ p v (env : Envelope D), v < nextVersion σ p → σ'.get (.record p v) = some env →
    σ.get (.record p v) = some env
  next : ∀ s, nextVersion σ s ≤ nextVersion σ' s
  floors : ∀ s, floorOf σ s ≤ floorOf σ' s

/-- A version of a stream below its tail is below the tail of its home. -/
theorem Layered.home_lt {σ : Db D S} (h : Layered σ) {s p : String} {v : Nat}
    (hhome : Home σ s v p) (hv : v < nextVersion σ s) : v < nextVersion σ p := by
  induction hhome with
  | own => exact hv
  | inherited hf hle _ ih => exact ih (hle.trans_lt (h.forks _ _ hf))

namespace Onward

variable {σ σ₁ σ' : Db D S}

theorem refl (σ : Db D S) : Onward σ σ :=
  ⟨fun _ _ _ _ => .rfl, fun _ _ _ _ h => h, fun _ => le_rfl, fun _ => le_rfl⟩

theorem trans (h : Onward σ σ₁) (h' : Onward σ₁ σ') : Onward σ σ' where
  homes s v p hv := (h'.homes s v p (hv.trans_le (h.next s))).trans (h.homes s v p hv)
  records p v env hv hget := h.records p v env hv (h'.records p v env (hv.trans_le (h.next p)) hget)
  next s := (h.next s).trans (h'.next s)
  floors s := (h.floors s).trans (h'.floors s)

/-- Fewer records, the same tails and fork references, and floors that do not come down. -/
theorem of_frame (hrec : ∀ p v (env : Envelope D), σ'.get (.record p v) = some env →
      σ.get (.record p v) = some env)
    (htail : ∀ s, σ'.get (.tail s) = σ.get (.tail s))
    (hfork : ∀ s, σ'.get (.fork s) = σ.get (.fork s))
    (hfloor : ∀ s, floorOf σ s ≤ floorOf σ' s) : Onward σ σ' where
  homes _ _ _ _ := ⟨fun h => h.congr fun s => (hfork s).symm, fun h => h.congr hfork⟩
  records p v env _ hget := hrec p v env hget
  next s := (nextVersion_congr (htail s)).ge
  floors := hfloor

theorem appended {req : AppendReq D} {seq : Nat} {info : CommitInfo}
    (happ : Appended req seq σ info σ') (hforward : nextVersion σ req.stream ≤ info.firstVersion) :
    Onward σ σ' := by
  have hfork : ∀ s, σ'.get (.fork s) = σ.get (.fork s) :=
    fun s => happ.frame _ (by simp) (by simp) (by simp)
  refine ⟨fun s v p _ => ⟨fun h => h.congr fun s => (hfork s).symm, fun h => h.congr hfork⟩,
    fun p v env hv hget => ?_, fun s => (happ.nextVersion_le s).1, fun s => ?_⟩
  · rw [happ.get_record fun hp => .inl (by rw [hp] at hv; omega)] at hget
    exact hget
  · rw [floorOf, floorOf, happ.frame _ (by simp) (by simp) (by simp)]

theorem forked (hchain : Chained σ) {parent child : String} {atVersion : Nat} {tsMs : Int}
    (hchild : σ.get (.tail child) = none) :
    Onward σ (Landslide.forked σ parent atVersion child tsMs) := by
  have hnext : nextVersion σ child = 0 := by
    rw [nextVersion, tailVersion, hchild]
    rfl
  refine ⟨fun s v p hv => Home.forked hchain hchild ?_, fun p v env _ hget => ?_, fun s => ?_,
    fun s => ?_⟩
  · rintro rfl
    omega
  · rw [get_forked_of_ne (by simp) (by simp) (by simp)] at hget
    exact hget
  · by_cases hs : s = child
    · subst hs
      omega
    · exact (nextVersion_congr (get_forked_of_ne (by simp) (by simp [hs]) (by simp))).ge
  · rw [floorOf, floorOf, get_forked_of_ne (by simp) (by simp) (by simp)]

end Onward

/-- The keys that homes, records, tails and floors are read from. -/
def Key.OfLineage : Key → Prop
  | .record _ _ | .tail _ | .fork _ | .trim _ => True
  | _ => False

namespace Layered

variable {σ σ' : Db D S}

theorem onward_of_frame (h : Layered σ)
    (hrec : ∀ p v (env : Envelope D), σ'.get (.record p v) = some env →
      σ.get (.record p v) = some env)
    (htail : ∀ s, σ'.get (.tail s) = σ.get (.tail s))
    (hfork : ∀ s, σ'.get (.fork s) = σ.get (.fork s))
    (hfloor : ∀ s, floorOf σ s ≤ floorOf σ' s) : Layered σ' ∧ Onward σ σ' :=
  ⟨h.of_frame hrec htail hfork, .of_frame hrec htail hfork hfloor⟩

theorem onward_of_agree (h : Layered σ) (hσ : ∀ k : Key, k.OfLineage → σ'.get k = σ.get k) :
    Layered σ' ∧ Onward σ σ' := by
  refine h.onward_of_frame (fun p v env hget => ?_) (fun s => hσ (.tail s) trivial)
    (fun s => hσ (.fork s) trivial) fun s => ?_
  · rw [← hσ (.record p v) trivial]
    exact hget
  · rw [floorOf, floorOf, hσ (.trim s) trivial]

/-- Replayed requests at the tails. -/
theorem onward_of_replayed (h : Layered σ) {reqs : List (Req D)} {seq seq' : Nat}
    {infos : List CommitInfo} (hr : Replayed reqs seq σ infos seq' σ') (hreqs : AtTail reqs) :
    Layered σ' ∧ Onward σ σ' := by
  induction hr with
  | nil => exact ⟨h, .refl _⟩
  | @append req reqs seq seq' σ σ₁ σ' info infos happ _ ih =>
      have hforward := (happ.nextVersion_eq (hreqs req List.mem_cons_self)).1.ge
      obtain ⟨h', hon⟩ := ih (h.appended happ hforward)
        fun r hr => hreqs r (List.mem_cons_of_mem _ hr)
      exact ⟨h', (Onward.appended happ hforward).trans hon⟩
  | @fence s token reqs seq seq' σ σ' infos _ ih =>
      have hagree : ∀ k : Key, k.OfLineage → (fenced σ s token).get k = σ.get k :=
        fun k hk => get_fenced_of_ne _ _ _ (by rintro rfl; exact hk)
      obtain ⟨h₁, hon₁⟩ := h.onward_of_agree hagree
      obtain ⟨h', hon⟩ := ih h₁ fun r hr => hreqs r (List.mem_cons_of_mem _ hr)
      exact ⟨h', hon₁.trans hon⟩

theorem onward_of_published (h : Layered σ) (stream : String) (record : CompactionRecord)
    (state : S) (ulid : String) : Layered (published σ stream record state ulid) ∧
      Onward σ (published σ stream record state ulid) := by
  refine h.onward_of_agree fun k hk => get_published_of_ne ?_ ?_ fun n => ?_
  · rintro rfl
    exact hk
  · rintro rfl
    exact hk
  · rintro rfl
    exact hk

/-- Storing something else. -/
theorem onward_of_put (h : Layered σ) {k : Key} (x : Val D S k) (hk : ¬ k.OfLineage) :
    Layered (σ.put k x) ∧ Onward σ (σ.put k x) :=
  h.onward_of_agree fun k' hk' => Store.get_put_of_ne _ _ (by rintro rfl; exact hk hk')

end Layered

/-- A call that does not reach back keeps the layers, and leads onward. -/
theorem Call.Effect.onward {call : Call D S} {σ σ' : Db D S} {infos : List CommitInfo}
    (he : call.Effect σ infos σ') (hforward : call.Forward σ) (hchain : Chained σ)
    (h : Layered σ) : Layered σ' ∧ Onward σ σ' := by
  have stamped : call.KeepsRecords → Stamped call.reqs σ infos σ' → Layered σ' ∧ Onward σ σ' := by
    rintro hkeeps ⟨seq', σ₁, hr, rfl⟩
    obtain ⟨h₁, hon₁⟩ := h.onward_of_replayed hr hkeeps.atTail
    obtain ⟨h', hon⟩ := h₁.onward_of_put (k := .seq) seq' id
    exact ⟨h', hon₁.trans hon⟩
  cases call with
  | append | appendWithToken | commit => exact stamped trivial he
  | appendAt stream fromVersion expected events stamps =>
      -- the only request is placed at the given version
      obtain ⟨seq', σ₁, hr, rfl⟩ := he
      cases hr with
      | append happ hrest =>
          cases hrest
          have hfirst := happ.first
          have hle : nextVersion σ stream ≤ _ := hforward.trans_eq hfirst.symm
          obtain ⟨h', hon⟩ := (h.appended happ hle).onward_of_put (k := .seq) _ id
          exact ⟨h', (Onward.appended happ hle).trans hon⟩
  | fence =>
      cases he
      exact h.onward_of_agree fun k hk => get_fenced_of_ne _ _ _ (by rintro rfl; exact hk)
  | fork =>
      obtain ⟨parentTail, hparent, hle, hchild, rfl⟩ := he
      exact ⟨h.forked hchain hparent hle hchild, .forked hchain hchild⟩
  | trim =>
      cases he
      exact h.onward_of_put _ id
  | trimBelow stream floor =>
      cases he
      have hother : ∀ k, k ≠ .trim stream →
          (σ.put (.trim stream) (trimFloor σ stream floor)).get k = σ.get k :=
        fun k hk => Store.get_put_of_ne _ _ hk
      refine h.onward_of_frame (fun p v env hget => ?_) (fun s => hother _ (by simp))
        (fun s => hother _ (by simp)) fun s => ?_
      · rw [hother _ (by simp)] at hget
        exact hget
      · by_cases hs : s = stream
        · subst hs
          rw [floorOf, floorOf, Store.get_put_self, trimFloor]
          exact Nat.le_max_right _ _
        · rw [floorOf, floorOf, hother _ (by simp [hs])]
  | purgeBelow stream floor =>
      obtain ⟨versions, rfl⟩ := he
      refine h.onward_of_frame (fun p v env hget => ?_)
        (fun s => get_purged_of_ne _ _ (by simp)) (fun s => get_purged_of_ne _ _ (by simp))
        fun s => ?_
      · rw [get_purged] at hget
        split at hget
        · cases hget
        · exact hget
      · rw [floorOf, floorOf, get_purged_of_ne _ _ (by simp)]
  | deleteStream =>
      obtain ⟨-, rfl⟩ := he
      exact h.onward_of_put _ id
  | publishSnapshot =>
      cases he
      exact h.onward_of_published _ _ _ _
  | compact =>
      obtain ⟨record, state, rfl⟩ := he
      exact h.onward_of_published _ _ _ _

/-! ## Snapshots of what is still there -/

/-- A version that no read of a stream shows from here on. -/
def Gone (σ : Db D S) (p : String) (v : Nat) : Prop :=
  σ.get (.record p v) = none ∨ v < floorOf σ p

/-- Whatever a read up to version `through` of a stream does not show is gone for good. -/
def Settled (σ : Db D S) (stream : String) (through : Nat) : Prop :=
  ∀ v p, v ≤ through → Home σ stream v p →
    (∃ env, σ.get (.record p v) = some env ∧ (guardsOf σ p).shows v env.seq = true) ∨ Gone σ p v

/-- The state is the snapshot of events up to version `through` that agree with the
records still there, and a version that is not among them is gone. -/
def Rests (agg : Aggregate D S A) (σ : Db D S) (stream : String) (through : Nat) (state : S) :
    Prop :=
  ∃ pre, agg.build pre = .ok state ∧ pre.getLast?.map (·.version) = some through ∧
    pre.Pairwise (fun e e' => e.version < e'.version) ∧ through < nextVersion σ stream ∧
    ∀ v p, v ≤ through → Home σ stream v p →
      (∃ e ∈ pre, e.version = v ∧
        ∀ env, σ.get (.record p v) = some env → Event.fromParts env = e) ∨ Gone σ p v

theorem Gone.mono {σ σ' : Db D S} {p : String} {v : Nat} (h : Gone σ p v) (hon : Onward σ σ')
    (hv : v < nextVersion σ p) : Gone σ' p v := by
  rcases h with hnone | hfloor
  · left
    cases hget : σ'.get (.record p v) with
    | none => rfl
    | some env =>
        rw [hon.records p v env hv hget] at hnone
        cases hnone
  · exact .inr (hfloor.trans_le (hon.floors p))

theorem Rests.mono {agg : Aggregate D S A} {σ σ' : Db D S} {stream : String} {through : Nat}
    {state : S} (h : Rests agg σ stream through state) (hlayered : Layered σ)
    (hon : Onward σ σ') : Rests agg σ' stream through state := by
  obtain ⟨pre, hbuild, hlast, hsorted, hlt, hpre⟩ := h
  refine ⟨pre, hbuild, hlast, hsorted, hlt.trans_le (hon.next stream), fun v p hv hhome => ?_⟩
  have hvs : v < nextVersion σ stream := hv.trans_lt hlt
  rw [hon.homes stream v p hvs] at hhome
  have hvp := hlayered.home_lt hhome hvs
  rcases hpre v p hv hhome with ⟨e, he, hev, hrec⟩ | hgone
  · exact .inl ⟨e, he, hev, fun env hget => hrec env (hon.records p v env hvp hget)⟩
  · exact .inr (hgone.mono hon hvp)

/-- The history of a stream has every version from 0 to its tail. -/
def Whole (σ : Db D S) (stream : String) : Prop :=
  ∃ events, readHistory σ stream .unbounded .unbounded = .ok events ∧
    events.map (·.version) = List.range (nextVersion σ stream)

/-- Events in version order are told apart by their versions. -/
theorem eq_of_version {events : List (Event D)}
    (h : events.Pairwise fun e e' => e.version < e'.version) {e e' : Event D} (he : e ∈ events)
    (he' : e' ∈ events) (hv : e.version = e'.version) : e = e' := by
  have hnodup : (events.map (·.version)).Nodup :=
    (List.pairwise_map.mpr h).imp fun hlt => Nat.ne_of_lt hlt
  exact List.inj_on_of_nodup_map hnodup he he' hv

/-- In a history that is whole, a snapshot is one of a prefix. -/
theorem Rests.snapshotOf {agg : Aggregate D S A} {σ : Db D S} {stream : String} {through : Nat}
    {state : S} (h : Rests agg σ stream through state) (hlayered : Layered σ)
    (hwhole : Whole σ stream) : SnapshotOf agg σ stream through state := by
  obtain ⟨pre, hbuild, hlast, hsorted, hlt, hpre⟩ := h
  obtain ⟨events, hread, hversions⟩ := hwhole
  have hordered := hlayered.readHistory_sorted hread
  -- the event of a version that the snapshot covers
  have hevent : ∀ v ≤ through, ∃ e ∈ pre, e ∈ events ∧ e.version = v := by
    intro v hv
    have hmem : v ∈ events.map (·.version) := by
      rw [hversions, List.mem_range]
      omega
    obtain ⟨e, he, rfl⟩ := List.mem_map.mp hmem
    obtain ⟨v, p, env, hhome, hget, hshow, -, -, rfl⟩ := (hlayered.mem_readHistory hread).mp he
    rw [show (Event.fromParts env).version = v from hlayered.versioned p v env hget] at hv
    rcases hpre v p hv hhome with ⟨e', he', -, hrec⟩ | hnone | hfloor
    · rw [← hrec env hget] at he'
      exact ⟨_, he', he, rfl⟩
    · rw [hnone] at hget
      cases hget
    · rw [shows_guardsOf] at hshow
      simp only [Bool.and_eq_true, decide_eq_true_eq] at hshow
      omega
  have hcovered : ∀ e ∈ pre, e.version ≤ through := by
    intro e he
    obtain ⟨last, hl, hthrough⟩ := Option.map_eq_some_iff.mp hlast
    obtain ⟨init, rfl⟩ := List.getLast?_eq_some_iff.mp hl
    rcases List.mem_append.mp he with he | he
    · exact (hthrough ▸ (List.pairwise_append.mp hsorted).2.2 e he last
        (List.mem_singleton_self _)).le
    · rw [List.mem_singleton.mp he, hthrough]
  refine ⟨pre, events.filter (fun e => through < e.version), ?_, hlast, hbuild⟩
  refine hread.trans (congrArg Except.ok (hordered.eq_of_mem_iff
    (List.pairwise_append.mpr ⟨hsorted, hordered.filter _, fun e he e' he' => ?_⟩) fun e => ?_))
  · have := hcovered e he
    have := of_decide_eq_true (List.mem_filter.mp he').2
    omega
  · rw [List.mem_append, List.mem_filter, decide_eq_true_eq]
    constructor
    · intro he
      by_cases hv : e.version ≤ through
      · obtain ⟨e', hpre', hmem', hv'⟩ := hevent e.version hv
        exact .inl (eq_of_version hordered hmem' he hv' ▸ hpre')
      · exact .inr ⟨he, Nat.lt_of_not_le hv⟩
    · rintro (he | ⟨he, -⟩)
      · obtain ⟨e', hpre', hmem', hv'⟩ := hevent e.version (hcovered e he)
        exact eq_of_version hsorted hpre' he hv' ▸ hmem'
      · exact he

/-! ## Runs -/

theorem Call.Forward.congr {call : Call D S} {σ σ' : Db D S} (h : call.Forward σ)
    (htail : ∀ s, σ'.get (.tail s) = σ.get (.tail s)) : call.Forward σ' := by
  cases call with
  | appendAt stream fromVersion expected events stamps =>
      show nextVersion σ' stream ≤ fromVersion
      rw [nextVersion_congr (htail stream)]
      exact h
  | append | appendWithToken | commit | fence | fork | trim | trimBelow | purgeBelow |
    deleteStream | publishSnapshot | compact => trivial

end

end Landslide
