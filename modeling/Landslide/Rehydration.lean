import Landslide.Lineage
import Landslide.Snapshots

/-!
# Rehydration over overlapping compactions

A compaction reads the history of a stream at one point and publishes a snapshot of
it at a later one.  In between the stream may grow, be forked and be compacted by
others.  The latest snapshot is the one with the highest number, which need not be
the newest reading.

Without trims, purges, deletions and appends over existing versions, histories only
grow: one that was read stays a prefix (`Prolongs`).  So every snapshot in the store,
and every one about to be published, is a snapshot of a prefix (`Snapshots`), and
rehydration from whichever is the latest returns the fold of the whole history
(`rehydrate_eq_folded`).
-/

namespace Landslide

open TxnKv Std

section

variable {D S A : Type}

/-! ## Trees that only grow -/

/-- No guard is set, forks go on above their fork points, and parents come before
their children. -/
structure Growing (σ : Db D S) : Prop extends Rooted σ where
  floor : ∀ s, σ.get (.trim s) = none
  live : ∀ s, σ.get (.deleted s) = none
  windows : ∀ s v, σ.get (.rollback s v) = none
  above : ∀ s f v (env : Envelope D), σ.get (.fork s) = some f →
    σ.get (.record s v) = some env → f.atVersion < v
  started : ∀ s f, σ.get (.fork s) = some f → f.atVersion < nextVersion σ s
  rank : ∃ rank : String → Nat, ∀ s f, σ.get (.fork s) = some f → rank f.stream < rank s

namespace Growing

variable {σ : Db D S}

theorem empty : Growing (∅ : Db D S) where
  toRooted := .empty
  floor s := by simp
  live s := by simp
  windows s v := by simp
  above s f v env hf := by simp at hf
  started s f hf := by simp at hf
  rank := ⟨fun _ => 0, fun s f hf => by simp at hf⟩

/-- Every record is shown. -/
theorem shows (h : Growing σ) (s : String) (v seq : Nat) : (guardsOf σ s).shows v seq = true := by
  have hfloor : floorOf σ s = 0 := by rw [floorOf, h.floor]; rfl
  have hbelow : belowCeiling σ s v = true := by rw [belowCeiling, h.live]; rfl
  rw [shows_guardsOf, hfloor, hbelow, windowsOf_eq_nil (h.windows s)]
  simp

theorem mem_eventsOf (h : Growing σ) {s : String} {lo : Nat} {hi : Option Nat} {e : Event D} :
    e ∈ eventsOf σ s lo hi ↔ ∃ v env, σ.get (.record s v) = some env ∧ lo ≤ v ∧
      hi.all (v < ·) = true ∧ Event.fromParts env = e := by
  rw [mem_eventsOf_guards h.versioned]
  constructor
  · rintro ⟨v, env, hget, -, hlo, hhi, he⟩
    exact ⟨v, env, hget, hlo, hhi, he⟩
  · rintro ⟨v, env, hget, hlo, hhi, he⟩
    exact ⟨v, env, hget, h.shows s v env.seq, hlo, hhi, he⟩

theorem layered (h : Growing σ) : Layered σ := ⟨h.toRooted, h.above, h.started, h.rank⟩

theorem readHistory_ok (h : Growing σ) (s : String) : ∃ events,
    readHistory σ s (.included 0) .unbounded = .ok events ∧
      events.Pairwise fun e e' => e.version < e'.version := by
  obtain ⟨events, hevents⟩ := h.layered.readHistory_ok s (.included 0) .unbounded
  exact ⟨events, hevents, h.layered.readHistory_sorted hevents⟩

end Growing

/-! ## Histories that only grow -/

/-- Every history goes on from what it was. -/
def Prolongs (σ σ' : Db D S) : Prop :=
  ∀ s, ∃ more, readHistory σ' s (.included 0) .unbounded =
    (readHistory σ s (.included 0) .unbounded).map (· ++ more)

theorem Prolongs.of_agree {σ σ' : Db D S} (h : ∀ k : Key, k.OfHistory → σ'.get k = σ.get k) :
    Prolongs σ σ' := by
  intro s
  refine ⟨[], ?_⟩
  rw [readHistory_congr h]
  cases readHistory σ s (.included 0) .unbounded <;> simp [Except.map]

theorem Prolongs.trans {σ σ₁ σ' : Db D S} (h : Prolongs σ σ₁) (h' : Prolongs σ₁ σ') :
    Prolongs σ σ' := by
  intro s
  obtain ⟨more, hmore⟩ := h s
  obtain ⟨more', hmore'⟩ := h' s
  refine ⟨more ++ more', ?_⟩
  rw [hmore', hmore]
  cases readHistory σ s (.included 0) .unbounded <;> simp [Except.map]

theorem Prolongs.of_extended {σ σ' : Db D S} (h : ∀ s, Extended s σ σ') : Prolongs σ σ' :=
  fun s => ⟨added s σ σ', h s⟩

/-- The keys that make up a tree of streams. -/
def Key.OfTree (k : Key) : Prop := k.OfHistory ∨ ∃ s, k = .tail s

theorem Key.OfTree.ne {k k' : Key} (hk : k.OfTree) (hk' : ¬ k'.OfTree) : k ≠ k' := by
  rintro rfl
  exact hk' hk

@[simp] theorem Key.not_ofTree_seq : ¬ Key.seq.OfTree := by simp [OfTree, OfHistory]
@[simp] theorem Key.not_ofTree_fence (s : String) : ¬ (Key.fence s).OfTree := by
  simp [OfTree, OfHistory]
@[simp] theorem Key.not_ofTree_compaction (u : String) : ¬ (Key.compaction u).OfTree := by
  simp [OfTree, OfHistory]
@[simp] theorem Key.not_ofTree_snap (s : String) (n : Nat) : ¬ (Key.snap s n).OfTree := by
  simp [OfTree, OfHistory]

/-- What a committed call may do to a tree that only grows. -/
structure Grown (σ σ' : Db D S) : Prop where
  growing : Growing σ'
  prolongs : Prolongs σ σ'

namespace Growing

variable {σ σ' : Db D S}

theorem of_agree (h : Growing σ) (hσ : ∀ k : Key, k.OfTree → σ'.get k = σ.get k) :
    Growing σ' := by
  have hrec : ∀ s v, σ'.get (.record s v) = σ.get (.record s v) := fun s v => hσ _ (.inl trivial)
  have hfork : ∀ s, σ'.get (.fork s) = σ.get (.fork s) := fun s => hσ _ (.inl trivial)
  have htail : ∀ s, σ'.get (.tail s) = σ.get (.tail s) := fun s => hσ _ (.inr ⟨s, rfl⟩)
  refine ⟨h.of_frame (fun s v env hv => by rw [← hrec]; exact hv) htail hfork,
    fun s => (hσ (.trim s) (.inl trivial)).trans (h.floor s),
    fun s => (hσ (.deleted s) (.inl trivial)).trans (h.live s),
    fun s v => (hσ (.rollback s v) (.inl trivial)).trans (h.windows s v), fun s f v env hf hv => ?_,
    fun s f hf => ?_, ?_⟩
  · rw [hfork] at hf
    rw [hrec] at hv
    exact h.above s f v env hf hv
  · rw [hfork] at hf
    rw [nextVersion_congr (htail s)]
    exact h.started s f hf
  · obtain ⟨rank, hrank⟩ := h.rank
    refine ⟨rank, fun s f hf => hrank s f ?_⟩
    rw [← hfork]
    exact hf

theorem grown_of_agree (h : Growing σ) (hσ : ∀ k : Key, k.OfTree → σ'.get k = σ.get k) :
    Grown σ σ' :=
  ⟨h.of_agree hσ, .of_agree fun k hk => hσ k (.inl hk)⟩

theorem appended (h : Growing σ) {req : AppendReq D} {seq : Nat} {info : CommitInfo}
    (happ : Appended req seq σ info σ') (hfrom : req.fromVersion = none) : Grown σ σ' := by
  have hlayered := h.layered.appended happ (happ.nextVersion_eq hfrom).1.ge
  refine ⟨⟨happ.rooted h.toRooted, fun s => ?_, fun s => ?_, fun s v => ?_, hlayered.above,
    hlayered.started, hlayered.rank⟩, .of_extended fun s => ?_⟩
  · rw [happ.frame _ (by simp) (by simp) (by simp)]
    exact h.floor s
  · rw [happ.frame _ (by simp) (by simp) (by simp)]
    exact h.live s
  · rw [happ.frame _ (by simp) (by simp) (by simp)]
    exact h.windows s v
  · exact happ.extended hfrom h.toRooted fun _ i _ => h.shows _ _ _

theorem replayed (h : Growing σ) {reqs : List (Req D)} {seq seq' : Nat} {infos : List CommitInfo}
    (hr : Replayed reqs seq σ infos seq' σ') (hreqs : AtTail reqs) : Grown σ σ' := by
  induction hr with
  | nil => exact h.grown_of_agree fun _ _ => rfl
  | @append req reqs seq seq' σ σ₁ σ' info infos happ _ ih =>
      have hone := h.appended happ (hreqs req List.mem_cons_self)
      have hrest := ih hone.growing fun r hr => hreqs r (List.mem_cons_of_mem _ hr)
      exact ⟨hrest.growing, hone.prolongs.trans hrest.prolongs⟩
  | @fence s token reqs seq seq' σ σ' infos _ ih =>
      have hone : Grown σ (fenced σ s token) :=
        h.grown_of_agree fun k hk => get_fenced_of_ne _ _ _ (hk.ne (by simp))
      have hrest := ih hone.growing fun r hr => hreqs r (List.mem_cons_of_mem _ hr)
      exact ⟨hrest.growing, hone.prolongs.trans hrest.prolongs⟩

/-! ### Forks -/

/-- A stream without a tail has no fork and no history. -/
theorem history_of_no_tail (h : Growing σ) {child : String} (htail : σ.get (.tail child) = none) :
    (∀ s f, σ.get (.fork s) = some f → s ≠ child ∧ f.stream ≠ child) ∧
      readHistory σ child (.included 0) .unbounded = .ok [] := by
  have hnext : nextVersion σ child = 0 := by rw [nextVersion, tailVersion, htail]; rfl
  have hforks : ∀ s f, σ.get (.fork s) = some f → s ≠ child ∧ f.stream ≠ child := by
    intro s f hf
    constructor
    · rintro rfl
      have := h.started s f hf
      omega
    · intro hs
      have := h.forks s f hf
      rw [hs] at this
      omega
  refine ⟨hforks, ?_⟩
  have hnone : σ.get (.fork child) = none := by
    cases hf : σ.get (.fork child) with
    | none => rfl
    | some f => exact absurd rfl (hforks child f hf).1
  rw [readHistory_of_not_fork hnone]
  refine congrArg Except.ok (List.eq_nil_iff_forall_not_mem.mpr fun e he => ?_)
  obtain ⟨v, env, hget, -⟩ := h.mem_eventsOf.mp he
  have := h.below child v env hget
  omega

theorem growing_forked (h : Growing σ) {parent child : String} {atVersion : Nat}
    {parentTail : TailRecord} (hparent : σ.get (.tail parent) = some parentTail)
    (hle : atVersion ≤ parentTail.version) (hchild : σ.get (.tail child) = none) :
    Growing (Landslide.forked σ parent atVersion child parentTail.tsMs) := by
  have hsame : ∀ k : Key, k ≠ .fork child → k ≠ .tail child → k ≠ .forks parent child →
      (Landslide.forked σ parent atVersion child parentTail.tsMs).get k = σ.get k :=
    fun k h₁ h₂ h₃ => get_forked_of_ne h₁ h₂ h₃
  have hlayered := h.layered.forked_of_fresh hparent hle hchild
    fun s f hf => ((h.history_of_no_tail hchild).1 s f hf).2
  refine ⟨hlayered.toRooted, fun s => ?_, fun s => ?_, fun s v => ?_, hlayered.above,
    hlayered.started, hlayered.rank⟩
  · rw [hsame _ (by simp) (by simp) (by simp)]
    exact h.floor s
  · rw [hsame _ (by simp) (by simp) (by simp)]
    exact h.live s
  · rw [hsame _ (by simp) (by simp) (by simp)]
    exact h.windows s v

theorem forked (h : Growing σ) {parent child : String} {atVersion : Nat} {parentTail : TailRecord}
    (hparent : σ.get (.tail parent) = some parentTail) (hle : atVersion ≤ parentTail.version)
    (hchild : σ.get (.tail child) = none) :
    Grown σ (Landslide.forked σ parent atVersion child parentTail.tsMs) := by
  have h' := h.growing_forked hparent hle hchild
  refine ⟨h', fun s => ?_⟩
  generalize hσ' : Landslide.forked σ parent atVersion child parentTail.tsMs = σ' at h' ⊢
  obtain ⟨hforks, hnil⟩ := h.history_of_no_tail hchild
  by_cases hs : s = child
  · subst hs
    obtain ⟨events, hevents, -⟩ := h'.readHistory_ok s
    exact ⟨events, by rw [hevents, hnil]; rfl⟩
  · have hsame : ∀ k : Key, k ≠ .fork child → k ≠ .tail child → k ≠ .forks parent child →
        σ'.get k = σ.get k := by
      intro k h₁ h₂ h₃
      rw [← hσ']
      exact get_forked_of_ne h₁ h₂ h₃
    have hevents : ∀ q lo hi, eventsOf σ' q lo hi = eventsOf σ q lo hi := by
      intro q lo hi
      refine eventsOf_ext h.versioned h'.versioned (fun v env _ => ?_) lo
      rw [hsame _ (by simp) (by simp) (by simp), h.shows, h'.shows]
    -- no chain but that of the child passes the child
    have hresolve : ∀ (depth : Nat) (q : String) (visited : List String) (lo : Nat)
        (hi : Option Nat), q ≠ child → (resolveHistory depth q visited lo hi).eval σ' =
          (resolveHistory depth q visited lo hi).eval σ := by
      intro depth
      induction depth with
      | zero => exact fun _ _ _ _ _ => rfl
      | succ depth ih =>
          intro q visited lo hi hq
          rw [resolveHistory_eval, resolveHistory_eval, hevents,
            hsame _ (by simp [hq]) (by simp) (by simp)]
          cases hf : σ.get (.fork q) with
          | none => rfl
          | some f =>
              dsimp only
              rw [ih f.stream _ lo _ (hforks q f hf).2]
    refine ⟨[], ?_⟩
    have hdeep := readHistory_ne_depth σ s (.included 0) .unbounded
    have hdeep' := readHistory_ne_depth σ' s (.included 0) .unbounded
    have heq : readHistory σ' s (.included 0) .unbounded =
        readHistory σ s (.included 0) .unbounded := by
      show (resolveHistory ((forkRefs σ').length + 1) s [] 0 none).eval σ' =
        (resolveHistory ((forkRefs σ).length + 1) s [] 0 none).eval σ
      have h₁ := resolve_deeper σ ((forkRefs σ).length + 1) s [] 0 none hdeep (forkRefs σ').length
      have h₂ := resolve_deeper σ' ((forkRefs σ').length + 1) s [] 0 none hdeep' (forkRefs σ).length
      rw [← h₂, ← h₁, hresolve _ _ _ _ _ hs,
        show (forkRefs σ').length + 1 + (forkRefs σ).length =
          (forkRefs σ).length + 1 + (forkRefs σ').length by omega]
    rw [heq]
    cases readHistory σ s (.included 0) .unbounded <;> simp [Except.map]

end Growing

/-! ## Calls -/

/-- The calls under which histories only grow. -/
def Call.OnlyGrows : Call D S → Prop
  | .append .. | .appendWithToken .. | .commit .. | .fence .. | .fork .. | .publishSnapshot .. =>
      True
  | _ => False

theorem Call.Effect.grown {call : Call D S} {σ σ' : Db D S} {infos : List CommitInfo}
    (he : call.Effect σ infos σ') (hcall : call.OnlyGrows) (h : Growing σ) : Grown σ σ' := by
  have stamped : call.KeepsRecords → Stamped call.reqs σ infos σ' → Grown σ σ' := by
    rintro hkeeps ⟨seq', σ₁, hr, rfl⟩
    have hone := h.replayed hr hkeeps.atTail
    have htwo : Grown σ₁ (σ₁.put .seq seq') :=
      hone.growing.grown_of_agree fun k hk => Store.get_put_of_ne _ _ (hk.ne (by simp))
    exact ⟨htwo.growing, hone.prolongs.trans htwo.prolongs⟩
  cases call with
  | append | appendWithToken | commit => exact stamped trivial he
  | fence =>
      cases he
      exact h.grown_of_agree fun k hk => get_fenced_of_ne _ _ _ (hk.ne (by simp))
  | fork =>
      obtain ⟨parentTail, hparent, hle, hchild, rfl⟩ := he
      exact h.forked hparent hle hchild
  | publishSnapshot =>
      cases he
      exact h.grown_of_agree fun k hk => get_published_of_ne (hk.ne (by simp)) (hk.ne (by simp))
        fun n => hk.ne (by simp)
  | appendAt | trim | trimBelow | purgeBelow | deleteStream | compact => exact hcall.elim

/-! ## Snapshots -/

/-- The state is the snapshot of a prefix of the history of a stream, one that ends
at version `through`. -/
def SnapshotOf (agg : Aggregate D S A) (σ : Db D S) (stream : String) (through : Nat) (state : S) :
    Prop :=
  ∃ pre more, readHistory σ stream (.included 0) .unbounded = .ok (pre ++ more) ∧
    pre.getLast?.map (·.version) = some through ∧ agg.build pre = .ok state

theorem SnapshotOf.mono {agg : Aggregate D S A} {σ σ' : Db D S} {stream : String} {through : Nat}
    {state : S} (h : SnapshotOf agg σ stream through state) (hσ : Prolongs σ σ') :
    SnapshotOf agg σ' stream through state := by
  obtain ⟨pre, more, hread, hlast, hbuild⟩ := h
  obtain ⟨more', hmore'⟩ := hσ stream
  refine ⟨pre, more ++ more', ?_, hlast, hbuild⟩
  rw [hmore', hread, ← List.append_assoc]
  rfl

/-- What a compaction that reads this state goes on to publish. -/
def compacted (agg : Aggregate D S A) (σ : Db D S) (stream : String) (jobId : Option String)
    (nowMs : Int) : Except Error (CompactionRecord × S) :=
  match readHistory σ stream (.included 0) .unbounded with
  | .error e => .error e
  | .ok events =>
      match agg.build events with
      | .error e => .error e
      | .ok state =>
          match events.getLast? with
          | none => .error (.invalidInput s!"'{stream}' has no events to compact")
          | some last =>
              .ok ({ stream := stream, throughVersion := last.version,
                     eventsCompacted := events.length, jobId := jobId, tsMs := nowMs }, state)

/-- A compaction with no one else on the store publishes what it read. -/
theorem compact_exec_compacted [Payload D] (agg : Aggregate D S A) (σ : Db D S) (stream : String)
    (jobId : Option String) (nowMs : Int) (ulid : String) :
    ((Call.compact ((forkRefs σ).length + 1) stream jobId agg.build nowMs ulid : Call D S).exec σ).2 =
      match compacted agg σ stream jobId nowMs with
      | .error _ => σ
      | .ok (record, state) =>
          ((Call.publishSnapshot stream record state ulid : Call D S).exec σ).2 := by
  rw [compact_exec, compacted]
  cases readHistory σ stream (.included 0) .unbounded with
  | error e => rfl
  | ok events =>
      dsimp only
      cases agg.build events with
      | error e => rfl
      | ok state =>
          dsimp only
          cases events.getLast? with
          | none => rfl
          | some last =>
              dsimp only
              rw [publishSnapshot_exec]

theorem snapshotOf_compacted {agg : Aggregate D S A} {σ : Db D S} {stream : String}
    {jobId : Option String} {nowMs : Int} {record : CompactionRecord} {state : S}
    (h : compacted agg σ stream jobId nowMs = .ok (record, state)) :
    SnapshotOf agg σ stream record.throughVersion state := by
  rw [compacted] at h
  split at h
  · cases h
  next events hread =>
  split at h
  · cases h
  next state' hbuild =>
  split at h
  · cases h
  next last hlast =>
  cases h
  exact ⟨events, [], by rw [List.append_nil]; exact hread, by rw [hlast]; rfl, hbuild⟩

/-- Every snapshot of the store is one of a prefix. -/
def Snapshots (agg : Aggregate D S A) (σ : Db D S) : Prop :=
  ∀ s m r, σ.get (.snap s m) = some r → SnapshotOf agg σ s r.throughVersion r.state

/-- A snapshot of a prefix and the events above it make the fold of the whole. -/
theorem SnapshotOf.rest {agg : Aggregate D S A} (hlaw : agg.Lawful) {σ : Db D S} (h : Layered σ)
    {stream : String} {through : Nat} {state : S} (hs : SnapshotOf agg σ stream through state) :
    ∃ a events more, agg.restore state = .ok a ∧
      readHistory σ stream (.included 0) .unbounded = .ok events ∧
      readHistory σ stream (.included (through + 1)) .unbounded = .ok more ∧
      more.foldl agg.apply a = agg.folded events ∧
      (more.getLast?.map (·.version)).or (some through) = events.getLast?.map (·.version) := by
  obtain ⟨pre, more, hread, hlast, hbuild⟩ := hs
  have hsorted := h.readHistory_sorted hread
  obtain ⟨init, last, hpre⟩ : ∃ init last, pre = init ++ [last] := by
    obtain ⟨last, hl, -⟩ := Option.map_eq_some_iff.mp hlast
    obtain ⟨init, hinit⟩ := List.getLast?_eq_some_iff.mp hl
    exact ⟨init, last, hinit⟩
  have hthrough : last.version = through := by
    rw [hpre, List.getLast?_concat] at hlast
    exact Option.some.inj hlast
  -- the rest of the history is what lies above the snapshot
  have hrest : (pre ++ more).filter (fun e => through + 1 ≤ e.version) = more := by
    obtain ⟨hp, -, hcross⟩ := List.pairwise_append.mp hsorted
    have hnone : pre.filter (fun e => through + 1 ≤ e.version) = [] := by
      refine List.filter_eq_nil_iff.mpr fun e he => ?_
      rw [hpre] at he hp
      rcases List.mem_append.mp he with he | he
      · have := (List.pairwise_append.mp hp).2.2 e he last (List.mem_singleton_self _)
        simp only [decide_eq_true_eq]
        omega
      · rw [List.mem_singleton.mp he]
        simp only [decide_eq_true_eq]
        omega
    have hall : more.filter (fun e => through + 1 ≤ e.version) = more := by
      refine List.filter_eq_self.mpr fun e he => ?_
      have := hcross last (by rw [hpre]; simp) e he
      simp only [decide_eq_true_eq]
      omega
    rw [List.filter_append, hnone, hall, List.nil_append]
  refine ⟨agg.folded pre, pre ++ more, more, hlaw _ _ hbuild, hread, ?_,
    (List.foldl_append).symm, ?_⟩
  · rw [h.readHistory_from hread, hrest]
  · rw [List.getLast?_append, hpre, List.getLast?_concat]
    cases more.getLast? with
    | none => exact congrArg some hthrough.symm
    | some e => rfl

/-- Rehydration from a snapshot of a prefix returns the fold of the whole. -/
theorem rehydrate_of_snapshot {agg : Aggregate D S A} (hlaw : agg.Lawful) {σ : Db D S}
    (h : Layered σ) {stream : String} (hs : ∀ r, snapshotAt σ stream = some r →
      SnapshotOf agg σ stream r.throughVersion r.state) :
    rehydrate agg σ stream =
      (readHistory σ stream (.included 0) .unbounded).map fun events =>
        (agg.folded events, events.getLast?.map (·.version)) := by
  rw [rehydrate, latestSnapshot_eval]
  cases hsnap : snapshotAt σ stream with
  | none => rfl
  | some r =>
      obtain ⟨a, events, more, hrestore, hread, hmore, hfold, hversion⟩ :=
        (hs r hsnap).rest hlaw h
      dsimp only
      rw [hrestore]
      dsimp only
      rw [fold, hmore, hread]
      show Except.ok (more.foldl agg.apply a,
        (more.getLast?.map (·.version)).or (some r.throughVersion)) = Except.ok _
      rw [hfold, hversion]

/-- A publish adds one snapshot. -/
theorem Snapshots.published {agg : Aggregate D S A} {σ σ' : Db D S} (h : Snapshots agg σ)
    (hσ : Prolongs σ σ') {stream : String} {record : CompactionRecord} {state : S} {ulid : String}
    (hσ' : σ' = Landslide.published σ stream record state ulid)
    (hnew : SnapshotOf agg σ stream record.throughVersion state) : Snapshots agg σ' := by
  intro s m r hr
  refine SnapshotOf.mono ?_ hσ
  subst hσ'
  by_cases hkey : Key.snap s m = .snap stream (seqOf σ + 1)
  · cases hkey
    rw [get_published_self] at hr
    cases hr
    exact hnew
  · rw [get_published_snap_of_ne record state ulid hkey] at hr
    exact h s m r hr

theorem Snapshots.of_agree {agg : Aggregate D S A} {σ σ' : Db D S} (h : Snapshots agg σ)
    (hσ : Prolongs σ σ') (hsnaps : ∀ s m, σ'.get (.snap s m) = σ.get (.snap s m)) :
    Snapshots agg σ' := by
  intro s m r hr
  rw [hsnaps] at hr
  exact (h s m r hr).mono hσ

/-- The calls that keep snapshots to prefixes: those that only grow histories and
publish nothing else. -/
def Call.Permitted (agg : Aggregate D S A) (σ : Db D S) (call : Call D S) : Prop :=
  call.OnlyGrows ∧ ∀ stream record state ulid, call = .publishSnapshot stream record state ulid →
    SnapshotOf agg σ stream record.throughVersion state

theorem Call.Permitted.mono {agg : Aggregate D S A} {σ σ' : Db D S} {call : Call D S}
    (h : call.Permitted agg σ) (hσ : Prolongs σ σ') : call.Permitted agg σ' :=
  ⟨h.1, fun stream record state ulid hcall => (h.2 stream record state ulid hcall).mono hσ⟩

theorem Call.Effect.snapshots {agg : Aggregate D S A} {call : Call D S} {σ σ' : Db D S}
    {infos : List CommitInfo} (he : call.Effect σ infos σ') (hcall : call.Permitted agg σ)
    (hgrown : Grown σ σ') (h : Snapshots agg σ) : Snapshots agg σ' := by
  rcases he.publish_cases with hsame | ⟨stream, record, state, ulid, hσ', hpub | hcompact⟩
  · exact h.of_agree hgrown.prolongs fun _ _ => hsame _ rfl
  · exact h.published hgrown.prolongs hσ' (hcall.2 stream record state ulid hpub)
  · obtain ⟨depth, jobId, build, nowMs, rfl⟩ := hcompact
    exact hcall.1.elim

/-! ## Runs -/

/-- One action commits nothing, or the effect of a call that a client is in. -/
theorem store_reach_concat [Payload D] (acts : Schedule D S) (act : Action (Call D S)) :
    (reach (acts ++ [act])).store = (reach acts).store ∨
      ∃ cl ss infos σ σ', (reach acts).sessions cl = some ss ∧ ss.call.Effect σ infos σ' ∧
        (∀ k, k ≠ .seq → σ.get k = (reach acts).store.get k) ∧
        ∀ k, k ≠ .seq → (reach (acts ++ [act])).store.get k = σ'.get k := by
  have hstep : reach (acts ++ [act]) = (reach acts).step Call.proc act :=
    Sys.run_append Call.proc (Sys.init ∅) acts [act]
  have hearlier := store_reach_earlier acts [act]
  rcases Sys.log_step Call.proc (reach acts) act with hlog | ⟨c, hlog⟩
  · left
    rw [hearlier, store_reach (acts ++ [act]), hstep, hlog]
  · right
    obtain ⟨cl, ss, hss, hcall⟩ := Sys.session_of_commit hlog
    rw [← hstep] at hlog
    have hc : (reach (acts ++ [act])).log[(reach acts).log.length]? = some c := by
      rw [hlog, List.getElem?_concat_length]
    obtain ⟨σ', heff, hsucc, -⟩ := effect_reach (acts ++ [act]) hc
    refine ⟨cl, ss, c.value, _, σ', hss, by rw [hcall]; exact heff, fun k hk => ?_, fun k hk => ?_⟩
    · rw [hearlier]
      exact get_viewOf hk
    · rw [store_reach (acts ++ [act]), hlog, List.length_append, ← hlog]
      exact hsucc k hk

/-- A schedule of appends, commits, fences, forks and compactions.  A compaction reads
its history in the state at some point of the schedule, and what it publishes at any
later point is what `compact` makes of that reading. -/
def Compacting [Payload D] (agg : Aggregate D S A) (acts : Schedule D S) : Prop :=
  ∀ earlier client call later, acts = earlier ++ .invoke client call :: later →
    call.OnlyGrows ∧ ∀ stream record state ulid, call = .publishSnapshot stream record state ulid →
      ∃ before after jobId nowMs, earlier = before ++ after ∧
        compacted agg (reach before).store stream jobId nowMs = .ok (record, state)

theorem Compacting.init [Payload D] {agg : Aggregate D S A} {acts : Schedule D S}
    {act : Action (Call D S)} (h : Compacting agg (acts ++ [act])) : Compacting agg acts := by
  intro earlier client call later hacts
  exact h earlier client call (later ++ [act]) (by rw [hacts]; simp)

/-- What a run of such a schedule keeps. -/
structure Prefixed [Payload D] (agg : Aggregate D S A) (acts : Schedule D S) : Prop where
  growing : Growing (reach acts).store
  snapshots : Snapshots agg (reach acts).store
  calls : (reach acts).CallsIn (Call.Permitted agg (reach acts).store)
  grown : ∀ before after, acts = before ++ after →
    Prolongs (reach before).store (reach acts).store

theorem prefixed_reach [Payload D] {agg : Aggregate D S A} {acts : Schedule D S}
    (h : Compacting agg acts) : Prefixed agg acts := by
  induction acts using List.reverseRecOn with
  | nil =>
      refine ⟨.empty, fun s m r hr => ?_, fun cl ss hss => ?_, fun before after hacts => ?_⟩
      · exact absurd hr (by simp [reach, Sys.run, Sys.init])
      · exact absurd hss (by simp [reach, Sys.run, Sys.init])
      · obtain ⟨rfl, rfl⟩ := List.append_eq_nil_iff.mp hacts.symm
        exact .of_agree fun _ _ => rfl
  | append_singleton acts act ih =>
      have hk := ih h.init
      -- the last action only grows histories, and any snapshot it commits is of a prefix
      have hlast : Growing (reach (acts ++ [act])).store ∧
          Snapshots agg (reach (acts ++ [act])).store ∧
          Prolongs (reach acts).store (reach (acts ++ [act])).store := by
        rcases store_reach_concat acts act with hstore | ⟨cl, ss, infos, σ, σ', hss, heff, hσ, hσ'⟩
        · rw [hstore]
          exact ⟨hk.growing, hk.snapshots, .of_agree fun _ _ => rfl⟩
        · have h₁ : Grown (reach acts).store σ :=
            hk.growing.grown_of_agree fun k htree => hσ k (htree.ne (by simp))
          have hperm := (hk.calls cl ss hss).mono h₁.prolongs
          have h₂ : Grown σ σ' := heff.grown hperm.1 h₁.growing
          have h₃ : Grown σ' (reach (acts ++ [act])).store :=
            h₂.growing.grown_of_agree fun k htree => hσ' k (htree.ne (by simp))
          have hs₁ : Snapshots agg σ :=
            hk.snapshots.of_agree h₁.prolongs fun s m => hσ _ (by simp)
          have hs₂ : Snapshots agg σ' := heff.snapshots hperm h₂ hs₁
          exact ⟨h₃.growing, hs₂.of_agree h₃.prolongs fun s m => hσ' _ (by simp),
            (h₁.prolongs.trans h₂.prolongs).trans h₃.prolongs⟩
      obtain ⟨hgrowing, hsnaps, hprol⟩ := hlast
      have hgrown : ∀ before after, acts ++ [act] = before ++ after →
          Prolongs (reach before).store (reach (acts ++ [act])).store := by
        intro before after hacts
        rcases List.eq_nil_or_concat after with rfl | ⟨after, act', rfl⟩
        · rw [List.append_nil] at hacts
          rw [hacts]
          exact .of_agree fun _ _ => rfl
        · rw [List.concat_eq_append, ← List.append_assoc] at hacts
          obtain ⟨hinit, -⟩ := List.append_inj' hacts rfl
          exact (hk.grown before after hinit).trans hprol
      refine ⟨hgrowing, hsnaps, ?_, hgrown⟩
      have hcalls : (reach acts).CallsIn (Call.Permitted agg (reach (acts ++ [act])).store) :=
        fun cl ss hss => (hk.calls cl ss hss).mono hprol
      have hrun : reach (acts ++ [act]) = (reach acts).run Call.proc [act] :=
        Sys.run_append Call.proc (Sys.init ∅) acts [act]
      have hinvoked : ∀ client call, .invoke client call ∈ [act] →
          Call.Permitted agg (reach (acts ++ [act])).store call := by
        intro client call hmem
        obtain rfl := List.mem_singleton.mp hmem
        obtain ⟨hgrows, hpub⟩ := h acts client call [] rfl
        refine ⟨hgrows, fun stream record state ulid hcall => ?_⟩
        obtain ⟨before, after, jobId, nowMs, hacts, hread⟩ := hpub stream record state ulid hcall
        refine (snapshotOf_compacted hread).mono (hgrown before (after ++ [.invoke client call]) ?_)
        rw [hacts, List.append_assoc]
      rw [hrun]
      rw [hrun] at hcalls hinvoked
      exact hcalls.run hinvoked

/-- However compactions overlap and in whatever order they publish, rehydration returns
the fold of the whole history and the version of its last event. -/
theorem rehydrate_eq_folded [Payload D] (agg : Aggregate D S A) (hlaw : agg.Lawful)
    (acts : Schedule D S) (hacts : Compacting agg acts) (stream : String) :
    ∃ events, readHistory (reach acts).store stream (.included 0) .unbounded = .ok events ∧
      rehydrate agg (reach acts).store stream =
        .ok (agg.folded events, events.getLast?.map (·.version)) := by
  have h := prefixed_reach hacts
  obtain ⟨events, hevents, -⟩ := h.growing.readHistory_ok stream
  refine ⟨events, hevents, ?_⟩
  rw [rehydrate_of_snapshot hlaw h.growing.layered fun r hr => ?_, hevents]
  · rfl
  · obtain ⟨m, hm⟩ := get_of_snapshotAt hr
    exact h.snapshots stream m r hm

/-! ## An overtaken compaction of a fork -/

theorem Compacting.nil [Payload D] {agg : Aggregate D S A} : Compacting agg ([] : Schedule D S) :=
  fun earlier _ _ _ hacts => by simp at hacts

theorem Compacting.concat [Payload D] {agg : Aggregate D S A} {acts : Schedule D S}
    (h : Compacting agg acts) {act : Action (Call D S)}
    (hact : ∀ client call, act = .invoke client call → call.OnlyGrows ∧
      ∀ stream record state ulid, call = .publishSnapshot stream record state ulid →
        ∃ before after jobId nowMs, acts = before ++ after ∧
          compacted agg (reach before).store stream jobId nowMs = .ok (record, state)) :
    Compacting agg (acts ++ [act]) := by
  intro earlier client call later hacts
  rcases List.eq_nil_or_concat later with rfl | ⟨later, act', rfl⟩
  · obtain ⟨rfl, hlast⟩ := List.append_inj' hacts rfl
    exact hact client call (List.singleton_inj.mp hlast)
  · rw [List.concat_eq_append, ← List.cons_append, ← List.append_assoc] at hacts
    obtain ⟨hinit, -⟩ := List.append_inj' hacts rfl
    exact h earlier client call later hinit

theorem Compacting.steps [Payload D] {agg : Aggregate D S A} {acts : Schedule D S}
    (h : Compacting agg acts) (client n : Nat) :
    Compacting agg (acts ++ List.replicate n (.step client)) := by
  induction n with
  | zero => rwa [List.replicate_zero, List.append_nil]
  | succ n ih =>
      rw [List.replicate_succ', ← List.append_assoc]
      refine ih.concat ?_
      rintro _ _ ⟨⟩

/-- A call that a client invokes and, if nothing is in its way, finishes. -/
def wholeCall (client : Nat) (call : Call Bytes Nat) : Schedule Bytes Nat :=
  [.invoke client call] ++ List.replicate 12 (.step client)

theorem Compacting.wholeCall {agg : Aggregate Bytes Nat A} {acts : Schedule Bytes Nat}
    (h : Compacting agg acts) (client : Nat) {call : Call Bytes Nat} (hgrows : call.OnlyGrows)
    (hcall : ∀ stream record state ulid, call = .publishSnapshot stream record state ulid →
      ∃ before after jobId nowMs, acts = before ++ after ∧
        compacted agg (reach before).store stream jobId nowMs = .ok (record, state)) :
    Compacting agg (acts ++ Landslide.wholeCall client call) := by
  rw [Landslide.wholeCall, ← List.append_assoc]
  refine Compacting.steps (h.concat ?_) client 12
  rintro _ _ ⟨⟩
  exact ⟨hgrows, hcall⟩

/-- An append of one event. -/
def appendX (stream : String) : Call Bytes Nat :=
  .append stream .any [{ eventType := "x", data := [] }] fun _ _ => { ulid := "u", nowMs := 5 }

/-- An event of `s`, which `t` inherits. -/
def forkedOnce : Schedule Bytes Nat := wholeCall 0 (appendX "s") ++ wholeCall 0 (.fork "s" 0 "t")

/-- An event of `t` itself. -/
def forkGrown : Schedule Bytes Nat := forkedOnce ++ wholeCall 0 (appendX "t")

/-- What a compaction of `t` makes of `n` events. -/
def countOf (n : Nat) : CompactionRecord :=
  { stream := "t", throughVersion := n - 1, eventsCompacted := n, jobId := none, tsMs := 5 }

/-- One compaction of `t` reads the inherited event only, another reads both events and
publishes first. -/
def overtakenFork : Schedule Bytes Nat :=
  forkGrown ++ wholeCall 1 (.publishSnapshot "t" (countOf 2) 2 "d") ++
    wholeCall 0 (.publishSnapshot "t" (countOf 1) 1 "c")

theorem compacting_overtakenFork : Compacting counter overtakenFork := by
  have hgrown : Compacting counter forkGrown := by
    have h₁ : Compacting counter (wholeCall 0 (appendX "s")) :=
      Compacting.nil.wholeCall 0 trivial (by rintro _ _ _ _ ⟨⟩)
    have h₂ : Compacting counter forkedOnce := h₁.wholeCall 0 trivial (by rintro _ _ _ _ ⟨⟩)
    exact h₂.wholeCall 0 trivial (by rintro _ _ _ _ ⟨⟩)
  have hsecond : Compacting counter
      (forkGrown ++ wholeCall 1 (.publishSnapshot "t" (countOf 2) 2 "d")) := by
    refine hgrown.wholeCall 1 trivial ?_
    rintro _ _ _ _ ⟨⟩
    exact ⟨forkGrown, [], none, 5, (List.append_nil _).symm, rfl⟩
  refine hsecond.wholeCall 0 trivial ?_
  rintro _ _ _ _ ⟨⟩
  refine ⟨forkedOnce, wholeCall 0 (appendX "t") ++
    wholeCall 1 (.publishSnapshot "t" (countOf 2) 2 "d"), none, 5, ?_, rfl⟩
  rw [forkGrown, List.append_assoc]

/-- The latest snapshot of the fork is the stale one, and both events are counted. -/
theorem rehydrate_eq_folded_overtakenFork :
    (snapshotAt (reach overtakenFork).store "t").map (·.throughVersion) = some 0 ∧
      ∃ events, readHistory (reach overtakenFork).store "t" (.included 0) .unbounded = .ok events ∧
        rehydrate counter (reach overtakenFork).store "t" =
          .ok (counter.folded events, events.getLast?.map (·.version)) :=
  ⟨by decide +kernel,
    rehydrate_eq_folded counter counter_lawful overtakenFork compacting_overtakenFork "t"⟩

end

end Landslide
