import Landslide.Stream

/-!
# Overlapping compactions

A compaction reads the history of a stream, builds a snapshot and publishes it in a
transaction of its own.  The snapshot is numbered by the global counter as that
transaction reads it, and the highest number is the latest snapshot, whatever it
covers.  So a compaction that read early and publishes late puts an older snapshot
over a newer one (`overtaken_compaction_lowers_snapshot`).

A publish replaces the latest snapshot unless that one has a higher number
(`Highest.publish`).  So the version that the latest snapshot covers never goes down
exactly when no publish replaces a snapshot of more than it has read
(`covered_never_decreases_iff`).
-/

namespace Landslide

open TxnKv Std

section

variable {D S : Type}

/-! ## The highest snapshot -/

/-- The latest snapshot is one of the store. -/
theorem get_of_snapshotAt {σ : Db D S} {stream : String} {r : SnapshotRecord S}
    (h : snapshotAt σ stream = some r) : ∃ m, σ.get (.snap stream m) = some r := by
  obtain ⟨⟨k, x⟩, hmem, hk⟩ := List.mem_filterMap.mp (List.mem_of_getLast? h)
  rw [snapshotsOf, Store.mem_scan] at hmem
  cases k with
  | snap s m =>
      cases hk
      obtain rfl : s = stream := by simpa [snapRange] using hmem.1
      exact ⟨m, hmem.2⟩
  | record | tail | fence | trim | deleted | fork | forks | rollback | ts | compaction | seq =>
      cases hk

/-- Snapshot `m` of a stream is `r`, and no snapshot of the stream has a higher
number. -/
structure Highest (σ : Db D S) (stream : String) (m : Nat) (r : SnapshotRecord S) : Prop where
  get : σ.get (.snap stream m) = some r
  le : ∀ m', (σ.get (.snap stream m')).isSome = true → m' ≤ m

namespace Highest

variable {σ σ' : Db D S} {stream : String} {m : Nat} {r : SnapshotRecord S}

/-- A read of the latest snapshot returns the highest. -/
theorem snapshotAt_eq (h : Highest σ stream m r) : snapshotAt σ stream = some r := by
  have hlast : (snapshotsOf σ stream).getLast? = some ⟨.snap stream m, r⟩ := by
    refine getLast?_of_greatest (r := fun a b : (k : Key) × Val D S k => compare a.1 b.1 = .lt)
      (fun a => Store.keyLt_irrefl.irrefl a) (fun a b hab hba => ?_) (Store.scan_sorted _ _) ?_ ?_
    · exact absurd (Store.keyLt_antisymm.antisymm a b hab hba ▸ hab) (Store.keyLt_irrefl.irrefl a)
    · rw [Store.mem_scan]
      exact ⟨by simp [snapRange], h.get⟩
    · rintro ⟨k, x⟩ hk
      rw [Store.mem_scan] at hk
      cases k with
      | snap s m' =>
          obtain rfl : s = stream := by simpa [snapRange] using hk.1
          have hle := h.le m' (by rw [hk.2]; rfl)
          rcases Nat.eq_or_lt_of_le hle with rfl | hlt
          · left
            have hx := hk.2
            rw [h.get] at hx
            cases hx
            rfl
          · exact .inr (Key.snap_lt.mpr hlt)
      | record | tail | fence | trim | deleted | fork | forks | rollback | ts | compaction | seq =>
          cases hk.1
  obtain ⟨init, hinit⟩ := List.getLast?_eq_some_iff.mp hlast
  rw [snapshotAt, hinit, List.filterMap_append]
  simp [snapshotOf]

theorem covered_eq (h : Highest σ stream m r) : covered σ stream = r.throughVersion + 1 := by
  rw [covered, h.snapshotAt_eq]
  rfl

theorem congr (h : Highest σ stream m r)
    (hsnap : ∀ m, σ'.get (.snap stream m) = σ.get (.snap stream m)) : Highest σ' stream m r where
  get := (hsnap m).trans h.get
  le m' hm' := h.le m' (hsnap m' ▸ hm')

end Highest

/-- A stream without a snapshot has none, and any other has a highest. -/
theorem highest_cases (σ : Db D S) (stream : String) :
    (∀ m, σ.get (.snap stream m) = none) ∨ ∃ m r, Highest σ stream m r := by
  cases hl : (snapshotsOf σ stream).getLast? with
  | none =>
      left
      intro m
      cases hm : σ.get (.snap stream m) with
      | none => rfl
      | some r =>
          have hmem : ⟨.snap stream m, r⟩ ∈ snapshotsOf σ stream :=
            Store.mem_scan.mpr ⟨by simp [snapRange], hm⟩
          rw [List.getLast?_eq_none_iff.mp hl] at hmem
          cases hmem
  | some e =>
      obtain ⟨k, r⟩ := e
      obtain ⟨init, hinit⟩ := List.getLast?_eq_some_iff.mp hl
      have hk := Store.mem_scan.mp (List.mem_of_getLast? hl)
      have hsorted := Store.scan_sorted σ (snapRange stream)
      rw [← snapshotsOf, hinit] at hsorted
      cases k with
      | snap s m =>
          obtain rfl : s = stream := by simpa [snapRange] using hk.1
          refine .inr ⟨m, r, hk.2, fun m' hm' => ?_⟩
          obtain ⟨r', hr'⟩ := Option.isSome_iff_exists.mp hm'
          have hmem : ⟨.snap s m', r'⟩ ∈ snapshotsOf σ s :=
            Store.mem_scan.mpr ⟨by simp [snapRange], hr'⟩
          rw [hinit] at hmem
          rcases List.mem_append.mp hmem with hmem | hmem
          · have hlt := (List.pairwise_append.mp hsorted).2.2 _ hmem _ (List.mem_singleton_self _)
            exact Nat.le_of_lt (Key.snap_lt.mp hlt)
          · cases List.mem_singleton.mp hmem
            exact le_rfl
      | record | tail | fence | trim | deleted | fork | forks | rollback | ts | compaction | seq =>
          cases hk.1

/-! ## One publish -/

theorem get_published_self (σ : Db D S) (stream : String) (record : CompactionRecord) (state : S)
    (ulid : String) : (published σ stream record state ulid).get (.snap stream (seqOf σ + 1)) =
      some { throughVersion := record.throughVersion, tsMs := record.tsMs, state := state } := by
  rw [published, Store.get_put_of_ne _ _ (by simp), Store.get_put_of_ne _ _ (by simp),
    Store.get_put_self]

theorem get_published_snap_of_ne {σ : Db D S} {stream s : String} (record : CompactionRecord)
    (state : S) (ulid : String) {m : Nat} (h : Key.snap s m ≠ .snap stream (seqOf σ + 1)) :
    (published σ stream record state ulid).get (.snap s m) = σ.get (.snap s m) := by
  rw [published, Store.get_put_of_ne _ _ (by simp), Store.get_put_of_ne _ _ (by simp),
    Store.get_put_of_ne _ _ h]

/-- The first snapshot of a stream is its highest. -/
theorem highest_first {σ : Db D S} {stream : String} (h : ∀ m, σ.get (.snap stream m) = none)
    (record : CompactionRecord) (state : S) (ulid : String) :
    Highest (published σ stream record state ulid) stream (seqOf σ + 1)
      { throughVersion := record.throughVersion, tsMs := record.tsMs, state := state } where
  get := get_published_self σ stream record state ulid
  le m hm := by
    by_cases hne : m = seqOf σ + 1
    · exact Nat.le_of_eq hne
    · rw [get_published_snap_of_ne record state ulid (by simp [hne]), h m] at hm
      cases hm

/-- A published snapshot takes the place of the highest unless that one has a higher
number. -/
theorem Highest.publish {σ : Db D S} {stream : String} {m : Nat} {r : SnapshotRecord S}
    (h : Highest σ stream m r) (record : CompactionRecord) (state : S) (ulid : String) :
    if m ≤ seqOf σ + 1 then
      Highest (published σ stream record state ulid) stream (seqOf σ + 1)
        { throughVersion := record.throughVersion, tsMs := record.tsMs, state := state }
    else Highest (published σ stream record state ulid) stream m r := by
  have old : ∀ m', m' ≠ seqOf σ + 1 →
      (published σ stream record state ulid).get (.snap stream m') = σ.get (.snap stream m') :=
    fun m' hne => get_published_snap_of_ne record state ulid (by simp [hne])
  split
  · next hle =>
    refine ⟨get_published_self σ stream record state ulid, fun m' hm' => ?_⟩
    by_cases hne : m' = seqOf σ + 1
    · exact Nat.le_of_eq hne
    · rw [old m' hne] at hm'
      exact (h.le m' hm').trans hle
  · next hgt =>
    refine ⟨(old m (by omega)).trans h.get, fun m' hm' => ?_⟩
    by_cases hne : m' = seqOf σ + 1
    · omega
    · rw [old m' hne] at hm'
      exact h.le m' hm'

/-- What the latest snapshot covers after a publish. -/
theorem covered_published (σ : Db D S) (stream : String) (record : CompactionRecord) (state : S)
    (ulid : String) :
    covered σ stream ≤ covered (published σ stream record state ulid) stream ↔
      ∀ m r, Highest σ stream m r → m ≤ seqOf σ + 1 → r.throughVersion ≤ record.throughVersion := by
  rcases highest_cases σ stream with hnone | ⟨m, r, h⟩
  · have hzero : covered σ stream = 0 := by
      rw [covered]
      cases hs : snapshotAt σ stream with
      | none => rfl
      | some r =>
          obtain ⟨m, hm⟩ := get_of_snapshotAt hs
          rw [hnone m] at hm
          cases hm
    rw [hzero]
    refine ⟨fun _ m r h => ?_, fun _ => Nat.zero_le _⟩
    have hget := h.get
    rw [hnone m] at hget
    cases hget
  · have hpub := h.publish record state ulid
    have only : ∀ m' r', Highest σ stream m' r' → m' = m ∧ r' = r := by
      intro m' r' h'
      have hm : m' = m := Nat.le_antisymm (h.le m' (by rw [h'.get]; rfl))
        (h'.le m (by rw [h.get]; rfl))
      subst hm
      have hr := h'.get
      rw [h.get] at hr
      exact ⟨rfl, (Option.some.inj hr).symm⟩
    split at hpub
    · next hle =>
      rw [h.covered_eq, hpub.covered_eq]
      constructor
      · intro hcov m' r' h' _
        rw [(only m' r' h').2]
        exact Nat.le_of_succ_le_succ hcov
      · exact fun hall => Nat.succ_le_succ (hall m r h hle)
    · next hgt =>
      rw [h.covered_eq, hpub.covered_eq]
      refine ⟨fun _ m' r' h' hle => ?_, fun _ => le_rfl⟩
      rw [(only m' r' h').1] at hle
      exact absurd hle hgt

/-! ## Runs -/

/-- The entry publishes a snapshot of a stream, of the history through the record's
version. -/
def Publishes (stream : String) (c : Entry D S) (record : CompactionRecord) : Prop :=
  ∃ state ulid, c.body = publishBody stream record state ulid

/-- A publishing entry leaves the state it was committed on with the snapshot, numbered
by the counter as of its begin. -/
theorem get_stateOf_publish [Payload D] (acts : Schedule D S) {n : Nat} {c : Entry D S}
    (hc : (reach acts).log[n]? = some c) {stream : String} {record : CompactionRecord} {state : S}
    {ulid : String} (hbody : c.body = publishBody stream record state ulid) {k : Key}
    (hk : k ≠ .seq) : (stateOf (reach acts).log (n + 1)).get k =
      (published (viewOf (reach acts).log n c) stream record state ulid).get k := by
  obtain ⟨t, hr, hf⟩ := (valid_reach acts).runs_at_commit (fun _ _ => Call.Body.within) hc
  rw [hbody] at hr
  have hview : t.view = (viewOf (reach acts).log n c).applyAll c.foot.writes := by
    rw [Prog.view_of_run_begin hr, hf]
    rfl
  have hpub : t.view = published (viewOf (reach acts).log n c) stream record state ulid :=
    publishBody_run hr
  rw [← hpub, hview]
  exact Commit.get_stateAt_succ hc hk

/-- The ULID that a call draws for its compaction record. -/
def Call.announces : Call D S → Option String
  | .publishSnapshot _ _ _ ulid => some ulid
  | .compact _ _ _ _ _ ulid => some ulid
  | _ => none

/-- The keys that only a publish writes, `g/seq` apart. -/
def Key.OfPublish : Key → Bool
  | .snap _ _ => true
  | .compaction _ => true
  | _ => false

/-- A call leaves all snapshots and announcements, or is a compaction and publishes one
of each. -/
theorem Call.Effect.publish_cases {call : Call D S} {σ σ' : Db D S} {infos : List CommitInfo}
    (he : call.Effect σ infos σ') :
    (∀ k, k.OfPublish = true → σ'.get k = σ.get k) ∨
      ∃ stream record state ulid, σ' = published σ stream record state ulid ∧
        (call = .publishSnapshot stream record state ulid ∨
          ∃ depth jobId build nowMs, call = .compact depth stream jobId build nowMs ulid) := by
  have ne : ∀ {k k' : Key}, k.OfPublish = true → k'.OfPublish = false → k ≠ k' := by
    rintro k _ hk hk' rfl
    rw [hk] at hk'
    cases hk'
  have stamped : Stamped call.reqs σ infos σ' →
      ∀ k, k.OfPublish = true → σ'.get k = σ.get k := by
    rintro ⟨seq', σ₁, hr, rfl⟩ k hk
    have hreplay : k.OfReplay = false := by cases k <;> first | rfl | cases hk
    rw [Store.get_put_of_ne _ _ (ne hk rfl), hr.get_of_not_replay hreplay]
  cases call with
  | append | appendWithToken | appendAt | commit => exact .inl (stamped he)
  | fence s token =>
      cases he
      exact .inl fun _ hk => get_fenced_of_ne _ _ _ (ne hk rfl)
  | fork parent atVersion child =>
      obtain ⟨parentTail, -, -, -, rfl⟩ := he
      exact .inl fun _ hk => get_forked_of_ne (ne hk rfl) (ne hk rfl) (ne hk rfl)
  | trim s fromVersion txn =>
      cases he
      exact .inl fun _ hk => Store.get_put_of_ne _ _ (ne hk rfl)
  | trimBelow s floor =>
      cases he
      exact .inl fun _ hk => Store.get_put_of_ne _ _ (ne hk rfl)
  | purgeBelow s floor =>
      obtain ⟨versions, rfl⟩ := he
      exact .inl fun _ hk => get_purged_of_ne _ _ fun _ _ => ne hk rfl
  | deleteStream s =>
      obtain ⟨-, rfl⟩ := he
      exact .inl fun _ hk => Store.get_put_of_ne _ _ (ne hk rfl)
  | publishSnapshot s record state ulid => exact .inr ⟨s, record, state, ulid, he, .inl rfl⟩
  | compact depth s jobId build nowMs ulid =>
      obtain ⟨record, state, he⟩ := he
      exact .inr ⟨s, record, state, ulid, he, .inr ⟨depth, jobId, build, nowMs, rfl⟩⟩

/-- A call alone on the store that publishes nothing leaves all snapshots. -/
theorem Call.exec_snap [Payload D] (call : Call D S) (h : call.announces = none) (σ : Db D S)
    (s : String) (m : Nat) : (call.exec σ).2.get (.snap s m) = σ.get (.snap s m) := by
  rcases call.exec_cases σ with hsame | ⟨infos, heff⟩
  · rw [hsame]
  · rcases heff.publish_cases with hsame | ⟨stream, record, state, ulid, -, hcall | hcall⟩
    · exact hsame _ rfl
    · rw [hcall] at h
      cases h
    · obtain ⟨depth, jobId, build, nowMs, hcall⟩ := hcall
      rw [hcall] at h
      cases h

/-- Any other entry leaves the snapshots of the stream. -/
theorem get_stateOf_snap [Payload D] (acts : Schedule D S) {n : Nat} {c : Entry D S}
    (hc : (reach acts).log[n]? = some c) {stream : String}
    (hno : ∀ record, ¬ Publishes stream c record) (m : Nat) :
    (stateOf (reach acts).log (n + 1)).get (.snap stream m) =
      (stateOf (reach acts).log n).get (.snap stream m) := by
  obtain ⟨σ', heff, hsucc, -⟩ := effect_reach acts hc
  have hbody := ((valid_reach acts).log n c hc).body
  have hview : (viewOf (reach acts).log n c).get (.snap stream m) =
      (stateOf (reach acts).log n).get (.snap stream m) := get_viewOf (by simp)
  rw [hsucc _ (by simp), ← hview]
  rcases heff.publish_cases with hsame | ⟨s, record, state, ulid, rfl, hcall⟩
  · exact hsame _ rfl
  · -- a snapshot of another stream
    have hs : s ≠ stream := by
      rintro rfl
      rcases hcall with hcall | ⟨depth, jobId, build, nowMs, hcall⟩
      · rw [hcall] at hbody
        exact hno record ⟨state, ulid, hbody⟩
      · rw [hcall] at hbody
        obtain ⟨record', state', hbody⟩ := hbody
        exact hno record' ⟨state', ulid, hbody⟩
    refine get_published_of_ne (by simp) (by simp) fun m' hk => hs ?_
    cases hk
    rfl

/-- A publish does not replace a snapshot of more than its own history: the latest
snapshot, if its number is not above the one that the publish takes, covers no version
past the last one that was read. -/
def InOrder (log : List (Entry D S)) (stream : String) (n : Nat) (c : Entry D S) : Prop :=
  ∀ record, Publishes stream c record → ∀ m r, Highest (stateOf log n) stream m r →
    m ≤ seqOf (stateOf log c.start) + 1 → r.throughVersion ≤ record.throughVersion

/-- An entry that is in order, and no other, leaves what the latest snapshot covers or
raises it. -/
theorem covered_le_succ_iff [Payload D] (acts : Schedule D S) {n : Nat} {c : Entry D S}
    (hc : (reach acts).log[n]? = some c) (stream : String) :
    covered (stateOf (reach acts).log n) stream ≤
        covered (stateOf (reach acts).log (n + 1)) stream ↔
      InOrder (reach acts).log stream n c := by
  have hview : ∀ m, (viewOf (reach acts).log n c).get (.snap stream m) =
      (stateOf (reach acts).log n).get (.snap stream m) := fun m => get_viewOf (by simp)
  -- what one record needs
  have step : ∀ record, Publishes stream c record →
      (covered (stateOf (reach acts).log n) stream ≤
          covered (stateOf (reach acts).log (n + 1)) stream ↔
        ∀ m r, Highest (stateOf (reach acts).log n) stream m r →
          m ≤ seqOf (stateOf (reach acts).log c.start) + 1 →
            r.throughVersion ≤ record.throughVersion) := by
    rintro record ⟨state, ulid, hbody⟩
    rw [covered_congr fun m => get_stateOf_publish acts hc hbody (by simp), ← covered_congr hview,
      covered_published, seqOf_viewOf]
    constructor
    · exact fun h m r hr => h m r (hr.congr hview)
    · exact fun h m r hr => h m r (hr.congr fun m => (hview m).symm)
  by_cases hpub : ∃ record, Publishes stream c record
  · obtain ⟨record, hrec⟩ := hpub
    refine ⟨fun hle record' hrec' => (step record' hrec').mp hle, fun h => ?_⟩
    exact (step record hrec).mpr (h record hrec)
  · have hno : ∀ record, ¬ Publishes stream c record := fun record h => hpub ⟨record, h⟩
    rw [covered_congr fun m => get_stateOf_snap acts hc hno m]
    exact ⟨fun _ record h => absurd h (hno record), fun _ => le_rfl⟩

/-- In every schedule, what the latest snapshot of a stream covers never goes down from
one committed state to a later one exactly when every publish is in order. -/
theorem covered_never_decreases_iff [Payload D] (acts : Schedule D S) (stream : String) :
    (∀ n m, n ≤ m → m ≤ (reach acts).log.length →
        covered (stateOf (reach acts).log n) stream ≤
          covered (stateOf (reach acts).log m) stream) ↔
      ∀ n c, (reach acts).log[n]? = some c → InOrder (reach acts).log stream n c := by
  constructor
  · intro h n c hc
    have hlt := (List.getElem?_eq_some_iff.mp hc).1
    exact (covered_le_succ_iff acts hc stream).mp (h n (n + 1) (Nat.le_succ n) hlt)
  · intro h n m hnm
    induction m, hnm using Nat.le_induction with
    | base => exact fun _ => le_rfl
    | succ m _ ih =>
        intro hm
        have hc := List.getElem?_eq_getElem (show m < (reach acts).log.length by omega)
        exact (ih (by omega)).trans ((covered_le_succ_iff acts hc stream).mpr (h m _ hc))

/-- A compaction of `s`. -/
def compactS (ulid : String) : Call Bytes Unit := .compact 1 "s" none (fun _ => .ok ()) 5 ulid

/-- Client 0 compacts `s` and has read one event.  Client 1 appends another and
compacts both.  Then client 0 publishes. -/
def overtaken : Schedule Bytes Unit :=
  appendAlone 0 "s" ++ .invoke 0 (compactS "c") :: List.replicate 5 (.step 0) ++
    appendAlone 1 "s" ++ .invoke 1 (compactS "d") :: List.replicate 12 (.step 1) ++
      List.replicate 7 (.step 0)

/-- The compaction that was overtaken lowers what the latest snapshot covers, from
version 1 to version 0. -/
theorem overtaken_compaction_lowers_snapshot :
    (reach overtaken).log.length = 4 ∧
      (reach overtaken).returned.map (·.result.isOk) = [true, true, true, true] ∧
      (snapshotAt (stateOf (reach overtaken).log 3) "s").map (·.throughVersion) = some 1 ∧
      (snapshotAt (stateOf (reach overtaken).log 4) "s").map (·.throughVersion) = some 0 := by
  refine ⟨?_, ?_, ?_, ?_⟩ <;> decide

end

end Landslide
