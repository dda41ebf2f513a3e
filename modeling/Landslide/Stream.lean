import Landslide.Alone

/-!
# The history a stream rests on

A stream that was neither forked, deleted nor rolled back, and of which only
events below its latest snapshot were purged or hidden.  `Retains` relates the
state to the full history of such a stream, which the store itself may no longer
hold: the events past the snapshot are all there, and a read from the snapshot on
returns them.  Appends extend the history, and purges, trims and published
snapshots leave it.
-/

namespace Landslide

open TxnKv Std

section

variable {D S : Type}

/-- Folds the history of a range of versions into `init`. -/
def fold {T : Type} (σ : Db D S) (stream : String) (start stop : Bound) (init : T)
    (apply : T → Event D → T) : Except Error (T × Option Nat) :=
  (readHistory σ stream start stop).map fun events =>
    (events.foldl apply init, events.getLast?.map (·.version))

/-! ## Histories -/

/-- The events of a history with versions in `[lo, hi)`. -/
def between (hist : Nat → Option (Event D)) (lo hi : Nat) : List (Event D) :=
  (List.range' lo (hi - lo)).filterMap hist

theorem between_append (hist : Nat → Option (Event D)) {lo mid hi : Nat} (h₁ : lo ≤ mid)
    (h₂ : mid ≤ hi) : between hist lo mid ++ between hist mid hi = between hist lo hi := by
  have hrange : List.range' lo (hi - lo) =
      List.range' lo (mid - lo) ++ List.range' mid (hi - mid) := by
    rw [show hi - lo = (mid - lo) + (hi - mid) by omega, ← List.range'_append_1]
    congr 2
    omega
  rw [between, between, between, hrange, List.filterMap_append]

/-- The first event of a part of a history: there is none before it. -/
theorem head?_between (hist : Nat → Option (Event D)) {e : Event D} : ∀ (k lo hi : Nat),
    hi - lo = k → (between hist lo hi).head? = some e →
      ∃ v, lo ≤ v ∧ v < hi ∧ hist v = some e ∧ ∀ u, lo ≤ u → u < v → hist u = none
  | 0, lo, hi, hk, h => by
      rw [between, hk] at h
      cases h
  | k + 1, lo, hi, hk, h => by
      rw [← between_append hist (Nat.le_add_right lo 1) (show lo + 1 ≤ hi by omega)] at h
      have hone : between hist lo (lo + 1) = (hist lo).toList := by
        rw [between, show lo + 1 - lo = 1 by omega]
        cases hlo : hist lo <;> simp [hlo]
      rw [hone] at h
      cases hlo : hist lo with
      | some e' =>
          rw [hlo] at h
          cases h
          exact ⟨lo, le_rfl, by omega, hlo, fun u h₁ h₂ => by omega⟩
      | none =>
          rw [hlo] at h
          obtain ⟨v, hv, hlt, he, hno⟩ := head?_between hist k (lo + 1) hi (by omega) h
          refine ⟨v, by omega, hlt, he, fun u h₁ h₂ => ?_⟩
          by_cases hu : u = lo
          · rw [hu, hlo]
          · exact hno u (by omega) h₂

theorem between_congr {hist hist' : Nat → Option (Event D)} {lo hi : Nat}
    (h : ∀ v, lo ≤ v → v < hi → hist v = hist' v) : between hist lo hi = between hist' lo hi := by
  refine List.filterMap_congr fun v hv => ?_
  obtain ⟨hlo, hhi⟩ := List.mem_range'_1.mp hv
  exact h v hlo (by omega)

/-! ## Latest snapshots -/

/-- The first version that the latest snapshot of a stream does not cover. -/
def covered (σ : Db D S) (stream : String) : Nat :=
  (snapshotAt σ stream).elim 0 (·.throughVersion + 1)

theorem snapshotAt_congr {σ σ' : Db D S} {stream : String}
    (h : ∀ m, σ'.get (.snap stream m) = σ.get (.snap stream m)) :
    snapshotAt σ' stream = snapshotAt σ stream := by
  have hscan : snapshotsOf σ' stream = snapshotsOf σ stream := by
    refine Store.scan_congr fun k hk => ?_
    cases k with
    | snap s m =>
        obtain rfl : s = stream := by simpa [snapRange] using hk
        exact h m
    | record | tail | fence | trim | deleted | fork | forks | rollback | ts | compaction | seq =>
        cases hk
  rw [snapshotAt, hscan, snapshotAt]

theorem covered_congr {σ σ' : Db D S} {stream : String}
    (h : ∀ m, σ'.get (.snap stream m) = σ.get (.snap stream m)) :
    covered σ' stream = covered σ stream := by
  rw [covered, snapshotAt_congr h, covered]

/-- The snapshots of a stream are numbered by the counter. -/
def Numbered (σ : Db D S) (stream : String) : Prop :=
  ∀ m, (σ.get (.snap stream m)).isSome = true → m ≤ seqOf σ

/-- The greatest element of a sorted list is its last. -/
theorem getLast?_of_greatest {α : Type} {r : α → α → Prop} (hirr : ∀ a, ¬ r a a)
    (hasymm : ∀ a b, r a b → ¬ r b a) {l : List α} (h : l.Pairwise r) {x : α} (hx : x ∈ l)
    (hmax : ∀ y ∈ l, y = x ∨ r y x) : l.getLast? = some x := by
  cases hl : l.getLast? with
  | none =>
      rw [List.getLast?_eq_none_iff.mp hl] at hx
      cases hx
  | some y =>
      obtain ⟨init, rfl⟩ := List.getLast?_eq_some_iff.mp hl
      rcases List.mem_append.mp hx with hx | hx
      · have hxy := (List.pairwise_append.mp h).2.2 x hx y (List.mem_singleton_self _)
        rcases hmax y (by simp) with rfl | hyx
        · exact absurd hxy (hirr y)
        · exact absurd hyx (hasymm x y hxy)
      · rw [List.mem_singleton.mp hx]

/-- A published snapshot is the latest when no other has a higher number. -/
theorem snapshotAt_published {σ : Db D S} {stream : String} (record : CompactionRecord)
    (state : S) (ulid : String)
    (hsnaps : Numbered σ stream) :
    snapshotAt (published σ stream record state ulid) stream =
      some { throughVersion := record.throughVersion, tsMs := record.tsMs, state := state } := by
  have hget : (published σ stream record state ulid).get (.snap stream (seqOf σ + 1)) =
      some { throughVersion := record.throughVersion, tsMs := record.tsMs, state := state } := by
    rw [published, Store.get_put_of_ne _ _ (by simp), Store.get_put_of_ne _ _ (by simp),
      Store.get_put_self]
  have hlast : (snapshotsOf (published σ stream record state ulid) stream).getLast? =
      some ⟨.snap stream (seqOf σ + 1),
        { throughVersion := record.throughVersion, tsMs := record.tsMs, state := state }⟩ := by
    refine getLast?_of_greatest (r := fun a b : (k : Key) × Val D S k => compare a.1 b.1 = .lt)
      (fun a => Store.keyLt_irrefl.irrefl a) (fun a b hab hba => ?_) (Store.scan_sorted _ _) ?_ ?_
    · exact absurd (Store.keyLt_antisymm.antisymm a b hab hba ▸ hab) (Store.keyLt_irrefl.irrefl a)
    · rw [Store.mem_scan]
      exact ⟨by simp [snapRange], hget⟩
    · rintro ⟨k, x⟩ hk
      rw [Store.mem_scan] at hk
      cases k with
      | snap s m =>
          obtain rfl : s = stream := by simpa [snapRange] using hk.1
          by_cases hm : m = seqOf σ + 1
          · subst hm
            rw [hget] at hk
            cases hk.2
            exact .inl rfl
          · right
            have hold : (published σ s record state ulid).get (.snap s m) =
                σ.get (.snap s m) := by
              rw [published, Store.get_put_of_ne _ _ (by simp), Store.get_put_of_ne _ _ (by simp),
                Store.get_put_of_ne _ _ (by simp [hm])]
            rw [hold] at hk
            have := hsnaps m (by rw [hk.2]; rfl)
            exact Key.snap_lt.mpr (by omega)
      | record | tail | fence | trim | deleted | fork | forks | rollback | ts | compaction | seq =>
          cases hk.1
  obtain ⟨init, hinit⟩ := List.getLast?_eq_some_iff.mp hlast
  rw [snapshotAt, hinit, List.filterMap_append]
  simp [snapshotOf]

/-! ## The full history of a stream -/

/-- The state holds of the full history `hist` of a stream, `n` events, at least
what the latest snapshot does not cover. -/
structure Retains (σ : Db D S) (stream : String) (hist : Nat → Option (Event D)) (n : Nat) :
    Prop where
  fork : σ.get (.fork stream) = none
  deleted : σ.get (.deleted stream) = none
  windows : ∀ v, σ.get (.rollback stream v) = none
  next : nextVersion σ stream = n
  full : ∀ v, v < n → ∃ e, hist v = some e ∧ e.version = v
  record : ∀ v (env : Envelope D), σ.get (.record stream v) = some env →
    v < n ∧ env.version = v ∧ hist v = some (Event.fromParts env)
  present : ∀ v, covered σ stream ≤ v → v < n → (σ.get (.record stream v)).isSome = true
  floor : floorOf σ stream ≤ covered σ stream
  covered_le : covered σ stream ≤ n

/-- The keys of a stream that its history rests on. -/
def OfStream (stream : String) : Key → Prop
  | .record s _ => s = stream
  | .tail s => s = stream
  | .trim s => s = stream
  | .deleted s => s = stream
  | .fork s => s = stream
  | .rollback s _ => s = stream
  | .snap s _ => s = stream
  | _ => False

/-- A stream that was never rolled back has no windows. -/
theorem windowsOf_eq_nil {σ : Db D S} {stream : String}
    (h : ∀ v, σ.get (.rollback stream v) = none) : windowsOf σ stream = [] := by
  refine List.eq_nil_iff_forall_not_mem.mpr fun w hw => ?_
  obtain ⟨⟨k, x⟩, hmem, hk⟩ := List.mem_filterMap.mp hw
  rw [Store.mem_scan] at hmem
  cases k with
  | rollback s v =>
      obtain rfl : s = stream := by simpa [rollbackRange] using hmem.1
      rw [h v] at hmem
      cases hmem.2
  | record | tail | fence | trim | deleted | fork | forks | ts | snap | compaction | seq => cases hk

namespace Retains

variable {σ σ' : Db D S} {stream : String}
variable {hist : Nat → Option (Event D)} {n : Nat}

/-! ## Reads -/

theorem windowsOf_eq (h : Retains σ stream hist n) : windowsOf σ stream = [] :=
  windowsOf_eq_nil h.windows

/-- The events of a stream are its records from the floor on. -/
theorem eventsOf_eq (h : Retains σ stream hist n) (lo : Nat) :
    eventsOf σ stream lo none = between
      (fun v => (σ.get (.record stream v)).map Event.fromParts) (max lo (floorOf σ stream)) n := by
  have hsorted := eventsOf_sorted (fun v env hv => (h.record v env hv).2.1) lo none
  have hsorted' : (between (fun v => (σ.get (.record stream v)).map Event.fromParts)
      (max lo (floorOf σ stream)) n).Pairwise fun e e' => e.version < e'.version := by
    refine List.pairwise_filterMap.mpr (List.Pairwise.imp ?_ List.pairwise_lt_range')
    intro v w hvw e he e' he'
    obtain ⟨env, henv, rfl⟩ := Option.map_eq_some_iff.mp he
    obtain ⟨env', henv', rfl⟩ := Option.map_eq_some_iff.mp he'
    change env.version < env'.version
    rw [(h.record v env henv).2.1, (h.record w env' henv').2.1]
    exact hvw
  have hshow : ∀ v (env : Envelope D), σ.get (.record stream v) = some env →
      max lo (floorOf σ stream) ≤ v →
        shows σ stream (max lo (floorOf σ stream)) none env = true := by
    intro v env henv hlo
    have hv := (h.record v env henv).2.1
    simp only [shows, visible, h.windowsOf_eq, h.deleted, hv]
    simp
    omega
  have hirr : Std.Irrefl fun e e' : Event D => e.version < e'.version :=
    ⟨fun e he => Nat.lt_irrefl _ he⟩
  have hanti : Std.Antisymm fun e e' : Event D => e.version < e'.version :=
    ⟨fun e e' he he' => absurd he (Nat.lt_asymm he')⟩
  refine hsorted.eq_of_mem_iff hsorted' fun e => ?_
  rw [mem_eventsOf, between, List.mem_filterMap]
  constructor
  · rintro ⟨v, env, henv, ⟨hlo, -⟩, -, rfl⟩
    refine ⟨v, List.mem_range'_1.mpr ⟨hlo, ?_⟩, by rw [henv]; rfl⟩
    have := (h.record v env henv).1
    omega
  · rintro ⟨v, hv, he⟩
    obtain ⟨env, henv, rfl⟩ := Option.map_eq_some_iff.mp he
    have hlo := (List.mem_range'_1.mp hv).1
    exact ⟨v, env, henv, ⟨hlo, rfl⟩, hshow v env henv hlo, rfl⟩

/-- Where the records are all there, the events are those of the history. -/
theorem eventsOf_eq_between (h : Retains σ stream hist n) {lo : Nat}
    (hfloor : floorOf σ stream ≤ lo)
    (hall : ∀ v, lo ≤ v → v < n → (σ.get (.record stream v)).isSome = true) :
    eventsOf σ stream lo none = between hist lo n := by
  rw [h.eventsOf_eq, Nat.max_eq_left hfloor]
  refine between_congr fun v hlo hn => ?_
  obtain ⟨env, henv⟩ := Option.isSome_iff_exists.mp (hall v hlo hn)
  rw [henv, (h.record v env henv).2.2]
  rfl

/-- The last event of a history has the last version. -/
theorem getLast?_between (h : Retains σ stream hist n) (lo : Nat) :
    ((between hist lo n).getLast?).map (·.version) = if lo < n then some (n - 1) else none := by
  split
  · next hlt =>
    obtain ⟨e, he, hv⟩ := h.full (n - 1) (by omega)
    have hone : between hist (n - 1) n = [e] := by
      rw [between, show n - (n - 1) = 1 by omega]
      simp [he]
    rw [← between_append hist (show lo ≤ n - 1 by omega) (Nat.sub_le n 1), hone]
    simp [hv]
  · next hge =>
    rw [between, show n - lo = 0 by omega]
    rfl

/-! ## The steps -/

/-- A state that may lack records and have a higher floor, within what the latest
snapshot covers. -/
theorem retain (h : Retains σ stream hist n)
    (hσ : ∀ k, OfStream stream k → (∀ v, k ≠ .record stream v) → k ≠ .trim stream →
      σ'.get k = σ.get k)
    (hsub : ∀ v (env : Envelope D), σ'.get (.record stream v) = some env →
      σ.get (.record stream v) = some env)
    (hkeep : ∀ v, covered σ stream ≤ v → v < n →
      σ'.get (.record stream v) = σ.get (.record stream v))
    (hfloor : floorOf σ' stream ≤ covered σ stream) : Retains σ' stream hist n := by
  have hsnap : ∀ m, σ'.get (.snap stream m) = σ.get (.snap stream m) :=
    fun m => hσ (.snap stream m) rfl (by simp) (by simp)
  have hcov := covered_congr hsnap
  refine ⟨(hσ (.fork stream) rfl (by simp) (by simp)).trans h.fork,
    (hσ (.deleted stream) rfl (by simp) (by simp)).trans h.deleted,
    fun v => (hσ (.rollback stream v) rfl (by simp) (by simp)).trans (h.windows v),
    (nextVersion_congr (hσ (.tail stream) rfl (by simp) (by simp))).trans h.next, h.full,
    fun v env hv => h.record v env (hsub v env hv), ?_, hcov ▸ hfloor, hcov ▸ h.covered_le⟩
  intro v hlo hn
  rw [hcov] at hlo
  rw [hkeep v hlo hn]
  exact h.present v hlo hn

/-- A state with the same keys of the stream. -/
theorem congr (h : Retains σ stream hist n)
    (hσ : ∀ k, OfStream stream k → σ'.get k = σ.get k) : Retains σ' stream hist n := by
  refine h.retain (fun k hk _ _ => hσ k hk) (fun v env hv => ?_)
    (fun v _ _ => hσ (.record stream v) rfl) ?_
  · rw [← hσ (.record stream v) rfl]
    exact hv
  · rw [floorOf, hσ (.trim stream) rfl]
    exact h.floor

/-- Removing records that the latest snapshot covers. -/
theorem purge (h : Retains σ stream hist n) {versions : List Nat}
    (hv : ∀ v ∈ versions, v < covered σ stream) :
    Retains (purged σ stream versions) stream hist n := by
  refine h.retain (fun k _ hk _ => get_purged_of_ne versions σ fun v _ => hk v)
    (fun v env hget => ?_) (fun v hlo _ => ?_) ?_
  · rw [get_purged] at hget
    split at hget
    · cases hget
    · exact hget
  · refine get_purged_of_ne versions σ fun w hw hk => ?_
    cases hk
    have := hv v hw
    omega
  · rw [floorOf, get_purged_of_ne versions σ (by simp)]
    exact h.floor

/-- Raising the floor within what the latest snapshot covers. -/
theorem trim (h : Retains σ stream hist n) {floor : Nat} (hf : floor ≤ covered σ stream) :
    Retains (σ.put (.trim stream) floor) stream hist n := by
  refine h.retain (fun k _ _ hk => Store.get_put_of_ne _ _ hk) (fun v env hget => ?_)
    (fun v _ _ => Store.get_put_of_ne _ _ (by simp)) ?_
  · rw [Store.get_put_of_ne _ _ (by simp)] at hget
    exact hget
  · rw [floorOf, Store.get_put_self]
    exact hf

/-- The records from `lo` on, whatever the floor. -/
theorem rows_eq (h : Retains σ stream hist n) (lo : Nat) :
    (((σ.scan (recordRange stream lo none)).filterMap envelopeOf).filter
      (visible lo none false none [])).map Event.fromParts =
        between (fun v => (σ.get (.record stream v)).map Event.fromParts) lo n := by
  -- the events of the same records with no floor
  have hτ := h.trim (Nat.zero_le _)
  have hfloor : floorOf (σ.put (.trim stream) 0) stream = 0 := by
    rw [floorOf, Store.get_put_self]
    rfl
  have hscan : (σ.put (.trim stream) 0).scan (recordRange stream lo none) =
      σ.scan (recordRange stream lo none) := by
    refine Store.scan_congr fun k hk => Store.get_put_of_ne _ _ ?_
    rintro rfl
    cases hk
  have hshows : shows (σ.put (.trim stream) 0) stream lo none = visible lo none false none [] := by
    simp only [shows, hτ.windowsOf_eq, hτ.deleted]
    rfl
  have heq := hτ.eventsOf_eq lo
  rw [eventsOf, hfloor, Nat.max_zero, hscan, hshows] at heq
  rw [heq]
  exact between_congr fun v _ _ => by rw [Store.get_put_of_ne _ _ (by simp)]

/-- An append extends the history by its events. -/
theorem append (h : Retains σ stream hist n) {req : AppendReq D} {seq : Nat}
    {info : CommitInfo} (happ : Appended req seq σ info σ') (hs : req.stream = stream)
    (hfrom : req.fromVersion = none) : ∃ hist', Retains σ' stream hist' (n + req.events.length) ∧
      (∀ v, v < n → hist' v = hist v) ∧
      ∀ i e, req.events[i]? = some e → ∃ ev, hist' (n + i) = some ev ∧
        ev.eventType = e.eventType ∧ ev.data = e.data := by
  subst hs
  obtain ⟨hfirst, htail⟩ := happ.nextVersion_eq hfrom
  rw [h.next] at hfirst
  have hlast := happ.last
  have other : ∀ k, k ≠ .tail req.stream → (∀ v, n ≤ v → k ≠ .record req.stream v) →
      (∀ t v, k ≠ .ts req.stream t v) → σ'.get k = σ.get k :=
    fun k h₁ h₂ h₃ => happ.frame k h₁ (fun v hv _ => h₂ v (by omega)) h₃
  have hold : ∀ v, v < n → σ'.get (.record req.stream v) = σ.get (.record req.stream v) :=
    fun v hv => other _ (by simp) (by simp; omega) (by simp)
  have hsnap : ∀ m, σ'.get (.snap req.stream m) = σ.get (.snap req.stream m) :=
    fun m => other _ (by simp) (by simp) (by simp)
  have hfloor : floorOf σ' req.stream = floorOf σ req.stream := by
    rw [floorOf, other _ (by simp) (by simp) (by simp), floorOf]
  -- every version of the batch has a record that says so
  have hbatch : ∀ i e, req.events[i]? = some e → ∃ env : Envelope D,
      σ'.get (.record req.stream (n + i)) = some env ∧ env.version = n + i ∧ env.Carries e := by
    intro i e he
    obtain ⟨env, henv, hcar, hver, -⟩ := happ.records i e he
    rw [hfirst] at henv hver
    exact ⟨env, henv, hver, hcar⟩
  have hnew : ∀ v, n ≤ v → v < n + req.events.length → ∃ env : Envelope D,
      σ'.get (.record req.stream v) = some env ∧ env.version = v := by
    intro v hlo hhi
    obtain ⟨e, he⟩ : ∃ e, req.events[v - n]? = some e :=
      ⟨_, List.getElem?_eq_getElem (show v - n < req.events.length by omega)⟩
    obtain ⟨env, henv, hver, -⟩ := hbatch (v - n) e he
    rw [Nat.add_sub_cancel' hlo] at henv hver
    exact ⟨env, henv, hver⟩
  have habove : ∀ v (env : Envelope D), σ'.get (.record req.stream v) = some env →
      v < n + req.events.length := by
    intro v env henv
    rcases happ.record_cases henv with hv | ⟨-, i, hi, rfl, -⟩
    · have := (h.record v env hv).1
      omega
    · omega
  refine ⟨fun v => if v < n then hist v else (σ'.get (.record req.stream v)).map Event.fromParts,
    ⟨?_, ?_, ?_, ?_, ?_, ?_, ?_, ?_, ?_⟩, ?_, ?_⟩
  · exact (other _ (by simp) (by simp) (by simp)).trans h.fork
  · exact (other _ (by simp) (by simp) (by simp)).trans h.deleted
  · exact fun v => (other _ (by simp) (by simp) (by simp)).trans (h.windows v)
  · simp only [nextVersion, htail, Option.elim_some]
    omega
  · intro v hv
    by_cases hlt : v < n
    · obtain ⟨e, he, hver⟩ := h.full v hlt
      exact ⟨e, by simp [hlt, he], hver⟩
    · obtain ⟨env, henv, hver⟩ := hnew v (by omega) hv
      exact ⟨Event.fromParts env, by simp [hlt, henv], hver⟩
  · intro v env henv
    by_cases hlt : v < n
    · rw [hold v hlt] at henv
      obtain ⟨-, hver, hh⟩ := h.record v env henv
      exact ⟨by omega, hver, by simp [hlt, hh]⟩
    · have hv := habove v env henv
      obtain ⟨env', henv', hver⟩ := hnew v (by omega) hv
      rw [henv] at henv'
      cases henv'
      exact ⟨hv, hver, by simp [hlt, henv]⟩
  · intro v hlo hv
    rw [covered_congr hsnap] at hlo
    by_cases hlt : v < n
    · rw [hold v hlt]
      exact h.present v hlo hlt
    · obtain ⟨env, henv, -⟩ := hnew v (by omega) hv
      rw [henv]
      rfl
  · rw [hfloor, covered_congr hsnap]
    exact h.floor
  · rw [covered_congr hsnap]
    have := h.covered_le
    omega
  · intro v hv
    simp [hv]
  · intro i e he
    obtain ⟨env, henv, -, hty, hdata, -⟩ := hbatch i e he
    exact ⟨Event.fromParts env, by simp [henv], hty, hdata⟩

/-- Publishing a snapshot of the full history. -/
theorem publish (h : Retains σ stream hist n) (hnum : Numbered σ stream)
    {record : CompactionRecord} (state : S) (ulid : String)
    (hthrough : record.throughVersion + 1 = n) :
    Retains (published σ stream record state ulid) stream hist n := by
  have other : ∀ k, k ≠ .seq → k ≠ .compaction ulid → (∀ m, k ≠ .snap stream m) →
      (published σ stream record state ulid).get k = σ.get k :=
    fun k => get_published_of_ne
  have hcov : covered (published σ stream record state ulid) stream = n := by
    rw [covered, snapshotAt_published record state ulid hnum]
    exact hthrough
  refine ⟨(other _ (by simp) (by simp) (by simp)).trans h.fork,
    (other _ (by simp) (by simp) (by simp)).trans h.deleted,
    fun v => (other _ (by simp) (by simp) (by simp)).trans (h.windows v),
    (nextVersion_congr (other _ (by simp) (by simp) (by simp))).trans h.next, h.full, ?_, ?_, ?_,
    Nat.le_of_eq hcov⟩
  · intro v env hv
    rw [other _ (by simp) (by simp) (by simp)] at hv
    exact h.record v env hv
  · intro v hlo hn
    omega
  · rw [hcov, floorOf, other _ (by simp) (by simp) (by simp)]
    exact h.floor.trans h.covered_le

/-- A stream without any event. -/
theorem empty (stream : String) :
    Retains (∅ : Db D S) stream (fun _ => none) 0 := by
  have hcov : covered (∅ : Db D S) stream = 0 := rfl
  exact ⟨by simp, by simp, by simp, by simp [nextVersion, tailVersion], by simp, by simp, by simp,
    by simp [floorOf], by simp [hcov]⟩

end Retains

namespace Numbered

variable {σ σ' : Db D S} {stream : String}

theorem empty (stream : String) : Numbered (∅ : Db D S) stream := by simp [Numbered]

/-- A state with the same snapshots and no lower counter. -/
theorem congr (h : Numbered σ stream)
    (hsnap : ∀ m, σ'.get (.snap stream m) = σ.get (.snap stream m)) (hseq : seqOf σ ≤ seqOf σ') :
    Numbered σ' stream := by
  intro m hm
  rw [hsnap m] at hm
  exact (h m hm).trans hseq

/-- A published snapshot takes the next number. -/
theorem publish (h : Numbered σ stream) (s : String) (record : CompactionRecord) (state : S)
    (ulid : String) : Numbered (published σ s record state ulid) stream := by
  intro m hm
  have hseq : seqOf (published σ s record state ulid) = seqOf σ + 1 := by
    rw [seqOf, published, Store.get_put_self]
    rfl
  rw [hseq]
  by_cases hsm : Key.snap stream m = .snap s (seqOf σ + 1)
  · cases hsm
    exact le_rfl
  · rw [published, Store.get_put_of_ne _ _ (by simp), Store.get_put_of_ne _ _ (by simp),
      Store.get_put_of_ne _ _ hsm] at hm
    exact (h m hm).trans (Nat.le_succ _)

end Numbered

/-! ## Streams without marks -/

/-- A stream that was not forked, deleted, trimmed or rolled back, with records below
its tail. -/
structure Linear (σ : Db D S) (stream : String) : Prop where
  fork : σ.get (.fork stream) = none
  deleted : σ.get (.deleted stream) = none
  windows : ∀ v, σ.get (.rollback stream v) = none
  floor : floorOf σ stream = 0
  record : ∀ v (env : Envelope D), σ.get (.record stream v) = some env →
    env.version = v ∧ v < nextVersion σ stream

/-- The last event of the stream is stored, past the latest snapshot. -/
def TailShown (σ : Db D S) (stream : String) : Prop :=
  tailVersion σ stream = none ∨ ∃ t, tailVersion σ stream = some t ∧
    covered σ stream ≤ t ∧ (σ.get (.record stream t)).isSome = true

namespace Linear

variable {σ σ' : Db D S} {stream : String}

theorem empty (stream : String) : Linear (∅ : Db D S) stream where
  fork := by simp
  deleted := by simp
  windows := by simp
  floor := by simp [floorOf]
  record := by simp

/-- A state with the same marks, whose records were there or are new below the tail. -/
theorem extend (h : Linear σ stream)
    (hmarks : ∀ k, OfStream stream k → (∀ v, k ≠ .record stream v) → k ≠ .tail stream →
      (∀ m, k ≠ .snap stream m) → σ'.get k = σ.get k)
    (hrec : ∀ v (env : Envelope D), σ'.get (.record stream v) = some env →
      σ.get (.record stream v) = some env ∨ (env.version = v ∧ v < nextVersion σ' stream))
    (hnext : nextVersion σ stream ≤ nextVersion σ' stream) : Linear σ' stream where
  fork := (hmarks (.fork stream) rfl (by simp) (by simp) (by simp)).trans h.fork
  deleted := (hmarks (.deleted stream) rfl (by simp) (by simp) (by simp)).trans h.deleted
  windows v :=
    (hmarks (.rollback stream v) rfl (by simp) (by simp) (by simp)).trans (h.windows v)
  floor := by
    rw [floorOf, hmarks (.trim stream) rfl (by simp) (by simp) (by simp)]
    exact h.floor
  record v env henv := by
    rcases hrec v env henv with hold | hnew
    · obtain ⟨hver, hlt⟩ := h.record v env hold
      exact ⟨hver, hlt.trans_le hnext⟩
    · exact hnew

theorem congr (h : Linear σ stream) (hσ : ∀ k, OfStream stream k → (∀ m, k ≠ .snap stream m) →
    σ'.get k = σ.get k) : Linear σ' stream := by
  refine h.extend (fun k hk _ _ hs => hσ k hk hs) (fun v env henv => .inl ?_) ?_
  · rw [← hσ (.record stream v) rfl (by simp)]
    exact henv
  · rw [nextVersion_congr (hσ (.tail stream) rfl (by simp))]

theorem purge (h : Linear σ stream) (versions : List Nat) :
    Linear (purged σ stream versions) stream := by
  refine h.extend (fun k _ hk _ _ => get_purged_of_ne versions σ fun v _ => hk v)
    (fun v env henv => .inl ?_) ?_
  · rw [get_purged] at henv
    split at henv
    · cases henv
    · exact henv
  · rw [nextVersion_congr (get_purged_of_ne versions σ (by simp))]

theorem append (h : Linear σ stream) {req : AppendReq D} {seq : Nat} {info : CommitInfo}
    (happ : Appended req seq σ info σ') (hs : req.stream = stream)
    (hfrom : req.fromVersion = none) : Linear σ' stream := by
  subst hs
  obtain ⟨hfirst, htail⟩ := happ.nextVersion_eq hfrom
  have hlast := happ.last
  have hnext : nextVersion σ' req.stream = nextVersion σ req.stream + req.events.length := by
    simp only [nextVersion, htail, Option.elim_some] at hfirst ⊢
    omega
  refine h.extend (fun k hk hr ht _ => happ.frame k ht (fun v _ _ => hr v) ?_)
    (fun v env henv => ?_) (by omega)
  · rintro t v rfl
    exact hk
  · rcases happ.record_cases henv with hold | ⟨hver, i, hi, rfl, -⟩
    · exact .inl hold
    · exact .inr ⟨hver, by omega⟩

/-! ## The last event -/

theorem windowsOf_eq (h : Linear σ stream) : windowsOf σ stream = [] :=
  windowsOf_eq_nil h.windows

/-- All records from `lo` on are events of the stream. -/
theorem mem_eventsOf_iff (h : Linear σ stream) (lo : Nat) {e : Event D} :
    e ∈ eventsOf σ stream lo none ↔ ∃ v env, σ.get (.record stream v) = some env ∧ lo ≤ v ∧
      Event.fromParts env = e := by
  have hfloor : max lo (floorOf σ stream) = lo := by rw [h.floor, Nat.max_zero]
  rw [mem_eventsOf, hfloor]
  constructor
  · rintro ⟨v, env, henv, ⟨hlo, -⟩, -, rfl⟩
    exact ⟨v, env, henv, hlo, rfl⟩
  · rintro ⟨v, env, henv, hlo, rfl⟩
    refine ⟨v, env, henv, ⟨hlo, rfl⟩, ?_, rfl⟩
    have hver := (h.record v env henv).1
    simp only [shows, visible, h.windowsOf_eq, h.deleted, hver]
    simpa using hlo

/-- The last event past the latest snapshot has the version of the tail exactly if it is
stored. -/
theorem last_eq_tail_iff (h : Linear σ stream) :
    (eventsOf σ stream (covered σ stream) none).getLast?.map (·.version) =
      tailVersion σ stream ↔ TailShown σ stream := by
  constructor
  · intro hlast
    cases htail : tailVersion σ stream with
    | none => exact .inl htail
    | some t =>
        rw [htail, Option.map_eq_some_iff] at hlast
        obtain ⟨e, he, rfl⟩ := hlast
        obtain ⟨v, env, henv, hlo, rfl⟩ :=
          (h.mem_eventsOf_iff _).mp (List.mem_of_getLast? he)
        have hver : (Event.fromParts env).version = v := (h.record v env henv).1
        refine .inr ⟨_, htail, ?_, ?_⟩
        · rw [hver]
          exact hlo
        · rw [hver, henv]
          rfl
  · rintro (htail | ⟨t, htail, hcov, hrec⟩)
    · -- no record lies below a tail that is not there
      have hnext : nextVersion σ stream = 0 := nextVersion_eq_zero.mpr htail
      have hnil : eventsOf σ stream (covered σ stream) none = [] := by
        refine List.eq_nil_iff_forall_not_mem.mpr fun e he => ?_
        obtain ⟨v, env, henv, -, -⟩ := (h.mem_eventsOf_iff _).mp he
        have := (h.record v env henv).2
        omega
      rw [hnil, htail]
      rfl
    · obtain ⟨env, henv⟩ := Option.isSome_iff_exists.mp hrec
      have hnext : nextVersion σ stream = t + 1 := by rw [nextVersion, htail]; rfl
      have hlast : (eventsOf σ stream (covered σ stream) none).getLast? =
          some (Event.fromParts env) := by
        refine getLast?_of_greatest (r := fun e e' : Event D => e.version < e'.version)
          (fun e => Nat.lt_irrefl _) (fun e e' => Nat.lt_asymm)
          (eventsOf_sorted (fun v env hv => (h.record v env hv).1) _ _) ?_ ?_
        · exact (h.mem_eventsOf_iff _).mpr ⟨t, env, henv, hcov, rfl⟩
        · intro e he
          obtain ⟨v, env', henv', -, rfl⟩ := (h.mem_eventsOf_iff _).mp he
          obtain ⟨hver, hlt⟩ := h.record v env' henv'
          rcases Nat.lt_or_ge v t with hvt | hvt
          · right
            show env'.version < env.version
            rw [hver, (h.record t env henv).1]
            exact hvt
          · left
            obtain rfl : v = t := by omega
            rw [henv'] at henv
            cases henv
            rfl
      rw [hlast, htail]
      exact congrArg some (h.record t env henv).1

end Linear

end

end Landslide
