import Landslide.Reader
import Landslide.Timing

/-!
# The time index

`seek_timestamp` reads the version off the first index row at or after a timestamp.  Every
record of an indexed stream has its row (`Covered`), but a row outlives what it was written
for: its event can be hidden, removed or overwritten since.  So the version that is returned
is that of the first event exactly when the first rows are up to date (`seeks_iff`).
-/

namespace Landslide

open TxnKv Std

/-- Index rows are ordered by timestamp, then by version. -/
theorem Key.ts_lt {stream : String} {ts ts' : Int} {v w : Nat} :
    compare (Key.ts stream ts v) (Key.ts stream ts' w) = .lt ↔ ts < ts' ∨ ts = ts' ∧ v < w := by
  change compare (code _) (code _) = _ ↔ _
  simp only [code, List.compare_cons_cons, (ReflCmp.compare_self : compare ([1] : List Int) [1] = .eq),
    (ReflCmp.compare_self : compare (chars stream) (chars stream) = .eq), Ordering.eq_then,
    Ordering.then_eq_lt, List.compare_nil_nil, Int.compare_eq_lt, Int.compare_eq_eq]
  simp

section

variable {D S E : Type}

/-! ## Seeking -/

/-- The index rows of a stream from a timestamp on. -/
def tsRange (stream : String) (target : Int) : Key → Bool
  | .ts s ts _ => s = stream && target ≤ ts
  | _ => false

def indexedVersion : (k : Key) × Val D S k → Option Nat
  | ⟨.ts _ _ v, _⟩ => some v
  | _ => none

/-- `seek_timestamp`: the version of the first index row from `target` on. -/
def seekTimestamp (stream : String) (target : Int) : KvM D S E (Option Nat) := do
  let rows ← .readRange (tsRange stream target)
  return rows.head?.bind indexedVersion

/-- The version of the first event of a stream with a timestamp from `target` on. -/
def firstSince (σ : Db D S) (stream : String) (target : Int) : Except Error (Option Nat) :=
  (readStream σ stream .unbounded .unbounded).map fun events =>
    (events.find? (target ≤ ·.tsMs)).map (·.version)

/-- Every seek finds the first event that is shown. -/
def SeeksFirst (σ : Db D S) (stream : String) : Prop :=
  ∀ target, (seekTimestamp stream target).eval σ = firstSince σ stream target

variable {σ σ' : Db D S} {stream : String}

/-- What a seek returns. -/
def seekOf (σ : Db D S) (stream : String) (target : Int) : Option Nat :=
  (σ.scan (tsRange stream target)).head?.bind indexedVersion

theorem seekTimestamp_eval (σ : Db D S) (stream : String) (target : Int) :
    (seekTimestamp stream target : KvM D S E _).eval σ = .ok (seekOf σ stream target) := rfl

/-- The version is in the index under this timestamp. -/
def Indexed (σ : Db D S) (stream : String) (ts : Int) (v : Nat) : Prop :=
  σ.get (.ts stream ts v) = some ()

/-- The lowest version that is in the index under this timestamp. -/
def Leads (σ : Db D S) (stream : String) (ts : Int) (v : Nat) : Prop :=
  Indexed σ stream ts v ∧ ∀ w, Indexed σ stream ts w → v ≤ w

/-- A seek that finds nothing leaves no row. -/
theorem seekOf_none {target : Int} (h : seekOf σ stream target = none) {ts : Int} {v : Nat}
    (hle : target ≤ ts) : ¬ Indexed σ stream ts v := by
  intro hrow
  have hmem : (⟨.ts stream ts v, ()⟩ : (k : Key) × Val D S k) ∈ σ.scan (tsRange stream target) :=
    Store.mem_scan.mpr ⟨by simp [tsRange, hle], hrow⟩
  cases hrows : σ.scan (tsRange stream target) with
  | nil => rw [hrows] at hmem; cases hmem
  | cons row rows =>
      obtain ⟨k, x⟩ := row
      have hk := (Store.mem_scan.mp (hrows ▸ List.mem_cons_self : (⟨k, x⟩ : (k : Key) × Val D S k) ∈
        σ.scan (tsRange stream target))).1
      rw [seekOf, hrows] at h
      cases k with
      | ts => cases h
      | record | tail | fence | trim | deleted | fork | forks | rollback | snap | compaction
      | seq => cases hk

/-- A seek finds the first row, by timestamp and then by version. -/
theorem seekOf_some {target : Int} {v : Nat} (h : seekOf σ stream target = some v) :
    ∃ ts, target ≤ ts ∧ Leads σ stream ts v ∧
      ∀ ts' w, target ≤ ts' → Indexed σ stream ts' w → ts ≤ ts' := by
  cases hrows : σ.scan (tsRange stream target) with
  | nil => rw [seekOf, hrows] at h; cases h
  | cons row rows =>
      obtain ⟨k, x⟩ := row
      have hrow := Store.mem_scan.mp (hrows ▸ List.mem_cons_self : (⟨k, x⟩ : (k : Key) × Val D S k) ∈
        σ.scan (tsRange stream target))
      have hsorted := Store.scan_sorted σ (tsRange stream target)
      rw [hrows, List.pairwise_cons] at hsorted
      rw [seekOf, hrows] at h
      cases k with
      | ts s ts w =>
          cases h
          obtain ⟨hrange, hget⟩ := hrow
          simp only [tsRange, Bool.and_eq_true, decide_eq_true_eq] at hrange
          obtain ⟨rfl, hle⟩ := hrange
          have hfirst : ∀ ts' w, target ≤ ts' → Indexed σ s ts' w → ts < ts' ∨ ts = ts' ∧ v ≤ w := by
            intro ts' w hle' hrow'
            have hmem : (⟨.ts s ts' w, ()⟩ : (k : Key) × Val D S k) ∈ σ.scan (tsRange s target) :=
              Store.mem_scan.mpr ⟨by simp [tsRange, hle'], hrow'⟩
            rw [hrows] at hmem
            rcases List.mem_cons.mp hmem with heq | hmem
            · cases heq
              exact .inr ⟨rfl, le_rfl⟩
            · exact (Key.ts_lt.mp (hsorted.1 _ hmem)).imp id fun h => ⟨h.1, h.2.le⟩
          refine ⟨ts, hle, ⟨hget, fun w hw => ?_⟩, fun ts' w hle' hw => ?_⟩
          · rcases hfirst ts w hle hw with hlt | ⟨-, hle'⟩
            · exact absurd hlt (lt_irrefl _)
            · exact hle'
          · rcases hfirst ts' w hle' hw with hlt | ⟨heq, -⟩
            · exact hlt.le
            · exact heq.le
      | record | tail | fence | trim | deleted | fork | forks | rollback | snap | compaction
      | seq => cases hrow.1

/-- A seek at a timestamp of the index finds its lowest version. -/
theorem Leads.seekOf {ts : Int} {v : Nat} (h : Leads σ stream ts v) :
    seekOf σ stream ts = some v := by
  cases hseek : Landslide.seekOf σ stream ts with
  | none => exact absurd h.1 (seekOf_none hseek le_rfl)
  | some w =>
      obtain ⟨ts', hle, hlead, hfirst⟩ := seekOf_some hseek
      obtain rfl : ts' = ts := (hfirst ts v le_rfl h.1).antisymm hle
      rw [Nat.le_antisymm (h.2 w hlead.1) (hlead.2 v h.1)]

/-! ## The first event -/

/-- The first hit in a list that is sorted by version is the one with the lowest version. -/
theorem find?_sorted {events : List (Event D)}
    (hsorted : events.Pairwise fun e e' => e.version < e'.version) {p : Event D → Bool}
    {e : Event D} (h : events.find? p = some e) :
    e ∈ events ∧ p e = true ∧ ∀ e' ∈ events, e'.version < e.version → p e' = false := by
  obtain ⟨hp, before, after, rfl, hbefore⟩ := List.find?_eq_some_iff_append.mp h
  refine ⟨by simp, hp, fun e' hmem hlt => ?_⟩
  rcases List.mem_append.mp hmem with hmem | hmem
  · simpa using hbefore e' hmem
  · rcases List.mem_cons.mp hmem with rfl | hmem
    · exact absurd hlt (lt_irrefl _)
    · have := (List.pairwise_cons.mp (List.pairwise_append.mp hsorted).2.1).1 e' hmem
      omega

theorem firstSince_eq (σ : Db D S) (stream : String) (target : Int) :
    firstSince σ stream target =
      .ok (((eventsOf σ stream 0 none).find? (target ≤ ·.tsMs)).map (·.version)) := by
  rw [firstSince, readStream]
  dsimp only [bounds]
  rw [readEvents_eval]
  rfl

/-- The first event since a timestamp is the lowest version that is shown with one. -/
theorem firstSince_some (hver : Versioned σ) {target : Int} {v : Nat}
    (h : firstSince σ stream target = .ok (some v)) :
    (∃ env, Shown σ stream v env ∧ target ≤ env.tsMs) ∧
      ∀ w env, Shown σ stream w env → target ≤ env.tsMs → v ≤ w := by
  rw [firstSince_eq, Except.ok.injEq, Option.map_eq_some_iff] at h
  obtain ⟨e, hfind, rfl⟩ := h
  obtain ⟨hmem, htarget, hlowest⟩ := find?_sorted (eventsOf_sorted (hver stream) 0 none) hfind
  obtain ⟨v, env, hget, hshow, -, -, rfl⟩ := (mem_eventsOf_guards hver).mp hmem
  refine ⟨⟨env, ?_, of_decide_eq_true htarget⟩, fun w env' hshown hle => ?_⟩
  · rw [show (Event.fromParts env).version = v from hver stream v env hget]
    exact ⟨hget, hshow⟩
  · by_contra hlt
    have hmem' : Event.fromParts env' ∈ eventsOf σ stream 0 none :=
      (mem_eventsOf_guards hver).mpr ⟨w, env', hshown.1, hshown.2, Nat.zero_le w, rfl, rfl⟩
    have hbefore := hlowest _ hmem' (by
      rw [show (Event.fromParts env').version = w from hver stream w env' hshown.1]
      exact Nat.lt_of_not_le hlt)
    rw [decide_eq_false_iff_not] at hbefore
    exact hbefore hle

/-- Every record of the stream is in the index. -/
def Covered (stream : String) (σ : Db D S) : Prop :=
  ∀ v env, σ.get (.record stream v) = some env → Indexed σ stream env.tsMs v

/-- The first rows of the index are up to date: each names a record that is shown and is not
older than the row, and later rows do not go back to earlier versions. -/
structure Fresh (σ : Db D S) (stream : String) : Prop where
  shown : ∀ ts v, Leads σ stream ts v → ∃ env, Shown σ stream v env ∧ ts ≤ env.tsMs
  ordered : ∀ ts v ts' v', Leads σ stream ts v → Leads σ stream ts' v' → ts ≤ ts' → v ≤ v'

theorem SeeksFirst.fresh (h : SeeksFirst σ stream) (hver : Versioned σ) : Fresh σ stream := by
  have hfirst : ∀ {ts v}, Leads σ stream ts v → firstSince σ stream ts = .ok (some v) := by
    intro ts v hlead
    rw [← h ts, seekTimestamp_eval, hlead.seekOf]
  refine ⟨fun ts v hlead => (firstSince_some hver (hfirst hlead)).1, ?_⟩
  intro ts v ts' v' hlead hlead' hle
  obtain ⟨⟨env, hshown, hts⟩, -⟩ := firstSince_some hver (hfirst hlead')
  exact (firstSince_some hver (hfirst hlead)).2 v' env hshown (hle.trans hts)

/-! ## Along a run -/

theorem Timed.covered {req : AppendReq D} {indexTs : Bool} {seq : Nat} {info : CommitInfo}
    {envs : List (Envelope D)} (h : Timed req indexTs σ envs σ') (happ : Appended req seq σ info σ')
    (hindex : req.stream = stream → indexTs = true) (hcov : Covered stream σ) :
    Covered stream σ' := by
  intro v env hget
  by_cases hs : req.stream = stream
  · subst hs
    by_cases hnew : ∃ env' ∈ envs, env'.version = v
    · obtain ⟨env', hmem, rfl⟩ := hnew
      rw [h.stored env' hmem] at hget
      cases hget
      exact h.indexed (hindex rfl) _ hmem
    · rw [h.others v fun env' hmem heq => hnew ⟨env', hmem, heq⟩] at hget
      exact h.kept _ _ _ (hcov v env hget)
  · rw [happ.frame _ (by simp) (fun _ _ _ => by simp [Ne.symm hs]) (fun _ _ => by simp)] at hget
    exact h.kept _ _ _ (hcov v env hget)

end

end Landslide
