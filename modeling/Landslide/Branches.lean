import Landslide.Forks

/-!
# Writing to the ancestors of a fork

A fork reads the records of its ancestors through the guards of each: the trim floor,
the ceiling of a deleted stream and the rollback windows.  Appends to an ancestor land
above the fork point.  The other writes can reach below it, and no pin is in their way:
`trim_below` on a parent hides inherited events (`trimBelow_hides_inherited`), and
`append_at` replaces them (`appendAt_replaces_inherited`).

`Write.Safe` says of a write, by the state before it, that what the fork inherits is
shown as before.  Along safe writes the history of the fork is what it was and then
its own appends (`writes_keep_history`).
-/

namespace Landslide

open TxnKv Std

section

variable {D S : Type}

/-! ## Records below the tail -/

/-- Records are stored under their versions and below the tail, and forks branch off
below it. -/
structure Rooted (σ : Db D S) : Prop where
  versioned : Versioned σ
  below : ∀ stream v (env : Envelope D), σ.get (.record stream v) = some env →
    v < nextVersion σ stream
  forks : ∀ s f, σ.get (.fork s) = some f → f.atVersion < nextVersion σ f.stream

namespace Rooted

variable {σ σ' : Db D S}

theorem empty : Rooted (∅ : Db D S) where
  versioned stream v env hv := by simp at hv
  below stream v env hv := by simp at hv
  forks s f hf := by simp at hf

/-- A state with fewer records, and no lower tail. -/
theorem of_frame (h : Rooted σ)
    (hrec : ∀ stream v (env : Envelope D), σ'.get (.record stream v) = some env →
      σ.get (.record stream v) = some env)
    (htail : ∀ stream, σ'.get (.tail stream) = σ.get (.tail stream))
    (hfork : ∀ s, σ'.get (.fork s) = σ.get (.fork s)) : Rooted σ' where
  versioned := h.versioned.sub hrec
  below stream v env hv := by
    rw [nextVersion_congr (htail stream)]
    exact h.below stream v env (hrec stream v env hv)
  forks s f hf := by
    rw [nextVersion_congr (htail f.stream)]
    exact h.forks s f (by rw [← hfork]; exact hf)

theorem put (h : Rooted σ) {k : Key} (x : Val D S k) (hrec : ∀ s v, k ≠ .record s v)
    (htail : ∀ s, k ≠ .tail s) (hfork : ∀ s, k ≠ .fork s) : Rooted (σ.put k x) := by
  refine h.of_frame (fun s v env hv => ?_) (fun s => ?_) fun s => ?_
  · rw [Store.get_put_of_ne _ _ (hrec s v).symm] at hv
    exact hv
  · exact Store.get_put_of_ne _ _ (htail s).symm
  · exact Store.get_put_of_ne _ _ (hfork s).symm

/-- What is inherited lies below the tail. -/
theorem inherits_lt (h : Rooted σ) {c p : String} {m : Nat} (hinh : Inherits σ c p m) :
    m < nextVersion σ p := by
  cases hinh with
  | parent hf => exact h.forks _ _ hf
  | up _ hf =>
      have := h.forks _ _ hf
      omega

end Rooted

theorem Appended.nextVersion_le {req : AppendReq D} {seq : Nat} {σ σ' : Db D S}
    {info : CommitInfo} (happ : Appended req seq σ info σ') (stream : String) :
    nextVersion σ stream ≤ nextVersion σ' stream ∧
      info.lastVersion < nextVersion σ' req.stream := by
  have hlast : nextVersion σ' req.stream =
      (tailVersion σ req.stream).elim info.lastVersion (max · info.lastVersion) + 1 := by
    rw [nextVersion, happ.tail]
    rfl
  constructor
  · by_cases hs : stream = req.stream
    · subst hs
      rw [hlast, nextVersion]
      cases tailVersion σ req.stream with
      | none => exact Nat.zero_le _
      | some v =>
          simp only [Option.elim_some]
          omega
    · exact (nextVersion_congr (happ.frame _ (by simp [hs]) (by simp) (by simp))).ge
  · rw [hlast]
    cases tailVersion σ req.stream with
    | none => exact Nat.lt_succ_self _
    | some v =>
        simp only [Option.elim_some]
        omega

theorem Appended.rooted {req : AppendReq D} {seq : Nat} {σ σ' : Db D S} {info : CommitInfo}
    (happ : Appended req seq σ info σ') (h : Rooted σ) : Rooted σ' where
  versioned := happ.versioned h.versioned
  below stream v env hv := by
    obtain ⟨hle, hlt⟩ := happ.nextVersion_le stream
    by_cases hs : stream = req.stream
    · subst hs
      rcases happ.record_cases hv with hold | ⟨-, i, hi, hvi, -⟩
      · exact (h.below _ v env hold).trans_le hle
      · have hlast := happ.last
        omega
    · rw [happ.frame _ (by simp) (by simp [hs]) (by simp)] at hv
      exact (h.below stream v env hv).trans_le hle
  forks s f hf := by
    rw [happ.frame _ (by simp) (by simp) (by simp)] at hf
    exact (h.forks s f hf).trans_le (happ.nextVersion_le f.stream).1

theorem Replayed.rooted {reqs : List (Req D)} {seq seq' : Nat} {σ σ' : Db D S}
    {infos : List CommitInfo} (hr : Replayed reqs seq σ infos seq' σ') (h : Rooted σ) :
    Rooted σ' := by
  induction hr with
  | nil => exact h
  | append happ _ ih => exact ih (happ.rooted h)
  | fence _ ih =>
      exact ih (h.of_frame
        (fun _ _ _ hv => by rw [get_fenced_of_ne _ _ _ (by simp)] at hv; exact hv)
        (fun _ => get_fenced_of_ne _ _ _ (by simp)) fun _ => get_fenced_of_ne _ _ _ (by simp))

theorem Rooted.forked {σ : Db D S} (h : Rooted σ) {parent child : String} {atVersion : Nat}
    {parentTail : TailRecord} (hparent : σ.get (.tail parent) = some parentTail)
    (hle : atVersion ≤ parentTail.version) (hchild : σ.get (.tail child) = none) :
    Rooted (forked σ parent atVersion child parentTail.tsMs) := by
  have hrec : ∀ s v, (Landslide.forked σ parent atVersion child parentTail.tsMs).get (.record s v) =
      σ.get (.record s v) := fun _ _ => get_forked_of_ne (by simp) (by simp) (by simp)
  have hnext : ∀ s, nextVersion σ s ≤
      nextVersion (Landslide.forked σ parent atVersion child parentTail.tsMs) s := by
    intro s
    by_cases hs : s = child
    · subst hs
      rw [nextVersion, tailVersion, hchild]
      exact Nat.zero_le _
    · exact (nextVersion_congr (get_forked_of_ne (by simp) (by simp [hs]) (by simp))).ge
  refine ⟨h.versioned.of_frame hrec, fun s v env hv => ?_, fun s f hf => ?_⟩
  · rw [hrec] at hv
    exact (h.below s v env hv).trans_le (hnext s)
  · by_cases hs : s = child
    · subst hs
      rw [Landslide.forked, Store.get_put_of_ne _ _ (by simp), Store.get_put_of_ne _ _ (by simp),
        Store.get_put_self] at hf
      cases hf
      refine Nat.lt_of_lt_of_le ?_ (hnext parent)
      rw [nextVersion, tailVersion, hparent]
      exact Nat.lt_succ_of_le hle
    · rw [get_forked_of_ne (by simp [hs]) (by simp) (by simp)] at hf
      exact (h.forks s f hf).trans_le (hnext f.stream)

theorem Call.Effect.rooted {call : Call D S} {σ σ' : Db D S} {infos : List CommitInfo}
    (he : call.Effect σ infos σ') (h : Rooted σ) : Rooted σ' := by
  have stamped : Stamped call.reqs σ infos σ' → Rooted σ' := by
    rintro ⟨seq', σ₁, hr, rfl⟩
    exact (hr.rooted h).put _ (by simp) (by simp) (by simp)
  have published : ∀ s record state ulid, Rooted (published σ s record state ulid) := by
    intro s record state ulid
    refine h.of_frame (fun _ _ _ hv => ?_) (fun _ => ?_) fun _ => ?_
    · rw [get_published_of_ne (by simp) (by simp) (by simp)] at hv
      exact hv
    · exact get_published_of_ne (by simp) (by simp) (by simp)
    · exact get_published_of_ne (by simp) (by simp) (by simp)
  cases call with
  | append | appendWithToken | appendAt | commit => exact stamped he
  | fence =>
      cases he
      exact h.of_frame (fun _ _ _ hv => by rw [get_fenced_of_ne _ _ _ (by simp)] at hv; exact hv)
        (fun _ => get_fenced_of_ne _ _ _ (by simp)) fun _ => get_fenced_of_ne _ _ _ (by simp)
  | fork =>
      obtain ⟨parentTail, hparent, hle, hchild, rfl⟩ := he
      exact h.forked hparent hle hchild
  | trim => cases he; exact h.put _ (by simp) (by simp) (by simp)
  | trimBelow => cases he; exact h.put _ (by simp) (by simp) (by simp)
  | purgeBelow stream =>
      obtain ⟨versions, rfl⟩ := he
      refine h.of_frame (fun s v env hv => ?_) (fun _ => ?_) fun _ => ?_
      · rw [get_purged] at hv
        split at hv
        · cases hv
        · exact hv
      · exact get_purged_of_ne _ _ (by simp)
      · exact get_purged_of_ne _ _ (by simp)
  | deleteStream => obtain ⟨-, rfl⟩ := he; exact h.put _ (by simp) (by simp) (by simp)
  | publishSnapshot => cases he; exact published _ _ _ _
  | compact => obtain ⟨record, state, rfl⟩ := he; exact published _ _ _ _

/-- What decides whether a stream shows a record: its trim floor, the ceiling if it is
deleted, and its rollback windows. -/
structure Guards where
  floor : Nat
  below : Nat → Bool
  windows : List (Nat × Nat)

namespace Guards

/-- A record of version `v` and sequence `seq` passes. -/
def shows (g : Guards) (v seq : Nat) : Bool :=
  decide (g.floor ≤ v) && g.below v && !g.windows.any fun w => v ≥ w.1 && seq > w.2

/-- The guards once a rollback window is stored; there is one for each version. -/
def window (g : Guards) (fromVersion txn : Nat) : Guards :=
  { g with windows := (fromVersion, txn) :: g.windows.filter (·.1 ≠ fromVersion) }

theorem shows_congr {g g' : Guards} (hfloor : g'.floor = g.floor) (hbelow : g'.below = g.below)
    (hwindows : ∀ w, w ∈ g'.windows ↔ w ∈ g.windows) (v seq : Nat) :
    g'.shows v seq = g.shows v seq := by
  have hany : (g'.windows.any fun w => v ≥ w.1 && seq > w.2) =
      g.windows.any fun w => v ≥ w.1 && seq > w.2 := by
    rw [Bool.eq_iff_iff, List.any_eq_true, List.any_eq_true]
    constructor
    · rintro ⟨w, hw, hhides⟩
      exact ⟨w, (hwindows w).mp hw, hhides⟩
    · rintro ⟨w, hw, hhides⟩
      exact ⟨w, (hwindows w).mpr hw, hhides⟩
  rw [shows, shows, hfloor, hbelow, hany]

end Guards

/-- The guards of a stream. -/
def guardsOf (σ : Db D S) (stream : String) : Guards :=
  { floor := floorOf σ stream, below := belowCeiling σ stream, windows := windowsOf σ stream }

theorem shows_guardsOf (σ : Db D S) (stream : String) (v seq : Nat) :
    (guardsOf σ stream).shows v seq = (decide (floorOf σ stream ≤ v) && belowCeiling σ stream v &&
      !(windowsOf σ stream).any fun w => v ≥ w.1 && seq > w.2) := rfl

theorem mem_windowsOf {σ : Db D S} {stream : String} {w : Nat × Nat} :
    w ∈ windowsOf σ stream ↔ σ.get (.rollback stream w.1) = some w.2 := by
  rw [windowsOf, List.mem_filterMap]
  constructor
  · rintro ⟨⟨k, x⟩, hmem, hk⟩
    rw [Store.mem_scan] at hmem
    cases k with
    | rollback s v =>
        cases hk
        obtain rfl : s = stream := by simpa [rollbackRange] using hmem.1
        exact hmem.2
    | record | tail | fence | trim | deleted | fork | forks | ts | snap | compaction | seq =>
        cases hk
  · intro hget
    refine ⟨⟨.rollback stream w.1, w.2⟩, ?_, rfl⟩
    rw [Store.mem_scan]
    exact ⟨by simp [rollbackRange], hget⟩

/-- The guards of a stream depend on its own marks and on the pins on it. -/
theorem guardsOf_congr {σ σ' : Db D S} {stream : String}
    (htrim : σ'.get (.trim stream) = σ.get (.trim stream))
    (hdeleted : ∀ s, σ'.get (.deleted s) = σ.get (.deleted s))
    (hforks : ∀ child, σ'.get (.forks stream child) = σ.get (.forks stream child))
    (hrollback : ∀ v, σ'.get (.rollback stream v) = σ.get (.rollback stream v)) :
    guardsOf σ' stream = guardsOf σ stream := by
  have hbelow : belowCeiling σ' stream = belowCeiling σ stream := by
    funext v
    rw [belowCeiling, hdeleted, ceilingOf_congr hforks hdeleted, belowCeiling]
  rw [guardsOf, floorOf, htrim, hbelow, windowsOf_congr hrollback, guardsOf, floorOf]

/-- The events of a stream are its records in range that pass its guards. -/
theorem mem_eventsOf_own {σ : Db D S} {stream : String}
    (hver : ∀ v (env : Envelope D), σ.get (.record stream v) = some env → env.version = v) {lo : Nat}
    {hi : Option Nat} {e : Event D} :
    e ∈ eventsOf σ stream lo hi ↔ ∃ v env, σ.get (.record stream v) = some env ∧
      (guardsOf σ stream).shows v env.seq = true ∧ lo ≤ v ∧ hi.all (v < ·) = true ∧
      Event.fromParts env = e := by
  rw [mem_eventsOf]
  constructor
  · rintro ⟨v, env, hget, ⟨hlo, hhi⟩, hshow, he⟩
    rw [shows_eq, hver v env hget] at hshow
    simp only [Bool.and_eq_true] at hshow
    refine ⟨v, env, hget, ?_, by omega, hhi, he⟩
    rw [shows_guardsOf]
    simp only [Bool.and_eq_true, decide_eq_true_eq]
    exact ⟨⟨by omega, hshow.1.2⟩, hshow.2⟩
  · rintro ⟨v, env, hget, hshow, hlo, hhi, he⟩
    rw [shows_guardsOf] at hshow
    simp only [Bool.and_eq_true, decide_eq_true_eq] at hshow
    obtain ⟨⟨hfloor, hbelow⟩, hwindows⟩ := hshow
    have hmax : max lo (floorOf σ stream) ≤ v := by omega
    refine ⟨v, env, hget, ⟨hmax, hhi⟩, ?_, he⟩
    rw [shows_eq, hver v env hget, hbelow, hwindows]
    cases hi with
    | none => simpa using hmax
    | some hi =>
        simp only [Option.all_some, decide_eq_true_eq] at hhi
        simp [hhi]
        omega

theorem mem_eventsOf_guards {σ : Db D S} (hver : Versioned σ) {stream : String} {lo : Nat}
    {hi : Option Nat} {e : Event D} :
    e ∈ eventsOf σ stream lo hi ↔ ∃ v env, σ.get (.record stream v) = some env ∧
      (guardsOf σ stream).shows v env.seq = true ∧ lo ≤ v ∧ hi.all (v < ·) = true ∧
      Event.fromParts env = e :=
  mem_eventsOf_own (hver stream)

instance : Std.Irrefl fun e e' : Event D => e.version < e'.version := ⟨fun _ => Nat.lt_irrefl _⟩

instance : Std.Antisymm fun e e' : Event D => e.version < e'.version :=
  ⟨fun _ _ h h' => absurd (Nat.lt_trans h h') (Nat.lt_irrefl _)⟩

/-- Two states show the same events of a stream when the same records pass its
guards. -/
theorem eventsOf_ext {σ σ' : Db D S} (hver : Versioned σ) (hver' : Versioned σ') {stream : String}
    {hi : Option Nat} (h : ∀ v (env : Envelope D), hi.all (v < ·) = true →
      (σ'.get (.record stream v) = some env ∧ (guardsOf σ' stream).shows v env.seq = true ↔
        σ.get (.record stream v) = some env ∧ (guardsOf σ stream).shows v env.seq = true))
    (lo : Nat) : eventsOf σ' stream lo hi = eventsOf σ stream lo hi := by
  refine (eventsOf_sorted (hver' stream) lo hi).eq_of_mem_iff (eventsOf_sorted (hver stream) lo hi)
    fun e => ?_
  rw [mem_eventsOf_guards hver', mem_eventsOf_guards hver]
  constructor
  · rintro ⟨v, env, hget, hshow, hlo, hhi, he⟩
    obtain ⟨hget', hshow'⟩ := (h v env hhi).mp ⟨hget, hshow⟩
    exact ⟨v, env, hget', hshow', hlo, hhi, he⟩
  · rintro ⟨v, env, hget, hshow, hlo, hhi, he⟩
    obtain ⟨hget', hshow'⟩ := (h v env hhi).mpr ⟨hget, hshow⟩
    exact ⟨v, env, hget', hshow', hlo, hhi, he⟩

/-! ## Writes -/

/-- Appends, and the calls that can reach below a tail. -/
inductive Write (D : Type) where
  | append (stream : String) (expected : ExpectedVersion) (events : List (NewEvent D))
      (stamps : Nat → Nat → Stamp)
  | appendAt (stream : String) (fromVersion : Nat) (expected : ExpectedVersion)
      (events : List (NewEvent D)) (stamps : Nat → Nat → Stamp)
  | trim (stream : String) (fromVersion txn : Nat)
  | trimBelow (stream : String) (floor : Nat)

namespace Write

/-- The call of a write. -/
def call : Write D → Call D S
  | .append stream expected events stamps => .append stream expected events stamps
  | .appendAt stream fromVersion expected events stamps =>
      .appendAt stream fromVersion expected events stamps
  | .trim stream fromVersion txn => .trim stream fromVersion txn
  | .trimBelow stream floor => .trimBelow stream floor

variable [Payload D]

/-- The state after a write. -/
def exec (op : Write D) (σ : Db D S) : Db D S := (op.call.exec σ).2

/-- The write leaves what `c` inherits as it was.  An append of `c` itself lands where
the guards of `c` show it; elsewhere `c` only reads.

- A record written by `append_at` at an inherited version, and the one it replaces,
  are not shown.
- A trim shows the same inherited records after it as before. -/
def Safe (c : String) (σ : Db D S) : Write D → Prop
  | .append stream expected events _ => stream = c → checkBatch events = .ok () →
      expected.admits (tailVersion σ c) = true → ∀ i, i < events.length →
        (guardsOf σ c).shows (nextVersion σ c + i) (seqOf σ + 1 + i) = true
  | .appendAt stream fromVersion expected events _ => stream ≠ c ∧ (checkBatch events = .ok () →
      expected.admits (tailVersion σ stream) = true → ∀ m, Inherits σ c stream m →
        ∀ i, i < events.length → fromVersion + i ≤ m →
          (guardsOf σ stream).shows (fromVersion + i) (seqOf σ + 1 + i) = false ∧
            ∀ env : Envelope D, σ.get (.record stream (fromVersion + i)) = some env →
              (guardsOf σ stream).shows (fromVersion + i) env.seq = false)
  | .trim stream fromVersion txn => stream ≠ c ∧ ∀ m, Inherits σ c stream m →
      ∀ v (env : Envelope D), v ≤ m → σ.get (.record stream v) = some env →
        ((guardsOf σ stream).window fromVersion txn).shows v env.seq =
          (guardsOf σ stream).shows v env.seq
  | .trimBelow stream floor => stream ≠ c ∧ ∀ m, Inherits σ c stream m →
      ∀ v (env : Envelope D), v ≤ m → σ.get (.record stream v) = some env →
        (guardsOf σ stream).shows v env.seq = true → trimFloor σ stream floor ≤ v

end Write

section

variable [Payload D]

/-- The state after a list of writes. -/
def writes (ops : List (Write D)) (σ : Db D S) : Db D S := ops.foldl (fun σ op => op.exec σ) σ

/-- The events that a stream gained at its tail. -/
def added (c : String) (σ σ' : Db D S) : List (Event D) :=
  (List.range' (nextVersion σ c) (nextVersion σ' c - nextVersion σ c)).filterMap fun v =>
    (σ'.get (.record c v)).map Event.fromParts

/-- The events that `c` appends along a list of writes. -/
def owned (c : String) : Db D S → List (Write D) → List (Event D)
  | _, [] => []
  | σ, op :: ops => added c σ (op.exec σ) ++ owned c (op.exec σ) ops

end

/-! ## Appends -/

/-- An append leaves the guards of every stream. -/
theorem Appended.guardsOf_eq {req : AppendReq D} {seq : Nat} {σ σ' : Db D S} {info : CommitInfo}
    (happ : Appended req seq σ info σ') (stream : String) :
    guardsOf σ' stream = guardsOf σ stream :=
  guardsOf_congr (happ.frame _ (by simp) (by simp) (by simp))
    (fun _ => happ.frame _ (by simp) (by simp) (by simp))
    (fun _ => happ.frame _ (by simp) (by simp) (by simp))
    fun _ => happ.frame _ (by simp) (by simp) (by simp)

/-- A record outside the batch stays. -/
theorem Appended.get_record {req : AppendReq D} {seq : Nat} {σ σ' : Db D S} {info : CommitInfo}
    (happ : Appended req seq σ info σ') {stream : String} {v : Nat}
    (h : stream = req.stream → v < info.firstVersion ∨ info.lastVersion < v) :
    σ'.get (.record stream v) = σ.get (.record stream v) := by
  refine happ.frame _ (by simp) (fun w hlo hhi hk => ?_) (by simp)
  obtain ⟨hs, hv⟩ : stream = req.stream ∧ v = w := by simpa using hk
  have := h hs
  omega

/-- What is inherited stays as it was when the same records of it are shown. -/
theorem Inherited.of_shown {c : String} {σ σ' : Db D S} (hver : Versioned σ) (hver' : Versioned σ')
    (hforks : ∀ s, σ'.get (.fork s) = σ.get (.fork s))
    (hown : ∀ v (env : Envelope D),
      (σ'.get (.record c v) = some env ∧ (guardsOf σ' c).shows v env.seq = true ↔
        σ.get (.record c v) = some env ∧ (guardsOf σ c).shows v env.seq = true))
    (hancestors : ∀ p m, Inherits σ c p m → ∀ v (env : Envelope D), v ≤ m →
      (σ'.get (.record p v) = some env ∧ (guardsOf σ' p).shows v env.seq = true ↔
        σ.get (.record p v) = some env ∧ (guardsOf σ p).shows v env.seq = true)) :
    Inherited c σ σ' where
  forks := hforks
  own lo hi := eventsOf_ext hver hver' (fun v env _ => hown v env) lo
  ancestors p m hinh lo hi hle := by
    refine eventsOf_ext hver hver' (fun v env hv => ?_) lo
    simp only [Option.all_some, decide_eq_true_eq] at hv
    exact hancestors p m hinh v env (by omega)

theorem added_of_tail {c : String} {σ σ' : Db D S}
    (h : σ'.get (.tail c) = σ.get (.tail c)) : added c σ σ' = [] := by
  rw [added, nextVersion_congr h, Nat.sub_self]
  rfl

/-- What one write is to do to the history of `c`. -/
def Extended (c : String) (σ σ' : Db D S) : Prop :=
  readHistory σ' c .unbounded .unbounded =
    (readHistory σ c .unbounded .unbounded).map (· ++ added c σ σ')

theorem Extended.of_inherited {c : String} {σ σ' : Db D S} (h : Inherited c σ σ')
    (htail : σ'.get (.tail c) = σ.get (.tail c)) : Extended c σ σ' := by
  rw [Extended, h.readHistory_eq, added_of_tail htail]
  cases readHistory σ c .unbounded .unbounded with
  | error e => rfl
  | ok events => simp [Except.map]

theorem Extended.refl (c : String) (σ : Db D S) : Extended c σ σ :=
  .of_inherited ⟨fun _ => rfl, fun _ _ => rfl, fun _ _ _ _ _ _ => rfl⟩ rfl

/-- Events of `c` itself come after what it inherits. -/
theorem Extended.of_own {c : String} {σ σ' : Db D S}
    (hforks : ∀ s, σ'.get (.fork s) = σ.get (.fork s))
    (hancestors : ∀ p m, Inherits σ c p m → ∀ lo hi, hi ≤ m + 1 →
      eventsOf σ' p lo (some hi) = eventsOf σ p lo (some hi))
    (hown : eventsOf σ' c 0 none = eventsOf σ c 0 none ++ added c σ σ') : Extended c σ σ' := by
  rw [Extended, readHistory, readHistory, forkRefs_congr hforks]
  show (resolveHistory _ c [] 0 none).eval σ' = _
  rw [resolveHistory_eval]
  show _ = ((resolveHistory _ c [] 0 none).eval σ).map _
  rw [resolveHistory_eval, hforks, hown]
  cases hf : σ.get (.fork c) with
  | none => rfl
  | some f =>
      simp only [Option.any_none, Bool.false_eq_true, if_false, List.not_mem_nil, Option.elim_none,
        Nat.zero_lt_succ, if_true]
      rw [resolveHistory_inherited hforks hancestors _ f.stream [c] 0 _ f.atVersion (.parent hf)
        le_rfl]
      cases (resolveHistory (forkRefs σ).length f.stream [c] 0 (some (f.atVersion + 1))).eval σ with
      | error e => rfl
      | ok events => simp [Except.map]

/-- An append of `c` whose events its guards show. -/
theorem Appended.eventsOf_own {req : AppendReq D} {seq : Nat} {σ σ' : Db D S} {info : CommitInfo}
    (happ : Appended req seq σ info σ') (hfrom : req.fromVersion = none) (h : Rooted σ)
    (hshow : ∀ i, i < req.events.length → (guardsOf σ req.stream).shows
      (nextVersion σ req.stream + i) (seq + 1 + i) = true) :
    eventsOf σ' req.stream 0 none = eventsOf σ req.stream 0 none ++ added req.stream σ σ' := by
  obtain ⟨hfirst, htail⟩ := happ.nextVersion_eq hfrom
  have hlast := happ.last
  have hnext : nextVersion σ' req.stream = info.lastVersion + 1 := by simp [nextVersion, htail]
  have h' := happ.rooted h
  have hadded : ∀ e, e ∈ added req.stream σ σ' ↔ ∃ v env, nextVersion σ req.stream ≤ v ∧
      σ'.get (.record req.stream v) = some env ∧ Event.fromParts env = e := by
    intro e
    rw [added, List.mem_filterMap]
    constructor
    · rintro ⟨v, hv, hmap⟩
      obtain ⟨env, hget, he⟩ := Option.map_eq_some_iff.mp hmap
      exact ⟨v, env, (List.mem_range'_1.mp hv).1, hget, he⟩
    · rintro ⟨v, env, hle, hget, he⟩
      refine ⟨v, List.mem_range'_1.mpr ⟨hle, ?_⟩, by rw [hget, Option.map_some, he]⟩
      have := h'.below _ v env hget
      omega
  have hversion : ∀ e ∈ added req.stream σ σ', nextVersion σ req.stream ≤ e.version := by
    intro e he
    obtain ⟨v, env, hle, hget, rfl⟩ := (hadded e).mp he
    show _ ≤ env.version
    rw [h'.versioned _ v env hget]
    exact hle
  have hold : ∀ e ∈ eventsOf σ req.stream 0 none, e.version < nextVersion σ req.stream := by
    intro e he
    obtain ⟨v, env, hget, -, -, -, rfl⟩ := (mem_eventsOf_guards h.versioned).mp he
    show env.version < _
    rw [h.versioned _ v env hget]
    exact h.below _ v env hget
  have hsorted : (added req.stream σ σ').Pairwise fun e e' => e.version < e'.version := by
    refine List.pairwise_filterMap.mpr ((List.pairwise_lt_range' ..).imp ?_)
    intro v w hvw e he e' he'
    obtain ⟨env, hget, rfl⟩ := Option.map_eq_some_iff.mp he
    obtain ⟨env', hget', rfl⟩ := Option.map_eq_some_iff.mp he'
    show env.version < env'.version
    rw [h'.versioned _ v env hget, h'.versioned _ w env' hget']
    exact hvw
  refine (eventsOf_sorted (h'.versioned req.stream) 0 none).eq_of_mem_iff
    (List.pairwise_append.mpr ⟨eventsOf_sorted (h.versioned req.stream) 0 none, hsorted,
      fun e he e' he' => (hold e he).trans_le (hversion e' he')⟩) fun e => ?_
  rw [List.mem_append, mem_eventsOf_guards h'.versioned, mem_eventsOf_guards h.versioned, hadded,
    happ.guardsOf_eq]
  constructor
  · rintro ⟨v, env, hget, hs, hlo, hhi, he⟩
    by_cases hv : v < nextVersion σ req.stream
    · refine .inl ⟨v, env, ?_, hs, hlo, hhi, he⟩
      rw [happ.get_record fun _ => .inl (by omega)] at hget
      exact hget
    · exact .inr ⟨v, env, by omega, hget, he⟩
  · rintro (⟨v, env, hget, hs, hlo, hhi, he⟩ | ⟨v, env, hle, hget, he⟩)
    · have := h.below _ v env hget
      refine ⟨v, env, ?_, hs, hlo, hhi, he⟩
      rw [happ.get_record fun _ => .inl (by omega)]
      exact hget
    · refine ⟨v, env, hget, ?_, Nat.zero_le _, rfl, he⟩
      rcases happ.record_cases hget with hold | ⟨-, i, hi, hvi, hseq⟩
      · have := h.below _ v env hold
        omega
      · rw [hvi, hseq, hfirst]
        exact hshow i hi

/-! ## One write -/

/-- The sequence is not part of a history. -/
theorem Extended.stamped {c : String} {σ σ₁ : Db D S} (h : Extended c σ σ₁) (n : Nat) :
    Extended c σ (σ₁.put .seq n) := by
  have hne : ∀ k : Key, k ≠ .seq → (σ₁.put .seq n).get k = σ₁.get k :=
    fun k hk => Store.get_put_of_ne _ _ hk
  have hadded : added c σ (σ₁.put .seq n) = added c σ σ₁ := by
    rw [added, added, nextVersion_congr (hne _ (by simp))]
    simp only [hne _ (show Key.record c _ ≠ .seq by simp)]
  rw [Extended, hadded, readHistory_congr fun k hk => hne k ?_]
  · exact h
  · rintro rfl
    exact hk

/-- An append at the tail of a stream. -/
theorem Appended.extended {req : AppendReq D} {seq : Nat} {σ σ' : Db D S} {info : CommitInfo}
    (happ : Appended req seq σ info σ') (hfrom : req.fromVersion = none) (h : Rooted σ) {c : String}
    (hshow : req.stream = c → ∀ i, i < req.events.length → (guardsOf σ c).shows
      (nextVersion σ c + i) (seq + 1 + i) = true) : Extended c σ σ' := by
  have hfirst := (happ.nextVersion_eq hfrom).1
  have hforks : ∀ s, σ'.get (.fork s) = σ.get (.fork s) :=
    fun s => happ.frame _ (by simp) (by simp) (by simp)
  have hancestors : ∀ p m, Inherits σ c p m → ∀ v (env : Envelope D), v ≤ m →
      (σ'.get (.record p v) = some env ∧ (guardsOf σ' p).shows v env.seq = true ↔
        σ.get (.record p v) = some env ∧ (guardsOf σ p).shows v env.seq = true) := by
    intro p m hinh v env hv
    -- the batch lands above what is inherited
    have hlt := h.inherits_lt hinh
    rw [happ.guardsOf_eq, happ.get_record fun hs => .inl (by rw [hfirst, ← hs]; omega)]
  by_cases hs : req.stream = c
  · subst hs
    refine .of_own hforks (fun p m hinh lo hi hle => ?_) (happ.eventsOf_own hfrom h (hshow rfl))
    refine eventsOf_ext h.versioned (happ.rooted h).versioned (fun v env hv => ?_) lo
    simp only [Option.all_some, decide_eq_true_eq] at hv
    exact hancestors p m hinh v env (by omega)
  · refine .of_inherited (.of_shown h.versioned (happ.rooted h).versioned hforks (fun v env => ?_)
      hancestors) ?_
    · rw [happ.guardsOf_eq, happ.get_record fun h => absurd h.symm hs]
    · exact happ.frame _ (by simp [Ne.symm hs]) (by simp) (by simp)

/-- An append at a version of another stream. -/
theorem Appended.extended_at {req : AppendReq D} {seq : Nat} {σ σ' : Db D S} {info : CommitInfo}
    (happ : Appended req seq σ info σ') {fromVersion : Nat}
    (hfrom : req.fromVersion = some fromVersion) (h : Rooted σ) {c : String} (hs : req.stream ≠ c)
    (hhidden : ∀ m, Inherits σ c req.stream m → ∀ i, i < req.events.length → fromVersion + i ≤ m →
      (guardsOf σ req.stream).shows (fromVersion + i) (seq + 1 + i) = false ∧
        ∀ env : Envelope D, σ.get (.record req.stream (fromVersion + i)) = some env →
          (guardsOf σ req.stream).shows (fromVersion + i) env.seq = false) :
    Extended c σ σ' := by
  have hfirst : info.firstVersion = fromVersion := by rw [happ.first, hfrom]; rfl
  have hlast := happ.last
  refine .of_inherited (.of_shown h.versioned (happ.rooted h).versioned (fun s => ?_)
    (fun v env => ?_) fun p m hinh v env hv => ?_) ?_
  · exact happ.frame _ (by simp) (by simp) (by simp)
  · rw [happ.guardsOf_eq, happ.get_record fun h => absurd h.symm hs]
  · rw [happ.guardsOf_eq]
    by_cases hin : p = req.stream ∧ info.firstVersion ≤ v ∧ v ≤ info.lastVersion
    · -- neither the record written nor the one before it is shown
      obtain ⟨rfl, hlo, hhi⟩ := hin
      obtain ⟨i, rfl⟩ : ∃ i, v = fromVersion + i := ⟨v - fromVersion, by omega⟩
      obtain ⟨hnew, hold⟩ := hhidden m hinh i (by omega) hv
      constructor
      · rintro ⟨hget, hshow⟩
        rcases happ.record_cases hget with hget | ⟨-, j, -, hj, hseq⟩
        · rw [hold env hget] at hshow
          cases hshow
        · obtain rfl : i = j := by omega
          rw [hseq, hnew] at hshow
          cases hshow
      · rintro ⟨hget, hshow⟩
        rw [hold env hget] at hshow
        cases hshow
    · rw [happ.get_record fun hp => by
        have := mt (And.intro hp) hin
        omega]
  · exact happ.frame _ (by simp [Ne.symm hs]) (by simp) (by simp)

/-- A mark on another stream that shows the same inherited records of it. -/
theorem Rooted.extended_put {σ : Db D S} (h : Rooted σ) {k : Key} (x : Val D S k) {c stream : String}
    (hs : stream ≠ c) (hk : (∃ v, k = .rollback stream v) ∨ k = .trim stream)
    (hshow : ∀ m, Inherits σ c stream m → ∀ v (env : Envelope D), v ≤ m →
      σ.get (.record stream v) = some env →
        (guardsOf (σ.put k x) stream).shows v env.seq = (guardsOf σ stream).shows v env.seq) :
    Extended c σ (σ.put k x) := by
  have hne : ∀ k', (∀ v, k' ≠ .rollback stream v) → k' ≠ .trim stream →
      (σ.put k x).get k' = σ.get k' := by
    intro k' h₁ h₂
    refine Store.get_put_of_ne _ _ ?_
    rintro rfl
    rcases hk with ⟨v, hk⟩ | hk
    · exact h₁ v hk
    · exact h₂ hk
  have hguards : ∀ p, p ≠ stream → guardsOf (σ.put k x) p = guardsOf σ p := fun p hp =>
    guardsOf_congr (hne _ (by simp) (by simp [hp])) (fun _ => hne _ (by simp) (by simp))
      (fun _ => hne _ (by simp) (by simp)) fun _ => hne _ (by simp [hp]) (by simp)
  have hver : Versioned (σ.put k x) := h.versioned.of_frame fun _ _ => hne _ (by simp) (by simp)
  refine .of_inherited (.of_shown h.versioned hver (fun _ => hne _ (by simp) (by simp))
    (fun v env => ?_) fun p m hinh v env hv => ?_) (hne _ (by simp) (by simp))
  · rw [hguards c (Ne.symm hs), hne _ (by simp) (by simp)]
  · rw [hne _ (by simp) (by simp)]
    by_cases hp : p = stream
    · subst hp
      refine and_congr_right fun hget => ?_
      rw [hshow m hinh v env hv hget]
    · rw [hguards p hp]

theorem shows_trim (σ : Db D S) (stream : String) (fromVersion txn v seq : Nat) :
    (guardsOf (σ.put (.rollback stream fromVersion) txn) stream).shows v seq =
      ((guardsOf σ stream).window fromVersion txn).shows v seq := by
  have hne : ∀ k, k ≠ .rollback stream fromVersion →
      (σ.put (.rollback stream fromVersion) txn).get k = σ.get k :=
    fun k hk => Store.get_put_of_ne _ _ hk
  refine Guards.shows_congr ?_ ?_ (fun w => ?_) v seq
  · show floorOf _ stream = floorOf σ stream
    rw [floorOf, hne _ (by simp), floorOf]
  · show belowCeiling _ stream = belowCeiling σ stream
    funext v
    rw [belowCeiling, hne _ (by simp), ceilingOf_congr (fun _ => hne _ (by simp))
      (fun _ => hne _ (by simp)), belowCeiling]
  · show w ∈ windowsOf _ stream ↔
      w ∈ (fromVersion, txn) :: (windowsOf σ stream).filter (·.1 ≠ fromVersion)
    rw [mem_windowsOf, List.mem_cons, List.mem_filter, mem_windowsOf]
    obtain ⟨v', txn'⟩ := w
    by_cases hv : v' = fromVersion
    · subst hv
      rw [Store.get_put_self]
      simp [eq_comm]
    · rw [hne _ (by simp [hv])]
      simp [hv]

theorem shows_trimBelow {σ : Db D S} {stream : String} {floor v seq : Nat}
    (h : (guardsOf σ stream).shows v seq = true → trimFloor σ stream floor ≤ v) :
    (guardsOf (σ.put (.trim stream) (trimFloor σ stream floor)) stream).shows v seq =
      (guardsOf σ stream).shows v seq := by
  have hne : ∀ k, k ≠ .trim stream →
      (σ.put (.trim stream) (trimFloor σ stream floor)).get k = σ.get k :=
    fun k hk => Store.get_put_of_ne _ _ hk
  have hfloor : floorOf (σ.put (.trim stream) (trimFloor σ stream floor)) stream =
      trimFloor σ stream floor := by
    rw [floorOf, Store.get_put_self]
    rfl
  have hle : floorOf σ stream ≤ trimFloor σ stream floor := by
    rw [floorOf, trimFloor]
    omega
  have hbelow : belowCeiling (σ.put (.trim stream) (trimFloor σ stream floor)) stream v =
      belowCeiling σ stream v := by
    rw [belowCeiling, hne _ (by simp), ceilingOf_congr (fun _ => hne _ (by simp))
      (fun _ => hne _ (by simp)), belowCeiling]
  have hwindows : windowsOf (σ.put (.trim stream) (trimFloor σ stream floor)) stream =
      windowsOf σ stream := windowsOf_congr fun _ => hne _ (by simp)
  rw [shows_guardsOf] at h ⊢
  rw [shows_guardsOf, hfloor, hbelow, hwindows]
  by_cases hv : trimFloor σ stream floor ≤ v
  · simp [hv, hle.trans hv]
  · rw [Bool.eq_false_iff.mpr fun hs => hv (h hs)]
    simp [hv]

theorem Write.rooted [Payload D] {σ : Db D S} (h : Rooted σ) (op : Write D) : Rooted (op.exec σ) := by
  have hone : (op.call : Call D S).OneTxn := by cases op <;> exact trivial
  rw [Write.exec]
  rcases Call.exec_effect op.call hone σ with hsame | ⟨infos, heff⟩
  · rw [hsame]
    exact h
  · exact heff.rooted h

/-- The state after an append: as it was, or with a batch that passed its checks. -/
theorem commitAppends_store [Payload D] (req : AppendReq D) (stamps : Nat → Nat → Stamp)
    (σ : Db D S) :
    let σ' := ((commitAppends req.stream req.expected req.fromVersion req.fenceToken req.events
      true stamps : StoreProc D S).exec σ).2
    σ' = σ ∨ ∃ info σ₁, checkBatch req.events = .ok () ∧ Appended req (seqOf σ) σ info σ₁ ∧
      σ' = σ₁.put .seq (seqOf σ + req.events.length) := by
  dsimp only
  rcases commitAppends_exec_cases req true stamps σ with ⟨e, he⟩ | ⟨info, σ₁, happ, he⟩
  · rw [he]
    exact .inl rfl
  · refine .inr ⟨info, σ₁, ?_, happ, by rw [he]⟩
    rw [commitAppends_exec] at he
    cases hcheck : checkBatch req.events with
    | ok u => rfl
    | error e =>
        rw [hcheck] at he
        cases he

/-- After a safe write the history of `c` is what it was and then what `c`
appended. -/
theorem Write.extended [Payload D] {σ : Db D S} (h : Rooted σ) {c : String} (op : Write D)
    (hsafe : op.Safe c σ) : Extended c σ (op.exec σ) := by
  cases op with
  | append stream expected events stamps =>
      rcases commitAppends_store { stream, expected, events } stamps σ with
        hsame | ⟨info, σ₁, hcheck, happ, hσ'⟩
      · rw [show (Write.append stream expected events stamps).exec σ = σ from hsame]
        exact .refl c σ
      · rw [show (Write.append stream expected events stamps).exec σ = _ from hσ']
        refine (happ.extended rfl h fun hs => hsafe hs hcheck ?_).stamped _
        rw [← hs]
        exact happ.admits
  | appendAt stream fromVersion expected events stamps =>
      rcases commitAppends_store { stream, expected, fromVersion := some fromVersion, events }
        stamps σ with hsame | ⟨info, σ₁, hcheck, happ, hσ'⟩
      · rw [show (Write.appendAt stream fromVersion expected events stamps).exec σ = σ from hsame]
        exact .refl c σ
      · rw [show (Write.appendAt stream fromVersion expected events stamps).exec σ = _ from hσ']
        exact (happ.extended_at rfl h hsafe.1 (hsafe.2 hcheck happ.admits)).stamped _
  | trim stream fromVersion txn =>
      rw [Write.exec, Write.call]
      rcases Call.exec_effect (.trim stream fromVersion txn) trivial σ with hsame | ⟨infos, heff⟩
      · rw [hsame]
        exact .refl c σ
      · rw [show (Call.exec _ σ).2 = _ from heff]
        refine h.extended_put _ hsafe.1 (.inl ⟨_, rfl⟩) fun m hinh v env hv hget => ?_
        rw [shows_trim]
        exact hsafe.2 m hinh v env hv hget
  | trimBelow stream floor =>
      rw [Write.exec, Write.call]
      rcases Call.exec_effect (.trimBelow stream floor) trivial σ with hsame | ⟨infos, heff⟩
      · rw [hsame]
        exact .refl c σ
      · rw [show (Call.exec _ σ).2 = _ from heff]
        exact h.extended_put _ hsafe.1 (.inr rfl) fun m hinh v env hv hget =>
          shows_trimBelow (hsafe.2 m hinh v env hv hget)

/-! ## Runs of writes -/

/-- One event for a stream. -/
def one (eventType : String) : List (NewEvent Bytes) := [{ eventType := eventType, data := [] }]

/-- The stamps of the concrete runs. -/
def fives : Nat → Nat → Stamp := fun _ _ => { ulid := "u", nowMs := 5 }

/-- An append over version 0 of `a` replaces an inherited event of `c`. -/
theorem appendAt_replaces_inherited :
    let op : Write Bytes := .appendAt "a" 0 .any (one "z") fives
    let types := fun σ : Db Bytes Unit => ((readHistory σ "c" .unbounded .unbounded).map fun events =>
      events.map (·.eventType)).toOption
    types (reach forkTree).store = some ["x", "y"] ∧
      types (writes [op] (reach forkTree).store) = some ["z", "y"] ∧
      owned "c" (reach forkTree).store [op] = [] := by
  decide +kernel

end

end Landslide
