import Landslide.Chains

/-!
# Where a version lives

The fork points cut the versions of a stream into segments, one for each stream of its
chain.  `Home σ s v p` says that version `v` of `s` falls into the segment of `p`.

As long as no append reaches back below a tail, the records of a fork lie above its fork
point (`Layered`).  The events of a history are then the records that the guards of their
homes show, in version order (`Layered.mem_readHistory`, `Layered.readHistory_sorted`),
and reading a range of it reads the events in that range (`Layered.readHistory_range`).
-/

namespace Landslide

open TxnKv Std

section

variable {D S : Type}

/-! ## Homes -/

/-- Version `v` of `s` is in the segment of `p`. -/
inductive Home (σ : Db D S) : String → Nat → String → Prop where
  | own {s : String} {v : Nat} : (∀ f, σ.get (.fork s) = some f → f.atVersion < v) → Home σ s v s
  | inherited {s : String} {v : Nat} {p : String} {f : ForkRef} : σ.get (.fork s) = some f →
      v ≤ f.atVersion → Home σ f.stream v p → Home σ s v p

namespace Home

variable {σ σ' : Db D S} {s p : String} {v : Nat}

theorem unique {q : String} (h : Home σ s v p) (h' : Home σ s v q) : p = q := by
  induction h with
  | own habove =>
      cases h' with
      | own => rfl
      | inherited hf hle => exact absurd (habove _ hf) (by omega)
  | inherited hf hle _ ih =>
      cases h' with
      | own habove => exact absurd (habove _ hf) (by omega)
      | inherited hf' _ hparent =>
          rw [hf] at hf'
          cases hf'
          exact ih hparent

/-- The home of a version above the fork point is the stream itself. -/
theorem eq_of_above (h : Home σ s v p) (habove : ∀ f, σ.get (.fork s) = some f → f.atVersion < v) :
    p = s :=
  h.unique (.own habove)

/-- A home is the stream itself or one that it inherits the version from. -/
theorem inherits (h : Home σ s v p) : p = s ∨ ∃ m, Inherits σ s p m ∧ v ≤ m := by
  induction h with
  | own => exact .inl rfl
  | @inherited s v p f hf hle _ ih =>
      rcases ih with rfl | ⟨m, hinh, hm⟩
      · exact .inr ⟨f.atVersion, .parent hf, hle⟩
      · exact .inr ⟨min f.atVersion m, (inherits_iff hf).mpr (.inr ⟨m, hinh, rfl⟩), by omega⟩

/-- A version lives in the stream it is inherited from, if it is above the fork point
there. -/
theorem of_inherits {rank : String → Nat}
    (hrank : ∀ s f, σ.get (.fork s) = some f → rank f.stream < rank s) {m : Nat}
    (h : Inherits σ s p m) (hv : v ≤ m) (habove : ∀ f, σ.get (.fork p) = some f → f.atVersion < v) :
    Home σ s v p := by
  induction hn : rank s using Nat.strong_induction_on generalizing s m with
  | _ n ih =>
      obtain ⟨f, hf⟩ : ∃ f, σ.get (.fork s) = some f := by
        cases hf : σ.get (.fork s) with
        | none => exact absurd h (not_inherits hf)
        | some f => exact ⟨f, rfl⟩
      rcases (inherits_iff hf).mp h with ⟨rfl, rfl⟩ | ⟨m', hinh, rfl⟩
      · exact .inherited hf hv (.own habove)
      · exact .inherited hf (by omega)
          (ih (rank f.stream) (hn ▸ hrank s f hf) hinh (by omega) rfl)

/-- Every version has a home. -/
theorem exists_of_rank {rank : String → Nat}
    (hrank : ∀ s f, σ.get (.fork s) = some f → rank f.stream < rank s) (s : String) (v : Nat) :
    ∃ p, Home σ s v p := by
  induction hn : rank s using Nat.strong_induction_on generalizing s with
  | _ n ih =>
      cases hf : σ.get (.fork s) with
      | none =>
          refine ⟨s, .own fun f hf' => ?_⟩
          rw [hf] at hf'
          cases hf'
      | some f =>
          by_cases hv : v ≤ f.atVersion
          · obtain ⟨p, hp⟩ := ih (rank f.stream) (hn ▸ hrank s f hf) f.stream rfl
            exact ⟨p, .inherited hf hv hp⟩
          · refine ⟨s, .own fun f' hf' => ?_⟩
            rw [hf] at hf'
            cases hf'
            omega

/-- Homes depend on the fork references of the chain. -/
theorem congr (h : Home σ s v p) (hfork : ∀ s, σ'.get (.fork s) = σ.get (.fork s)) :
    Home σ' s v p := by
  induction h with
  | own habove => exact .own fun f hf => habove f (by rw [← hfork]; exact hf)
  | inherited hf hle _ ih => exact .inherited (by rw [hfork]; exact hf) hle ih

/-- A new fork leaves the homes of the versions of other streams. -/
theorem forked (hchain : Chained σ) {parent child : String} {atVersion : Nat} {tsMs : Int}
    (hchild : σ.get (.tail child) = none) (hs : s ≠ child) :
    Home (Landslide.forked σ parent atVersion child tsMs) s v p ↔ Home σ s v p := by
  have hother : ∀ q, q ≠ child → (Landslide.forked σ parent atVersion child tsMs).get (.fork q) =
      σ.get (.fork q) := fun q hq => get_forked_of_ne (by simp [hq]) (by simp) (by simp)
  constructor
  · intro h
    induction h with
    | @own s v habove => exact .own fun f hf => habove f (by rw [hother s hs]; exact hf)
    | @inherited s v p f hf hle _ ih =>
        rw [hother s hs] at hf
        exact .inherited hf hle (ih (hchain.ne_of_no_tail hchild hf).2)
  · intro h
    induction h with
    | @own s v habove => exact .own fun f hf => habove f (by rw [← hother s hs]; exact hf)
    | @inherited s v p f hf hle _ ih =>
        exact .inherited (by rw [hother s hs]; exact hf) hle
          (ih (hchain.ne_of_no_tail hchild hf).2)

/-- The versions that a new fork inherits have the homes that they have for its parent. -/
theorem forked_child (hchain : Chained σ) {parent child : String} {atVersion : Nat} {tsMs : Int}
    (hchild : σ.get (.tail child) = none) (hne : parent ≠ child) (hv : v ≤ atVersion) :
    Home (Landslide.forked σ parent atVersion child tsMs) child v p ↔ Home σ parent v p := by
  have hfork := get_forked_fork σ parent atVersion child tsMs
  constructor
  · intro h
    cases h with
    | own habove => exact absurd (habove _ hfork) (Nat.not_lt.mpr hv)
    | inherited hf _ hrest =>
        rw [hfork] at hf
        cases hf
        exact (forked hchain hchild hne).mp hrest
  · intro h
    exact .inherited hfork hv ((forked hchain hchild hne).mpr h)

end Home

/-! ## Forks that go on above their fork points -/

/-- Forks start above their fork points and stay there, and parents come before their
children. -/
structure Layered (σ : Db D S) : Prop extends Rooted σ where
  above : ∀ s f v (env : Envelope D), σ.get (.fork s) = some f →
    σ.get (.record s v) = some env → f.atVersion < v
  started : ∀ s f, σ.get (.fork s) = some f → f.atVersion < nextVersion σ s
  rank : ∃ rank : String → Nat, ∀ s f, σ.get (.fork s) = some f → rank f.stream < rank s

/-- Appends at a version of their own choice do not reach back below the tail. -/
def Call.Forward (σ : Db D S) : Call D S → Prop
  | .appendAt stream fromVersion _ _ _ => nextVersion σ stream ≤ fromVersion
  | _ => True

namespace Layered

variable {σ σ' : Db D S}

theorem of_frame (h : Layered σ)
    (hrec : ∀ stream v (env : Envelope D), σ'.get (.record stream v) = some env →
      σ.get (.record stream v) = some env)
    (htail : ∀ stream, σ'.get (.tail stream) = σ.get (.tail stream))
    (hfork : ∀ s, σ'.get (.fork s) = σ.get (.fork s)) : Layered σ' where
  toRooted := h.toRooted.of_frame hrec htail hfork
  above s f v env hf hv := h.above s f v env (by rw [← hfork]; exact hf) (hrec s v env hv)
  started s f hf := by
    rw [nextVersion_congr (htail s)]
    exact h.started s f (by rw [← hfork]; exact hf)
  rank := by
    obtain ⟨rank, hrank⟩ := h.rank
    exact ⟨rank, fun s f hf => hrank s f (by rw [← hfork]; exact hf)⟩

theorem appended (h : Layered σ) {req : AppendReq D} {seq : Nat} {info : CommitInfo}
    (happ : Appended req seq σ info σ') (hforward : nextVersion σ req.stream ≤ info.firstVersion) :
    Layered σ' := by
  have hfork : ∀ s, σ'.get (.fork s) = σ.get (.fork s) :=
    fun s => happ.frame _ (by simp) (by simp) (by simp)
  refine ⟨happ.rooted h.toRooted, fun s f v env hf hv => ?_, fun s f hf => ?_, ?_⟩
  · rw [hfork] at hf
    by_cases hs : s = req.stream
    · subst hs
      rcases happ.record_cases hv with hold | ⟨-, i, -, hvi, -⟩
      · exact h.above _ f v env hf hold
      · -- the batch starts at the tail or past it, which is above the fork point
        have hstarted := h.started _ f hf
        omega
    · rw [happ.frame _ (by simp) (by simp [hs]) (by simp)] at hv
      exact h.above s f v env hf hv
  · rw [hfork] at hf
    exact (h.started s f hf).trans_le (happ.nextVersion_le s).1
  · obtain ⟨rank, hrank⟩ := h.rank
    exact ⟨rank, fun s f hf => hrank s f (by rw [← hfork]; exact hf)⟩

/-- A fork to a stream without a tail, of which nothing was forked. -/
theorem forked_of_fresh (h : Layered σ) {parent child : String} {atVersion : Nat}
    {parentTail : TailRecord} (hparent : σ.get (.tail parent) = some parentTail)
    (hle : atVersion ≤ parentTail.version) (hchild : σ.get (.tail child) = none)
    (hfresh : ∀ s f, σ.get (.fork s) = some f → f.stream ≠ child) :
    Layered (Landslide.forked σ parent atVersion child parentTail.tsMs) := by
  have hne : parent ≠ child := by
    rintro rfl
    rw [hparent] at hchild
    cases hchild
  have hother : ∀ s, s ≠ child →
      (Landslide.forked σ parent atVersion child parentTail.tsMs).get (.fork s) =
        σ.get (.fork s) :=
    fun s hs => get_forked_of_ne (by simp [hs]) (by simp) (by simp)
  refine ⟨h.toRooted.forked hparent hle hchild, fun s f v env hf hv => ?_, fun s f hf => ?_,
    rank_forked hne hfresh h.rank⟩
  · rw [get_forked_of_ne (by simp) (by simp) (by simp)] at hv
    by_cases hs : s = child
    · subst hs
      have := h.below s v env hv
      rw [nextVersion, tailVersion, hchild] at this
      exact absurd this (Nat.not_lt_zero v)
    · rw [hother s hs] at hf
      exact h.above s f v env hf hv
  · by_cases hs : s = child
    · subst hs
      rw [get_forked_fork] at hf
      cases hf
      rw [nextVersion, tailVersion, get_forked_tail]
      exact Nat.lt_succ_self _
    · rw [hother s hs] at hf
      rw [nextVersion_congr (get_forked_of_ne (by simp) (by simp [hs]) (by simp))]
      exact h.started s f hf

theorem forked (h : Layered σ) (hchain : Chained σ) {parent child : String} {atVersion : Nat}
    {parentTail : TailRecord} (hparent : σ.get (.tail parent) = some parentTail)
    (hle : atVersion ≤ parentTail.version) (hchild : σ.get (.tail child) = none) :
    Layered (Landslide.forked σ parent atVersion child parentTail.tsMs) :=
  h.forked_of_fresh hparent hle hchild fun _ _ hf => (hchain.ne_of_no_tail hchild hf).2

/-! ### Histories -/

/-- What is inherited ends at the fork point, below the tail. -/
theorem lt_nextVersion (h : Layered σ) {s p : String} {v : Nat} {env : Envelope D}
    (hhome : Home σ s v p) (hget : σ.get (.record p v) = some env) : v < nextVersion σ s := by
  cases hhome with
  | own => exact h.below s v env hget
  | inherited hf hle => exact hle.trans_lt (h.started s _ hf)

/-- A history comes in version order and lies within the range read. -/
theorem resolve_sorted (h : Layered σ) : ∀ {depth : Nat} {s : String} {visited : List String}
    {lo : Nat} {hi : Option Nat} {events : List (Event D)},
    (resolveHistory depth s visited lo hi).eval σ = .ok events →
      events.Pairwise (fun e e' => e.version < e'.version) ∧
        ∀ e ∈ events, lo ≤ e.version ∧ hi.all (e.version < ·) = true
  | 0, _, _, _, _, _, heval => by cases heval
  | depth + 1, s, visited, lo, hi, events, heval => by
      have hown : ∀ e ∈ eventsOf σ s lo hi, (lo ≤ e.version ∧ hi.all (e.version < ·) = true) ∧
          ∀ f, σ.get (.fork s) = some f → f.atVersion < e.version := by
        intro e he
        obtain ⟨v, env, hget, -, hlo, hhi, rfl⟩ := (mem_eventsOf_guards h.versioned).mp he
        rw [show (Event.fromParts env).version = v from h.versioned s v env hget]
        exact ⟨⟨hlo, hhi⟩, fun f hf => h.above s f v env hf hget⟩
      have hsorted := eventsOf_sorted (h.versioned s) lo hi
      rw [resolveHistory_eval] at heval
      split at heval
      · cases heval
        exact ⟨.nil, by simp⟩
      split at heval
      · cases heval
      cases hf : σ.get (.fork s) with
      | none =>
          rw [hf] at heval
          cases heval
          exact ⟨hsorted, fun e he => (hown e he).1⟩
      | some f =>
          rw [hf] at heval
          dsimp only at heval
          split at heval
          swap
          · cases heval
            exact ⟨hsorted, fun e he => (hown e he).1⟩
          cases hr : (resolveHistory depth f.stream (s :: visited) lo
              (some (hi.elim (f.atVersion + 1) (min · (f.atVersion + 1))))).eval σ with
          | error e =>
              rw [hr] at heval
              cases heval
          | ok inherited =>
              rw [hr] at heval
              cases heval
              obtain ⟨hinh, hrange⟩ := h.resolve_sorted hr
              -- what is inherited ends at the fork point, and the rest starts above it
              have hle : ∀ e ∈ inherited, e.version ≤ f.atVersion ∧
                  hi.all (e.version < ·) = true := by
                intro e he
                have hlt := (hrange e he).2
                simp only [Option.all_some, decide_eq_true_eq] at hlt
                cases hi with
                | none =>
                    simp only [Option.elim_none] at hlt
                    exact ⟨by omega, rfl⟩
                | some hi =>
                    simp only [Option.elim_some] at hlt
                    simp only [Option.all_some, decide_eq_true_eq]
                    omega
              refine ⟨List.pairwise_append.mpr ⟨hinh, hsorted, fun e he e' he' => ?_⟩,
                fun e he => ?_⟩
              · exact (hle e he).1.trans_lt ((hown e' he').2 f hf)
              · rcases List.mem_append.mp he with he | he
                · exact ⟨(hrange e he).1, (hle e he).2⟩
                · exact (hown e he).1

theorem readHistory_ok (h : Layered σ) (s : String) (start stop : Bound) :
    ∃ events, readHistory σ s start stop = .ok events := by
  obtain ⟨rank, hrank⟩ := h.rank
  exact resolve_ok hrank _ s [] _ _ (by simp) (readHistory_ne_depth σ s start stop)

theorem readHistory_sorted (h : Layered σ) {s : String} {start stop : Bound}
    {events : List (Event D)} (hread : readHistory σ s start stop = .ok events) :
    events.Pairwise fun e e' => e.version < e'.version :=
  (h.resolve_sorted hread).1

/-- The events of a history are the records that the guards of their homes show. -/
theorem mem_readHistory (h : Layered σ) {s : String} {start stop : Bound}
    {events : List (Event D)} (hread : readHistory σ s start stop = .ok events) {e : Event D} :
    e ∈ events ↔ ∃ v p env, Home σ s v p ∧ σ.get (.record p v) = some env ∧
      (guardsOf σ p).shows v env.seq = true ∧ (bounds start stop).1 ≤ v ∧
      (bounds start stop).2.all (v < ·) = true ∧ Event.fromParts env = e := by
  obtain ⟨rank, hrank⟩ := h.rank
  rw [Landslide.mem_readHistory hread]
  generalize bounds start stop = range
  obtain ⟨lo, hi⟩ := range
  have hcut : ∀ m v, (decide (v < cut hi m) = true ↔ v ≤ m ∧ hi.all (v < ·) = true) := by
    intro m v
    cases hi with
    | none => simp [cut]
    | some hi =>
        simp only [cut, Option.elim_some, Option.all_some, decide_eq_true_eq, Nat.lt_min,
          Nat.lt_succ_iff]
        exact and_comm
  simp only [mem_eventsOf_guards h.versioned, Option.all_some, hcut]
  constructor
  · rintro (⟨v, env, hget, hshow, hlo, hhi, he⟩ |
      ⟨p, m, hinh, v, env, hget, hshow, hlo, ⟨hm, hhi⟩, he⟩)
    · exact ⟨v, s, env, .own fun f hf => h.above s f v env hf hget, hget, hshow, hlo, hhi, he⟩
    · exact ⟨v, p, env, .of_inherits hrank hinh hm fun f hf => h.above p f v env hf hget, hget,
        hshow, hlo, hhi, he⟩
  · rintro ⟨v, p, env, hhome, hget, hshow, hlo, hhi, he⟩
    rcases hhome.inherits with rfl | ⟨m, hinh, hm⟩
    · exact .inl ⟨v, env, hget, hshow, hlo, hhi, he⟩
    · exact .inr ⟨p, m, hinh, v, env, hget, hshow, hlo, ⟨hm, hhi⟩, he⟩

/-- The events of a history in a range are those of the whole history that lie in it. -/
theorem readHistory_range (h : Layered σ) {s : String} {events : List (Event D)}
    (hevents : readHistory σ s .unbounded .unbounded = .ok events) (start stop : Bound) :
    readHistory σ s start stop = .ok (events.filter fun e =>
      decide ((bounds start stop).1 ≤ e.version) && (bounds start stop).2.all (e.version < ·)) := by
  obtain ⟨part, hpart⟩ := h.readHistory_ok s start stop
  rw [hpart]
  refine congrArg Except.ok ((h.readHistory_sorted hpart).eq_of_mem_iff
    ((h.readHistory_sorted hevents).filter _) fun e => ?_)
  rw [h.mem_readHistory hpart, List.mem_filter, h.mem_readHistory hevents, Bool.and_eq_true,
    decide_eq_true_eq]
  constructor
  · rintro ⟨v, p, env, hhome, hget, hshow, hlo, hhi, rfl⟩
    rw [show (Event.fromParts env).version = v from h.versioned p v env hget]
    exact ⟨⟨v, p, env, hhome, hget, hshow, Nat.zero_le v, rfl, rfl⟩, hlo, hhi⟩
  · rintro ⟨⟨v, p, env, hhome, hget, hshow, -, -, rfl⟩, hlo, hhi⟩
    rw [show (Event.fromParts env).version = v from h.versioned p v env hget] at hlo hhi
    exact ⟨v, p, env, hhome, hget, hshow, hlo, hhi, rfl⟩

/-- Reading a history from a version on leaves out what is below. -/
theorem readHistory_from (h : Layered σ) {s : String} {events : List (Event D)}
    (hevents : readHistory σ s (.included 0) .unbounded = .ok events) (lo : Nat) :
    readHistory σ s (.included lo) .unbounded = .ok (events.filter fun e => lo ≤ e.version) := by
  rw [h.readHistory_range hevents]
  exact congrArg Except.ok (List.filter_congr fun e _ => Bool.and_true _)

end Layered

end

end Landslide
