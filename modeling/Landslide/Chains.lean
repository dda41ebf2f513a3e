import Landslide.Branches
import Landslide.Pins

/-!
# Fork chains

A fork is made in one transaction: fork reference, tail of the child and pin on the
parent.  The child has no tail before it and tails stay, so in every reachable state
forks come after their parents and the pins are those of the fork references
(`chained_reach`).

Hence no chain has a cycle, every history can be read (`Chained.readHistory_ok`), and an
event of a history is an event of the stream itself or of a stream it inherits from,
up to the version it inherits (`mem_readHistory`).
-/

namespace Landslide

open TxnKv Std

section

variable {D S : Type}

/-! ## Chains of reachable states -/

/-- Forks and their parents exist, forks come after their parents, and the pins are
those of the fork references. -/
structure Chained (σ : Db D S) : Prop where
  exist : ∀ s f, σ.get (.fork s) = some f →
    (σ.get (.tail s)).isSome = true ∧ (σ.get (.tail f.stream)).isSome = true
  pins : ∀ p c m, σ.get (.forks p c) = some m ↔ σ.get (.fork c) = some ⟨p, m⟩
  rank : ∃ rank : String → Nat, ∀ s f, σ.get (.fork s) = some f → rank f.stream < rank s

/-- A call makes a fork, or leaves fork references and pins and keeps tails. -/
theorem Call.Effect.fork_cases {call : Call D S} {σ σ' : Db D S} {infos : List CommitInfo}
    (h : call.Effect σ infos σ') :
    (∃ parent atVersion child parentTail, call = .fork parent atVersion child ∧
        σ.get (.tail parent) = some parentTail ∧ atVersion ≤ parentTail.version ∧
        σ.get (.tail child) = none ∧ σ' = forked σ parent atVersion child parentTail.tsMs) ∨
      (∀ s, σ'.get (.fork s) = σ.get (.fork s)) ∧
        (∀ p c, σ'.get (.forks p c) = σ.get (.forks p c)) ∧
        ∀ s, (σ.get (.tail s)).isSome = true → (σ'.get (.tail s)).isSome = true := by
  have stamped : Stamped call.reqs σ infos σ' → (∀ s, σ'.get (.fork s) = σ.get (.fork s)) ∧
      (∀ p c, σ'.get (.forks p c) = σ.get (.forks p c)) ∧
      ∀ s, (σ.get (.tail s)).isSome = true → (σ'.get (.tail s)).isSome = true := by
    rintro ⟨seq', σ₁, hr, rfl⟩
    refine ⟨fun s => ?_, fun p c => ?_, fun s hs => ?_⟩
    · rw [Store.get_put_of_ne _ _ (by simp), hr.get_of_not_replay rfl]
    · rw [Store.get_put_of_ne _ _ (by simp), hr.get_of_not_replay rfl]
    · rw [Store.get_put_of_ne _ _ (by simp)]
      exact hr.tail_isSome hs
  have other : (∀ k : Key, (∃ s, k = .fork s) ∨ (∃ p c, k = .forks p c) ∨ (∃ s, k = .tail s) →
      σ'.get k = σ.get k) → (∀ s, σ'.get (.fork s) = σ.get (.fork s)) ∧
        (∀ p c, σ'.get (.forks p c) = σ.get (.forks p c)) ∧
        ∀ s, (σ.get (.tail s)).isSome = true → (σ'.get (.tail s)).isSome = true := by
    intro hσ
    refine ⟨fun s => hσ _ (.inl ⟨s, rfl⟩), fun p c => hσ _ (.inr (.inl ⟨p, c, rfl⟩)), fun s hs => ?_⟩
    rw [hσ _ (.inr (.inr ⟨s, rfl⟩))]
    exact hs
  cases call with
  | fork parent atVersion child =>
      obtain ⟨parentTail, hparent, hle, hchild, rfl⟩ := h
      exact .inl ⟨parent, atVersion, child, parentTail, rfl, hparent, hle, hchild, rfl⟩
  | append | appendWithToken | appendAt | commit => exact .inr (stamped h)
  | fence s token =>
      cases h
      refine .inr (other fun k hk => get_fenced_of_ne _ _ _ ?_)
      rcases hk with ⟨s, rfl⟩ | ⟨p, c, rfl⟩ | ⟨s, rfl⟩ <;> simp
  | trim s fromVersion txn =>
      cases h
      refine .inr (other fun k hk => Store.get_put_of_ne _ _ ?_)
      rcases hk with ⟨s, rfl⟩ | ⟨p, c, rfl⟩ | ⟨s, rfl⟩ <;> simp
  | trimBelow s floor =>
      cases h
      refine .inr (other fun k hk => Store.get_put_of_ne _ _ ?_)
      rcases hk with ⟨s, rfl⟩ | ⟨p, c, rfl⟩ | ⟨s, rfl⟩ <;> simp
  | purgeBelow s floor =>
      obtain ⟨versions, rfl⟩ := h
      refine .inr (other fun k hk => get_purged_of_ne _ _ ?_)
      rcases hk with ⟨s, rfl⟩ | ⟨p, c, rfl⟩ | ⟨s, rfl⟩ <;> simp
  | deleteStream s =>
      obtain ⟨-, rfl⟩ := h
      refine .inr (other fun k hk => Store.get_put_of_ne _ _ ?_)
      rcases hk with ⟨s, rfl⟩ | ⟨p, c, rfl⟩ | ⟨s, rfl⟩ <;> simp
  | publishSnapshot s record state ulid =>
      cases h
      refine .inr (other fun k hk => get_published_of_ne ?_ ?_ ?_) <;>
        rcases hk with ⟨s, rfl⟩ | ⟨p, c, rfl⟩ | ⟨s, rfl⟩ <;> simp
  | compact depth s jobId build nowMs ulid =>
      obtain ⟨record, state, rfl⟩ := h
      refine .inr (other fun k hk => get_published_of_ne ?_ ?_ ?_) <;>
        rcases hk with ⟨s, rfl⟩ | ⟨p, c, rfl⟩ | ⟨s, rfl⟩ <;> simp

theorem get_forked_fork (σ : Db D S) (parent : String) (atVersion : Nat) (child : String)
    (tsMs : Int) : (forked σ parent atVersion child tsMs).get (.fork child) =
      some ⟨parent, atVersion⟩ := by
  rw [forked, Store.get_put_of_ne _ _ (by simp), Store.get_put_of_ne _ _ (by simp),
    Store.get_put_self]

theorem get_forked_tail (σ : Db D S) (parent : String) (atVersion : Nat) (child : String)
    (tsMs : Int) : (forked σ parent atVersion child tsMs).get (.tail child) =
      some ⟨atVersion, tsMs⟩ := by
  rw [forked, Store.get_put_of_ne _ _ (by simp), Store.get_put_self]

/-- The child comes after its parent, and nothing comes after the child yet. -/
theorem rank_forked {σ : Db D S} {parent child : String} {atVersion : Nat} {tsMs : Int}
    (hne : parent ≠ child) (hfresh : ∀ s f, σ.get (.fork s) = some f → f.stream ≠ child)
    (hrank : ∃ rank : String → Nat, ∀ s f, σ.get (.fork s) = some f → rank f.stream < rank s) :
    ∃ rank : String → Nat, ∀ s f,
      (forked σ parent atVersion child tsMs).get (.fork s) = some f → rank f.stream < rank s := by
  obtain ⟨rank, hrank⟩ := hrank
  refine ⟨Function.update rank child (rank parent + 1), fun s f hf => ?_⟩
  by_cases hs : s = child
  · subst hs
    rw [get_forked_fork] at hf
    cases hf
    rw [Function.update_self, Function.update_of_ne hne]
    exact Nat.lt_succ_self _
  · rw [get_forked_of_ne (by simp [hs]) (by simp) (by simp)] at hf
    rw [Function.update_of_ne hs, Function.update_of_ne (hfresh s f hf)]
    exact hrank s f hf

namespace Chained

variable {σ σ' : Db D S}

theorem empty : Chained (∅ : Db D S) where
  exist s f hf := by simp at hf
  pins p c m := by simp
  rank := ⟨fun _ => 0, fun s f hf => by simp at hf⟩

theorem of_frame (h : Chained σ) (hfork : ∀ s, σ'.get (.fork s) = σ.get (.fork s))
    (hforks : ∀ p c, σ'.get (.forks p c) = σ.get (.forks p c))
    (htail : ∀ s, (σ.get (.tail s)).isSome = true → (σ'.get (.tail s)).isSome = true) :
    Chained σ' where
  exist s f hf := by
    rw [hfork] at hf
    exact ⟨htail _ (h.exist s f hf).1, htail _ (h.exist s f hf).2⟩
  pins p c m := by
    rw [hfork, hforks]
    exact h.pins p c m
  rank := by
    obtain ⟨rank, hrank⟩ := h.rank
    refine ⟨rank, fun s f hf => hrank s f ?_⟩
    rw [← hfork]
    exact hf

/-- A stream without a tail is not part of any chain. -/
theorem ne_of_no_tail (h : Chained σ) {child : String} (hchild : σ.get (.tail child) = none)
    {s : String} {f : ForkRef} (hf : σ.get (.fork s) = some f) : s ≠ child ∧ f.stream ≠ child := by
  obtain ⟨hs, hp⟩ := h.exist s f hf
  constructor
  · rintro rfl
    rw [hchild] at hs
    cases hs
  · intro heq
    rw [heq, hchild] at hp
    cases hp

theorem forked (h : Chained σ) {parent child : String} {atVersion : Nat} {parentTail : TailRecord}
    (hparent : σ.get (.tail parent) = some parentTail) (hchild : σ.get (.tail child) = none) :
    Chained (Landslide.forked σ parent atVersion child parentTail.tsMs) := by
  have hne : parent ≠ child := by
    rintro rfl
    rw [hparent] at hchild
    cases hchild
  have hown := get_forked_fork σ parent atVersion child parentTail.tsMs
  have hother : ∀ s, s ≠ child →
      (Landslide.forked σ parent atVersion child parentTail.tsMs).get (.fork s) =
        σ.get (.fork s) :=
    fun s hs => get_forked_of_ne (by simp [hs]) (by simp) (by simp)
  have htail : ∀ s, (σ.get (.tail s)).isSome = true →
      ((Landslide.forked σ parent atVersion child parentTail.tsMs).get (.tail s)).isSome = true := by
    intro s hs
    have hsc : s ≠ child := by
      rintro rfl
      rw [hchild] at hs
      cases hs
    rw [get_forked_of_ne (by simp) (by simp [hsc]) (by simp)]
    exact hs
  refine ⟨fun s f hf => ?_, fun p c m => ?_,
    rank_forked hne (fun _ _ hf => (h.ne_of_no_tail hchild hf).2) h.rank⟩
  · by_cases hs : s = child
    · subst hs
      rw [hown] at hf
      cases hf
      refine ⟨by rw [get_forked_tail]; rfl, htail parent (by rw [hparent]; rfl)⟩
    · rw [hother s hs] at hf
      exact ⟨htail _ (h.exist s f hf).1, htail _ (h.exist s f hf).2⟩
  · by_cases hc : c = child
    · subst hc
      rw [hown]
      by_cases hp : p = parent
      · subst hp
        rw [Landslide.forked, Store.get_put_self]
        simp
      · -- the child had no fork reference, so nobody else has a pin for it
        rw [get_forked_of_ne (by simp) (by simp) (by simp [hp]), h.pins]
        have hnone : σ.get (.fork c) ≠ some ⟨p, m⟩ := fun hf => (h.ne_of_no_tail hchild hf).1 rfl
        constructor
        · exact fun hf => absurd hf hnone
        · intro heq
          cases heq
          exact absurd rfl hp
    · rw [hother c hc, get_forked_of_ne (by simp) (by simp) (by simp [hc])]
      exact h.pins p c m

end Chained

theorem Call.Effect.chained {call : Call D S} {σ σ' : Db D S} {infos : List CommitInfo}
    (he : call.Effect σ infos σ') (h : Chained σ) : Chained σ' := by
  rcases he.fork_cases with ⟨parent, atVersion, child, parentTail, -, hparent, -, hchild, rfl⟩ |
    ⟨hfork, hforks, htail⟩
  · exact h.forked hparent hchild
  · exact h.of_frame hfork hforks htail

/-- In every state a schedule reaches, forks come after their parents. -/
theorem chained_reach [Payload D] (acts : Schedule D S) : Chained (reach acts).store := by
  refine reach_induct .empty ?_ ?_ acts
  · intro σ σ' h hσ
    refine h.of_frame (fun _ => hσ _ (by simp)) (fun _ _ => hσ _ (by simp)) fun s hs => ?_
    rw [hσ _ (by simp)]
    exact hs
  · intro call σ σ' infos heff h
    exact heff.chained h

/-! ## Histories along a chain -/

/-- The fork chain has no cycle. -/
theorem resolve_ok {σ : Db D S} {rank : String → Nat}
    (hrank : ∀ s f, σ.get (.fork s) = some f → rank f.stream < rank s) :
    ∀ (depth : Nat) (s : String) (visited : List String) (lo : Nat) (hi : Option Nat),
      (∀ q ∈ visited, rank s < rank q) →
        (resolveHistory depth s visited lo hi).eval σ ≠ .error .depth →
          ∃ events, (resolveHistory depth s visited lo hi).eval σ = .ok events
  | 0, _, _, _, _, _, hne => absurd rfl hne
  | depth + 1, s, visited, lo, hi, hvisited, hne => by
      rw [resolveHistory_eval] at hne ⊢
      have hs : s ∉ visited := fun hmem => Nat.lt_irrefl _ (hvisited s hmem)
      rw [if_neg hs] at hne ⊢
      split
      · exact ⟨[], rfl⟩
      next hempty =>
      rw [if_neg hempty] at hne
      cases hf : σ.get (.fork s) with
      | none => exact ⟨_, rfl⟩
      | some f =>
          rw [hf] at hne
          dsimp only at hne ⊢
          split
          swap
          · exact ⟨_, rfl⟩
          next hlo =>
          rw [if_pos hlo] at hne
          have hparent : ∀ q ∈ s :: visited, rank f.stream < rank q := by
            intro q hq
            rcases List.mem_cons.mp hq with rfl | hq
            · exact hrank q f hf
            · exact (hrank s f hf).trans (hvisited q hq)
          obtain ⟨events, hevents⟩ := resolve_ok hrank depth f.stream (s :: visited) lo
            (some (hi.elim (f.atVersion + 1) (min · (f.atVersion + 1)))) hparent fun herror =>
              hne (by rw [herror]; rfl)
          rw [hevents]
          exact ⟨_, rfl⟩

theorem Chained.readHistory_ok {σ : Db D S} (h : Chained σ) (s : String) (start stop : Bound) :
    ∃ events, readHistory σ s start stop = .ok events := by
  obtain ⟨rank, hrank⟩ := h.rank
  exact resolve_ok hrank _ s [] _ _ (by simp) (readHistory_ne_depth σ s start stop)

/-- More depth than is needed changes nothing. -/
theorem resolve_deeper (σ : Db D S) : ∀ (depth : Nat) (s : String) (visited : List String) (lo : Nat)
    (hi : Option Nat), (resolveHistory depth s visited lo hi).eval σ ≠ .error .depth → ∀ k,
      (resolveHistory (depth + k) s visited lo hi).eval σ =
        (resolveHistory depth s visited lo hi).eval σ
  | 0, _, _, _, _, hne, _ => absurd rfl hne
  | depth + 1, s, visited, lo, hi, hne, k => by
      rw [show depth + 1 + k = (depth + k) + 1 by omega, resolveHistory_eval, resolveHistory_eval]
      rw [resolveHistory_eval] at hne
      split
      · rfl
      next hempty =>
      rw [if_neg hempty] at hne
      split
      · rfl
      next hvis =>
      rw [if_neg hvis] at hne
      cases hf : σ.get (.fork s) with
      | none => rfl
      | some f =>
          rw [hf] at hne
          dsimp only at hne ⊢
          split
          · next hlo =>
            rw [if_pos hlo] at hne
            rw [resolve_deeper σ depth f.stream _ lo _ (fun herror => hne (by rw [herror]; rfl)) k]
          · rfl

/-- The stream is a fork of that one. -/
def ForkOf (σ : Db D S) (c p : String) : Prop :=
  ∃ f : ForkRef, σ.get (.fork c) = some f ∧ f.stream = p

/-- Along a chain the streams come in the order of their creation. -/
theorem rank_lt_of_forkOf {σ : Db D S} {rank : String → Nat}
    (hrank : ∀ s f, σ.get (.fork s) = some f → rank f.stream < rank s) {s p : String}
    (h : Relation.TransGen (ForkOf σ) s p) : rank p < rank s := by
  induction h with
  | single hsp =>
      obtain ⟨f, hf, rfl⟩ := hsp
      exact hrank _ f hf
  | tail _ hqp ih =>
      obtain ⟨f, hf, rfl⟩ := hqp
      exact (hrank _ f hf).trans ih

/-- In every state a schedule reaches, following fork references from any stream comes to
no stream twice, every read of a history ends, and none reports a cycle. -/
theorem fork_chains_end [Payload D] (acts : Schedule D S) (s : String) :
    (∀ p, Relation.ReflTransGen (ForkOf (reach acts).store) s p →
        ¬ Relation.TransGen (ForkOf (reach acts).store) p p) ∧
      ∀ lo hi, (∃ depth events, ∀ d, depth ≤ d →
          (resolveHistory d s [] lo hi).eval (reach acts).store = .ok events) ∧
        ∀ (d : Nat) (q : String), (resolveHistory d s [] lo hi).eval (reach acts).store ≠
          .error (.invalidInput s!"fork cycle at '{q}'") := by
  obtain ⟨rank, hrank⟩ := (chained_reach acts).rank
  generalize (reach acts).store = σ at hrank ⊢
  refine ⟨fun p _ hcycle => Nat.lt_irrefl _ (rank_lt_of_forkOf hrank hcycle), fun lo hi => ⟨?_, ?_⟩⟩
  · -- the chain has at most one stream for each fork reference, and one more
    have hdepth := resolveHistory_ne_depth σ ((forkRefs σ).length + 1) s [] lo hi List.nodup_nil
      (by simp) (by simp)
    obtain ⟨events, hevents⟩ := resolve_ok hrank _ s [] lo hi (by simp) hdepth
    refine ⟨(forkRefs σ).length + 1, events, fun d hd => ?_⟩
    obtain ⟨k, rfl⟩ := Nat.exists_eq_add_of_le hd
    rw [resolve_deeper σ _ s [] lo hi hdepth k, hevents]
  · intro d q herror
    obtain ⟨events, hevents⟩ := resolve_ok hrank d s [] lo hi (by simp) (by rw [herror]; simp)
    rw [hevents] at herror
    cases herror

/-- A fork inherits what its parent has and inherits, up to the fork point. -/
theorem inherits_iff {σ : Db D S} {c : String} {f : ForkRef} (hf : σ.get (.fork c) = some f)
    {p : String} {m : Nat} :
    Inherits σ c p m ↔ (p = f.stream ∧ m = f.atVersion) ∨
      ∃ m', Inherits σ f.stream p m' ∧ m = min f.atVersion m' := by
  constructor
  · intro h
    induction h with
    | parent hf' =>
        rw [hf] at hf'
        cases hf'
        exact .inl ⟨rfl, rfl⟩
    | @up q m g hinh hg ih =>
        rcases ih with ⟨rfl, rfl⟩ | ⟨m', hinh', rfl⟩
        · exact .inr ⟨g.atVersion, .parent hg, rfl⟩
        · exact .inr ⟨min m' g.atVersion, .up hinh' hg, by omega⟩
  · rintro (⟨rfl, rfl⟩ | ⟨m', hinh, rfl⟩)
    · exact .parent hf
    · induction hinh with
      | parent hg => exact .up (.parent hf) hg
      | @up q m g hinh hg ih =>
          rw [← Nat.min_assoc]
          exact .up ih hg

theorem not_inherits {σ : Db D S} {c p : String} {m : Nat} (hf : σ.get (.fork c) = none) :
    ¬ Inherits σ c p m := by
  intro h
  induction h with
  | parent hf' =>
      rw [hf] at hf'
      cases hf'
  | up _ _ ih => exact ih

/-- The upper end of what is read of an ancestor. -/
def cut (hi : Option Nat) (m : Nat) : Nat := hi.elim (m + 1) (min · (m + 1))

/-- The events of a history: those of the stream, and those of each stream it inherits
from up to the version it inherits. -/
theorem mem_resolve {σ : Db D S} : ∀ {depth : Nat} {s : String} {visited : List String} {lo : Nat}
    {hi : Option Nat} {events : List (Event D)},
    (resolveHistory depth s visited lo hi).eval σ = .ok events → ∀ {e : Event D},
      (e ∈ events ↔ e ∈ eventsOf σ s lo hi ∨
        ∃ p m, Inherits σ s p m ∧ e ∈ eventsOf σ p lo (some (cut hi m)))
  | 0, _, _, _, _, _, heval, _ => by cases heval
  | depth + 1, s, visited, lo, hi, events, heval, e => by
      -- nothing lies in an empty range
      have hnil : ∀ {q : String} {hi' : Nat}, hi' ≤ lo → e ∉ eventsOf σ q lo (some hi') := by
        intro q hi' hle he
        rw [eventsOf_eq_nil (by simp only [Option.any_some, decide_eq_true_eq]; omega)] at he
        cases he
      rw [resolveHistory_eval] at heval
      split at heval
      · next hempty =>
        cases heval
        cases hi with
        | none => cases hempty
        | some hi =>
            simp only [Option.any_some, decide_eq_true_eq] at hempty
            constructor
            · intro he
              cases he
            · rintro (he | ⟨p, m, -, he⟩)
              · exact absurd he (hnil hempty)
              · exact absurd he (hnil (by simp only [cut, Option.elim_some]; omega))
      split at heval
      · cases heval
      cases hf : σ.get (.fork s) with
      | none =>
          rw [hf] at heval
          cases heval
          constructor
          · exact .inl
          · rintro (he | ⟨p, m, hinh, -⟩)
            · exact he
            · exact absurd hinh (not_inherits hf)
      | some f =>
          rw [hf] at heval
          dsimp only at heval
          split at heval
          · next hlo =>
            cases hr : (resolveHistory depth f.stream (s :: visited) lo
                (some (hi.elim (f.atVersion + 1) (min · (f.atVersion + 1))))).eval σ with
            | error err =>
                rw [hr] at heval
                cases heval
            | ok inherited =>
                rw [hr] at heval
                cases heval
                rw [List.mem_append, mem_resolve hr]
                have hcut : ∀ m', cut (some (cut hi f.atVersion)) m' =
                    cut hi (min f.atVersion m') := by
                  intro m'
                  cases hi with
                  | none => simp only [cut, Option.elim_none, Option.elim_some]; omega
                  | some hi => simp only [cut, Option.elim_some]; omega
                constructor
                · rintro ((he | ⟨p, m', hinh, he⟩) | he)
                  · exact .inr ⟨f.stream, f.atVersion, .parent hf, he⟩
                  · refine .inr ⟨p, min f.atVersion m', (inherits_iff hf).mpr (.inr ⟨m', hinh, rfl⟩), ?_⟩
                    rw [← hcut]
                    exact he
                  · exact .inl he
                · rintro (he | ⟨p, m, hinh, he⟩)
                  · exact .inr he
                  · rcases (inherits_iff hf).mp hinh with ⟨rfl, rfl⟩ | ⟨m', hinh', rfl⟩
                    · exact .inl (.inl he)
                    · refine .inl (.inr ⟨p, m', hinh', ?_⟩)
                      rw [← hcut] at he
                      exact he
          · next hlo =>
            cases heval
            constructor
            · exact .inl
            · rintro (he | ⟨p, m, hinh, he⟩)
              · exact he
              · -- the range starts past the fork point
                have hm : m ≤ f.atVersion := by
                  rcases (inherits_iff hf).mp hinh with ⟨-, rfl⟩ | ⟨m', -, rfl⟩ <;> omega
                refine absurd he (hnil ?_)
                cases hi with
                | none =>
                    simp only [Option.elim_none] at hlo
                    simp only [cut, Option.elim_none]
                    omega
                | some hi =>
                    simp only [Option.elim_some] at hlo
                    simp only [cut, Option.elim_some]
                    omega

theorem mem_readHistory {σ : Db D S} {s : String} {start stop : Bound} {events : List (Event D)}
    (h : readHistory σ s start stop = .ok events) {e : Event D} :
    e ∈ events ↔ e ∈ eventsOf σ s (bounds start stop).1 (bounds start stop).2 ∨
      ∃ p m, Inherits σ s p m ∧
        e ∈ eventsOf σ p (bounds start stop).1 (some (cut (bounds start stop).2 m)) :=
  mem_resolve h

end

end Landslide
