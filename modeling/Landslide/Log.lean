import Landslide.Stream

/-!
# Values logged on a stream

A stream whose events each stand for a value, as a reader of events takes them
(`of`).  `Logged` relates the state to all the values, one per version, also those
of events that a purge has removed.  A read from the latest snapshot on returns the
values past it (`Logged.read`), appends add values, and publishing a snapshot leaves
them.
-/

namespace Landslide

open TxnKv Std

section

variable {D S A : Type} {of : Event D → Except Error A}

/-! ## Events and values -/

/-- The events of a history carry these values, in order. -/
def Carries (of : Event D → Except Error A) (hist : Nat → Option (Event D)) (xs : List A) : Prop :=
  ∀ v x, xs[v]? = some x → ∃ e, hist v = some e ∧ of e = .ok x

/-- The events have the versions from `v` on and carry these values. -/
def ReadsAs (of : Event D → Except Error A) : Nat → List (Event D) → List A → Prop
  | _, [], [] => True
  | v, e :: events, x :: xs => e.version = v ∧ of e = .ok x ∧ ReadsAs of (v + 1) events xs
  | _, _, _ => False

theorem ReadsAs.forall₂ : ∀ {v : Nat} {events : List (Event D)} {xs : List A},
    ReadsAs of v events xs → List.Forall₂ (fun e x => of e = .ok x) events xs
  | _, [], [], _ => .nil
  | _, _ :: _, _ :: _, h => .cons h.2.1 h.2.2.forall₂

/-- What an event of a batch stands for, whatever version it gets. -/
def Stands (of : Event D → Except Error A) (e : NewEvent D) (x : A) : Prop :=
  ∀ ev : Event D, ev.eventType = e.eventType → ev.data = e.data → of ev = .ok x

/-! ## Logs -/

/-- The state holds a log of these values on a stream. -/
structure Logged (of : Event D → Except Error A) (σ : Db D S) (stream : String) (xs : List A) :
    Prop where
  history : ∃ hist, Retains σ stream hist xs.length ∧ Carries of hist xs
  numbered : Numbered σ stream

namespace Logged

variable {σ σ' : Db D S} {stream : String} {xs : List A}

theorem empty (stream : String) : Logged of (∅ : Db D S) stream [] where
  history := ⟨fun _ => none, .empty stream, by simp [Carries]⟩
  numbered := .empty stream

theorem next (h : Logged of σ stream xs) : nextVersion σ stream = xs.length := by
  obtain ⟨hist, hr, -⟩ := h.history
  exact hr.next

theorem covered_le (h : Logged of σ stream xs) : covered σ stream ≤ xs.length := by
  obtain ⟨hist, hr, -⟩ := h.history
  exact hr.covered_le

/-- A state with the same keys of the stream and no lower counter. -/
theorem congr (h : Logged of σ stream xs) (hσ : ∀ k, OfStream stream k → σ'.get k = σ.get k)
    (hseq : seqOf σ ≤ seqOf σ') : Logged of σ' stream xs where
  history := by
    obtain ⟨hist, hr, hc⟩ := h.history
    exact ⟨hist, hr.congr hσ, hc⟩
  numbered := h.numbered.congr (fun m => hσ _ rfl) hseq

/-! ## Reads -/

theorem readsAs_between {hist : Nat → Option (Event D)} (hr : Retains σ stream hist xs.length)
    (hc : Carries of hist xs) : ∀ (k lo : Nat), xs.length - lo = k →
    ReadsAs of lo (between hist lo xs.length) (xs.drop lo)
  | 0, lo, hk => by
      rw [between, hk, List.drop_eq_nil_of_le (by omega)]
      trivial
  | k + 1, lo, hk => by
      have hlt : lo < xs.length := by omega
      obtain ⟨e, he, hof⟩ := hc lo _ (List.getElem?_eq_getElem hlt)
      have hver : e.version = lo := by
        obtain ⟨e', he', hver⟩ := hr.full lo hlt
        rw [he] at he'
        cases he'
        exact hver
      have hone : between hist lo (lo + 1) = [e] := by
        rw [between, show lo + 1 - lo = 1 by omega]
        simp [he]
      rw [← between_append hist (Nat.le_add_right lo 1) hlt, hone, List.drop_eq_getElem_cons hlt]
      exact ⟨hver, hof, readsAs_between hr hc k (lo + 1) (by omega)⟩

/-- The history from the latest snapshot on carries the values past it. -/
theorem read (h : Logged of σ stream xs) :
    ∃ events, readHistory σ stream (.included (covered σ stream)) .unbounded = .ok events ∧
      ReadsAs of (covered σ stream) events (xs.drop (covered σ stream)) ∧
      events.getLast?.map (·.version) =
        if covered σ stream < xs.length then some (xs.length - 1) else none := by
  obtain ⟨hist, hr, hc⟩ := h.history
  refine ⟨between hist (covered σ stream) xs.length, ?_, readsAs_between hr hc _ _ rfl,
    hr.getLast?_between _⟩
  rw [readHistory_of_not_fork hr.fork, hr.eventsOf_eq_between hr.floor hr.present]

/-! ## Appends -/

theorem Carries.extend {hist hist' : Nat → Option (Event D)} {ys : List A}
    {events : List (NewEvent D)} (hc : Carries of hist xs)
    (hold : ∀ v, v < xs.length → hist' v = hist v)
    (hnew : ∀ i e, events[i]? = some e → ∃ ev, hist' (xs.length + i) = some ev ∧
      ev.eventType = e.eventType ∧ ev.data = e.data)
    (hevents : List.Forall₂ (Stands of) events ys) : Carries of hist' (xs ++ ys) := by
  intro v x hx
  by_cases hv : v < xs.length
  · rw [List.getElem?_append_left hv] at hx
    obtain ⟨e, he, hof⟩ := hc v x hx
    exact ⟨e, (hold v hv).trans he, hof⟩
  · rw [List.getElem?_append_right (by omega)] at hx
    obtain ⟨hlt, hx⟩ := List.getElem?_eq_some_iff.mp hx
    have hlt' : v - xs.length < events.length := hevents.length_eq ▸ hlt
    obtain ⟨ev, hev, hty, hdata⟩ := hnew _ _ (List.getElem?_eq_getElem hlt')
    have hstands := hevents.get hlt' hlt
    rw [List.get_eq_getElem, List.get_eq_getElem, hx] at hstands
    rw [Nat.add_sub_cancel' (by omega)] at hev
    exact ⟨ev, hev, hstands ev hty hdata⟩

/-- An append adds the values of its events.  The snapshots stay, and the tail is
what the append returns. -/
theorem append (h : Logged of σ stream xs) {req : AppendReq D} {info : CommitInfo}
    {σ₁ : Db D S} {ys : List A} (happ : Appended req (seqOf σ) σ info σ₁)
    (hs : req.stream = stream) (hfrom : req.fromVersion = none)
    (hevents : List.Forall₂ (Stands of) req.events ys) :
    Logged of (σ₁.put .seq (seqOf σ + req.events.length)) stream (xs ++ ys) ∧
      (∀ m, (σ₁.put .seq (seqOf σ + req.events.length)).get (.snap stream m) =
        σ.get (.snap stream m)) ∧
      tailVersion (σ₁.put .seq (seqOf σ + req.events.length)) stream = some info.lastVersion := by
  obtain ⟨hist, hr, hc⟩ := h.history
  obtain ⟨hist', hr', hold, hnew⟩ := hr.append happ hs hfrom
  have hput : ∀ k, k ≠ .seq →
      (σ₁.put .seq (seqOf σ + req.events.length)).get k = σ₁.get k :=
    fun k hk => Store.get_put_of_ne _ _ hk
  have hsnap : ∀ m, (σ₁.put .seq (seqOf σ + req.events.length)).get (.snap stream m) =
      σ.get (.snap stream m) :=
    fun m => (hput _ (by simp)).trans (happ.frame _ (by simp) (by simp) (by simp))
  refine ⟨⟨⟨hist', ?_, Carries.extend hc hold hnew hevents⟩, h.numbered.congr hsnap ?_⟩, hsnap, ?_⟩
  · rw [List.length_append, ← hevents.length_eq]
    refine hr'.congr fun k hk => hput k ?_
    rintro rfl
    exact hk
  · rw [seqOf, seqOf, Store.get_put_self]
    exact Nat.le_add_right _ _
  · subst hs
    rw [tailVersion_congr (hput _ (by simp)), (happ.nextVersion_eq hfrom).2]

/-! ## Retention -/

/-- Removing events that the latest snapshot covers. -/
theorem purge (h : Logged of σ stream xs) {versions : List Nat}
    (hv : ∀ v ∈ versions, v < covered σ stream) : Logged of (purged σ stream versions) stream xs where
  history := by
    obtain ⟨hist, hr, hc⟩ := h.history
    exact ⟨hist, hr.purge hv, hc⟩
  numbered := by
    refine h.numbered.congr (fun m => get_purged_of_ne versions σ (by simp)) ?_
    rw [seqOf, seqOf, get_purged_of_ne versions σ (by simp)]

/-- Raising the floor within what the latest snapshot covers. -/
theorem trim (h : Logged of σ stream xs) {floor : Nat} (hf : floor ≤ covered σ stream) :
    Logged of (σ.put (.trim stream) floor) stream xs where
  history := by
    obtain ⟨hist, hr, hc⟩ := h.history
    exact ⟨hist, hr.trim hf, hc⟩
  numbered := by
    refine h.numbered.congr (fun m => Store.get_put_of_ne _ _ (by simp)) ?_
    rw [seqOf, seqOf, Store.get_put_of_ne _ _ (by simp)]

/-! ## Snapshots -/

/-- Publishing a snapshot of the whole log. -/
theorem publish (h : Logged of σ stream xs) {record : CompactionRecord} (state : S)
    (ulid : String) (hthrough : record.throughVersion + 1 = xs.length) :
    Logged of (published σ stream record state ulid) stream xs where
  history := by
    obtain ⟨hist, hr, hc⟩ := h.history
    exact ⟨hist, hr.publish h.numbered state ulid hthrough, hc⟩
  numbered := h.numbered.publish stream record state ulid

end Logged

end

end Landslide
