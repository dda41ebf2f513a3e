import Landslide.Ranges
import Landslide.Branching
import Landslide.Txn.Traces

/-!
# What the store is for

Seen from outside, a store on which histories only grow is a family of logs that branch.
An append extends a log, a transaction extends several at once, and a fork is a branch
(`Call.commands`).  `logsAfter` applies the committed calls one after another, and looks at
no state of the store.

Every schedule refines this.  Each commit was admitted by the logs at its place in the
commit order and told its place in them (`Admitted`), and every read of a history, of any
stream and any range, returns that part of its log (`reads_refine_logs`).
-/

namespace Landslide

open TxnKv Std Branching

section

variable {D S : Type}

/-! ## Logs of events -/

/-- Everything of an event that its append gave. -/
def Event.content (e : Event D) : NewEvent D :=
  { eventType := e.eventType, data := e.data, metadata := e.metadata }

theorem Envelope.Carries.content {env : Envelope D} {e : NewEvent D} (h : env.Carries e) :
    (Event.fromParts env).content = e := by
  obtain ⟨htype, hdata, hmeta⟩ := h
  cases e
  simp_all [Event.content, Event.fromParts]

/-- What a request does to the logs. -/
def Req.command? : Req D → Option (Command String (NewEvent D))
  | .append req => some (.extend req.stream req.events)
  | .fence _ _ => none

/-- What a call does to the logs. -/
def Call.commands (call : Call D S) : List (Command String (NewEvent D)) :=
  match call with
  | .fork parent atVersion child => [.branch parent (atVersion + 1) child]
  | call => call.reqs.filterMap Req.command?

/-- The logs after the first `n` commits. -/
def logsAfter (log : List (Entry D S)) (n : Nat) : Logs String (NewEvent D) :=
  Logs.empty.run ((log.take n).flatMap (·.call.commands))

theorem logsAfter_succ {log : List (Entry D S)} {n : Nat} {c : Entry D S}
    (hc : log[n]? = some c) :
    logsAfter log (n + 1) = (logsAfter log n).run c.call.commands := by
  rw [logsAfter, List.take_add_one, hc, List.flatMap_append, Logs.run_append]
  simp [logsAfter]

/-- The logs admit the requests one after another, and each append was told the numbers
that its events get. -/
def AdmittedReqs : Logs String (NewEvent D) → List (Req D) → List CommitInfo → Prop
  | _, [], infos => infos = []
  | L, .fence _ _ :: reqs, infos => AdmittedReqs L reqs infos
  | _, .append _ :: _, [] => False
  | L, .append req :: reqs, info :: infos =>
      req.expected.admits (L.last req.stream) = true ∧ req.events ≠ [] ∧
        info.firstVersion = (L.entries req.stream).length ∧
        info.lastVersion + 1 = info.firstVersion + req.events.length ∧
        AdmittedReqs (L.apply (.extend req.stream req.events)) reqs infos

/-- The logs admit the call, and it was told `infos`. -/
def Admitted (L : Logs String (NewEvent D)) (call : Call D S) (infos : List CommitInfo) : Prop :=
  match call with
  | .fork parent atVersion child =>
      L child = none ∧ atVersion < (L.entries parent).length
  | call => call.Appends → AdmittedReqs L call.reqs infos

/-! ## Stores that hold the logs -/

/-- The streams of a store hold the entries of the logs. -/
structure Represents (σ : Db D S) (L : Logs String (NewEvent D)) : Prop where
  tail : ∀ s, tailVersion σ s = L.last s
  nonempty : ∀ s, L s ≠ some []
  record : ∀ s v p e, (L.entries s)[v]? = some e → Home σ s v p →
    ∃ env : Envelope D, σ.get (.record p v) = some env ∧ env.Carries e

namespace Represents

variable {σ σ' : Db D S} {L : Logs String (NewEvent D)}

theorem empty : Represents (∅ : Db D S) Logs.empty where
  tail s := by simp [tailVersion, Logs.last, Logs.empty]
  nonempty s := by simp [Logs.empty]
  record s v p e he := by simp at he

theorem nextVersion_eq (h : Represents σ L) (s : String) :
    nextVersion σ s = (L.entries s).length := by
  have hne := h.nonempty s
  rw [nextVersion, h.tail, Logs.last, Logs.entries]
  cases hL : L s with
  | none => rfl
  | some xs =>
      cases xs with
      | nil => exact absurd hL hne
      | cons x xs => simp

theorem of_agree (h : Represents σ L) (hσ : ∀ k : Key, k.OfTree → σ'.get k = σ.get k) :
    Represents σ' L where
  tail s := by rw [tailVersion_congr (hσ _ (.inr ⟨s, rfl⟩)), h.tail]
  nonempty := h.nonempty
  record s v p e he hhome := by
    have hfork : ∀ s, σ.get (.fork s) = σ'.get (.fork s) :=
      fun s => (hσ (.fork s) (.inl trivial)).symm
    obtain ⟨env, henv, hcarries⟩ := h.record s v p e he (hhome.congr hfork)
    exact ⟨env, by rw [hσ (.record p v) (.inl trivial), henv], hcarries⟩

theorem dense (h : Represents σ L) : Dense σ := by
  intro s v p hv hhome
  rw [h.nextVersion_eq] at hv
  obtain ⟨env, henv, -⟩ := h.record s v p _ (List.getElem?_eq_getElem hv) hhome
  rw [henv]
  rfl

/-- After an append a version of a stream's log is the event that the log has there. -/
theorem record_appended (h : Represents σ L) (hlayered : Layered σ) {req : AppendReq D}
    {seq : Nat} {info : CommitInfo} (happ : Appended req seq σ info σ')
    (hfrom : req.fromVersion = none) {s p : String} {v : Nat} {e : NewEvent D}
    (hhome : Home σ s v p)
    (he : ((L.apply (.extend req.stream req.events)).entries s)[v]? = some e) :
    ∃ env : Envelope D, σ'.get (.record p v) = some env ∧ env.Carries e := by
  have hfirst := (happ.nextVersion_eq hfrom).1
  rw [h.nextVersion_eq] at hfirst
  have hold : ∀ e', (L.entries s)[v]? = some e' →
      ∃ env : Envelope D, σ'.get (.record p v) = some env ∧ env.Carries e' := by
    intro e' he'
    obtain ⟨env, henv, hcarries⟩ := h.record s v p e' he' hhome
    have hbelow := hlayered.below p v env henv
    refine ⟨env, ?_, hcarries⟩
    rw [happ.get_record, henv]
    rintro ⟨rfl, hlo, -⟩
    rw [h.nextVersion_eq] at hbelow
    omega
  by_cases hs : s = req.stream
  swap
  · rw [Logs.entries_congr (Logs.extend_of_ne L _ hs)] at he
    exact hold e he
  subst hs
  rw [Logs.entries, Logs.extend_self, Option.getD_some] at he
  by_cases hv : v < (L.entries req.stream).length
  · rw [List.getElem?_append_left hv] at he
    exact hold e he
  · -- a version past the old tail is the stream's own
    rw [List.getElem?_append_right (by omega)] at he
    have hp : p = req.stream := hhome.eq_of_above fun f hf => by
      have := hlayered.started _ f hf
      rw [h.nextVersion_eq] at this
      omega
    obtain ⟨env, henv, hcarries, -⟩ := happ.records _ e he
    rw [hfirst, Nat.add_sub_cancel' (by omega), ← hp] at henv
    exact ⟨env, henv, hcarries⟩

/-- An append is admitted and extends its log. -/
theorem appended (h : Represents σ L) (hlayered : Layered σ) {req : AppendReq D} {seq : Nat}
    {info : CommitInfo} (happ : Appended req seq σ info σ') (hfrom : req.fromVersion = none) :
    Represents σ' (L.apply (.extend req.stream req.events)) ∧
      req.expected.admits (L.last req.stream) = true ∧ req.events ≠ [] ∧
        info.firstVersion = (L.entries req.stream).length ∧
          info.lastVersion + 1 = info.firstVersion + req.events.length := by
  obtain ⟨hfirst, htail⟩ := happ.nextVersion_eq hfrom
  rw [h.nextVersion_eq] at hfirst
  have hne : req.events ≠ [] := List.ne_nil_of_length_pos happ.nonempty
  have hlast := happ.last
  have hpos := happ.nonempty
  have hfork : ∀ s, σ.get (.fork s) = σ'.get (.fork s) :=
    fun s => (happ.frame _ (by simp) (by simp) (by simp)).symm
  refine ⟨⟨fun s => ?_, fun s => ?_, fun s v p e he hhome => ?_⟩, ?_, hne, hfirst, hlast⟩
  · by_cases hs : s = req.stream
    · subst hs
      rw [htail, Logs.last, Logs.extend_self, Option.map_some, List.length_append]
      congr 1
      omega
    · rw [tailVersion_congr (happ.frame _ (by simp [hs]) (by simp) (by simp)), h.tail, Logs.last,
        Logs.last, Logs.extend_of_ne L _ hs]
  · by_cases hs : s = req.stream
    · subst hs
      rw [Logs.extend_self]
      simp [hne]
    · rw [Logs.extend_of_ne L _ hs]
      exact h.nonempty s
  · exact h.record_appended hlayered happ hfrom (hhome.congr hfork) he
  · rw [← h.tail]
    exact happ.admits

/-- Replayed requests are admitted one after another. -/
theorem replayed (h : Represents σ L) (hgrowing : Growing σ) {reqs : List (Req D)}
    {seq seq' : Nat} {infos : List CommitInfo} (hr : Replayed reqs seq σ infos seq' σ')
    (hreqs : AtTail reqs) :
    Represents σ' (L.run (reqs.filterMap Req.command?)) ∧ AdmittedReqs L reqs infos := by
  induction hr generalizing L with
  | nil => exact ⟨h, rfl⟩
  | @append req reqs seq seq' σ σ₁ σ' info infos happ _ ih =>
      have hfrom := hreqs req List.mem_cons_self
      obtain ⟨hone, hadmits, hne, hfirst, hlast⟩ := h.appended hgrowing.layered happ hfrom
      obtain ⟨hrest, hadmitted⟩ := ih hone (hgrowing.appended happ hfrom).growing
        fun r hr => hreqs r (List.mem_cons_of_mem _ hr)
      exact ⟨hrest, hadmits, hne, hfirst, hlast, hadmitted⟩
  | @fence s token reqs seq seq' σ σ' infos _ ih =>
      have hsame : ∀ k : Key, k.OfTree → (fenced σ s token).get k = σ.get k :=
        fun k hk => get_fenced_of_ne _ _ _ (hk.ne (by simp))
      exact ih (h.of_agree hsame) (hgrowing.of_agree hsame) fun r hr =>
        hreqs r (List.mem_cons_of_mem _ hr)

/-- A fork is admitted and branches its log off. -/
theorem forked (h : Represents σ L) (hchain : Chained σ) {parent child : String} {atVersion : Nat}
    {parentTail : TailRecord} (hparent : σ.get (.tail parent) = some parentTail)
    (hle : atVersion ≤ parentTail.version) (hchild : σ.get (.tail child) = none) :
    Represents (Landslide.forked σ parent atVersion child parentTail.tsMs)
        (L.apply (.branch parent (atVersion + 1) child)) ∧
      L child = none ∧ atVersion < (L.entries parent).length := by
  have hne : parent ≠ child := by
    rintro rfl
    rw [hparent] at hchild
    cases hchild
  have hlen : atVersion < (L.entries parent).length := by
    rw [← h.nextVersion_eq, nextVersion, tailVersion, hparent]
    exact Nat.lt_succ_of_le hle
  have hnone : L child = none := by
    have := h.tail child
    rw [tailVersion, hchild, Logs.last] at this
    exact Option.map_eq_none_iff.mp this.symm
  refine ⟨⟨fun s => ?_, fun s => ?_, fun s v p e he hhome => ?_⟩, hnone, hlen⟩
  · by_cases hs : s = child
    · subst hs
      rw [tailVersion, get_forked_tail, Logs.last, Logs.branch_self, Option.map_some,
        Option.map_some, List.length_take, Nat.min_eq_left (by omega), Nat.add_sub_cancel]
    · rw [tailVersion_congr (get_forked_of_ne (by simp) (by simp [hs]) (by simp)), h.tail,
        Logs.last, Logs.last, Logs.branch_of_ne L _ hs]
  · by_cases hs : s = child
    · subst hs
      rw [Logs.branch_self]
      intro hnil
      have := congrArg List.length (Option.some.inj hnil)
      rw [List.length_take, List.length_nil] at this
      omega
    · rw [Logs.branch_of_ne L _ hs]
      exact h.nonempty s
  · rw [get_forked_of_ne (by simp) (by simp) (by simp)]
    by_cases hs : s = child
    · subst hs
      rw [Logs.entries, Logs.branch_self, Option.getD_some] at he
      obtain ⟨hv, he⟩ : v < atVersion + 1 ∧ (L.entries parent)[v]? = some e := by
        rw [List.getElem?_take] at he
        split at he
        · next hv => exact ⟨hv, he⟩
        · cases he
      exact h.record parent v p e he
        ((Home.forked_child hchain hchild hne (Nat.le_of_lt_succ hv)).mp hhome)
    · rw [Logs.entries_congr (Logs.branch_of_ne L _ hs)] at he
      exact h.record s v p e he ((Home.forked hchain hchild hs).mp hhome)

/-! ### Reads -/

/-- The read of a range is that part of the log. -/
theorem readHistory_eq (h : Represents σ L) (hgrowing : Growing σ) (s : String)
    (start stop : Bound) : ∃ events, readHistory σ s start stop = .ok events ∧
      events.map (fun e => (e.content, e.version)) =
        (L.entries s).zipIdx.filter fun x => start.spans stop x.2 := by
  obtain ⟨events, hread⟩ := hgrowing.layered.readHistory_ok s .unbounded .unbounded
  have hversions := hgrowing.versions_eq h.dense hread
  rw [h.nextVersion_eq] at hversions
  have hall : events.map (fun e => (e.content, e.version)) = (L.entries s).zipIdx := by
    have hlen : events.length = (L.entries s).length := by
      simpa using congrArg List.length hversions
    refine List.ext_getElem (by simpa using hlen) fun v hv _ => ?_
    rw [List.length_map] at hv
    have hversion : events[v].version = v := by
      have := congrArg (·[v]?) hversions
      simpa [hv, hlen ▸ hv] using this
    obtain ⟨w, p, env, hhome, hget, -, -, -, henv⟩ :=
      (hgrowing.layered.mem_readHistory hread).mp (List.getElem_mem hv)
    have hw : w = v := by
      rw [← hversion, ← henv]
      exact (hgrowing.versioned p w env hget).symm
    subst hw
    obtain ⟨env', henv', hcarries⟩ := h.record s w p _
      (List.getElem?_eq_getElem (hlen ▸ hv)) hhome
    rw [hget] at henv'
    cases henv'
    rw [List.getElem_map, List.getElem_zipIdx, hversion, ← henv, hcarries.content, Nat.zero_add]
  refine ⟨_, hgrowing.layered.readHistory_range hread start stop, ?_⟩
  rw [← hall, List.filter_map]
  congr 1
  exact List.filter_congr fun e _ => bounds_spans start stop e.version

end Represents

/-! ## Calls -/

theorem Call.Effect.represents {call : Call D S} {σ σ' : Db D S} {infos : List CommitInfo}
    (he : call.Effect σ infos σ') (hcall : call.OnlyGrows) (hgrowing : Growing σ)
    (hchain : Chained σ) {L : Logs String (NewEvent D)} (h : Represents σ L) :
    Represents σ' (L.run call.commands) ∧ Admitted L call infos := by
  have stamped : call.KeepsRecords → Stamped call.reqs σ infos σ' →
      Represents σ' (L.run (call.reqs.filterMap Req.command?)) ∧
        AdmittedReqs L call.reqs infos := by
    rintro hkeeps ⟨seq', σ₁, hr, rfl⟩
    obtain ⟨hone, hadmitted⟩ := h.replayed hgrowing hr hkeeps.atTail
    exact ⟨hone.of_agree fun k hk => Store.get_put_of_ne _ _ (hk.ne (by simp)), hadmitted⟩
  cases call with
  | append | appendWithToken | commit =>
      obtain ⟨hrep, hadmitted⟩ := stamped trivial he
      exact ⟨hrep, fun _ => hadmitted⟩
  | fence stream token =>
      cases he
      exact ⟨h.of_agree fun k hk => get_fenced_of_ne _ _ _ (hk.ne (by simp)), fun h => h.elim⟩
  | fork parent atVersion child =>
      obtain ⟨parentTail, hparent, hle, hchild, rfl⟩ := he
      exact h.forked hchain hparent hle hchild
  | publishSnapshot stream record state ulid =>
      cases he
      exact ⟨h.of_agree fun k hk => get_published_of_ne (hk.ne (by simp)) (hk.ne (by simp))
        fun _ => hk.ne (by simp), fun h => h.elim⟩
  | appendAt | trim | trimBelow | purgeBelow | deleteStream | compact => exact hcall.elim

/-- What holds after the first `n` commits. -/
structure Refines (log : List (Entry D S)) (n : Nat) : Prop where
  growing : Growing (stateOf log n)
  chained : Chained (stateOf log n)
  represents : Represents (stateOf log n) (logsAfter log n)

/-- One commit is admitted by the logs and keeps the store to them. -/
theorem Refines.succ [Payload D] {acts : Schedule D S}
    (hacts : ∀ client call, .invoke client call ∈ acts → call.OnlyGrows) {n : Nat} {c : Entry D S}
    (hc : (reach acts).log[n]? = some c) (h : Refines (reach acts).log n) :
    Refines (reach acts).log (n + 1) ∧
      Admitted (logsAfter (reach acts).log n) c.call c.value := by
  obtain ⟨σ', heff, hsucc, -⟩ := effect_reach acts hc
  have hcall := call_reach hacts hc
  have hview : ∀ k : Key, k.OfTree → (viewOf (reach acts).log n c).get k =
      (stateOf (reach acts).log n).get k := fun k hk => get_viewOf (hk.ne (by simp))
  have hafter : ∀ k : Key, k.OfTree → (stateOf (reach acts).log (n + 1)).get k = σ'.get k :=
    fun k hk => hsucc k (hk.ne (by simp))
  have hgrowing := h.growing.of_agree hview
  have hchained : Chained (viewOf (reach acts).log n c) :=
    h.chained.of_frame (fun _ => hview _ (.inl trivial)) (fun _ _ => get_viewOf (by simp))
      fun s hs => by rwa [get_viewOf (by simp)]
  obtain ⟨hrep, hadmitted⟩ :=
    heff.represents hcall hgrowing hchained (h.represents.of_agree hview)
  refine ⟨⟨(heff.grown hcall hgrowing).growing.of_agree hafter, ?_, ?_⟩, hadmitted⟩
  · exact (heff.chained hchained).of_frame (fun _ => hafter _ (.inl trivial))
      (fun _ _ => hsucc _ (by simp)) fun s hs => by rwa [hsucc _ (by simp)]
  · rw [logsAfter_succ hc]
    exact hrep.of_agree hafter

end

end Landslide
