import Landslide.Calls

/-!
# Streams under concurrent appends

The history of a stream in a log is the list of appends to it in commit order,
each with the interval of versions it was told (`acked`).  In every schedule
the intervals tile the versions from the base of the stream to its tail, each
version holds the event of the batch that was told it, every expectation held
at the commit point, and a failed call committed nothing.

The argument is one log entry at a time.  `Grows` says what a committed
transaction does to one stream, and `Kept` what the log so far says about it.
-/

namespace Landslide

open TxnKv Std

section

variable {D S : Type}

/-! ## Tilings -/

/-- The intervals are consecutive from `lo` up to, not including, `hi`. -/
def Tiles : Nat → List CommitInfo → Nat → Prop
  | lo, [], hi => lo = hi
  | lo, info :: infos, hi => info.firstVersion = lo ∧ info.firstVersion ≤ info.lastVersion ∧
      Tiles (info.lastVersion + 1) infos hi

namespace Tiles

theorem append : ∀ {infos infos' : List CommitInfo} {lo mid hi : Nat}, Tiles lo infos mid →
    Tiles mid infos' hi → Tiles lo (infos ++ infos') hi
  | [], _, _, _, _, h, h' => by
      cases h
      exact h'
  | _ :: _, _, _, _, _, ⟨h₁, h₂, h⟩, h' => ⟨h₁, h₂, h.append h'⟩

theorem le : ∀ {infos : List CommitInfo} {lo hi : Nat}, Tiles lo infos hi → lo ≤ hi
  | [], _, _, h => Nat.le_of_eq h
  | _ :: _, _, _, ⟨h₁, h₂, h⟩ => by
      have := h.le
      omega

/-- Every interval ends below the top. -/
theorem lt_of_mem : ∀ {infos : List CommitInfo} {lo hi : Nat}, Tiles lo infos hi →
    ∀ info ∈ infos, info.lastVersion < hi
  | [], _, _, _, _, hmem => by cases hmem
  | _ :: _, _, _, ⟨_, _, h⟩, info, hmem => by
      rcases List.mem_cons.mp hmem with rfl | hmem
      · exact h.le
      · exact h.lt_of_mem info hmem

/-- A tiling of nothing is empty. -/
theorem eq_nil : ∀ {infos : List CommitInfo} {lo : Nat}, Tiles lo infos lo → infos = []
  | [], _, _ => rfl
  | _ :: _, _, ⟨h₁, h₂, h⟩ => by
      have := h.le
      omega

end Tiles

/-! ## What was told -/

/-- The append of a request. -/
def Req.append? : Req D → Option (AppendReq D)
  | .append req => some req
  | .fence _ _ => none

/-- The appends of a call, in order. -/
def Call.appends (call : Call D S) : List (AppendReq D) := call.reqs.filterMap Req.append?

theorem Call.appends_eq_nil {call : Call D S} (h : ¬ call.Appends) : call.appends = [] := by
  cases call with
  | append | appendWithToken | appendAt | commit => exact absurd trivial h
  | fence | fork | trim | trimBelow | purgeBelow | deleteStream | publishSnapshot | compact => rfl

/-- An append and what it was told. -/
abbrev Ack (D : Type) : Type := AppendReq D × CommitInfo

/-- The appends of a committed transaction with what each was told. -/
def told (c : Entry D S) : List (Ack D) := c.call.appends.zip c.value

/-- Those that are on a stream. -/
def onStream (stream : String) (acks : List (Ack D)) : List (Ack D) :=
  acks.filter fun a => a.1.stream = stream

/-- The history of a stream in a log. -/
def acked (stream : String) (log : List (Entry D S)) : List (Ack D) :=
  onStream stream (log.flatMap told)

/-- The tail of a stream after some appends of the same transaction. -/
def tailAfter (stream : String) : Option Nat → List (Ack D) → Option Nat
  | tail, [] => tail
  | tail, (req, info) :: acks =>
      tailAfter stream (if req.stream = stream then some info.lastVersion else tail) acks

/-- The records of a stream hold the events of the appends at the versions told. -/
def Holds (stream : String) (acks : List (Ack D)) (σ : Db D S) : Prop :=
  ∀ a ∈ acks, a.2.lastVersion + 1 = a.2.firstVersion + a.1.events.length ∧
    ∀ i e, a.1.events[i]? = some e → ∃ env : Envelope D,
      σ.get (.record stream (a.2.firstVersion + i)) = some env ∧ env.Carries e ∧
        env.version = a.2.firstVersion + i

/-! ## One transaction and one stream -/

theorem nextVersion_eq_zero {σ : Db D S} {stream : String} :
    nextVersion σ stream = 0 ↔ tailVersion σ stream = none := by
  unfold nextVersion
  cases tailVersion σ stream <;> simp

theorem tailVersion_congr {σ σ' : Db D S} {stream : String}
    (h : σ'.get (.tail stream) = σ.get (.tail stream)) :
    tailVersion σ' stream = tailVersion σ stream := by
  rw [tailVersion, h, tailVersion]

theorem nextVersion_congr {σ σ' : Db D S} {stream : String}
    (h : σ'.get (.tail stream) = σ.get (.tail stream)) :
    nextVersion σ' stream = nextVersion σ stream := by
  rw [nextVersion, tailVersion_congr h, nextVersion]

theorem forkPoint_congr {σ σ' : Db D S} {stream : String}
    (h : σ'.get (.fork stream) = σ.get (.fork stream)) :
    forkPoint σ' stream = forkPoint σ stream := by
  rw [forkPoint, h, forkPoint]

/-- The appends `acks` grew a stream of `σ` to that of `σ'`, and nothing else
happened to it. -/
structure Grows (stream : String) (acks : List (Ack D)) (σ σ' : Db D S) : Prop where
  tiles : Tiles (nextVersion σ stream) (acks.map (·.2)) (nextVersion σ' stream)
  holds : Holds stream acks σ'
  old : ∀ v, v < nextVersion σ stream → σ'.get (.record stream v) = σ.get (.record stream v)
  fork : σ'.get (.fork stream) = σ.get (.fork stream)

namespace Grows

variable {stream : String} {acks acks' : List (Ack D)} {σ σ₁ σ' : Db D S}

/-- A transaction that leaves the keys of the stream alone. -/
theorem of_frame (htail : σ'.get (.tail stream) = σ.get (.tail stream))
    (hrec : ∀ v, σ'.get (.record stream v) = σ.get (.record stream v))
    (hfork : σ'.get (.fork stream) = σ.get (.fork stream)) : Grows stream [] σ σ' where
  tiles := (nextVersion_congr htail).symm
  holds := by intro a ha; cases ha
  old := fun v _ => hrec v
  fork := hfork

theorem trans (h : Grows stream acks σ σ₁) (h' : Grows stream acks' σ₁ σ') :
    Grows stream (acks ++ acks') σ σ' where
  tiles := by
    rw [List.map_append]
    exact h.tiles.append h'.tiles
  holds := by
    intro a ha
    rcases List.mem_append.mp ha with ha | ha
    · obtain ⟨hlen, hev⟩ := h.holds a ha
      refine ⟨hlen, fun i e he => ?_⟩
      -- the versions told before lie below the tail of the middle state
      have hlast := h.tiles.lt_of_mem a.2 (List.mem_map.mpr ⟨a, ha, rfl⟩)
      have hi := (List.getElem?_eq_some_iff.mp he).1
      rw [h'.old _ (by omega)]
      exact hev i e he
    · exact h'.holds a ha
  old := by
    intro v hv
    rw [h'.old v (Nat.lt_of_lt_of_le hv h.tiles.le), h.old v hv]
  fork := h'.fork.trans h.fork

end Grows

theorem Appended.nextVersion_eq {req : AppendReq D} {seq : Nat} {σ σ' : Db D S}
    {info : CommitInfo} (h : Appended req seq σ info σ') (hfrom : req.fromVersion = none) :
    info.firstVersion = nextVersion σ req.stream ∧
      tailVersion σ' req.stream = some info.lastVersion := by
  have hfirst := h.first
  rw [hfrom, Option.getD_none] at hfirst
  refine ⟨hfirst, ?_⟩
  rw [h.tail]
  have hlast := h.last
  have hpos := h.nonempty
  rw [hfirst, nextVersion] at hlast
  cases ht : tailVersion σ req.stream with
  | none => rfl
  | some v =>
      simp only [ht, Option.elim_some] at hlast ⊢
      rw [Nat.max_eq_right (by omega)]

/-- What an append does to a stream. -/
theorem Appended.grows {req : AppendReq D} {seq : Nat} {σ σ' : Db D S} {info : CommitInfo}
    (h : Appended req seq σ info σ') (hfrom : req.fromVersion = none) (stream : String) :
    Grows stream (onStream stream [(req, info)]) σ σ' := by
  by_cases hs : req.stream = stream
  · subst hs
    obtain ⟨hfirst, htail⟩ := h.nextVersion_eq hfrom
    have hlast := h.last
    have hpos := h.nonempty
    have hon : onStream req.stream [(req, info)] = [(req, info)] := by simp [onStream]
    rw [hon]
    refine ⟨⟨hfirst, by dsimp only; omega, ?_⟩, ?_, ?_, ?_⟩
    · simp [Tiles, nextVersion, htail]
    · intro a ha
      cases List.mem_singleton.mp ha
      refine ⟨hlast, fun i e he => ?_⟩
      obtain ⟨env, h₁, h₂, h₃, -⟩ := h.records i e he
      exact ⟨env, h₁, h₂, h₃⟩
    · intro v hv
      refine h.frame _ (by simp) ?_ (by simp)
      rintro w hw - hk
      cases hk
      omega
    · exact h.frame _ (by simp) (by simp) (by simp)
  · have hon : onStream stream [(req, info)] = [] := by simp [onStream, hs]
    rw [hon]
    have hs' : stream ≠ req.stream := Ne.symm hs
    refine Grows.of_frame (h.frame _ ?_ (by simp) (by simp)) (fun v => h.frame _ (by simp) ?_ ?_)
      (h.frame _ (by simp) (by simp) (by simp))
    · simp [hs']
    · simp [hs']
    · simp

theorem Grows.of_fenced (σ : Db D S) (fencedStream : String) (token : Option String)
    (stream : String) : Grows stream [] σ (fenced σ fencedStream token) :=
  .of_frame (get_fenced_of_ne _ _ _ (by simp)) (fun _ => get_fenced_of_ne _ _ _ (by simp))
    (get_fenced_of_ne _ _ _ (by simp))

/-- The appends of replayed requests with what each was told. -/
def reqAcks (reqs : List (Req D)) (infos : List CommitInfo) : List (Ack D) :=
  (reqs.filterMap Req.append?).zip infos

/-- No request is placed at a version of its own choice. -/
def AtTail (reqs : List (Req D)) : Prop :=
  ∀ req, .append req ∈ reqs → req.fromVersion = none

theorem onStream_append (stream : String) (acks acks' : List (Ack D)) :
    onStream stream (acks ++ acks') = onStream stream acks ++ onStream stream acks' :=
  List.filter_append ..

/-- What replayed requests do to a stream. -/
theorem Replayed.grows {reqs : List (Req D)} {seq seq' : Nat} {σ σ' : Db D S}
    {infos : List CommitInfo} (h : Replayed reqs seq σ infos seq' σ') (hreqs : AtTail reqs)
    (stream : String) : Grows stream (onStream stream (reqAcks reqs infos)) σ σ' := by
  induction h with
  | nil => exact .of_frame rfl (fun _ => rfl) rfl
  | @append req reqs seq seq' σ σ₁ σ' info infos happ _ ih =>
      have h₁ := happ.grows (hreqs req List.mem_cons_self) stream
      have h₂ := ih fun r hr => hreqs r (List.mem_cons_of_mem _ hr)
      have hacks : reqAcks (.append req :: reqs) (info :: infos) =
          [(req, info)] ++ reqAcks reqs infos := rfl
      rw [hacks, onStream_append]
      exact h₁.trans h₂
  | @fence fencedStream token reqs seq seq' σ σ' infos _ ih =>
      have h₂ := ih fun r hr => hreqs r (List.mem_cons_of_mem _ hr)
      exact (Grows.of_fenced σ fencedStream token stream).trans h₂

theorem Replayed.length_eq {reqs : List (Req D)} {seq seq' : Nat} {σ σ' : Db D S}
    {infos : List CommitInfo} (h : Replayed reqs seq σ infos seq' σ') :
    infos.length = (reqs.filterMap Req.append?).length := by
  induction h with
  | nil => rfl
  | append _ _ ih => simp [Req.append?, ih]
  | fence _ ih => exact ih

theorem Appended.tailVersion_eq {req : AppendReq D} {seq : Nat} {σ σ' : Db D S}
    {info : CommitInfo} (h : Appended req seq σ info σ') (hfrom : req.fromVersion = none)
    (stream : String) :
    tailVersion σ' stream =
      if req.stream = stream then some info.lastVersion else tailVersion σ stream := by
  split
  · next hs =>
    subst hs
    exact (h.nextVersion_eq hfrom).2
  · next hs => exact tailVersion_congr (h.frame _ (by simp [Ne.symm hs]) (by simp) (by simp))

/-- The expectation of every replayed append held of the tail it found. -/
theorem Replayed.admits {reqs : List (Req D)} {seq seq' : Nat} {σ σ' : Db D S}
    {infos : List CommitInfo} (h : Replayed reqs seq σ infos seq' σ') (hreqs : AtTail reqs) :
    ∀ {j : Nat} {req : AppendReq D} {info : CommitInfo},
      (reqAcks reqs infos)[j]? = some (req, info) →
        req.expected.admits (tailAfter req.stream (tailVersion σ req.stream)
          ((reqAcks reqs infos).take j)) = true := by
  induction h with
  | nil => intro j req info hj; simp [reqAcks] at hj
  | @append req₀ reqs seq seq' σ σ₁ σ' info₀ infos happ _ ih =>
      intro j req info hj
      have hacks : reqAcks (.append req₀ :: reqs) (info₀ :: infos) =
          (req₀, info₀) :: reqAcks reqs infos := rfl
      rw [hacks] at hj ⊢
      cases j with
      | zero =>
          cases hj
          exact happ.admits
      | succ j =>
          have := ih (fun r hr => hreqs r (List.mem_cons_of_mem _ hr)) (j := j) (by simpa using hj)
          rw [happ.tailVersion_eq (hreqs req₀ List.mem_cons_self)] at this
          exact this
  | @fence fencedStream token reqs seq seq' σ σ' infos _ ih =>
      intro j req info hj
      have := ih (fun r hr => hreqs r (List.mem_cons_of_mem _ hr)) hj
      rw [tailVersion_congr (get_fenced_of_ne σ fencedStream token (by simp))] at this
      exact this

/-! ## One log entry -/

/-- The calls that neither place an append below the tail nor delete records. -/
def Call.KeepsRecords : Call D S → Prop
  | .appendAt .. => False
  | .purgeBelow .. => False
  | _ => True

theorem Call.KeepsRecords.atTail {call : Call D S} (h : call.KeepsRecords) :
    AtTail call.reqs := by
  intro req hreq
  cases call with
  | append | appendWithToken => cases List.mem_singleton.mp hreq; rfl
  | commit ops stamps =>
      obtain ⟨op, -, hop⟩ := List.mem_map.mp hreq
      cases op with
      | append => cases hop; rfl
      | fence => cases hop
  | fence => cases List.mem_singleton.mp hreq
  | appendAt => exact h.elim
  | fork | trim | trimBelow | purgeBelow | deleteStream | publishSnapshot | compact => cases hreq

theorem Grows.of_published (σ : Db D S) (s : String) (record : CompactionRecord) (state : S)
    (ulid : String) (stream : String) :
    Grows stream [] σ (published σ s record state ulid) :=
  .of_frame (get_published_of_ne (by simp) (by simp) (by simp))
    (fun _ => get_published_of_ne (by simp) (by simp) (by simp))
    (get_published_of_ne (by simp) (by simp) (by simp))

theorem Grows.of_put (σ : Db D S) {k : Key} (v : Val D S k) (stream : String)
    (htail : .tail stream ≠ k) (hrec : ∀ w, .record stream w ≠ k) (hfork : .fork stream ≠ k) :
    Grows stream [] σ (σ.put k v) :=
  .of_frame (Store.get_put_of_ne _ _ htail) (fun w => Store.get_put_of_ne _ _ (hrec w))
    (Store.get_put_of_ne _ _ hfork)

/-- A call other than a fork that creates the stream. -/
def Call.Creates (stream : String) : Call D S → Prop
  | .fork _ _ child => child = stream
  | _ => False

/-- What a committed transaction does to a stream it does not create. -/
theorem Call.Effect.grows {call : Call D S} {σ σ' : Db D S} {infos : List CommitInfo}
    (h : call.Effect σ infos σ') (hcall : call.KeepsRecords) {stream : String}
    (hnew : ¬ call.Creates stream) :
    Grows stream (onStream stream (call.appends.zip infos)) σ σ' := by
  have stamped : Stamped call.reqs σ infos σ' →
      Grows stream (onStream stream (call.appends.zip infos)) σ σ' := by
    rintro ⟨seq', σ₁, hr, rfl⟩
    have h₁ := hr.grows hcall.atTail stream
    have h₂ := h₁.trans (Grows.of_put σ₁ (k := .seq) seq' stream (by simp) (by simp) (by simp))
    rw [List.append_nil] at h₂
    exact h₂
  cases call with
  | append | appendWithToken | commit => exact stamped h
  | appendAt | purgeBelow => exact hcall.elim
  | fence fencedStream token => cases h; exact .of_fenced σ fencedStream token stream
  | fork parent atVersion child =>
      obtain ⟨parentTail, -, -, -, rfl⟩ := h
      have hne : stream ≠ child := Ne.symm hnew
      exact .of_frame (get_forked_of_ne (by simp) (by simp [hne]) (by simp))
        (fun v => get_forked_of_ne (by simp) (by simp) (by simp))
        (get_forked_of_ne (by simp [hne]) (by simp) (by simp))
  | trim trimmed fromVersion txn =>
      cases h; exact .of_put σ (k := .rollback trimmed fromVersion) _ stream (by simp) (by simp) (by simp)
  | trimBelow trimmed floor =>
      cases h; exact .of_put σ (k := .trim trimmed) _ stream (by simp) (by simp) (by simp)
  | deleteStream deleted =>
      obtain ⟨-, rfl⟩ := h
      exact .of_put σ (k := .deleted deleted) _ stream (by simp) (by simp) (by simp)
  | publishSnapshot s record state ulid => cases h; exact .of_published σ s record state ulid stream
  | compact depth s jobId build nowMs ulid =>
      obtain ⟨record, state, rfl⟩ := h
      exact .of_published σ s record state ulid stream

/-! ## The whole log -/

/-- The first version of a stream: 0, or right after its fork point. -/
def base (σ : Db D S) (stream : String) : Nat := (forkPoint σ stream).elim 0 (· + 1)

/-- The appends `acks` are the whole history of a stream. -/
structure Kept (stream : String) (acks : List (Ack D)) (σ : Db D S) : Prop where
  tiles : Tiles (base σ stream) (acks.map (·.2)) (nextVersion σ stream)
  holds : Holds stream acks σ

namespace Kept

variable {stream : String} {acks acks' : List (Ack D)} {σ σ' : Db D S}

theorem empty : Kept stream [] (∅ : Db D S) where
  tiles := by simp [Tiles, base, forkPoint, nextVersion, tailVersion]
  holds := by intro a ha; cases ha

theorem congr (h : Kept stream acks σ) (hσ : ∀ k, k ≠ .seq → σ'.get k = σ.get k) :
    Kept stream acks σ' where
  tiles := by
    rw [base, forkPoint_congr (hσ _ (by simp)), nextVersion_congr (hσ _ (by simp))]
    exact h.tiles
  holds := by
    intro a ha
    obtain ⟨hlen, hev⟩ := h.holds a ha
    refine ⟨hlen, fun i e he => ?_⟩
    rw [hσ _ (by simp)]
    exact hev i e he

theorem grow (h : Kept stream acks σ) (hg : Grows stream acks' σ σ') :
    Kept stream (acks ++ acks') σ' where
  tiles := by
    rw [base, forkPoint_congr hg.fork, List.map_append]
    exact h.tiles.append hg.tiles
  holds := by
    intro a ha
    rcases List.mem_append.mp ha with ha | ha
    · obtain ⟨hlen, hev⟩ := h.holds a ha
      refine ⟨hlen, fun i e he => ?_⟩
      have hlast := h.tiles.lt_of_mem a.2 (List.mem_map.mpr ⟨a, ha, rfl⟩)
      have hi := (List.getElem?_eq_some_iff.mp he).1
      rw [hg.old _ (by omega)]
      exact hev i e he
    · exact hg.holds a ha

/-- A stream without a tail has no history, and its fork begins one. -/
theorem forked (h : Kept stream acks σ) (htail : σ.get (.tail stream) = none) (parent : String)
    (atVersion : Nat) (tsMs : Int) :
    Kept stream acks (Landslide.forked σ parent atVersion stream tsMs) := by
  have hzero : nextVersion σ stream = 0 := by simp [nextVersion, tailVersion, htail]
  have hnil : acks = [] := by
    have ht := h.tiles
    rw [hzero] at ht
    have hbase : base σ stream = 0 := Nat.le_zero.mp ht.le
    rw [hbase] at ht
    exact List.map_eq_nil_iff.mp ht.eq_nil
  subst hnil
  refine ⟨?_, by intro a ha; cases ha⟩
  have hfork : forkPoint (Landslide.forked σ parent atVersion stream tsMs) stream =
      some atVersion := by
    rw [forkPoint, Landslide.forked, Store.get_put_of_ne _ _ (by simp),
      Store.get_put_of_ne _ _ (by simp), Store.get_put_self]
    rfl
  have hnext : tailVersion (Landslide.forked σ parent atVersion stream tsMs) stream =
      some atVersion := by
    rw [tailVersion, Landslide.forked, Store.get_put_of_ne _ _ (by simp), Store.get_put_self]
    rfl
  simp [Tiles, base, nextVersion, hfork, hnext]

end Kept

/-- One log entry extends the history of every stream. -/
theorem Kept.effect {call : Call D S} {σ σ' : Db D S} {infos : List CommitInfo}
    {stream : String} {acks : List (Ack D)} (hk : Kept stream acks σ)
    (h : call.Effect σ infos σ') (hcall : call.KeepsRecords) :
    Kept stream (acks ++ onStream stream (call.appends.zip infos)) σ' := by
  by_cases hnew : call.Creates stream
  · cases call with
    | fork parent atVersion child =>
        obtain rfl : child = stream := hnew
        obtain ⟨parentTail, -, -, htail, rfl⟩ := h
        have hnone : onStream child ((Call.fork parent atVersion child : Call D S).appends.zip
            infos) = [] := rfl
        rw [hnone, List.append_nil]
        exact hk.forked htail parent atVersion _
    | append | appendWithToken | appendAt | commit | fence | trim | trimBelow | purgeBelow |
      deleteStream | publishSnapshot | compact => exact hnew.elim
  · exact hk.grow (h.grows hcall hnew)

/-- The history of a stream in a longer prefix of the log. -/
theorem acked_take_succ {log : List (Entry D S)} {n : Nat} {c : Entry D S}
    (hc : log[n]? = some c) (stream : String) :
    acked stream (log.take (n + 1)) = acked stream (log.take n) ++ onStream stream (told c) := by
  simp [acked, onStream, List.take_add_one, hc]

/-- After every prefix of the log, the appends in it are the whole history. -/
theorem kept_reach [Payload D] {acts : Schedule D S}
    (hacts : ∀ client call, .invoke client call ∈ acts → call.KeepsRecords) (stream : String) :
    ∀ n, n ≤ (reach acts).log.length →
      Kept stream (acked stream ((reach acts).log.take n)) (stateOf (reach acts).log n) := by
  intro n
  induction n with
  | zero => exact fun _ => .empty
  | succ n ih =>
      intro hn
      obtain ⟨c, hc⟩ : ∃ c, (reach acts).log[n]? = some c := ⟨_, List.getElem?_eq_getElem hn⟩
      obtain ⟨σ', heff, hsucc, -⟩ := effect_reach acts hc
      have hcall : c.call.KeepsRecords := call_reach hacts hc
      have hview : Kept stream (acked stream ((reach acts).log.take n))
          (viewOf (reach acts).log n c) :=
        (ih (Nat.le_of_succ_le hn)).congr fun k hk => get_viewOf hk
      have hafter := hview.effect heff hcall
      rw [acked_take_succ hc]
      exact hafter.congr hsucc

/-- The effect of an appending call is that of its requests. -/
theorem Call.Appends.stamped {call : Call D S} (h : call.Appends) {σ σ' : Db D S}
    {infos : List CommitInfo} (he : call.Effect σ infos σ') : Stamped call.reqs σ infos σ' := by
  cases call with
  | append | appendWithToken | appendAt | commit => exact he
  | fence | fork | trim | trimBelow | purgeBelow | deleteStream | publishSnapshot | compact =>
      exact h.elim

/-- The commit order explains everything the appending clients saw. -/
structure Explains (w : World D S) : Prop where
  /-- The store is the log, replayed. -/
  store : w.store = stateOf w.log w.log.length
  /-- After every prefix of the log, the intervals told on a stream tile its
  versions, and the records hold the events of the batches told them. -/
  kept : ∀ n stream, n ≤ w.log.length →
    Kept stream (acked stream (w.log.take n)) (stateOf w.log n)
  /-- Every append of a committed call was told one interval. -/
  lengths : ∀ c ∈ w.log, c.call.Appends → c.value.length = c.call.appends.length
  /-- Every expectation held of the tail at the commit point, the earlier
  appends of the same transaction included. -/
  expected : ∀ n c, w.log[n]? = some c → c.call.Appends → ∀ j (req : AppendReq D) info,
    (told c)[j]? = some (req, info) →
      req.expected.admits (tailAfter req.stream (tailVersion (stateOf w.log n) req.stream)
        ((told c).take j)) = true
  /-- A call that succeeded returned what one log entry was told. -/
  succeeded : ∀ r ∈ w.returned, r.call.Appends → ∀ reply, r.result = .ok reply →
    ∃ c ∈ w.log, c.id = r.id ∧ c.call = r.call ∧ reply = .infos c.value
  /-- A call that failed has no log entry. -/
  failed : ∀ r ∈ w.returned, r.call.Appends → ∀ e, r.result = .error e →
    ∀ c ∈ w.log, c.id ≠ r.id
  /-- A log entry of an appending call is the only one of its invocation, and its
  client was told so. -/
  committed : ∀ c ∈ w.log, c.call.Appends →
    ⟨c.id, c.call, .ok (.infos c.value)⟩ ∈ w.returned
  once : w.log.Pairwise fun c d => d.call.Appends → c.id ≠ d.id

/-- Any number of clients, appending to any streams in any interleaving, see one
order of commits in which every stream grows without gaps or overlaps. -/
theorem appends_tile_streams [Payload D] (acts : Schedule D S)
    (hacts : ∀ client call, .invoke client call ∈ acts → call.KeepsRecords) :
    Explains (reach acts) := by
  have hrep := replies_reach acts
  -- an entry of an appending call replays its requests on the state it was committed on
  have stamped : ∀ n c, (reach acts).log[n]? = some c → c.call.Appends →
      ∃ σ', Stamped c.call.reqs (viewOf (reach acts).log n c) c.value σ' := by
    intro n c hc happ
    obtain ⟨σ', heff, -, -⟩ := effect_reach acts hc
    exact ⟨σ', happ.stamped heff⟩
  refine ⟨store_reach acts, fun n stream => kept_reach hacts stream n, ?_, ?_, ?_, ?_, ?_,
    hrep.once⟩
  · intro c hmem happ
    obtain ⟨n, hc⟩ := List.mem_iff_getElem?.mp hmem
    obtain ⟨σ', seq', σ₁, hr, -⟩ := stamped n c hc happ
    exact hr.length_eq
  · intro n c hc happ j req info hj
    obtain ⟨σ', seq', σ₁, hr, -⟩ := stamped n c hc happ
    have hcall : c.call.KeepsRecords := call_reach hacts hc
    have hadm := hr.admits hcall.atTail hj
    have htail : tailVersion (viewOf (reach acts).log n c) req.stream =
        tailVersion (stateOf (reach acts).log n) req.stream :=
      tailVersion_congr (get_viewOf (by simp))
    rw [htail] at hadm
    exact hadm
  · intro r hr happ reply hok
    rcases hrep.returned r hr happ with ⟨⟨e, he⟩, -⟩ | ⟨c, hc, hid, hcall, hres⟩
    · rw [hok] at he
      cases he
    · rw [hok] at hres
      cases hres
      exact ⟨c, hc, hid, hcall, rfl⟩
  · intro r hr happ e herr
    rcases hrep.returned r hr happ with ⟨-, hno⟩ | ⟨c, -, -, -, hres⟩
    · exact hno
    · rw [herr] at hres
      cases hres
  · exact fun c hc happ => hrep.committed c hc happ

/-- Two clients append to one stream.  The first has read the tail when the
second commits, so it retries against the new tail. -/
def race : Schedule Bytes Unit :=
  let stamps : Nat → Nat → Stamp := fun _ _ => { ulid := "u", nowMs := 5 }
  [.invoke 0 (.append "a" .any [{ eventType := "x", data := [1] }] stamps),
    .invoke 1 (.append "a" .noStream [{ eventType := "y", data := [2] }] stamps)] ++
  List.replicate 3 (.step 0) ++ List.replicate 9 (.step 1) ++ List.replicate 20 (.step 0)

theorem appends_tile_streams_race :
    (reach race).log.map (·.id) = [1, 0] ∧ Explains (reach race) := by
  refine ⟨by decide, appends_tile_streams race fun client call h => ?_⟩
  simp only [race, List.append_assoc, List.mem_append, List.mem_cons, List.mem_replicate,
    List.not_mem_nil, Action.invoke.injEq, reduceCtorEq, and_false, or_false] at h
  rcases h with ⟨-, rfl⟩ | ⟨-, rfl⟩
  · trivial
  · trivial

end

end Landslide
