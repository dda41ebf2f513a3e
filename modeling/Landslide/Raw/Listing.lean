import Landslide.Raw.Isolation

/-!
# Listing streams

`list_streams` scans the keys under `m/` and takes what stands before `/tail` at the end
of a key for a stream, unless the same stands before `/deleted`.  So it lists exactly
the `x` with a key `m/{x}/tail` and no key `m/{x}/deleted` (`mem_listStreams`).

With ids that have no slash, every key under `m/` is that of one stream, and all
but the pins end in a field of their own.  A pin ends in the id of a child, so the pin of
a child `tail` of `s` makes `s/forks` look like a stream, and that of a child `deleted`
takes it away again.  The listing is right exactly when no stream has a child `tail`
without one `deleted` (`listStreams_iff`).
-/

namespace Landslide

open TxnKv

section

variable {D S : Type}

/-! ## Keys of ids without slashes -/

/-- An id without a slash. -/
def SlashFree (id : String) : Prop := '/' ∉ id.toList

instance (id : String) : Decidable (SlashFree id) := inferInstanceAs (Decidable (¬ _))

/-- The ids of a record or of a key under `m/` have no slash. -/
def Key.SlashFree : Key → Prop
  | .record stream _ => Landslide.SlashFree stream
  | .tail stream => Landslide.SlashFree stream
  | .fence stream => Landslide.SlashFree stream
  | .trim stream => Landslide.SlashFree stream
  | .deleted stream => Landslide.SlashFree stream
  | .fork stream => Landslide.SlashFree stream
  | .forks stream child => Landslide.SlashFree stream ∧ Landslide.SlashFree child
  | .rollback stream _ => Landslide.SlashFree stream
  | _ => True

/-- The ids of a call have no slash. -/
def Call.SlashFree : Call D S → Prop
  | .append stream _ _ _ => Landslide.SlashFree stream
  | .appendWithToken stream _ _ _ _ _ => Landslide.SlashFree stream
  | .appendAt stream _ _ _ _ => Landslide.SlashFree stream
  | .commit ops _ => ∀ op ∈ ops, Landslide.SlashFree op.stream
  | .fence stream _ => Landslide.SlashFree stream
  | .fork parent _ child => Landslide.SlashFree parent ∧ Landslide.SlashFree child
  | .trim stream _ _ => Landslide.SlashFree stream
  | .trimBelow stream _ => Landslide.SlashFree stream
  | .purgeBelow stream _ => Landslide.SlashFree stream
  | .deleteStream stream => Landslide.SlashFree stream
  | _ => True

theorem AppendKey.slashFree {stream : String} (hs : Landslide.SlashFree stream) {k : Key}
    (h : AppendKey stream k) : k.SlashFree := by
  rcases h with rfl | ⟨v, rfl⟩ | ⟨ts, v, rfl⟩
  · exact hs
  · exact hs
  · trivial

theorem replayOps_slashFree (stamps : Nat → Nat → Stamp) :
    ∀ (j seq : Nat) (ops : List (Op D)), (∀ op ∈ ops, Landslide.SlashFree op.stream) →
    (replayOps stamps j seq ops : TxnM D S (List CommitInfo × Nat)).Within Key.SlashFree
      (fun _ => True) fun _ => True
  | _, _, [], _ => trivial
  | j, seq, .append stream expected events :: ops, hops => by
      have hs : Landslide.SlashFree stream := hops _ List.mem_cons_self
      have hrest := fun op hop => hops op (List.mem_cons_of_mem _ hop)
      refine Prog.Within.bind ?_ fun r => Prog.Within.bind
        (replayOps_slashFree stamps _ _ ops hrest) fun _ => trivial
      exact (replayAppend_within seq { stream, expected, events } true (stamps j)).mono
        (fun _ => AppendKey.slashFree hs) (fun _ _ => trivial) fun _ _ => trivial
  | j, seq, .fence stream token :: ops, hops => by
      have hs : Landslide.SlashFree stream := hops _ List.mem_cons_self
      have hrest := fun op hop => hops op (List.mem_cons_of_mem _ hop)
      refine Prog.Within.bind ?_ fun _ => replayOps_slashFree stamps _ _ ops hrest
      exact (replayFence_within stream token).mono (by rintro k rfl; exact hs)
        (fun _ _ => trivial) fun _ _ => trivial

/-- The transactions of a call with such ids write keys with such ids. -/
theorem Call.Body.slashFree {call : Call D S} {body : TxnM D S (List CommitInfo)}
    (h : call.Body body) (hcall : call.SlashFree) :
    body.Within Key.SlashFree (fun _ => True) fun _ => True := by
  have happend : ∀ {req : AppendReq D}, req.Body body → Landslide.SlashFree req.stream →
      body.Within Key.SlashFree (fun _ => True) fun _ => True := by
    rintro req ⟨indexTs, stamps, rfl⟩ hs
    refine Prog.Within.bind (fun _ => trivial) fun seq =>
      Prog.Within.bind ?_ fun r => ⟨trivial, trivial, trivial⟩
    exact (replayAppend_within _ req indexTs stamps).mono (fun _ => AppendKey.slashFree hs)
      (fun _ _ => trivial) fun _ _ => trivial
  cases call with
  | append | appendWithToken | appendAt => exact happend h hcall
  | commit ops stamps =>
      cases h
      exact Prog.Within.bind (fun _ => trivial) fun seq =>
        Prog.Within.bind (replayOps_slashFree stamps _ _ ops hcall) fun r =>
          ⟨trivial, trivial, trivial⟩
  | fence stream token =>
      cases h
      refine Prog.Within.bind (fun _ => trivial) fun _ => Prog.Within.bind ?_ fun _ => trivial
      exact (replayFence_within stream token).mono (by rintro k rfl; exact hcall)
        (fun _ _ => trivial) fun _ _ => trivial
  | fork parent atVersion child =>
      cases h
      refine Prog.Within.bind (fun _ => trivial) fun parentTail => ?_
      cases parentTail with
      | none => trivial
      | some parentTail =>
          dsimp only
          split
          · trivial
          · refine Prog.Within.bind (fun _ => trivial) fun childTail => ?_
            split
            · trivial
            · exact ⟨hcall.2, hcall.2, hcall, trivial⟩
  | trim stream fromVersion txn => cases h; exact fun _ => ⟨hcall, trivial⟩
  | trimBelow stream floor => cases h; exact fun _ _ => ⟨hcall, trivial⟩
  | purgeBelow stream floor =>
      obtain ⟨versions, rfl⟩ := h
      have hdelete : ∀ versions : List Nat, (deleteRecords stream versions : TxnM D S _).Within
          Key.SlashFree (fun _ => True) fun _ => True := by
        intro versions
        induction versions with
        | nil => trivial
        | cons v versions ih => exact ⟨hcall, ih⟩
      exact hdelete versions
  | deleteStream stream =>
      cases h
      refine Prog.Within.bind (fun _ => trivial) fun tail => ?_
      split
      · exact ⟨hcall, trivial⟩
      · trivial
  | publishSnapshot stream record state ulid =>
      cases h
      exact fun _ => ⟨trivial, trivial, trivial, trivial, trivial⟩
  | compact depth stream jobId build nowMs ulid =>
      obtain ⟨record, state, rfl⟩ := h
      exact fun _ => ⟨trivial, trivial, trivial, trivial, trivial⟩

end

end Landslide

namespace Landslide.Raw

open TxnKv Landslide.Fuse

section

variable {D S : Type}

/-! ## The listing -/

/-- `strip_suffix` -/
def stripSuffix (s suffix : String) : Option String :=
  if suffix.toList.isSuffixOf s.toList then
    some (String.ofList (s.toList.take (s.toList.length - suffix.toList.length)))
  else none

theorem stripSuffix_eq_some {s suffix x : String} :
    stripSuffix s suffix = some x ↔ s = x ++ suffix := by
  unfold stripSuffix
  constructor
  · intro h
    split at h
    · next hsuffix =>
        obtain ⟨y, hy⟩ := List.isSuffixOf_iff_suffix.mp hsuffix
        cases h
        refine String.toList_inj.mp ?_
        rw [String.toList_append, String.toList_ofList, ← hy, List.length_append,
          Nat.add_sub_cancel, List.take_left]
    · cases h
  · rintro rfl
    rw [String.toList_append, if_pos (List.isSuffixOf_iff_suffix.mpr (List.suffix_append _ _)),
      List.length_append, Nat.add_sub_cancel, List.take_left, String.ofList_toList]

/-- What follows `m/` in the keys under it. -/
def metaRests (σ : RawDb) : List String :=
  (σ.scan (inPrefix "m/" "" none)).map fun row => dropStart row.1 "m/"

/-- `EventStore::list_streams` on a committed state. -/
def listStreams (σ : RawDb) : List String :=
  let rests := metaRests σ
  let deleted := rests.filterMap fun rest =>
    if (stripSuffix rest "/tail").isSome then none else stripSuffix rest "/deleted"
  (rests.filterMap (stripSuffix · "/tail")).filter (· ∉ deleted)

theorem mem_metaRests {σ : RawDb} {rest : String} :
    rest ∈ metaRests σ ↔ (σ.get ("m/" ++ rest)).isSome = true := by
  rw [metaRests, List.mem_map]
  constructor
  · rintro ⟨⟨key, b⟩, hmem, rfl⟩
    obtain ⟨hpre, hget⟩ := Store.mem_scan.mp hmem
    obtain ⟨x, rfl, -⟩ := inPrefix_iff.mp hpre
    rw [dropStart_append]
    exact Option.isSome_iff_exists.mpr ⟨b, hget⟩
  · intro h
    obtain ⟨b, hb⟩ := Option.isSome_iff_exists.mp h
    refine ⟨⟨"m/" ++ rest, b⟩, Store.mem_scan.mpr ⟨?_, hb⟩, dropStart_append _ _⟩
    exact inPrefix_iff.mpr ⟨rest, rfl, not_lt_empty rest, rfl⟩

theorem mKey_eq (stream field : String) : mKey stream field = "m/" ++ (stream ++ "/" ++ field) := by
  refine String.toList_inj.mp ?_
  rw [toList_mKey]
  simp only [String.toList_append, List.append_assoc]
  rfl

theorem mem_metaRests_suffix {σ : RawDb} {x field : String} :
    x ++ "/" ++ field ∈ metaRests σ ↔ (σ.get (mKey x field)).isSome = true := by
  rw [mem_metaRests, mKey_eq]

/-- The listing has the ids before `/tail`, those before `/deleted` excepted. -/
theorem mem_listStreams {σ : RawDb} {x : String} :
    x ∈ listStreams σ ↔
      (σ.get (mKey x "tail")).isSome = true ∧ σ.get (mKey x "deleted") = none := by
  have htail : ∀ rest, stripSuffix rest "/tail" = some x ↔ rest = x ++ "/" ++ "tail" := by
    intro rest
    rw [stripSuffix_eq_some, String.append_assoc]
    rfl
  have hdeleted : ∀ rest, (if (stripSuffix rest "/tail").isSome then none
      else stripSuffix rest "/deleted") = some x ↔ rest = x ++ "/" ++ "deleted" := by
    intro rest
    rw [String.append_assoc]
    constructor
    · intro h
      split at h
      · cases h
      · exact stripSuffix_eq_some.mp h
    · rintro rfl
      rw [if_neg ?_]
      · exact stripSuffix_eq_some.mpr rfl
      · intro h
        obtain ⟨y, hy⟩ := Option.isSome_iff_exists.mp h
        have hlast := congrArg (·.toList.getLast?) (stripSuffix_eq_some.mp hy)
        simp [String.toList_append] at hlast
  rw [listStreams, List.mem_filter, decide_eq_true_eq, List.mem_filterMap, List.mem_filterMap]
  simp only [htail, hdeleted, exists_eq_right, mem_metaRests_suffix, Option.not_isSome_iff_eq_none]

/-- No id is listed twice. -/
theorem listStreams_nodup (σ : RawDb) : (listStreams σ).Nodup := by
  have hrests : (metaRests σ).Nodup := by
    refine List.pairwise_map.mpr ((Store.scan_sorted σ _).imp_of_mem ?_)
    intro row row' hrow hrow' hlt heq
    obtain ⟨x, hx, -⟩ := inPrefix_iff.mp (Store.mem_scan.mp hrow).1
    obtain ⟨y, hy, -⟩ := inPrefix_iff.mp (Store.mem_scan.mp hrow').1
    rw [hx, hy, dropStart_append, dropStart_append] at heq
    rw [hx, hy, heq, Std.compare_self] at hlt
    cases hlt
  refine (List.Nodup.filterMap ?_ hrests).filter _
  intro rest rest' x hx hx'
  rw [stripSuffix_eq_some.mp hx, stripSuffix_eq_some.mp hx']

/-! ## Keys under `m/` -/

/-- A key in a registry of a stream is a field of what is below the stream. -/
theorem mKey_slash (stream g x : String) :
    mKey stream (slash g ++ x) = mKey (slash stream ++ g) x := by
  refine String.toList_inj.mp ?_
  rw [toList_mKey, toList_mKey, toList_slash_append, toList_slash_append]
  simp

theorem mKey_inj {s t f g : String} (hf : '/' ∉ f.toList) (hg : '/' ∉ g.toList)
    (h : mKey s f = mKey t g) : s = t ∧ f = g := by
  have hlist := congrArg String.toList h
  rw [toList_mKey, toList_mKey, List.cons_inj_right, List.cons_inj_right] at hlist
  obtain ⟨hs, hfg⟩ := Separated.append_sep_inj hf hg hlist
  exact ⟨String.toList_inj.mp hs, String.toList_inj.mp hfg⟩

/-- The names that end in `tail` are those of tails and of the pins of a child `tail`, and
likewise for `deleted`. -/
theorem keyName_eq_mKey {k : Key} (hk : k.SlashFree) {x f : String}
    (hf : f = "tail" ∨ f = "deleted") (h : keyName k = mKey x f) :
    k = .tail x ∧ f = "tail" ∨ k = .deleted x ∧ f = "deleted" ∨
      ∃ stream, k = .forks stream f ∧ x = slash stream ++ "forks" := by
  have hslash : '/' ∉ f.toList := by rcases hf with rfl | rfl <;> decide
  have hother : ∀ stream g, '/' ∉ g.toList → g ≠ "tail" → g ≠ "deleted" →
      mKey stream g ≠ mKey x f := by
    intro stream g hg htail hdeleted heq
    obtain ⟨-, rfl⟩ := mKey_inj hg hslash heq
    exact hf.elim htail hdeleted
  have hhead : (keyName k).toList.head? = some 'm' := by
    rw [h, toList_mKey]
    rfl
  cases k with
  | tail stream =>
      obtain ⟨rfl, rfl⟩ := mKey_inj (by decide) hslash h
      exact .inl ⟨rfl, rfl⟩
  | deleted stream =>
      obtain ⟨rfl, rfl⟩ := mKey_inj (by decide) hslash h
      exact .inr (.inl ⟨rfl, rfl⟩)
  | fence stream => exact absurd h (hother _ _ (by decide) (by decide) (by decide))
  | trim stream => exact absurd h (hother _ _ (by decide) (by decide) (by decide))
  | fork stream => exact absurd h (hother _ _ (by decide) (by decide) (by decide))
  | forks stream child =>
      obtain ⟨hx, rfl⟩ := mKey_inj hk.2 hslash ((mKey_slash stream "forks" child).symm.trans h)
      exact .inr (.inr ⟨stream, rfl, hx.symm⟩)
  | rollback stream v =>
      obtain ⟨-, hv⟩ := mKey_inj (slash_notMem_pad16 v) hslash
        ((mKey_slash stream "rollback" (pad16 v)).symm.trans h)
      have hdigits : (pad16 v).toList.all Char.isDigit = true :=
        List.all_eq_true.mpr fun c => isDigit_of_mem_pad
      rw [hv] at hdigits
      rcases hf with rfl | rfl
      · exact absurd hdigits (by decide)
      · exact absurd hdigits (by decide)
  | record stream v =>
      rw [keyName, toList_rKey] at hhead
      cases hhead
  | ts stream ts v =>
      rw [keyName, toList_tsKey] at hhead
      cases hhead
  | snap stream seq =>
      rw [keyName, String.toList_append, toList_snapPrefix] at hhead
      cases hhead
  | compaction ulid =>
      rw [keyName, String.toList_append] at hhead
      cases hhead
  | seq => cases hhead

/-- The names of keys whose ids have no slash, and those of records. -/
def Ours (key : String) : Prop :=
  (∃ k : Key, k.SlashFree ∧ key = keyName k) ∨ ∃ x, key = "r/" ++ x

/-- A run adds only such names. -/
def Extends (σ σ' : RawDb) : Prop :=
  ∀ key, (σ'.get key).isSome = true → (σ.get key).isSome = true ∨ Ours key

/-- A transaction that writes only such names. -/
theorem extends_of_within {body : RawM Result (List CommitInfo)}
    (h : body.Within Ours (fun _ => True) fun _ => True) (τ : RawDb) (infos : List CommitInfo)
    (u : Txn String fun _ => Bytes) (hrun : body.run (.begin τ) = .ok (infos, u)) (σ : RawDb) :
    Extends σ (σ.applyAll u.foot.writes) := by
  intro key hsome
  by_cases hkey : Ours key
  · exact .inr hkey
  · refine .inl ?_
    rw [Store.get_applyAll_of_notMem] at hsome
    · exact hsome
    · intro wr hwr heq
      rcases h.of_run hrun ⟨wr, hwr, heq⟩ with ⟨_, hmem, -⟩ | hours
      · cases hmem
      · exact hkey hours

/-- Calls on ids without slashes add only such names. -/
theorem extends_run [Payload D] (w : Wire D S) (chunks : Nat) (σ : RawDb) {acts : RawSchedule D S}
    (hacts : ∀ client call, .invoke client call ∈ acts → call.SlashFree) :
    Extends σ (runCalls w chunks σ acts) := by
  refine Sys.run_related (fun _ _ h => .inl h) (fun h h' key hkey => ?_) (fun call hcall => ?_)
    hacts σ
  · exact (h' key hkey).elim (h key) .inr
  · refine callProc_under w chunks (fun body hbody => ?_) fun t floor heq keys hkeys => ?_
    · exact extends_of_within ((hbody.slashFree hcall).lower w.coding .error
        (fun k hk => .inl ⟨k, hk, rfl⟩) (fun _ _ => trivial) fun _ => trivial)
    · refine extends_of_within (deleteKeys_within fun key hkey => .inr ?_)
      obtain ⟨next, hnext⟩ := hkeys key hkey
      obtain ⟨x, rfl, -⟩ := inPrefix_iff.mp hnext
      refine ⟨t ++ "/" ++ x, String.toList_inj.mp ?_⟩
      simp [String.toList_append, toList_rPrefix]

/-- The listing has the streams that have a tail and no tombstone, each once. -/
def ListsLive (σ : RawDb) : Prop :=
  (listStreams σ).Nodup ∧ ∀ x, x ∈ listStreams σ ↔
    SlashFree x ∧ (σ.get (keyName (.tail x))).isSome = true ∧ σ.get (keyName (.deleted x)) = none

/-- No stream has a fork `tail`, unless it has a fork `deleted` as well. -/
def NoTailFork (σ : RawDb) : Prop :=
  ∀ stream, (σ.get (keyName (.forks stream "tail"))).isSome = true →
    (σ.get (keyName (.forks stream "deleted"))).isSome = true

theorem keyName_forks (stream child : String) :
    keyName (.forks stream child) = mKey (slash stream ++ "forks") child :=
  mKey_slash stream "forks" child

theorem not_slashFree_forks (stream : String) : ¬ SlashFree (slash stream ++ "forks") := by
  rw [SlashFree, toList_slash_append]
  simp

/-- In every state that calls on ids without slashes lead to, the listing is right exactly
when no stream has a fork `tail`, unless it has a fork `deleted` as well. -/
theorem listStreams_iff [Payload D] (w : Wire D S) (chunks : Nat) (acts : RawSchedule D S)
    (hacts : ∀ client call, .invoke client call ∈ acts → call.SlashFree) :
    ListsLive (runCalls w chunks ∅ acts) ↔ NoTailFork (runCalls w chunks ∅ acts) := by
  have hours := extends_run w chunks ∅ hacts
  generalize runCalls w chunks ∅ acts = σ at hours ⊢
  constructor
  · rintro ⟨-, hlists⟩ stream htail
    rw [keyName_forks] at htail ⊢
    by_contra hdeleted
    have hlisted : slash stream ++ "forks" ∈ listStreams σ :=
      mem_listStreams.mpr ⟨htail, Option.not_isSome_iff_eq_none.mp hdeleted⟩
    exact not_slashFree_forks stream ((hlists _).mp hlisted).1
  · intro hforks
    refine ⟨listStreams_nodup σ, fun x => ⟨fun hx => ?_, fun hx => mem_listStreams.mpr hx.2⟩⟩
    obtain ⟨htail, hdeleted⟩ := mem_listStreams.mp hx
    refine ⟨?_, htail, hdeleted⟩
    obtain hempty | ⟨k, hk, hkey⟩ | ⟨y, hy⟩ := hours _ htail
    · rw [Store.get_empty] at hempty
      cases hempty
    · rcases keyName_eq_mKey hk (.inl rfl) hkey.symm with ⟨rfl, -⟩ | ⟨-, hne⟩ | ⟨stream, rfl, rfl⟩
      · exact hk
      · exact absurd hne (by decide)
      · -- the pin of a child `tail`
        rw [← keyName_forks] at htail hdeleted
        have hpin := hforks stream htail
        rw [hdeleted] at hpin
        cases hpin
    · have hhead := congrArg (·.toList.head?) hy
      simp only [toList_mKey, String.toList_append] at hhead
      cases hhead

end

/-! ## A store of a stream and a fork -/

/-- A stream `s` of one event, and a fork of it. -/
def forkedAs (child : String) : RawDb :=
  runCalls sampleWire 1 ∅ (inTurn [appendTo "s", .fork "s" 0 child])

theorem slashFree_forkedAs {child : String} (hchild : SlashFree child) :
    ∀ call ∈ [appendTo "s", .fork "s" 0 child], call.SlashFree := by
  intro call hcall
  rcases List.mem_pair.mp hcall with rfl | rfl
  · exact show SlashFree "s" by decide
  · exact ⟨show SlashFree "s" by decide, hchild⟩

theorem listsLive_forkedAs : ListsLive (forkedAs "c") := by
  refine (listStreams_iff sampleWire 1 _ (of_inTurn (slashFree_forkedAs (by decide)))).mpr ?_
  intro stream htail
  have hnone : ∀ rest ∈ metaRests (forkedAs "c"),
      "/forks/tail".toList.isSuffixOf rest.toList = false := by
    decide +kernel
  rw [keyName_forks] at htail
  have hmem := mem_metaRests_suffix.mpr htail
  have hsuffix : "/forks/tail".toList <:+ (slash stream ++ "forks" ++ "/" ++ "tail").toList :=
    ⟨stream.toList, by simp [slash]⟩
  have hfalse := hnone _ hmem
  rw [List.isSuffixOf_iff_suffix.mpr hsuffix] at hfalse
  cases hfalse

/-- A fork `tail` of `s` makes the listing show a stream `s/forks`. -/
theorem lists_fork_registry :
    ¬ ∀ acts : RawSchedule Bytes Bytes,
      (∀ client call, .invoke client call ∈ acts → call.SlashFree) →
        ListsLive (runCalls sampleWire 1 ∅ acts) := by
  intro h
  have htail : SlashFree "tail" := by decide
  have hlists := h _ (of_inTurn (slashFree_forkedAs htail))
  have hmem : "s/forks" ∈ listStreams (forkedAs "tail") := by decide +kernel
  exact absurd ((hlists.2 _).mp hmem).1 (by decide)

end Landslide.Raw
