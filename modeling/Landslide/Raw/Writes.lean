import Landslide.Alone
import Landslide.Raw.Store

/-!
# What the calls on one stream write

The calls that are lowered make no scans (`proc_noScan`), so at the names of their keys
they do what they do in the source.

`Touched t` are the names that calls on a stream `t` may change, its tombstone aside:
those of its own keys, and whatever a purge of it finds.  Every run of such calls, any
number of clients taking their steps in any order, leaves the other names alone and keeps
the tombstone (`beside_run`).
-/

namespace Landslide

open TxnKv

section

variable {D S : Type}

/-! ## Scans -/

theorem putRecords_noScan (stream : String) (indexTs : Bool) (first startSeq : Nat)
    (stamps : Nat → Stamp) (events : List (NewEvent D)) : ∀ (i : Nat) (lastTs : Int),
    (putRecords stream indexTs first startSeq stamps i lastTs events : TxnM D S Int).NoScan := by
  induction events with
  | nil => exact fun i lastTs => trivial
  | cons e events ih =>
      intro i lastTs
      cases indexTs with
      | true => exact ih _ _
      | false => exact ih _ _

theorem replayAppend_noScan (seq : Nat) (stream : String) (expected : ExpectedVersion)
    (fromVersion : Option Nat) (fenceToken : Option String) (events : List (NewEvent D))
    (indexTs : Bool) (stamps : Nat → Stamp) :
    (replayAppend seq stream expected fromVersion fenceToken events indexTs stamps :
      TxnM D S _).NoScan := by
  have hfence : (checkFence stream fenceToken : TxnM D S Unit).NoScan := by
    cases fenceToken with
    | none => trivial
    | some token =>
        intro o
        cases o with
        | none => trivial
        | some currentToken =>
            change (if currentToken = token then _ else _ : TxnM D S Unit).NoScan
            split <;> trivial
  intro o
  refine hfence.bind fun _ => ?_
  split
  · trivial
  · split
    · trivial
    · exact (putRecords_noScan _ _ _ _ _ _ _ _).bind fun _ => trivial

theorem replayFence_noScan (stream : String) (token : Option String) :
    (replayFence stream token : TxnM D S Unit).NoScan := by
  unfold replayFence
  split <;> trivial

theorem appendBody_noScan (stream : String) (expected : ExpectedVersion)
    (fromVersion : Option Nat) (fenceToken : Option String) (events : List (NewEvent D))
    (indexTs : Bool) (stamps : Nat → Stamp) :
    (appendBody stream expected fromVersion fenceToken events indexTs stamps :
      TxnM D S _).NoScan :=
  Prog.NoScan.bind (fun _ => trivial) fun _ =>
    (replayAppend_noScan _ _ _ _ _ _ _ _).bind fun _ => trivial

theorem commitAppends_noScan [Payload D] (stream : String) (expected : ExpectedVersion)
    (fromVersion : Option Nat) (fenceToken : Option String) (events : List (NewEvent D))
    (indexTs : Bool) (stamps : Nat → Nat → Stamp) :
    (commitAppends stream expected fromVersion fenceToken events indexTs stamps :
      StoreProc D S).NoScan := by
  have hloop : ∀ retries, (commitLoop stream expected fromVersion fenceToken events indexTs stamps
      retries : StoreProc D S).NoScan := by
    intro retries
    induction retries with
    | zero =>
        refine ⟨appendBody_noScan _ _ _ _ _ _ _, fun o => ?_⟩
        cases o with
        | committed infos => trivial
        | conflict => exact fun _ => trivial
        | aborted r => trivial
    | succ retries ih =>
        refine ⟨appendBody_noScan _ _ _ _ _ _ _, fun o => ?_⟩
        cases o with
        | committed infos => trivial
        | conflict => exact ih
        | aborted r => trivial
  unfold commitAppends
  split
  · trivial
  · exact hloop commitRetries

theorem replayOps_noScan (stamps : Nat → Nat → Stamp) : ∀ (j seq : Nat) (ops : List (Op D)),
    (replayOps stamps j seq ops : TxnM D S (List CommitInfo × Nat)).NoScan
  | _, _, [] => trivial
  | _, _, .append _ _ _ :: ops =>
      (replayAppend_noScan _ _ _ _ _ _ _ _).bind fun _ =>
        (replayOps_noScan stamps _ _ ops).bind fun _ => trivial
  | _, _, .fence _ _ :: ops =>
      (replayFence_noScan _ _).bind fun _ => replayOps_noScan stamps _ _ ops

theorem once_noScan {body : TxnM D S (List CommitInfo)} {ok : List CommitInfo → Reply}
    (h : body.NoScan) : (once body ok).NoScan := by
  refine ⟨h, fun o => ?_⟩
  cases o <;> trivial

/-- Only a purge and a compaction scan. -/
theorem Call.OneTxn.proc_noScan [Payload D] {call : Call D S} (h : call.OneTxn) :
    call.proc.NoScan := by
  cases call with
  | append | appendWithToken | appendAt => exact commitAppends_noScan _ _ _ _ _ _ _
  | commit ops stamps =>
      simp only [Call.proc, Landslide.commit]
      split
      · trivial
      · exact once_noScan (Prog.NoScan.bind (fun _ => trivial) fun _ =>
          (replayOps_noScan stamps _ _ ops).bind fun _ => trivial)
  | fence stream token =>
      exact once_noScan fun _ => (replayFence_noScan _ _).bind fun _ => trivial
  | fork parent atVersion child =>
      refine once_noScan (Prog.NoScan.bind (fun _ => trivial) fun parentTail => ?_)
      split
      · trivial
      · split
        · trivial
        · refine Prog.NoScan.bind (fun _ => trivial) fun childTail => ?_
          split <;> trivial
  | trim stream fromVersion txn => exact once_noScan fun _ => trivial
  | trimBelow stream floor => exact once_noScan fun _ _ => trivial
  | deleteStream stream =>
      refine once_noScan (Prog.NoScan.bind (fun _ => trivial) fun tail => ?_)
      split <;> trivial
  | publishSnapshot stream record state ulid => exact once_noScan fun _ => trivial
  | purgeBelow | compact => exact h.elim

/-! ## Calls on one stream -/

def Op.stream : Op D → String
  | .append stream _ _ => stream
  | .fence stream _ => stream

/-- The call is on this stream alone. -/
def Call.On (t : String) : Call D S → Prop
  | .append stream _ _ _ => stream = t
  | .appendWithToken stream _ _ _ _ _ => stream = t
  | .appendAt stream _ _ _ _ => stream = t
  | .commit ops _ => ∀ op ∈ ops, op.stream = t
  | .fence stream _ => stream = t
  | .fork _ _ _ => False
  | .trim stream _ _ => stream = t
  | .trimBelow stream _ => stream = t
  | .purgeBelow stream _ => stream = t
  | .deleteStream stream => stream = t
  | .publishSnapshot stream _ _ _ => stream = t
  | .compact _ stream _ _ _ _ => stream = t

/-- The keys that calls on a stream write, its tombstone aside. -/
def Written (t : String) : Key → Prop
  | .record stream _ => stream = t
  | .tail stream => stream = t
  | .fence stream => stream = t
  | .trim stream => stream = t
  | .rollback stream _ => stream = t
  | .ts stream _ _ => stream = t
  | .snap stream _ => stream = t
  | .compaction _ => True
  | .seq => True
  | .deleted _ => False
  | .fork _ => False
  | .forks _ _ => False

theorem AppendKey.written {t : String} {k : Key} (h : AppendKey t k) : Written t k := by
  rcases h with rfl | ⟨v, rfl⟩ | ⟨ts, v, rfl⟩ <;> rfl

theorem replayOps_written {t : String} (stamps : Nat → Nat → Stamp) :
    ∀ (j seq : Nat) (ops : List (Op D)), (∀ op ∈ ops, op.stream = t) →
    (replayOps stamps j seq ops : TxnM D S (List CommitInfo × Nat)).Within (Written t)
      (fun _ => False) Failed
  | _, _, [], _ => trivial
  | j, seq, .append stream expected events :: ops, hops => by
      obtain rfl : stream = t := hops _ List.mem_cons_self
      have hrest := fun op hop => hops op (List.mem_cons_of_mem _ hop)
      refine Prog.Within.bind ?_ fun r => Prog.Within.bind
        (replayOps_written stamps _ _ ops hrest) fun _ => trivial
      exact (replayAppend_within seq { stream, expected, events } true (stamps j)).mono
        (fun _ => AppendKey.written) (fun _ h => h) fun _ h => h
  | j, seq, .fence stream token :: ops, hops => by
      obtain rfl : stream = t := hops _ List.mem_cons_self
      have hrest := fun op hop => hops op (List.mem_cons_of_mem _ hop)
      refine Prog.Within.bind ?_ fun _ => replayOps_written stamps _ _ ops hrest
      exact (replayFence_within stream token).mono (by rintro k rfl; rfl) (fun _ h => h)
        fun _ h => h

/-- The transactions of the calls on a stream, its deletion aside. -/
theorem Call.Body.written {t : String} {call : Call D S} {body : TxnM D S (List CommitInfo)}
    (h : call.Body body) (hon : call.On t) :
    body.Within (Written t) (fun _ => True) (fun _ => True) ∨ body = deleteStreamBody t := by
  have happend : ∀ {req : AppendReq D}, req.Body body → req.stream = t →
      body.Within (Written t) (fun _ => True) fun _ => True := by
    rintro req ⟨indexTs, stamps, rfl⟩ rfl
    refine Prog.Within.bind (fun _ => trivial) fun seq =>
      Prog.Within.bind ?_ fun r => ⟨trivial, trivial, trivial⟩
    exact (replayAppend_within _ req indexTs stamps).mono (fun _ => AppendKey.written)
      (fun _ _ => trivial) fun _ _ => trivial
  cases call with
  | append | appendWithToken | appendAt => exact .inl (happend h hon)
  | commit ops stamps =>
      cases h
      refine .inl (Prog.Within.bind (fun _ => trivial) fun seq =>
        Prog.Within.bind ?_ fun r => ⟨trivial, trivial, trivial⟩)
      exact (replayOps_written stamps _ _ ops hon).mono (fun _ h => h) (fun _ _ => trivial)
        fun _ _ => trivial
  | fence stream token =>
      obtain rfl : stream = t := hon
      cases h
      refine .inl (Prog.Within.bind (fun _ => trivial) fun _ =>
        Prog.Within.bind ?_ fun _ => trivial)
      exact (replayFence_within stream token).mono (by rintro k rfl; rfl) (fun _ _ => trivial)
        fun _ _ => trivial
  | trim stream fromVersion txn => cases h; exact .inl fun _ => ⟨hon, trivial⟩
  | trimBelow stream floor => cases h; exact .inl fun _ _ => ⟨hon, trivial⟩
  | purgeBelow stream floor =>
      obtain ⟨versions, rfl⟩ := h
      have hdelete : ∀ versions : List Nat, (deleteRecords stream versions : TxnM D S _).Within
          (Written t) (fun _ => True) fun _ => True := by
        intro versions
        induction versions with
        | nil => trivial
        | cons v versions ih => exact ⟨hon, ih⟩
      exact .inl (hdelete versions)
  | deleteStream stream =>
      obtain rfl : stream = t := hon
      exact .inr h
  | publishSnapshot stream record state ulid =>
      cases h
      exact .inl fun _ => ⟨hon, trivial, trivial, trivial, trivial⟩
  | compact depth stream jobId build nowMs ulid =>
      obtain ⟨record, state, rfl⟩ := h
      exact .inl fun _ => ⟨hon, trivial, trivial, trivial, trivial⟩
  | fork => exact hon.elim

end

end Landslide

namespace Landslide.Raw

open TxnKv Landslide.Fuse

section

variable {D S : Type}

/-! ## Names -/

/-- The names that calls on a stream may change, that of its tombstone aside. -/
inductive Touched (t : String) : String → Prop where
  | written {k : Key} (h : Written t k) : Touched t (keyName k)
  | purged {next floor : Nat} {key : String}
      (h : inPrefix (rPrefix t) (pad16 next) (some (pad16 floor)) key = true) : Touched t key

/-- The characters of such a name. -/
inductive Named (t : String) : List Char → Prop where
  /-- A record that is written, or what a purge finds. -/
  | record {x : List Char}
      (h : '/' ∉ x ∨ ∃ next floor, ¬ x < (pad16 next).toList ∧ x < (pad16 floor).toList) :
      Named t ('r' :: '/' :: (t.toList ++ '/' :: x))
  | field {f : String} (h : f ∈ ["tail", "fence", "trim"]) :
      Named t ('m' :: '/' :: (t.toList ++ '/' :: f.toList))
  | window {v : Nat} : Named t
      ('m' :: '/' :: ((t.toList ++ '/' :: "rollback".toList) ++ '/' :: (pad16 v).toList))
  | index {ts : Int} {v : Nat} : Named t
      ('i' :: '/' :: ((t.toList ++ '/' :: (padInt ts).toList) ++ '/' :: (pad16 v).toList))
  | snapshot {n : Nat} :
      Named t ('s' :: 'n' :: 'a' :: 'p' :: '/' :: (t.toList ++ '/' :: (pad16 n).toList))
  | other {c : Char} {x : List Char} (h : c = 'j' ∨ c = 'g') : Named t (c :: x)

theorem named_of_written {t : String} {k : Key} (h : Written t k) :
    Named t (keyName k).toList := by
  cases k with
  | record s v =>
      cases h
      rw [keyName, toList_rKey]
      exact .record (.inl (slash_notMem_pad16 v))
  | tail s =>
      cases h
      rw [keyName, toList_mKey]
      exact .field (by simp)
  | fence s =>
      cases h
      rw [keyName, toList_mKey]
      exact .field (by simp)
  | trim s =>
      cases h
      rw [keyName, toList_mKey]
      exact .field (by simp)
  | rollback s v =>
      cases h
      have hname : (keyName (.rollback t v)).toList =
          'm' :: '/' :: ((t.toList ++ '/' :: "rollback".toList) ++ '/' :: (pad16 v).toList) := by
        rw [keyName, toList_mKey, List.append_assoc]
        simp only [String.toList_append]
        rfl
      rw [hname]
      exact .window
  | ts s ts v =>
      cases h
      have hname : (keyName (.ts t ts v)).toList = 'i' :: '/' ::
          ((t.toList ++ '/' :: (padInt ts).toList) ++ '/' :: (pad16 v).toList) := by
        rw [keyName, toList_tsKey, List.append_assoc]
        rfl
      rw [hname]
      exact .index
  | snap s n =>
      cases h
      have hname : (keyName (.snap t n)).toList =
          's' :: 'n' :: 'a' :: 'p' :: '/' :: (t.toList ++ '/' :: (pad16 n).toList) := by
        rw [keyName, String.toList_append, toList_snapPrefix]
        simp
      rw [hname]
      exact .snapshot
  | compaction ulid =>
      rw [keyName, String.toList_append]
      exact .other (.inl rfl)
  | seq => exact .other (.inr rfl)
  | deleted | fork | forks => exact h.elim

theorem Touched.named {t key : String} (h : Touched t key) : Named t key.toList := by
  cases h with
  | written h => exact named_of_written h
  | @purged next floor _ h =>
      obtain ⟨x, rfl, hlo, hhi⟩ := inPrefix_iff.mp h
      simp only [Option.all_some, decide_eq_true_eq, String.lt_iff] at hlo hhi
      have hname : (rPrefix t ++ x).toList = 'r' :: '/' :: (t.toList ++ '/' :: x.toList) := by
        rw [String.toList_append, toList_rPrefix]
        simp
      rw [hname]
      exact .record (.inr ⟨next, floor, hlo, hhi⟩)

namespace Named

variable {t : String} {rest : List Char}

theorem of_record (h : Named t ('r' :: '/' :: rest)) :
    ∃ x, rest = t.toList ++ '/' :: x ∧
      ('/' ∉ x ∨ ∃ next floor, ¬ x < (pad16 next).toList ∧ x < (pad16 floor).toList) := by
  cases h with
  | record hx => exact ⟨_, rfl, hx⟩
  | other hc => simp at hc

theorem of_field (h : Named t ('m' :: '/' :: rest)) :
    (∃ f ∈ ["tail", "fence", "trim"], rest = t.toList ++ '/' :: f.toList) ∨
      ∃ v, rest = (t.toList ++ '/' :: "rollback".toList) ++ '/' :: (pad16 v).toList := by
  cases h with
  | field hf => exact .inl ⟨_, hf, rfl⟩
  | window => exact .inr ⟨_, rfl⟩
  | other hc => simp at hc

theorem of_index (h : Named t ('i' :: '/' :: rest)) :
    ∃ ts v, rest = (t.toList ++ '/' :: (padInt ts).toList) ++ '/' :: (pad16 v).toList := by
  cases h with
  | index => exact ⟨_, _, rfl⟩
  | other hc => simp at hc

theorem of_snapshot (h : Named t ('s' :: 'n' :: 'a' :: 'p' :: '/' :: rest)) :
    ∃ n, rest = t.toList ++ '/' :: (pad16 n).toList := by
  cases h with
  | snapshot => exact ⟨_, rfl⟩
  | other hc => simp at hc

end Named

/-- What calls on a stream do: they change only these names, and the tombstone stays. -/
structure Beside (t : String) (σ σ' : RawDb) : Prop where
  frame : ∀ key, ¬ Touched t key → key ≠ mKey t "deleted" → σ'.get key = σ.get key
  deleted : (σ.get (mKey t "deleted")).isSome = true → (σ'.get (mKey t "deleted")).isSome = true

namespace Beside

variable {t : String} {σ σ' σ'' : RawDb}

theorem refl (t : String) (σ : RawDb) : Beside t σ σ := ⟨fun _ _ _ => rfl, id⟩

theorem trans (h : Beside t σ σ') (h' : Beside t σ' σ'') : Beside t σ σ'' where
  frame key hkey hdel := (h'.frame key hkey hdel).trans (h.frame key hkey hdel)
  deleted hdel := h'.deleted (h.deleted hdel)

end Beside

/-- A field name: one component, and not a number. -/
def IsField (f : String) : Prop := '/' ∉ f.toList ∧ f.toList.all Char.isDigit = false

instance (f : String) : Decidable (IsField f) := inferInstanceAs (Decidable (_ ∧ _))

/-- The fields of other streams have other names. -/
theorem Named.field_eq {t u f : String} (h : Named t (mKey u f).toList) (hf : IsField f) :
    u = t ∧ f ∈ ["tail", "fence", "trim"] := by
  rw [toList_mKey] at h
  rcases h.of_field with ⟨g, hg, heq⟩ | ⟨v, heq⟩
  · have hslash : '/' ∉ g.toList := by
      fin_cases hg <;> decide
    obtain ⟨hu, hfg⟩ := Separated.append_sep_inj hf.1 hslash heq
    rw [String.toList_inj.mp hfg]
    exact ⟨String.toList_inj.mp hu, hg⟩
  · obtain ⟨-, hfv⟩ := Separated.append_sep_inj hf.1 (slash_notMem_pad16 v) heq
    have hdigits : f.toList.all Char.isDigit = true := by
      rw [hfv, List.all_eq_true]
      exact fun c => isDigit_of_mem_pad
    rw [hf.2] at hdigits
    cases hdigits

theorem not_touched_deleted (t : String) : ¬ Touched t (mKey t "deleted") := by
  intro h
  have hmem := (h.named.field_eq (by decide)).2
  exact absurd hmem (by decide)

/-! ## Runs -/

/-- A transaction that does to every state what calls on a stream do. -/
def Goes (t : String) (body : RawM Result (List CommitInfo)) : Prop :=
  ∀ τ a u, body.run (.begin τ) = .ok (a, u) → ∀ σ : RawDb, Beside t σ (σ.applyAll u.foot.writes)

theorem goes_of_within {t : String} {body : RawM Result (List CommitInfo)}
    (h : body.Within (Touched t) (fun _ => True) fun _ => True) : Goes t body := by
  intro τ a u hrun σ
  have same : ∀ key, ¬ Touched t key → (σ.applyAll u.foot.writes).get key = σ.get key := by
    refine fun key hkey => Store.get_applyAll_of_notMem _ _ fun wr hwr heq => hkey ?_
    rcases h.of_run hrun ⟨wr, hwr, heq⟩ with ⟨_, hmem, -⟩ | htouched
    · cases hmem
    · exact htouched
  refine ⟨fun key hkey _ => same key hkey, fun hdel => ?_⟩
  rw [same _ (not_touched_deleted t)]
  exact hdel

theorem goes_deleteStream (w : Wire D S) (t : String) : Goes t (w.body (deleteStreamBody t)) := by
  intro τ a u hrun σ
  have hwrites : u.foot.writes = [⟨mKey t "deleted", some []⟩] := by
    rw [Wire.body, deleteStreamBody, Prog.lower_bind, Landslide.tail, Prog.run_bind,
      Prog.run_lower_read] at hrun
    cases hread : w.coding.decode? (.tail t) ((Txn.begin τ).view.get (w.coding.name (.tail t))) with
    | error e =>
        rw [hread] at hrun
        cases hrun
    | ok tail =>
        simp only [hread] at hrun
        split at hrun
        · cases hrun
          rfl
        · cases hrun
  rw [hwrites]
  rw [Store.applyAll_cons, Store.applyAll_nil]
  refine ⟨fun key _ hdel => Store.get_apply_of_ne _ _ hdel, fun _ => ?_⟩
  rw [Store.get_apply_self]
  rfl

theorem deleteKeys_within {W : String → Prop} : ∀ {keys : List String}, (∀ key ∈ keys, W key) →
    (deleteKeys keys).Within W (fun _ => True) fun _ => True
  | [], _ => trivial
  | key :: _, h => ⟨h key List.mem_cons_self,
      deleteKeys_within fun k hk => h k (List.mem_cons_of_mem _ hk)⟩

section

variable {B : RawM Result (List CommitInfo) → Prop}

theorem purgeKeys_under {keys : List String} {purged : Nat} {more : Nat → RawProc}
    (hkeys : B (deleteKeys keys)) (hmore : ∀ next, (more next).Under (fun _ => True) B) :
    (purgeKeys keys purged more).Under (fun _ => True) B := by
  unfold purgeKeys
  split
  · trivial
  · split
    · trivial
    · refine ⟨hkeys, fun o => ?_⟩
      cases o with
      | committed infos => exact hmore _
      | conflict => trivial
      | aborted r => trivial

theorem purgeLoop_under {t : String} {floor : Nat}
    (hpurge : ∀ keys, (∀ key ∈ keys, ∃ next,
      inPrefix (rPrefix t) (pad16 next) (some (pad16 floor)) key = true) → B (deleteKeys keys))
    (chunks next purged : Nat) :
    (purgeLoop t floor chunks next purged).Under (fun _ => True) B := by
  induction chunks generalizing next purged with
  | zero => trivial
  | succ chunks ih =>
      rw [purgeLoop]
      split
      · intro σ _
        refine purgeKeys_under (hpurge _ fun key hkey => ⟨next, ?_⟩) fun next => ih _ _
        obtain ⟨⟨_, b⟩, hmem, rfl⟩ := List.mem_map.mp (List.mem_of_mem_take hkey)
        exact (Store.mem_scan.mp hmem).1
      · trivial

/-- The transactions of a call, along any states it reads, are its own at the names of their
keys, and the deletions of what a purge finds. -/
theorem callProc_under [Payload D] (w : Wire D S) (chunks : Nat) {call : Call D S}
    (hbody : ∀ body, call.Body body → B (w.body body))
    (hpurge : ∀ t floor, call = .purgeBelow t floor → ∀ keys, (∀ key ∈ keys, ∃ next,
      inPrefix (rPrefix t) (pad16 next) (some (pad16 floor)) key = true) → B (deleteKeys keys)) :
    (callProc w chunks call).Under (fun _ => True) B := by
  have hproc : ∀ {p : StoreProc D S}, p.Bodies call.Body → (w.proc p).Under (fun _ => True) B :=
    fun hbodies => (Proc.Bodies.lower w.coding .error .error hbody hbodies).under
  cases call with
  | purgeBelow stream floor =>
      refine Proc.Under.ofReads (Prog.yields_of_forall fun _ => trivial) fun r _ => ?_
      cases r with
      | error e => trivial
      | ok c => exact purgeLoop_under (hpurge stream floor rfl) chunks _ 0
  | compact depth stream jobId build nowMs ulid =>
      refine Proc.Under.ofReads (Prog.yields_of_forall fun _ => trivial) fun r _ => ?_
      cases r with
      | error e => trivial
      | ok events =>
          dsimp only
          split
          · trivial
          · split
            · trivial
            · exact hproc (once_bodies ⟨_, _, rfl⟩)
  | append | appendWithToken | appendAt | commit | fence | fork | trim | trimBelow |
    deleteStream | publishSnapshot => exact hproc (Call.proc_bodies _)

end

/-- The transactions of a call on a stream. -/
theorem callProc_goes [Payload D] (w : Wire D S) (chunks : Nat) {t : String} {call : Call D S}
    (hon : call.On t) : (callProc w chunks call).Under (fun _ => True) (Goes t) := by
  refine callProc_under w chunks (fun body hbody => ?_) fun u floor heq keys hkeys => ?_
  · rcases hbody.written hon with hwithin | rfl
    · exact goes_of_within (hwithin.lower w.coding .error (fun _ h => .written h)
        (fun _ _ => trivial) fun _ => trivial)
    · exact goes_deleteStream w t
  · subst heq
    obtain rfl : u = t := hon
    exact goes_of_within (deleteKeys_within fun key hkey => (hkeys key hkey).elim fun _ => .purged)

/-- A schedule of clients of the store. -/
abbrev RawSchedule (D S : Type) : Type := List (Action (Call D S))

/-- The state that a schedule of calls leads to. -/
def runCalls [Payload D] (w : Wire D S) (chunks : Nat) (σ : RawDb) (acts : RawSchedule D S) :
    RawDb :=
  (Sys.run (callProc w chunks) (Sys.init σ) acts).store

/-- Calls on a stream, in any interleaving, change only the names of that stream. -/
theorem beside_run [Payload D] (w : Wire D S) (chunks : Nat) (σ : RawDb) {t : String}
    {acts : RawSchedule D S} (hacts : ∀ client call, .invoke client call ∈ acts → call.On t) :
    Beside t σ (runCalls w chunks σ acts) :=
  Sys.run_related (Beside.refl t) Beside.trans (fun _ hon => callProc_goes w chunks hon) hacts σ

end

end Landslide.Raw
