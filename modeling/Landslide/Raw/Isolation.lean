import Landslide.Raw.Writes

/-!
# Streams side by side

Whether calls on a stream `t` can be seen by reads of another stream `s`.  Ids are spliced
into keys as they are, so a stream below another one, `a/b` below `a`, has its records
among those that a scan of the other finds (`sees_stream_below`).  Reads of a fork look at
its ancestors as well, up to the version where they were left, and at the children of
those that are deleted.

`Apart` is the condition under which nothing can be seen.  It is about the ids, the fork
chain of `s` and the pins on it, in the state before the calls.  Then every run of calls
on `t` leaves all reads of `s` as they are (`reads_apart`).
-/

namespace Landslide.Raw

open TxnKv Landslide.Fuse

section

variable {D S : Type}

/-! ## The condition -/

/-- The id is `p` or lies below it. -/
def AtOrBelow (p t : String) : Prop := t = p ∨ Below p t

instance (p t : String) : Decidable (AtOrBelow p t) := inferInstanceAs (Decidable (_ ∨ _))

/-- A read that is bounded by `bound` ends at `hi`. -/
def UpTo (bound hi : Option Nat) : Prop := ∀ b, bound = some b → ∃ h, hi = some h ∧ h ≤ b

/-- Some read bounded by `bound` finds the records of the stream that is `x` further
below. -/
def Scanned (bound : Option Nat) (x : String) : Prop :=
  ∃ lo hi, UpTo bound hi ∧ ¬ slash x < pad16 lo ∧ (hi.map pad16).all (slash x < ·) = true

/-- Some purge finds the records of the stream that is `x` further below. -/
def Purged (x : String) : Prop := ∃ next floor, ¬ slash x < pad16 next ∧ slash x < pad16 floor

/-- A child pins a stream at a version. -/
def Pins (σ : RawDb) (u child : String) (atVersion : Nat) : Prop :=
  ∃ key b, inPrefix (mKey u "forks/") "" none key = true ∧ σ.get key = some b ∧
    lastComponent key = child ∧ fromBe b = atVersion

def Live (σ : RawDb) (stream : String) : Prop := σ.get (mKey stream "deleted") = none

/-- `t` stays clear of what a read of `u` bounded by `bound` looks at. -/
structure Clear (σ : RawDb) (t u : String) (bound : Option Nat) : Prop where
  ne : u ≠ t
  records : ∀ x, t = slash u ++ x → ¬ Scanned bound x
  purges : ∀ x, u = slash t ++ x → ¬ Purged x
  windows : ¬ AtOrBelow (slash u ++ "rollback") t
  /-- Of a deleted stream: what `t` pins is pinned by another one too. -/
  pins : ¬ Live σ u → ¬ AtOrBelow (slash u ++ "forks") t ∧
    ∀ v atVersion, (∀ b, bound = some b → v < b) → Pins σ u t atVersion → Live σ t →
      v ≤ atVersion → ∃ child atVersion', child ≠ t ∧ Pins σ u child atVersion' ∧
        Live σ child ∧ v ≤ atVersion'

/-- The streams that the history of `s` is read from, and how far. -/
inductive Reached (w : Wire D S) (σ : RawDb) (s : String) : String → Option Nat → Prop where
  | self : Reached w σ s s none
  | parent {u : String} {bound : Option Nat} {f : ForkRef} (h : Reached w σ s u bound)
      (hf : (forkRef w u).eval σ = .ok (some f)) :
      Reached w σ s f.stream (some (bound.elim (f.atVersion + 1) (min · (f.atVersion + 1))))

/-- Calls on `t` do not show in reads of `s`. -/
structure Apart (w : Wire D S) (σ : RawDb) (s t : String) : Prop where
  below : ¬ AtOrBelow s t
  index : ∀ tsMs, s ≠ slash t ++ padInt tsMs
  chain : ∀ u bound, Reached w σ s u bound → Clear σ t u bound

/-! ## What is left as it was -/

variable {s t u : String} {σ σ' : RawDb}

theorem Beside.get_field (h : Beside t σ σ') (hne : u ≠ t) {f : String} (hf : IsField f) :
    σ'.get (mKey u f) = σ.get (mKey u f) := by
  refine h.frame _ (fun ht => hne (ht.named.field_eq hf).1) fun heq => hne ?_
  have hlist := congrArg String.toList heq
  rw [toList_mKey, toList_mKey, List.cons_inj_right, List.cons_inj_right] at hlist
  exact String.toList_inj.mp (Separated.append_sep_inj hf.1 (by decide) hlist).1

/-- What a changed name below `m/` can lie under. -/
theorem under_of_changed {key : String} {p x : List Char}
    (hkey : key.toList = 'm' :: '/' :: (p ++ '/' :: x))
    (h : Touched t key ∨ key = mKey t "deleted") :
    p = t.toList ++ '/' :: "rollback".toList ∨ p = t.toList ∨ p ++ ['/'] <+: t.toList := by
  have hpre : p ++ ['/'] <+: p ++ '/' :: x := ⟨x, by simp⟩
  rcases h with h | rfl
  · have hnamed := h.named
    rw [hkey] at hnamed
    rcases hnamed.of_field with ⟨f, hf, heq⟩ | ⟨v, heq⟩
    · have hslash : '/' ∉ f.toList := by
        fin_cases hf <;> decide
      rw [heq] at hpre
      exact .inr (Separated.under_of_below hslash hpre)
    · rw [heq] at hpre
      rcases Separated.under_of_below (slash_notMem_pad16 v) hpre with h | h
      · exact .inl h
      · exact .inr (Separated.under_of_below (by decide) h)
  · rw [toList_mKey, List.cons_inj_right, List.cons_inj_right] at hkey
    rw [← hkey] at hpre
    exact .inr (Separated.under_of_below (by decide) hpre)

theorem atOrBelow_iff {p t : String} :
    AtOrBelow p t ↔ p.toList = t.toList ∨ p.toList ++ ['/'] <+: t.toList := by
  rw [AtOrBelow, below_iff_isPrefixOf, String.toList_inj, eq_comm]

theorem toList_slash_append (a b : String) :
    (slash a ++ b).toList = a.toList ++ '/' :: b.toList := by
  rw [slash, String.toList_append, String.toList_append, List.append_assoc]
  rfl

/-- The keys of a registry of a stream, its pins or its windows. -/
theorem Beside.get_registry (h : Beside t σ σ') {g pre key : String}
    (hpre : pre.toList = 'm' :: '/' :: (u.toList ++ '/' :: (g.toList ++ ['/'])))
    (hg : '/' ∉ g.toList) (hne : g = "rollback" → u ≠ t) (hat : ¬ AtOrBelow (slash u ++ g) t)
    (hkey : inPrefix pre "" none key = true) : σ'.get key = σ.get key := by
  obtain ⟨x, rfl, -, -⟩ := inPrefix_iff.mp hkey
  have hlist : (pre ++ x).toList = 'm' :: '/' :: ((u.toList ++ '/' :: g.toList) ++ '/' :: x.toList) := by
    rw [String.toList_append, hpre]
    simp
  have hsame : ¬ (Touched t (pre ++ x) ∨ pre ++ x = mKey t "deleted") := by
    intro hchanged
    rw [atOrBelow_iff, toList_slash_append] at hat
    rcases under_of_changed hlist hchanged with heq | hunder
    · obtain ⟨hut, hgr⟩ := Separated.append_sep_inj hg (by decide) heq
      exact hne (String.toList_inj.mp hgr) (String.toList_inj.mp hut)
    · exact hat hunder
  exact h.frame _ (fun ht => hsame (.inl ht)) fun hd => hsame (.inr hd)

theorem Beside.get_window (h : Beside t σ σ') (hne : u ≠ t)
    (hat : ¬ AtOrBelow (slash u ++ "rollback") t) {key : String}
    (hkey : inPrefix (mKey u "rollback/") "" none key = true) : σ'.get key = σ.get key :=
  h.get_registry (g := "rollback") (toList_mKey u "rollback/") (by decide) (fun _ => hne) hat hkey

theorem Beside.get_pin (h : Beside t σ σ') (hat : ¬ AtOrBelow (slash u ++ "forks") t)
    {key : String} (hkey : inPrefix (mKey u "forks/") "" none key = true) :
    σ'.get key = σ.get key :=
  h.get_registry (g := "forks") (toList_mKey u "forks/") (by decide)
    (fun heq => absurd heq (by decide)) hat hkey

theorem slash_lt_iff {a x b : String} (hb : '/' ∉ b.toList) : slash a ++ x < b ↔ slash a < b := by
  rw [String.lt_iff, String.lt_iff, toList_slash_append, Separated.append_sep_lt_iff hb, slash,
    String.toList_append]
  rfl

/-- The records in a range of versions. -/
theorem Beside.get_record (h : Beside t σ σ') {bound : Option Nat} (hclear : Clear σ t u bound)
    {lo : Nat} {hi : Option Nat} (hhi : UpTo bound hi) {key : String}
    (hkey : inPrefix (rPrefix u) (pad16 lo) (hi.map pad16) key = true) :
    σ'.get key = σ.get key := by
  obtain ⟨x, rfl, hlo, hall⟩ := inPrefix_iff.mp hkey
  have hlist : (rPrefix u ++ x).toList = 'r' :: '/' :: (u.toList ++ '/' :: x.toList) := by
    rw [String.toList_append, toList_rPrefix]
    simp
  refine h.frame _ (fun ht => ?_) fun heq => ?_
  · have hnamed := ht.named
    rw [hlist] at hnamed
    obtain ⟨y, heq, hy⟩ := hnamed.of_record
    rcases Separated.eq_or_under heq with ⟨hut, -⟩ | ⟨rest, htu, hx⟩ | ⟨rest, hut, rfl⟩
    · exact hclear.ne (String.toList_inj.mp hut)
    · -- the records of `t` are among those of `u`
      obtain rfl : x = slash (String.ofList rest) ++ String.ofList y := by
        rw [← String.toList_inj, toList_slash_append, String.toList_ofList, String.toList_ofList, hx]
      refine hclear.records (String.ofList rest) ?_ ⟨lo, hi, hhi, ?_, ?_⟩
      · rw [← String.toList_inj, toList_slash_append, String.toList_ofList, htu]
      · rw [← slash_lt_iff (slash_notMem_pad16 lo)]
        exact hlo
      · cases hi with
        | none => rfl
        | some b =>
            simp only [Option.map_some, Option.all_some, decide_eq_true_eq] at hall ⊢
            rw [← slash_lt_iff (slash_notMem_pad16 b)]
            exact hall
    · -- the records of `u` are among those that a purge of `t` finds
      obtain hslash | ⟨next, floor, hnext, hfloor⟩ := hy
      · exact absurd (by simp) hslash
      refine hclear.purges (String.ofList rest) ?_ ⟨next, floor, ?_, ?_⟩
      · rw [← String.toList_inj, toList_slash_append, String.toList_ofList, hut]
      · rw [← slash_lt_iff (x := x) (slash_notMem_pad16 next), String.lt_iff, toList_slash_append,
          String.toList_ofList]
        exact hnext
      · rw [← slash_lt_iff (x := x) (slash_notMem_pad16 floor), String.lt_iff, toList_slash_append,
          String.toList_ofList]
        exact hfloor
  · have hhead := congrArg String.toList heq
    rw [hlist, toList_mKey] at hhead
    simp at hhead

theorem Beside.get_snapshot (h : Beside t σ σ') (hbelow : ¬ AtOrBelow s t) {key : String}
    (hkey : inPrefix (snapPrefix s) "" none key = true) : σ'.get key = σ.get key := by
  obtain ⟨x, rfl, -, -⟩ := inPrefix_iff.mp hkey
  have hlist : (snapPrefix s ++ x).toList =
      's' :: 'n' :: 'a' :: 'p' :: '/' :: (s.toList ++ '/' :: x.toList) := by
    rw [String.toList_append, toList_snapPrefix]
    simp
  refine h.frame _ (fun ht => hbelow (atOrBelow_iff.mpr ?_)) fun heq => ?_
  · have hnamed := ht.named
    rw [hlist] at hnamed
    obtain ⟨n, heq⟩ := hnamed.of_snapshot
    exact Separated.under_of_below (slash_notMem_pad16 n) (heq ▸ ⟨x.toList, by simp⟩)
  · have hhead := congrArg String.toList heq
    rw [hlist, toList_mKey] at hhead
    simp at hhead

theorem Beside.get_index (h : Beside t σ σ') (hbelow : ¬ AtOrBelow s t)
    (hindex : ∀ tsMs, s ≠ slash t ++ padInt tsMs) {lo key : String}
    (hkey : inPrefix (tsPrefix s) lo none key = true) : σ'.get key = σ.get key := by
  obtain ⟨x, rfl, -, -⟩ := inPrefix_iff.mp hkey
  have hlist : (tsPrefix s ++ x).toList = 'i' :: '/' :: (s.toList ++ '/' :: x.toList) := by
    rw [String.toList_append, toList_tsPrefix]
    simp
  refine h.frame _ (fun ht => ?_) fun heq => ?_
  · have hnamed := ht.named
    rw [hlist] at hnamed
    obtain ⟨tsMs, v, heq⟩ := hnamed.of_index
    have hpre : s.toList ++ ['/'] <+: s.toList ++ '/' :: x.toList := ⟨x.toList, by simp⟩
    rw [heq] at hpre
    rcases Separated.under_of_below (slash_notMem_pad16 v) hpre with hs | hpre
    · exact hindex tsMs (by rw [← String.toList_inj, toList_slash_append, hs])
    · exact hbelow (atOrBelow_iff.mpr
        (Separated.under_of_below (slash_notMem_padInt tsMs) hpre))
  · have hhead := congrArg String.toList heq
    rw [hlist, toList_mKey] at hhead
    simp at hhead

/-! ## Ceilings -/

/-- A pin of a live child at `v` or above. -/
def Covered (σ : RawDb) (u : String) (v : Nat) : Prop :=
  ∃ child atVersion, Pins σ u child atVersion ∧ Live σ child ∧ v ≤ atVersion

theorem ceilingLoop_eval {E : Type} (σ : RawDb) (rows : List ((_ : String) × Bytes)) :
    ∀ acc : Option Nat, ∃ c, (ceilingLoop acc rows : RawM E (Option Nat)).eval σ = .ok c ∧
      ∀ v, c.any (v ≤ ·) = true ↔ acc.any (v ≤ ·) = true ∨
        ∃ row ∈ rows, Live σ (lastComponent row.1) ∧ v ≤ fromBe row.2 := by
  induction rows with
  | nil => exact fun acc => ⟨acc, rfl, by simp⟩
  | cons row rows ih =>
      obtain ⟨key, b⟩ := row
      intro acc
      rw [ceilingLoop]
      simp only [Prog.eval_read_bind]
      split
      · next hlive =>
          obtain ⟨c, hc, hany⟩ := ih (some (acc.elim (fromBe b) (max · (fromBe b))))
          refine ⟨c, hc, fun v => (hany v).trans ?_⟩
          have hacc : (some (acc.elim (fromBe b) (max · (fromBe b)))).any (v ≤ ·) = true ↔
              acc.any (v ≤ ·) = true ∨ v ≤ fromBe b := by
            cases acc <;> simp
          rw [hacc, List.exists_mem_cons_iff, or_assoc]
          have hkey : Live σ (lastComponent key) := Option.isNone_iff_eq_none.mp hlive
          simp [hkey]
      · next hdeleted =>
          obtain ⟨c, hc, hany⟩ := ih acc
          refine ⟨c, hc, fun v => (hany v).trans ?_⟩
          have hkey : ¬ Live σ (lastComponent key) :=
            fun hlive => hdeleted (Option.isNone_iff_eq_none.mpr hlive)
          rw [List.exists_mem_cons_iff]
          simp [hkey]

theorem ceiling_eval {E : Type} (σ : RawDb) (u : String) :
    ∃ c, (ceiling u : RawM E (Option Nat)).eval σ = .ok c ∧
      ∀ v, c.any (v ≤ ·) = true ↔ Covered σ u v := by
  obtain ⟨c, hc, hany⟩ := ceilingLoop_eval (E := E) σ
    (σ.scan (inPrefix (mKey u "forks/") "" none)) none
  refine ⟨c, hc, fun v => (hany v).trans ?_⟩
  constructor
  · rintro (h | ⟨⟨key, b⟩, hmem, hlive, hv⟩)
    · cases h
    · obtain ⟨hkey, hget⟩ := Store.mem_scan.mp hmem
      exact ⟨_, _, ⟨key, b, hkey, hget, rfl, rfl⟩, hlive, hv⟩
  · rintro ⟨_, _, ⟨key, b, hkey, hget, rfl, rfl⟩, hlive, hv⟩
    exact .inr ⟨⟨key, b⟩, Store.mem_scan.mpr ⟨hkey, hget⟩, hlive, hv⟩

theorem Beside.live_iff (h : Beside t σ σ') (hne : u ≠ t) : Live σ' u ↔ Live σ u := by
  rw [Live, Live, h.get_field hne (by decide)]

/-- A deleted stream is covered as before, as far as it is read. -/
theorem Beside.covered_iff (h : Beside t σ σ') {bound : Option Nat} (hclear : Clear σ t u bound)
    (hdeleted : ¬ Live σ u) {v : Nat} (hv : ∀ b, bound = some b → v < b) :
    Covered σ' u v ↔ Covered σ u v := by
  obtain ⟨hat, hother⟩ := hclear.pins hdeleted
  have hpins : ∀ child atVersion, Pins σ' u child atVersion ↔ Pins σ u child atVersion := by
    intro child atVersion
    constructor
    · rintro ⟨key, b, hkey, hget, hrest⟩
      exact ⟨key, b, hkey, (h.get_pin hat hkey) ▸ hget, hrest⟩
    · rintro ⟨key, b, hkey, hget, hrest⟩
      exact ⟨key, b, hkey, (h.get_pin hat hkey).symm ▸ hget, hrest⟩
  constructor
  · rintro ⟨child, atVersion, hpin, hlive, hle⟩
    refine ⟨child, atVersion, (hpins _ _).mp hpin, ?_, hle⟩
    by_cases hchild : child = t
    · -- a tombstone that is not there now was not there before
      subst hchild
      have hkept := h.deleted
      rw [Live] at hlive ⊢
      rw [hlive] at hkept
      exact Option.not_isSome_iff_eq_none.mp fun hsome => by simpa using hkept hsome
    · exact (h.live_iff hchild).mp hlive
  · rintro ⟨child, atVersion, hpin, hlive, hle⟩
    by_cases hchild : child = t
    · subst hchild
      obtain ⟨other, at', hne, hpin', hlive', hle'⟩ := hother v atVersion hv hpin hlive hle
      exact ⟨other, at', (hpins _ _).mpr hpin', (h.live_iff hne).mpr hlive', hle'⟩
    · exact ⟨child, atVersion, (hpins _ _).mpr hpin, (h.live_iff hchild).mpr hlive, hle⟩

/-! ## Reads -/

/-- Ceilings that agree as far as the read goes let the same records through. -/
theorem visible_congr {lo : Nat} {hi c c' : Option Nat} {deleted : Bool}
    {windows : List (Nat × Nat)}
    (h : ∀ v, (∀ b, hi = some b → v < b) → c.any (v ≤ ·) = c'.any (v ≤ ·)) (env : Envelope D) :
    visible lo hi deleted c windows env = visible lo hi deleted c' windows env := by
  unfold visible
  by_cases hv : ∀ b, hi = some b → env.version < b
  · rw [h env.version hv]
  · push Not at hv
    obtain ⟨b, rfl, hb⟩ := hv
    simp [hb]

theorem ofExcept_eval {E α : Type} (r : Except E α) (σ : RawDb) : (ofExcept r).eval σ = r := by
  cases r <;> rfl

theorem Beside.rollbacks_eval (h : Beside t σ σ') {bound : Option Nat}
    (hclear : Clear σ t u bound) : (rollbacks u).eval σ' = (rollbacks u).eval σ := by
  have hscan : σ'.scan (inPrefix (mKey u "rollback/") "" none) =
      σ.scan (inPrefix (mKey u "rollback/") "" none) :=
    Store.scan_congr fun key hkey => h.get_window hclear.ne hclear.windows hkey
  simp only [rollbacks, scanPrefix, Prog.eval_readRange_bind, ofExcept_eval, hscan]

theorem Beside.readRecords_eval (h : Beside t σ σ') (w : Wire D S) {bound : Option Nat}
    (hclear : Clear σ t u bound) {lo : Nat} {hi : Option Nat} (hhi : UpTo bound hi)
    {deleted : Bool} {c c' : Option Nat}
    (hc : ∀ v, (∀ b, hi = some b → v < b) → c'.any (v ≤ ·) = c.any (v ≤ ·)) :
    (readRecords w u lo hi deleted c').eval σ' = (readRecords w u lo hi deleted c).eval σ := by
  have hscan : σ'.scan (inPrefix (rPrefix u) (pad16 lo) (hi.map pad16)) =
      σ.scan (inPrefix (rPrefix u) (pad16 lo) (hi.map pad16)) :=
    Store.scan_congr fun key hkey => h.get_record hclear hhi hkey
  rw [readRecords, readRecords, Prog.eval_bind, Prog.eval_bind, h.rollbacks_eval hclear]
  cases (rollbacks u).eval σ with
  | error e => rfl
  | ok windows =>
      dsimp only
      split
      · rfl
      · rw [Prog.eval_readRange_bind, Prog.eval_readRange_bind, hscan, Prog.eval_bind,
          Prog.eval_bind, ofExcept_eval, ofExcept_eval]
        have hvisible : visible (D := D) lo hi deleted c' windows =
            visible lo hi deleted c windows := funext fun env => visible_congr hc env
        rw [hvisible]
        rfl

theorem Beside.readEvents_eval (h : Beside t σ σ') (w : Wire D S) {bound : Option Nat}
    (hclear : Clear σ t u bound) (lo : Nat) {hi : Option Nat} (hhi : UpTo bound hi) :
    (readEvents w u lo hi).eval σ' = (readEvents w u lo hi).eval σ := by
  have htrim := h.get_field hclear.ne (f := "trim") (by decide)
  have hdeleted := h.get_field hclear.ne (f := "deleted") (by decide)
  have hfloor : (getBe (mKey u "trim") : RawM Error _).eval σ' =
      (getBe (mKey u "trim") : RawM Error _).eval σ := by
    rw [getBe, Prog.eval_read_bind, Prog.eval_read_bind, htrim]
    rfl
  refine Prog.eval_bind_congr hfloor fun trim => ?_
  rw [Prog.eval_read_bind, Prog.eval_read_bind, hdeleted]
  cases hget : σ.get (mKey u "deleted") with
  | none => exact h.readRecords_eval w hclear hhi fun _ _ => rfl
  | some b =>
      have hdead : ¬ Live σ u := by
        rw [Live, hget]
        simp
      obtain ⟨c, hc, hcovered⟩ := ceiling_eval (E := Error) σ u
      obtain ⟨c', hc', hcovered'⟩ := ceiling_eval (E := Error) σ' u
      rw [Option.isSome_some, if_pos rfl, Prog.eval_bind_ok hc, Prog.eval_bind_ok hc']
      refine h.readRecords_eval w hclear hhi fun v hv => Bool.eq_iff_iff.mpr ?_
      rw [hcovered, hcovered', h.covered_iff hclear hdead]
      intro bd hbd
      obtain ⟨b', hb', hle⟩ := hhi bd hbd
      exact (hv b' hb').trans_le hle

theorem UpTo.parent {bound hi : Option Nat} (h : UpTo bound hi) (atVersion : Nat) :
    UpTo (some (bound.elim (atVersion + 1) (min · (atVersion + 1))))
      (some (hi.elim (atVersion + 1) (min · (atVersion + 1)))) := by
  rintro _ ⟨⟩
  refine ⟨_, rfl, ?_⟩
  cases bound with
  | none =>
      cases hi with
      | none => exact le_rfl
      | some h' => exact Nat.min_le_right _ _
  | some b =>
      obtain ⟨h', rfl, hle⟩ := h b rfl
      simp only [Option.elim_some]
      omega

theorem Beside.forkRef_eval (h : Beside t σ σ') (w : Wire D S) (hne : u ≠ t) :
    (forkRef w u).eval σ' = (forkRef w u).eval σ := by
  rw [forkRef, getJson, Prog.eval_read_bind, Prog.eval_read_bind, h.get_field hne (by decide)]
  cases σ.get (mKey u "fork") with
  | none => rfl
  | some b => rw [ofExcept_eval, ofExcept_eval]

theorem Beside.resolveHistory_eval (h : Beside t σ σ') {w : Wire D S}
    (hchain : ∀ u bound, Reached w σ s u bound → Clear σ t u bound) (depth : Nat) {u : String}
    {bound : Option Nat} (hu : Reached w σ s u bound) (visited : List String) (lo : Nat)
    {hi : Option Nat} (hhi : UpTo bound hi) :
    (resolveHistory w depth u visited lo hi).eval σ' =
      (resolveHistory w depth u visited lo hi).eval σ := by
  induction depth generalizing u bound visited hi with
  | zero => rfl
  | succ depth ih =>
      have hclear := hchain u bound hu
      rw [resolveHistory]
      split
      · rfl
      · split
        · rfl
        · rw [Prog.eval_bind, Prog.eval_bind, h.forkRef_eval w hclear.ne]
          cases hf : (forkRef w u).eval σ with
          | error e => rfl
          | ok f =>
              refine Prog.eval_bind_congr ?_ fun inherited =>
                Prog.eval_bind_congr (h.readEvents_eval w hclear lo hhi) fun own => rfl
              cases f with
              | none => rfl
              | some f =>
                  dsimp only
                  split
                  · exact ih (.parent hu hf) _ (hhi.parent f.atVersion)
                  · rfl

/-! ## Token appends -/

/-- The program runs to its end. -/
def Succeeds {α : Type} (p : RawM Result α) (x : Txn String fun _ => Bytes) : Prop :=
  ∃ r, p.run x = .ok r

theorem succeeds_bind {α β : Type} {p : RawM Result α} {f : α → RawM Result β}
    {x : Txn String fun _ => Bytes} :
    Succeeds (p >>= f) x ↔ ∃ a x', p.run x = .ok (a, x') ∧ Succeeds (f a) x' := by
  constructor
  · rintro ⟨⟨b, x'⟩, hrun⟩
    obtain ⟨a, x₁, hp, hf⟩ := Prog.run_bind_ok hrun
    exact ⟨a, x₁, hp, _, hf⟩
  · rintro ⟨a, x', hp, r, hf⟩
    exact ⟨r, by rw [Prog.run_bind, hp]; exact hf⟩

/-- What a transaction reads at a key. -/
def Wire.get (w : Wire D S) (σ : RawDb) (k : Key) : Except Error (Option (Val D S k)) :=
  w.coding.decode? k (σ.get (w.coding.name k))

theorem succeeds_read_bind {α : Type} (w : Wire D S) {k : Key}
    {f : Option (Val D S k) → TxnM D S α} {x : Txn String fun _ => Bytes} :
    Succeeds (w.body (Prog.read k >>= f)) x ↔ ∃ v, w.get x.view k = .ok v ∧
      Succeeds (w.body (f v)) (x.noteRead (· = w.coding.name k)) := by
  rw [Wire.body, Prog.lower_bind, succeeds_bind]
  simp only [Prog.run_lower_read, Wire.get]
  constructor
  · rintro ⟨v, x', hrun, hrest⟩
    cases hv : w.coding.decode? k (x.view.get (w.coding.name k)) with
    | error e =>
        rw [hv] at hrun
        cases hrun
    | ok v' =>
        rw [hv] at hrun
        cases hrun
        exact ⟨v, rfl, hrest⟩
  · rintro ⟨v, hv, hrest⟩
    exact ⟨v, _, by rw [hv], hrest⟩

theorem succeeds_putRecords (w : Wire D S) (stream : String) (indexTs : Bool)
    (first startSeq : Nat) (stamps : Nat → Stamp) (events : List (NewEvent D)) :
    ∀ i lastTs x, ∃ r, (w.body (putRecords stream indexTs first startSeq stamps i lastTs
      events : TxnM D S Int)).run x = .ok r := by
  induction events with
  | nil => exact fun i lastTs x => ⟨_, rfl⟩
  | cons e events ih =>
      intro i lastTs x
      cases indexTs with
      | true => exact ih _ _ _
      | false => exact ih _ _ _

/-- When an append with a token is let through. -/
def Accepts (w : Wire D S) (σ : RawDb) (stream token : String) (expected : ExpectedVersion)
    (events : List (NewEvent D)) : Prop :=
  ∃ tail, w.get σ (.tail stream) = .ok tail ∧
    (∃ fence, w.get σ (.fence stream) = .ok fence ∧
      ∀ current : String, fence = some current → current = token) ∧
    expected.admits (tail.map (·.version)) = true ∧ events.isEmpty = false

/-- A sequence whose second part does not depend on the first. -/
theorem succeeds_body_bind {α β : Type} (w : Wire D S) {p : TxnM D S α} {f : α → TxnM D S β}
    {x : Txn String fun _ => Bytes} {P : Prop} (hf : ∀ a x', Succeeds (w.body (f a)) x' ↔ P) :
    Succeeds (w.body (p >>= f)) x ↔ Succeeds (w.body p) x ∧ P := by
  rw [Wire.body, Prog.lower_bind, succeeds_bind]
  constructor
  · rintro ⟨a, x', hp, hrest⟩
    exact ⟨⟨_, hp⟩, (hf a x').mp hrest⟩
  · rintro ⟨⟨⟨a, x'⟩, hp⟩, hP⟩
    exact ⟨a, x', hp, (hf a x').mpr hP⟩

theorem succeeds_checkFence (w : Wire D S) {stream token : String}
    {x : Txn String fun _ => Bytes} :
    Succeeds (w.body (checkFence stream (some token) : TxnM D S Unit)) x ↔
      ∃ fence, w.get x.view (.fence stream) = .ok fence ∧
        ∀ current : String, fence = some current → current = token := by
  rw [checkFence, succeeds_read_bind]
  refine exists_congr fun fence => and_congr_right fun _ => ?_
  cases fence with
  | none =>
      constructor
      · intro _ current h
        cases h
      · exact fun _ => ⟨_, rfl⟩
  | some current =>
      dsimp only
      split
      · next heq =>
          refine ⟨fun _ current' h => ?_, fun _ => ⟨_, rfl⟩⟩
          cases h
          exact heq
      · next hne =>
          constructor
          · rintro ⟨r, hr⟩
            cases hr
          · exact fun h => absurd (h current rfl) hne

theorem succeeds_replayAppend (w : Wire D S) (seq : Nat) (stream token : String)
    (expected : ExpectedVersion) (events : List (NewEvent D)) (indexTs : Bool)
    (stamps : Nat → Stamp) (x : Txn String fun _ => Bytes) :
    Succeeds (w.body (replayAppend seq stream expected none (some token) events indexTs
      stamps : TxnM D S _)) x ↔ Accepts w x.view stream token expected events := by
  rw [replayAppend, Landslide.tail, succeeds_read_bind, Accepts]
  refine exists_congr fun tail => and_congr_right fun _ => ?_
  rw [succeeds_body_bind w (P := expected.admits (tail.map (·.version)) = true ∧
    events.isEmpty = false), succeeds_checkFence]
  · rfl
  intro _ x'
  cases hadmits : expected.admits (tail.map (·.version)) with
  | false =>
      rw [if_pos (by simp)]
      constructor
      · rintro ⟨r, hr⟩
        cases hr
      · simp
  | true =>
      rw [if_neg (by simp)]
      cases hempty : events.isEmpty with
      | true =>
          rw [if_pos rfl]
          constructor
          · rintro ⟨r, hr⟩
            cases hr
          · simp
      | false =>
          rw [if_neg (by simp)]
          refine ⟨fun _ => ⟨rfl, rfl⟩, fun _ => ?_⟩
          obtain ⟨⟨ts, x₁⟩, hput⟩ := succeeds_putRecords w stream indexTs
            ((none : Option Nat).getD ((tail.map (·.version)).elim 0 (· + 1))) (seq + 1) stamps
            events 0 (tail.elim 0 (·.tsMs)) x'
          rw [Wire.body, Prog.lower_bind, succeeds_bind]
          exact ⟨ts, x₁, hput, _, rfl⟩

theorem succeeds_appendBody (w : Wire D S) (stream token : String) (expected : ExpectedVersion)
    (events : List (NewEvent D)) (indexTs : Bool) (stamps : Nat → Stamp) (σ : RawDb) :
    Succeeds (w.body (appendBody stream expected none (some token) events indexTs stamps :
      TxnM D S _)) (.begin σ) ↔ Accepts w σ stream token expected events := by
  have hseq : ∃ v, w.get σ .seq = .ok v := by
    rw [Wire.get]
    cases σ.get (w.coding.name .seq) with
    | none => exact ⟨_, rfl⟩
    | some b => exact ⟨_, rfl⟩
  have hbody : (appendBody stream expected none (some token) events indexTs stamps : TxnM D S _) =
      Prog.read .seq >>= fun o => replayAppend (o.getD 0) stream expected none (some token) events
        indexTs stamps >>= fun r => commitSeq r.2 >>= fun _ => pure [r.1] := rfl
  rw [hbody, succeeds_read_bind]
  have hrest : ∀ (o : Option Nat) (x : Txn String fun _ => Bytes), x.view = σ →
      (Succeeds (w.body (replayAppend (o.getD 0) stream expected none (some token) events indexTs
        stamps >>= fun r => commitSeq r.2 >>= fun _ => pure [r.1] : TxnM D S _)) x ↔
          Accepts w σ stream token expected events) := by
    rintro o x rfl
    rw [succeeds_body_bind w (P := True), succeeds_replayAppend, and_true]
    exact fun r x' => ⟨fun _ => trivial, fun _ => ⟨_, rfl⟩⟩
  constructor
  · rintro ⟨v, -, h⟩
    exact (hrest v _ rfl).mp h
  · intro h
    obtain ⟨v, hv⟩ := hseq
    exact ⟨v, hv, (hrest v _ rfl).mpr h⟩

/-- The attempts of an append alone on the store: the first one commits or fails. -/
theorem succeeds_commitLoop (w : Wire D S) (stream token : String) (expected : ExpectedVersion)
    (events : List (NewEvent D)) (indexTs : Bool) (stamps : Nat → Nat → Stamp) (σ : RawDb) :
    ((w.proc (commitLoop stream expected none (some token) events indexTs stamps
      commitRetries : StoreProc D S)).exec σ).1.isOk = true ↔
      Succeeds (w.body (appendBody stream expected none (some token) events indexTs
        (stamps commitRetries) : TxnM D S _)) (.begin σ) := by
  have hfail : (w.body (appendBody stream expected none (some token) events indexTs
      (stamps 8) : TxnM D S _)).Within (fun _ => True) (fun _ => True) Failed :=
    (appendBody_within { stream, expected, fenceToken := some token, events } indexTs
      (stamps 8)).lower w.coding .error (fun _ _ => trivial) (fun _ _ => trivial)
      fun e => ⟨e, rfl⟩
  rw [Wire.body] at hfail
  rw [commitRetries, commitLoop, Wire.proc, Proc.lower, Proc.exec]
  simp only [Nat.reduceAdd, Wire.body, Succeeds]
  cases hrun : (Prog.lower w.coding Except.error (appendBody stream expected none (some token)
      events indexTs (stamps 8) : TxnM D S _)).run (.begin σ) with
  | ok r => exact ⟨fun _ => ⟨r, rfl⟩, fun _ => rfl⟩
  | error r =>
      obtain ⟨e, rfl⟩ := hfail.of_run_error hrun
      constructor
      · intro h
        cases h
      · rintro ⟨r, hr⟩
        cases hr

/-- Whether an append with a token, alone on the store, is let through. -/
def acceptsToken [Payload D] (w : Wire D S) (σ : RawDb) (stream token : String)
    (expected : ExpectedVersion) (events : List (NewEvent D)) (indexTs : Bool)
    (stamps : Nat → Nat → Stamp) : Bool :=
  ((callProc w 0 (.appendWithToken stream token expected events indexTs stamps)).exec σ).1.isOk

theorem acceptsToken_iff [Payload D] (w : Wire D S) (σ : RawDb) (stream token : String)
    (expected : ExpectedVersion) (events : List (NewEvent D)) (indexTs : Bool)
    (stamps : Nat → Nat → Stamp) :
    acceptsToken w σ stream token expected events indexTs stamps = true ↔
      checkBatch events = .ok () ∧ Accepts w σ stream token expected events := by
  have hproc : callProc w 0 (.appendWithToken stream token expected events indexTs stamps) =
      w.proc (commitAppends stream expected none (some token) events indexTs stamps) := rfl
  rw [acceptsToken, hproc, commitAppends]
  cases hbatch : checkBatch events with
  | error e =>
      constructor
      · intro h
        cases h
      · rintro ⟨h, -⟩
        cases h
  | ok u =>
      rw [← succeeds_appendBody w stream token expected events indexTs (stamps commitRetries) σ,
        ← succeeds_commitLoop]
      exact ⟨fun h => ⟨rfl, h⟩, And.right⟩

/-! ## Isolation -/

/-- Two states that look the same to every read of a stream, and let the same appends with
a token through. -/
structure SameView [Payload D] (w : Wire D S) (s : String) (σ σ' : RawDb) : Prop where
  readStream : ∀ start stop, readStream w σ' s start stop = readStream w σ s start stop
  readHistory : ∀ depth start stop,
    readHistory w depth σ' s start stop = readHistory w depth σ s start stop
  streamVersion : (streamVersion w s).eval σ' = (streamVersion w s).eval σ
  latestSnapshot : (latestSnapshot w s).eval σ' = (latestSnapshot w s).eval σ
  seekTimestamp : ∀ tsMs, (seekTimestamp s tsMs).eval σ' = (seekTimestamp s tsMs).eval σ
  acceptsToken : ∀ token expected events indexTs stamps,
    acceptsToken w σ' s token expected events indexTs stamps =
      acceptsToken w σ s token expected events indexTs stamps

theorem Apart.sameView [Payload D] {w : Wire D S} (hapart : Apart w σ s t)
    (h : Beside t σ σ') : SameView w s σ σ' := by
  have hclear := hapart.chain s none .self
  have htail := h.get_field hclear.ne (f := "tail") (by decide)
  have hfence := h.get_field hclear.ne (f := "fence") (by decide)
  refine ⟨fun start stop => ?_, fun depth start stop => ?_, ?_, ?_, fun tsMs => ?_, ?_⟩
  · exact h.readEvents_eval w hclear _ (by simp [UpTo])
  · exact h.resolveHistory_eval hapart.chain depth .self [] _ (by simp [UpTo])
  · refine Prog.eval_bind_congr ?_ fun _ => rfl
    rw [tail, getJson, Prog.eval_read_bind, Prog.eval_read_bind, htail]
    cases σ.get (mKey s "tail") with
    | none => rfl
    | some b => rw [ofExcept_eval, ofExcept_eval]
  · have hscan : σ'.scan (inPrefix (snapPrefix s) "" none) =
        σ.scan (inPrefix (snapPrefix s) "" none) :=
      Store.scan_congr fun key hkey => h.get_snapshot hapart.below hkey
    rw [latestSnapshot, scanPrefix, Prog.eval_readRange_bind, Prog.eval_readRange_bind, hscan]
    split
    · rfl
    · rw [ofExcept_eval, ofExcept_eval]
  · have hscan : σ'.scan (inPrefix (tsPrefix s) (padInt tsMs) none) =
        σ.scan (inPrefix (tsPrefix s) (padInt tsMs) none) :=
      Store.scan_congr fun key hkey => h.get_index hapart.below hapart.index hkey
    rw [seekTimestamp, Prog.eval_readRange_bind, Prog.eval_readRange_bind, hscan]
    split
    · rfl
    · rw [ofExcept_eval, ofExcept_eval]
  · intro token expected events indexTs stamps
    have hget : w.get σ' (.tail s) = w.get σ (.tail s) ∧
        w.get σ' (.fence s) = w.get σ (.fence s) :=
      ⟨congrArg (w.coding.decode? (.tail s)) htail, congrArg (w.coding.decode? (.fence s)) hfence⟩
    rw [Bool.eq_iff_iff, acceptsToken_iff, acceptsToken_iff, Accepts, Accepts, hget.1, hget.2]

/-- No calls on a stream, in any interleaving, show in the reads of a stream that is apart
from it. -/
theorem reads_apart [Payload D] (w : Wire D S) (chunks : Nat) {σ : RawDb} {s t : String}
    (hapart : Apart w σ s t) {acts : RawSchedule D S}
    (hacts : ∀ client call, .invoke client call ∈ acts → call.On t) :
    SameView w s σ (runCalls w chunks σ acts) :=
  hapart.sameView (beside_run w chunks σ hacts)

end

/-! ## A store of two events -/

/-- A format for some values: the number of the value. -/
def Codec.table {α : Type} [DecidableEq α] (values : List α) : Codec α where
  encode x := [UInt8.ofNat (values.idxOf x)]
  decode b :=
    match b with
    | [i] => (values[i.toNat]?).elim (.error (.invalidInput "bad code")) .ok
    | _ => .error (.invalidInput "bad code")

def sampleEvent : NewEvent Bytes := { eventType := "put", data := [7] }

def sampleStamp : Stamp := { ulid := "01J", nowMs := 100 }

/-- The envelope of the event as the first of its stream. -/
def sampleEnvelope (seq : Nat) : Envelope Bytes :=
  { Envelope.new sampleEvent 0 sampleStamp with seq := seq }

def sampleWire : Wire Bytes Bytes where
  envelope := .table [sampleEnvelope 1, sampleEnvelope 2]
  tail := .table [⟨0, 100⟩]
  token := .table []
  fork := .table [⟨"p", 0⟩]
  snapshot := .table []
  compaction := .table []

/-- Calls of one client, one after the other. -/
def inTurn (calls : List (Call Bytes Bytes)) : RawSchedule Bytes Bytes :=
  calls.flatMap fun call => .invoke 0 call :: List.replicate 12 (.step 0)

def appendTo (stream : String) : Call Bytes Bytes :=
  .append stream .any [sampleEvent] fun _ _ => sampleStamp

theorem of_inTurn {P : Call Bytes Bytes → Prop} {calls : List (Call Bytes Bytes)}
    (h : ∀ call ∈ calls, P call) (client : Nat) (call : Call Bytes Bytes)
    (hmem : .invoke client call ∈ inTurn calls) : P call := by
  obtain ⟨call', hcall', hmem⟩ := List.mem_flatMap.mp hmem
  rcases List.mem_cons.mp hmem with heq | hmem
  · cases heq
    exact h _ hcall'
  · cases List.eq_of_mem_replicate hmem

/-- In the empty store no stream is a fork. -/
theorem reached_empty {s u : String} {bound : Option Nat}
    (h : Reached sampleWire ∅ s u bound) : u = s := by
  induction h with
  | self => rfl
  | parent _ hf _ =>
      rw [forkRef, getJson, Prog.eval_read_bind, Store.get_empty] at hf
      cases hf

/-- An event appended to `a/b` is read from `a`, and neither is a fork of the other. -/
theorem sees_stream_below :
    ¬ ∀ (before acts : RawSchedule Bytes Bytes) (s t : String), s ≠ t →
      (∀ bound, ¬ Reached sampleWire (runCalls sampleWire 1 ∅ before) s t bound) →
      (∀ bound, ¬ Reached sampleWire (runCalls sampleWire 1 ∅ before) t s bound) →
      (∀ client call, .invoke client call ∈ acts → call.On t) →
        SameView sampleWire s (runCalls sampleWire 1 ∅ before)
          (runCalls sampleWire 1 (runCalls sampleWire 1 ∅ before) acts) := by
  intro h
  have hview := h [] (inTurn [appendTo "a/b"]) "a" "a/b" (by decide)
    (fun _ hr => absurd (reached_empty hr) (by decide))
    (fun _ hr => absurd (reached_empty hr) (by decide)) (of_inTurn (by simp [appendTo, Call.On]))
  have hread := congrArg Except.toOption (hview.readStream .unbounded .unbounded)
  have hafter : (readStream sampleWire (runCalls sampleWire 1 ∅ (inTurn [appendTo "a/b"])) "a"
      .unbounded .unbounded).toOption = some [.fromParts (sampleEnvelope 1)] := by
    decide +kernel
  have hbefore : (readStream sampleWire ∅ "a" .unbounded .unbounded).toOption = some [] := by
    decide +kernel
  exact absurd (hafter.symm.trans (hread.trans hbefore)) (by decide)

/-- A stream `p` of one event, and a fork `c` of it. -/
def forkedRaw : RawDb := runCalls sampleWire 1 ∅ (inTurn [appendTo "p", .fork "p" 0 "c"])

theorem reached_forkedRaw {u : String} {bound : Option Nat}
    (h : Reached sampleWire forkedRaw "c" u bound) :
    u = "c" ∧ bound = none ∨ u = "p" ∧ bound = some 1 := by
  induction h with
  | self => exact .inl ⟨rfl, rfl⟩
  | @parent u bound f _ hf ih =>
      rcases ih with ⟨rfl, rfl⟩ | ⟨rfl, rfl⟩
      · have hc : ((forkRef sampleWire "c").eval forkedRaw).toOption = some (some ⟨"p", 0⟩) := by
          decide +kernel
        rw [hf] at hc
        cases hc
        exact .inr ⟨rfl, rfl⟩
      · have hp : ((forkRef sampleWire "p").eval forkedRaw).toOption = some none := by
          decide +kernel
        rw [hf] at hp
        cases hp

theorem apart_forkedRaw : Apart sampleWire forkedRaw "c" "p/x" := by
  have hlive : Live forkedRaw "c" ∧ Live forkedRaw "p" := by
    unfold Live
    decide +kernel
  have hnot : ¬ Below "p/x" "c" ∧ ¬ Below "c" "p/x" ∧ ¬ Below "p/x" "p" := by decide
  refine ⟨by decide, fun tsMs heq => hnot.1 (below_iff.mpr ⟨_, heq⟩), fun u bound hu => ?_⟩
  rcases reached_forkedRaw hu with ⟨rfl, rfl⟩ | ⟨rfl, rfl⟩
  · exact ⟨by decide, fun x heq => absurd (below_iff.mpr ⟨x, heq⟩) hnot.2.1,
      fun x heq => absurd (below_iff.mpr ⟨x, heq⟩) hnot.1, by decide,
      fun hdead => absurd hlive.1 hdead⟩
  · refine ⟨by decide, fun x heq => ?_, fun x heq => absurd (below_iff.mpr ⟨x, heq⟩) hnot.2.2,
      by decide, fun hdead => absurd hlive.2 hdead⟩
    -- `x/` sorts after the versions that the fork reads of `p`
    obtain rfl : "x" = x := slash_append_inj (k := "p") heq
    rintro ⟨lo, hi, hup, -, hall⟩
    obtain ⟨b, rfl, hb⟩ := hup 1 rfl
    interval_cases b
    · exact absurd hall (by decide +kernel)
    · exact absurd hall (by decide +kernel)

theorem reads_apart_forkedRaw :
    SameView sampleWire "c" forkedRaw (runCalls sampleWire 1 forkedRaw
      (inTurn [appendTo "p/x", .trim "p/x" 0 0, .purgeBelow "p/x" 1, .deleteStream "p/x"])) :=
  reads_apart sampleWire 1 apart_forkedRaw (of_inTurn (by simp [appendTo, Call.On]))

end Landslide.Raw
