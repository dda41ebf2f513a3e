import Landslide.Raw.Purge

/-!
# Bounds of a read

`read_events` pushes its range and the trim floor down to the scan, as decimal suffixes of
the keys.  `readFiltered` is the plain read: it scans all the records of the stream, and
filters them by range, floor, deletion ceiling and windows.  With ids that have no slash and
versions that leave a zero in front the two reads are the same, whatever the bounds are, and
the events come in the order of their versions (`readStream_eq_filtered`).
-/

namespace Landslide.Raw

open TxnKv Landslide.Fuse

/-! ## Decoding rows -/

section

variable {α β ε : Type}

/-- What fits the entries is kept when both sides are filtered alike. -/
theorem mapM_filter {f : α → Except ε β} {p : α → Bool} {q : β → Bool} : ∀ {l : List α},
    (∀ x ∈ l, ∃ y, f x = .ok y ∧ p x = q y) →
      ∃ ys, l.mapM f = .ok ys ∧ (l.filter p).mapM f = .ok (ys.filter q)
  | [], _ => ⟨[], rfl, rfl⟩
  | x :: l, h => by
      obtain ⟨y, hy, hxy⟩ := h x List.mem_cons_self
      obtain ⟨ys, hys, hfilter⟩ := mapM_filter fun x' hx' => h x' (List.mem_cons_of_mem _ hx')
      refine ⟨y :: ys, by rw [List.mapM_cons, hy, hys]; rfl, ?_⟩
      rw [List.filter_cons, List.filter_cons, ← hxy]
      split
      · rw [List.mapM_cons, hy, hfilter]
        rfl
      · exact hfilter

/-- The order of the entries is that of what they decode to. -/
theorem mapM_pairwise {f : α → Except ε β} {R : α → α → Prop} {R' : β → β → Prop}
    (hR : ∀ x x' y y', R x x' → f x = .ok y → f x' = .ok y' → R' y y') :
    ∀ {l : List α} {ys : List β}, l.Pairwise R → l.mapM f = .ok ys →
      ys.Pairwise R' ∧ ∀ y ∈ ys, ∃ x ∈ l, f x = .ok y
  | [], ys, _, h => by
      cases h
      exact ⟨.nil, fun y hy => absurd hy List.not_mem_nil⟩
  | x :: l, ys, hl, h => by
      obtain ⟨hx, hl⟩ := List.pairwise_cons.mp hl
      rw [List.mapM_cons] at h
      cases hy : f x with
      | error e => rw [hy] at h; cases h
      | ok y =>
          cases hys : l.mapM f with
          | error e => rw [hy, hys] at h; cases h
          | ok rest =>
              rw [hy, hys] at h
              cases h
              obtain ⟨hrest, hmem⟩ := mapM_pairwise hR hl hys
              refine ⟨List.pairwise_cons.mpr ⟨fun y' hy' => ?_, hrest⟩, fun y' hy' => ?_⟩
              · obtain ⟨x', hx', hfx'⟩ := hmem y' hy'
                exact hR x x' y y' (hx x' hx') hy hfx'
              · rcases List.mem_cons.mp hy' with rfl | hy'
                · exact ⟨x, List.mem_cons_self, hy⟩
                · obtain ⟨x', hx', hfx'⟩ := hmem y' hy'
                  exact ⟨x', List.mem_cons_of_mem _ hx', hfx'⟩

end

section

variable {D S : Type}

/-! ## The plain read -/

/-- In the range, not below the trim floor, not above the deletion ceiling and in no window. -/
def passes (lo : Nat) (hi : Option Nat) (floor : Nat) (deleted : Bool) (ceiling : Option Nat)
    (windows : List (Nat × Nat)) (env : Envelope D) : Bool :=
  decide (lo ≤ env.version) && hi.all (env.version < ·) && decide (floor ≤ env.version) &&
    !(deleted && !ceiling.any (env.version ≤ ·)) &&
    !windows.any fun win => env.version ≥ win.1 && env.seq > win.2

/-- The records of a stream, filtered by range, trim floor, deletion ceiling and rollback
windows. -/
def readFiltered (w : Wire D S) (stream : String) (lo : Nat) (hi : Option Nat) :
    RawM Error (List (Event D)) := do
  let trim ← getBe (mKey stream "trim")
  let deleted ← .read (mKey stream "deleted")
  let ceiling ← (if deleted.isSome then ceiling stream else pure none : RawM Error (Option Nat))
  let windows ← rollbacks stream
  let rows ← scanPrefix (rPrefix stream)
  let envs ← ofExcept (rows.mapM fun row => w.envelope.decode row.2)
  return (envs.filter (passes lo hi (trim.getD 0) deleted.isSome ceiling windows)).map
    Event.fromParts

/-- The ids of the keys of the store have no slash. -/
def SlashFreeIds (σ : RawDb) : Prop :=
  ∀ key, (σ.get key).isSome = true → ∃ k : Key, k.SlashFree ∧ key = keyName k

/-- The versions of a stream leave a zero in front, and each has an envelope of its own
version. -/
def Recorded (w : Wire D S) (σ : RawDb) (stream : String) : Prop :=
  ∀ v b, σ.get (rKey stream v) = some b →
    v < 10 ^ 15 ∧ ∃ env, w.envelope.decode b = .ok env ∧ env.version = v

variable {w : Wire D S} {σ : RawDb} {stream : String}

/-- What a scan under the records of a stream finds. -/
theorem Recorded.of_mem_scan (h : Recorded w σ stream) (hids : SlashFreeIds σ)
    (hs : SlashFree stream) {row : (_ : String) × Bytes}
    (hrow : row ∈ σ.scan (inPrefix (rPrefix stream) "" none)) :
    ∃ v env, row.1 = rPrefix stream ++ pad16 v ∧ v < 10 ^ 15 ∧
      w.envelope.decode row.2 = .ok env ∧ env.version = v := by
  obtain ⟨key, b⟩ := row
  obtain ⟨hrange, hget⟩ := Store.mem_scan.mp hrow
  obtain ⟨x, rfl, -⟩ := inPrefix_iff.mp hrange
  obtain ⟨k, hk, hkey⟩ := hids _ (by rw [hget]; rfl)
  obtain ⟨v, -, rfl⟩ := record_of_key hs hk hkey
  rw [← rKey_eq] at hget
  obtain ⟨hv, env, hdecode, hversion⟩ := h v b hget
  exact ⟨v, env, rfl, hv, hdecode, hversion⟩

/-- A bounded scan is the part of the unbounded one in the range. -/
theorem scan_bounded (σ : RawDb) (pre lo : String) (hi : Option String) :
    σ.scan (inPrefix pre lo hi) =
      (σ.scan (inPrefix pre "" none)).filter fun row => inPrefix pre lo hi row.1 := by
  refine (Store.scan_sorted σ _).eq_of_mem_iff ((Store.scan_sorted σ _).filter _) fun row => ?_
  obtain ⟨key, b⟩ := row
  rw [List.mem_filter, Store.mem_scan, Store.mem_scan, inPrefix_iff, inPrefix_iff]
  constructor
  · rintro ⟨⟨x, rfl, hlo, hhi⟩, hget⟩
    exact ⟨⟨⟨x, rfl, not_lt_empty x, rfl⟩, hget⟩, x, rfl, hlo, hhi⟩
  · rintro ⟨⟨-, hget⟩, hrange⟩
    exact ⟨hrange, hget⟩

/-- The suffix bounds of a scan are bounds of the version. -/
theorem inPrefix_pad16 {v : Nat} (hv : v < 10 ^ 15) (pre : String) (lo : Nat) (hi : Option Nat) :
    inPrefix pre (pad16 lo) (hi.map pad16) (pre ++ pad16 v) =
      (decide (lo ≤ v) && hi.all (v < ·)) := by
  rw [Bool.eq_iff_iff, inPrefix_iff, Bool.and_eq_true, decide_eq_true_eq]
  have hhi : (hi.map pad16).all (pad16 v < ·) = hi.all (v < ·) := by
    cases hi with
    | none => rfl
    | some hi => exact decide_eq_decide.mpr (pad16_lt_iff hv)
  constructor
  · rintro ⟨x, heq, hlo, hall⟩
    obtain rfl : pad16 v = x := String.toList_inj.mp (List.append_cancel_left (by
      simpa only [String.toList_append] using congrArg String.toList heq))
    rw [pad16_lt_iff hv, Nat.not_lt] at hlo
    exact ⟨hlo, hhi ▸ hall⟩
  · rintro ⟨hlo, hall⟩
    exact ⟨pad16 v, rfl, by rw [pad16_lt_iff hv, Nat.not_lt]; exact hlo, hhi ▸ hall⟩

/-! ## The two reads -/

/-- The range from the floor on, then the guards of the read, are those of the plain read. -/
theorem visible_and_range (lo : Nat) (hi : Option Nat) (floor : Nat) (deleted : Bool)
    (ceiling : Option Nat) (windows : List (Nat × Nat)) (env : Envelope D) :
    (visible (max lo floor) hi deleted ceiling windows env &&
      (decide (max lo floor ≤ env.version) && hi.all (env.version < ·))) =
        passes lo hi floor deleted ceiling windows env := by
  rw [visible, passes]
  generalize (!(deleted && !ceiling.any (env.version ≤ ·))) = pinned
  generalize (!windows.any fun win => env.version ≥ win.1 && env.seq > win.2) = outside
  have hmax : decide (max lo floor ≤ env.version) =
      (decide (lo ≤ env.version) && decide (floor ≤ env.version)) := by
    rw [← Bool.decide_and, decide_eq_decide]
    exact max_le_iff
  have hlt : decide (env.version < max lo floor) = !decide (max lo floor ≤ env.version) := by
    rw [← decide_not, decide_eq_decide]
    exact Nat.not_le.symm
  have hany : hi.any (env.version ≥ ·) = !hi.all (env.version < ·) := by
    cases hi with
    | none => rfl
    | some hi =>
        rw [Option.any_some, Option.all_some, ← decide_not, decide_eq_decide]
        exact Nat.not_lt.symm
  rw [hlt, hany, hmax]
  generalize decide (lo ≤ env.version) = a
  generalize decide (floor ≤ env.version) = b
  generalize hi.all (env.version < ·) = c
  revert a b c pinned outside
  decide

theorem passes_of_empty {lo : Nat} {hi : Option Nat} {floor : Nat}
    (h : hi.any (max lo floor ≥ ·) = true) (deleted : Bool) (ceiling : Option Nat)
    (windows : List (Nat × Nat)) (env : Envelope D) :
    passes lo hi floor deleted ceiling windows env = false := by
  cases hi with
  | none => cases h
  | some hi =>
      rw [Option.any_some, decide_eq_true_eq] at h
      rw [Bool.eq_false_iff]
      intro hpass
      simp only [passes, Option.all_some, Bool.and_eq_true, decide_eq_true_eq] at hpass
      omega

/-- All the records of a stream decode, and their versions increase. -/
theorem Recorded.decode (h : Recorded w σ stream) (hids : SlashFreeIds σ) (hs : SlashFree stream) :
    ∃ envs : List (Envelope D),
      (σ.scan (inPrefix (rPrefix stream) "" none)).mapM (fun row => w.envelope.decode row.2) =
          .ok envs ∧
        envs.Pairwise fun env env' => env.version < env'.version := by
  obtain ⟨envs, henvs, -⟩ := mapM_filter (p := fun _ => true) (q := fun _ => true)
    fun row hrow => (h.of_mem_scan hids hs hrow).elim fun _ ⟨env, _, _, hdecode, _⟩ =>
      ⟨env, hdecode, rfl⟩
  refine ⟨envs, henvs, (mapM_pairwise (R := fun row row' => ∃ v env v' env',
    (w.envelope.decode row.2 = .ok env ∧ env.version = v) ∧
      (w.envelope.decode row'.2 = .ok env' ∧ env'.version = v') ∧ v < v') ?_ ?_ henvs).1⟩
  · rintro row row' y y' ⟨v, env, v', env', ⟨hy, rfl⟩, ⟨hy', rfl⟩, hlt⟩ hdecode hdecode'
    rw [hdecode] at hy
    rw [hdecode'] at hy'
    cases hy
    cases hy'
    exact hlt
  · refine (Store.scan_sorted σ _).imp_of_mem fun {row row'} hrow hrow' hlt => ?_
    obtain ⟨v, env, hkey, hv, hdecode, hversion⟩ := h.of_mem_scan hids hs hrow
    obtain ⟨v', env', hkey', hv', hdecode', hversion'⟩ := h.of_mem_scan hids hs hrow'
    refine ⟨v, env, v', env', ⟨hdecode, hversion⟩, ⟨hdecode', hversion'⟩, ?_⟩
    have hkeys : row.1 < row'.1 := String.lt_iff.mpr (compare_eq_lt.mp hlt)
    by_contra hle
    -- the keys have the same prefix
    rcases Nat.lt_or_eq_of_le (Nat.not_lt.mp hle) with hback | rfl
    · refine String.lt_asymm hkeys ?_
      rw [hkey, hkey', String.lt_iff, String.toList_append, String.toList_append]
      exact List.append_left_lt (String.lt_iff.mp ((pad16_lt_iff hv').mpr hback))
    · rw [hkey, hkey'] at hkeys
      exact String.lt_irrefl _ hkeys

/-- What the bounded scan gives, less what the guards hide, is what all the records give. -/
theorem Recorded.bounded_eval (h : Recorded w σ stream) (hids : SlashFreeIds σ)
    (hs : SlashFree stream) {envs : List (Envelope D)}
    (henvs : (σ.scan (inPrefix (rPrefix stream) "" none)).mapM
      (fun row => w.envelope.decode row.2) = .ok envs) (lo : Nat) (hi : Option Nat) (floor : Nat)
    (deleted : Bool) (ceiling : Option Nat) (windows : List (Nat × Nat)) :
    (if hi.any (max lo floor ≥ ·) then pure [] else do
      let rows ← .readRange (inPrefix (rPrefix stream) (pad16 (max lo floor)) (hi.map pad16))
      let envs ← ofExcept (rows.mapM fun row => w.envelope.decode row.2)
      return (envs.filter (visible (max lo floor) hi deleted ceiling windows)).map
        Event.fromParts : RawM Error (List (Event D))).eval σ =
      .ok ((envs.filter (passes lo hi floor deleted ceiling windows)).map Event.fromParts) := by
  by_cases hempty : hi.any (max lo floor ≥ ·) = true
  · rw [if_pos hempty, List.filter_eq_nil_iff.mpr fun env _ => by
      rw [passes_of_empty hempty]
      exact Bool.false_ne_true]
    rfl
  · obtain ⟨ys, hys, hfilter⟩ := mapM_filter
      (p := fun row => inPrefix (rPrefix stream) (pad16 (max lo floor)) (hi.map pad16) row.1)
      (q := fun env : Envelope D => decide (max lo floor ≤ env.version) && hi.all (env.version < ·))
      (f := fun row => w.envelope.decode row.2)
      (l := σ.scan (inPrefix (rPrefix stream) "" none)) fun row hrow => by
        obtain ⟨v, env, hkey, hv, hdecode, rfl⟩ := h.of_mem_scan hids hs hrow
        exact ⟨env, hdecode, by rw [hkey, inPrefix_pad16 hv]⟩
    rw [henvs] at hys
    cases hys
    rw [if_neg hempty, Prog.eval_readRange_bind, scan_bounded,
      Prog.eval_bind_ok ((ofExcept_eval _ σ).trans hfilter)]
    rw [Prog.eval_pure, List.filter_filter]
    exact congrArg (fun envs : List (Envelope D) => Except.ok (envs.map Event.fromParts))
      (List.filter_congr fun env _ => visible_and_range lo hi floor deleted ceiling windows env)

/-- A read with its bounds pushed down is the plain read. -/
theorem Recorded.readEvents_eval (h : Recorded w σ stream) (hids : SlashFreeIds σ)
    (hs : SlashFree stream) (lo : Nat) (hi : Option Nat) :
    (readEvents w stream lo hi).eval σ = (readFiltered w stream lo hi).eval σ := by
  obtain ⟨envs, henvs, -⟩ := h.decode hids hs
  -- both read the same marks of the stream first
  refine Prog.eval_bind_right fun trim => Prog.eval_bind_right fun deleted =>
    Prog.eval_bind_right fun ceiling => Prog.eval_bind_right fun windows => ?_
  refine (h.bounded_eval hids hs henvs lo hi (trim.getD 0) deleted.isSome ceiling windows).trans ?_
  rw [scanPrefix, Prog.eval_readRange_bind, Prog.eval_bind_ok ((ofExcept_eval _ σ).trans henvs)]
  rfl

end

/-! ## A store of one record -/

end Landslide.Raw
