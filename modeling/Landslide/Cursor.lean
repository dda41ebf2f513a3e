import Mathlib.Data.List.Nodup
import Mathlib.Data.List.Pairwise
import Mathlib.Order.Basic

/-!
# Followers with a cursor

A follower polls a growing collection of rows.  Each poll goes through the rows in key
order, yields those past the cursor, and moves the cursor to the last key it has
yielded.  A row whose key is below the cursor when the row appears is never yielded.

So a follower yields every row exactly once, by the end of the first poll that sees it,
if and only if keys appear in order from poll to poll (`yields_once_iff`).
-/

namespace Cursor

open Std

section

variable {K T : Type} [Ord K] [TransOrd K]

/-- The key is past the cursor. -/
def past (cursor : Option K) (k : K) : Bool := cursor.all fun c => compare c k == .lt

/-- One poll: the cursor after it, and the rows it yields. -/
def poll (cursor : Option K) : List (K × T) → Option K × List (K × T)
  | [] => (cursor, [])
  | row :: rows =>
      if past cursor row.1 then
        let r := poll (some row.1) rows
        (r.1, row :: r.2)
      else poll cursor rows

/-- The rows come in strict key order. -/
def Ascending (rows : List (K × T)) : Prop := rows.Pairwise fun r r' => compare r.1 r'.1 = .lt

omit [TransOrd K] in
theorem past_some {c k : K} : past (some c) k = true ↔ compare c k = .lt := by
  simp [past]

/-- A poll yields the rows past its cursor. -/
theorem poll_yields : ∀ {rows : List (K × T)} {cursor : Option K}, Ascending rows →
    (poll cursor rows).2 = rows.filter fun row => past cursor row.1
  | [], _, _ => rfl
  | row :: rows, cursor, h => by
      obtain ⟨hhead, hrows⟩ := List.pairwise_cons.mp h
      rw [poll]
      split
      · next hpast =>
        rw [List.filter_cons, if_pos hpast]
        show row :: (poll (some row.1) rows).2 = _
        rw [poll_yields hrows]
        -- what follows a row that is yielded is past its key, and past the old cursor
        refine congrArg (row :: ·) (List.filter_congr fun r hr => ?_)
        have hlt := hhead r hr
        rw [past_some.mpr hlt]
        cases cursor with
        | none => rfl
        | some c => exact (past_some.mpr (TransCmp.lt_trans (past_some.mp hpast) hlt)).symm
      · next hpast =>
        rw [List.filter_cons, if_neg hpast, poll_yields hrows]

omit [TransOrd K] in
/-- A poll leaves the cursor, or moves it to one of the rows. -/
theorem poll_cursor : ∀ (rows : List (K × T)) (cursor : Option K),
    (poll cursor rows).1 = cursor ∨ ∃ row ∈ rows, (poll cursor rows).1 = some row.1
  | [], _ => .inl rfl
  | row :: rows, cursor => by
      rw [poll]
      split
      · right
        rcases poll_cursor rows (some row.1) with heq | ⟨r, hr, heq⟩
        · exact ⟨row, List.mem_cons_self, heq⟩
        · exact ⟨r, List.mem_cons_of_mem _ hr, heq⟩
      · rcases poll_cursor rows cursor with heq | ⟨r, hr, heq⟩
        · exact .inl heq
        · exact .inr ⟨r, List.mem_cons_of_mem _ hr, heq⟩

/-- What is past the cursor after a poll was past it before, and past every row of it. -/
theorem past_of_past_poll : ∀ {rows : List (K × T)} {cursor : Option K} {k : K}, Ascending rows →
    past (poll cursor rows).1 k = true →
      past cursor k = true ∧ ∀ row ∈ rows, compare row.1 k = .lt
  | [], _, _, _, hpast => ⟨hpast, by simp⟩
  | row :: rows, cursor, k, h, hpast => by
      obtain ⟨-, hrows⟩ := List.pairwise_cons.mp h
      rw [poll] at hpast
      split at hpast
      · next hrow =>
        obtain ⟨hkey, hrest⟩ := past_of_past_poll hrows hpast
        have hlt := past_some.mp hkey
        refine ⟨?_, fun r hr => ?_⟩
        · cases cursor with
          | none => rfl
          | some c => exact past_some.mpr (TransCmp.lt_trans (past_some.mp hrow) hlt)
        · rcases List.mem_cons.mp hr with rfl | hr
          · exact hlt
          · exact hrest r hr
      · next hrow =>
        obtain ⟨hkey, hrest⟩ := past_of_past_poll hrows hpast
        refine ⟨hkey, fun r hr => ?_⟩
        rcases List.mem_cons.mp hr with rfl | hr
        · -- the cursor is not below a row that is skipped
          cases cursor with
          | none => exact absurd rfl hrow
          | some c =>
              have hck := past_some.mp hkey
              have hcr : compare c r.1 ≠ .lt := fun hlt => hrow (past_some.mpr hlt)
              have hrc : (compare r.1 c).isLE = true := by
                rw [OrientedOrd.eq_swap]
                cases hcmp : compare c r.1 with
                | lt => exact absurd hcmp hcr
                | eq => rfl
                | gt => rfl
              exact TransCmp.lt_of_isLE_of_lt hrc hck
        · exact hrest r hr

namespace Ascending

theorem ne_of_lt {k k' : K} (hlt : compare k k' = .lt) : k ≠ k' := by
  rintro rfl
  rw [ReflOrd.compare_self] at hlt
  cases hlt

/-- One row has a given key. -/
theorem filter_key [DecidableEq K] : ∀ {rows : List (K × T)} {row : K × T}, Ascending rows →
    row ∈ rows → rows.filter (fun y => y.1 = row.1) = [row]
  | r :: rows, row, h, hrow => by
      obtain ⟨hhead, hrows⟩ := List.pairwise_cons.mp h
      rcases List.mem_cons.mp hrow with rfl | hrow
      · rw [List.filter_cons, if_pos (decide_eq_true rfl)]
        refine congrArg (row :: ·) (List.filter_eq_nil_iff.mpr fun y hy hkey => ?_)
        exact ne_of_lt (hhead y hy) (of_decide_eq_true hkey).symm
      · have hne : r.1 ≠ row.1 := ne_of_lt (hhead row hrow)
        rw [List.filter_cons, if_neg (by simpa using hne)]
        exact filter_key hrows hrow

/-- Rows are told apart by their keys. -/
theorem eq_of_key [DecidableEq K] {rows : List (K × T)} {row row' : K × T} (h : Ascending rows)
    (hrow : row ∈ rows) (hrow' : row' ∈ rows) (hkey : row.1 = row'.1) : row = row' := by
  have hmem : row ∈ rows.filter (fun y => y.1 = row'.1) :=
    List.mem_filter.mpr ⟨hrow, decide_eq_true hkey⟩
  rw [h.filter_key hrow'] at hmem
  exact List.mem_singleton.mp hmem

end Ascending

/-! ## Poll after poll -/

variable (view : Nat → List (K × T))

/-- The cursor before poll `n`. -/
def cursorAt : Nat → Option K
  | 0 => none
  | n + 1 => (poll (cursorAt n) (view n)).1

/-- What the first `n` polls yield. -/
def yielded : Nat → List (K × T)
  | 0 => []
  | n + 1 => yielded n ++ (poll (cursorAt view n) (view n)).2

/-- Every row that a poll sees has been yielded exactly once by the end of that poll. -/
def YieldsOnce [DecidableEq K] : Prop :=
  ∀ n, ∀ row ∈ view n, (yielded view (n + 1)).filter (fun y => y.1 = row.1) = [row]

/-- A row that a poll is the first to see comes after every row that the poll before saw. -/
def AppearInOrder : Prop :=
  ∀ n, ∀ row ∈ view (n + 1), row ∉ view n → ∀ old ∈ view n, compare old.1 row.1 = .lt

/-- Rows are in key order and stay. -/
structure Growing : Prop where
  ascending : ∀ n, Ascending (view n)
  grows : ∀ n, ∀ row ∈ view n, row ∈ view (n + 1)

variable {view}

namespace Growing

omit [TransOrd K] in
theorem mono (h : Growing view) {m n : Nat} (hmn : m ≤ n) {row : K × T} (hrow : row ∈ view m) :
    row ∈ view n := by
  induction hmn with
  | refl => exact hrow
  | step _ ih => exact h.grows _ row ih

/-- What has been yielded was seen. -/
theorem mem_of_yielded (h : Growing view) : ∀ {n : Nat} {row : K × T}, row ∈ yielded view n →
    ∃ m, m < n ∧ row ∈ view m ∧ past (cursorAt view m) row.1 = true
  | n + 1, row, hrow => by
      rcases List.mem_append.mp hrow with hrow | hrow
      · obtain ⟨m, hm, hmem⟩ := h.mem_of_yielded hrow
        exact ⟨m, Nat.lt_succ_of_lt hm, hmem⟩
      · rw [poll_yields (h.ascending n)] at hrow
        obtain ⟨hmem, hpast⟩ := List.mem_filter.mp hrow
        exact ⟨n, Nat.lt_succ_self n, hmem, hpast⟩

/-- What is past the cursor is past every row seen before. -/
theorem lt_of_past (h : Growing view) {n : Nat} {k : K} (hpast : past (cursorAt view n) k = true) :
    ∀ m, m < n → ∀ row ∈ view m, compare row.1 k = .lt := by
  induction n with
  | zero => exact fun m hm => absurd hm (Nat.not_lt_zero m)
  | succ n ih =>
      intro m hm row hrow
      obtain ⟨hbefore, hrows⟩ := past_of_past_poll (h.ascending n) hpast
      rcases Nat.lt_succ_iff_lt_or_eq.mp hm with hm | rfl
      · exact ih hbefore m hm row hrow
      · exact hrows row hrow

omit [TransOrd K] in
/-- The cursor stands at a row that was seen. -/
theorem cursor_mem (h : Growing view) : ∀ {n : Nat} {c : K}, cursorAt view (n + 1) = some c →
    ∃ row ∈ view n, row.1 = c
  | 0, c, hc => by
      rcases poll_cursor (view 0) none with heq | ⟨row, hrow, heq⟩
      · rw [cursorAt, cursorAt, heq] at hc
        cases hc
      · rw [cursorAt, cursorAt, heq] at hc
        exact ⟨row, hrow, Option.some.inj hc⟩
  | n + 1, c, hc => by
      rcases poll_cursor (view (n + 1)) (cursorAt view (n + 1)) with
        heq | ⟨row, hrow, heq⟩
      · rw [cursorAt, heq] at hc
        obtain ⟨row, hrow, hkey⟩ := h.cursor_mem hc
        exact ⟨row, h.grows n row hrow, hkey⟩
      · rw [cursorAt, heq] at hc
        exact ⟨row, hrow, Option.some.inj hc⟩

section

variable [DecidableEq K]

/-- What was seen before is not past the cursor. -/
theorem filter_past_of_seen (h : Growing view) {n : Nat} {row : K × T} (hrow : row ∈ view n) :
    ((view (n + 1)).filter fun y => past (cursorAt view (n + 1)) y.1).filter
      (fun y => y.1 = row.1) = [] := by
  rw [List.filter_eq_nil_iff]
  intro y hy hkey
  have hlt := h.lt_of_past (List.mem_filter.mp hy).2 n (Nat.lt_succ_self n) row hrow
  rw [of_decide_eq_true hkey, ReflOrd.compare_self] at hlt
  cases hlt

/-- A row that is new has not been yielded. -/
theorem filter_yielded_of_new (h : Growing view) {n : Nat} {row : K × T}
    (hrow : row ∈ view (n + 1)) (hnew : row ∉ view n) :
    (yielded view (n + 1)).filter (fun y => y.1 = row.1) = [] := by
  rw [List.filter_eq_nil_iff]
  intro y hy hkey
  obtain ⟨m, hm, hseen, -⟩ := h.mem_of_yielded hy
  have hy : y ∈ view n := h.mono (Nat.lt_succ_iff.mp hm) hseen
  have heq : y = row := (h.ascending (n + 1)).eq_of_key (h.grows n y hy) hrow (of_decide_eq_true hkey)
  exact hnew (heq ▸ hy)

end

omit [TransOrd K] in
/-- A key above everything seen is past the cursor. -/
theorem past_of_above (h : Growing view) {n : Nat} {k : K}
    (habove : ∀ old ∈ view n, compare old.1 k = .lt) :
    past (cursorAt view (n + 1)) k = true := by
  cases hcursor : cursorAt view (n + 1) with
  | none => rfl
  | some c =>
      obtain ⟨row, hrow, rfl⟩ := h.cursor_mem hcursor
      exact past_some.mpr (habove row hrow)

end Growing

/-- A follower yields every row once, by the end of the first poll that sees it, exactly
if rows appear in key order. -/
theorem yields_once_iff [DecidableEq K] (h : Growing view) :
    YieldsOnce view ↔ AppearInOrder view := by
  constructor
  · intro honce n row hrow hnew old hold
    have hmem : row ∈ yielded view (n + 2) := by
      have hmem := List.mem_singleton_self row
      rw [← honce (n + 1) row hrow] at hmem
      exact List.mem_of_mem_filter hmem
    -- it can only have been yielded by the poll that first saw it
    obtain ⟨m, hm, hseen, hpast⟩ := h.mem_of_yielded hmem
    have hmn : m = n + 1 := by
      by_contra hne
      exact hnew (h.mono (by omega) hseen)
    subst hmn
    exact h.lt_of_past hpast n (Nat.lt_succ_self n) old hold
  · intro horder n
    induction n with
    | zero =>
        intro row hrow
        have hall : yielded view 1 = view 0 := by
          rw [yielded, yielded, List.nil_append, cursorAt, poll_yields (h.ascending 0)]
          exact List.filter_eq_self.mpr fun _ _ => rfl
        rw [hall]
        exact (h.ascending _).filter_key hrow
    | succ n ih =>
        intro row hrow
        rw [yielded, List.filter_append, poll_yields (h.ascending (n + 1))]
        by_cases hold : row ∈ view n
        · rw [ih row hold, h.filter_past_of_seen hold, List.append_nil]
        · rw [h.filter_yielded_of_new hrow hold, List.nil_append, List.filter_comm,
            (h.ascending _).filter_key hrow, List.filter_singleton]
          rw [h.past_of_above fun old holdrow => horder n row hrow hold old holdrow]
          rfl

/-! ## Rows that only come at the end -/

end

end Cursor
