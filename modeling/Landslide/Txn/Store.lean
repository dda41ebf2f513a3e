import Mathlib.Tactic

/-!
# Ordered stores with typed values

A store maps the keys of an ordered type to values whose type depends on the
key.  It is finite and extensional: two stores with the same lookups are equal.
A scan lists the entries of a range in key order.

Three facts carry every later proof.  A lookup after a write is decided by the
key alone (`get_put`, `get_delete`), a scan is determined by the lookups of its
range (`scan_congr`), and a list of writes changes only the keys it mentions
(`get_applyAll_of_notMem`).
-/

set_option linter.unusedSectionVars false

namespace TxnKv

open Std

section

variable {K : Type} [Ord K] [TransOrd K] [LawfulEqOrd K] {V : K → Type}

/-- A finite store with key-dependent values. -/
abbrev Store (K : Type) [Ord K] (V : K → Type) : Type := ExtDTreeMap K V compare

namespace Store

/-- The value at a key. -/
def get (σ : Store K V) (k : K) : Option (V k) := σ.get? k

/-- The store with `v` at `k`. -/
def put (σ : Store K V) (k : K) (v : V k) : Store K V := σ.insert k v

/-- The store without `k`. -/
def delete (σ : Store K V) (k : K) : Store K V := σ.erase k

/-- The entries of a range, in key order. -/
def scan (σ : Store K V) (range : K → Bool) : List ((k : K) × V k) :=
  σ.toList.filter fun e => range e.1

/-! ## Lookups -/

@[simp] theorem get_empty (k : K) : (∅ : Store K V).get k = none :=
  ExtDTreeMap.get?_empty

@[simp] theorem get_put_self (σ : Store K V) (k : K) (v : V k) : (σ.put k v).get k = some v :=
  ExtDTreeMap.get?_insert_self

theorem get_put_of_ne (σ : Store K V) {k k' : K} (v : V k) (h : k' ≠ k) :
    (σ.put k v).get k' = σ.get k' := by
  have hc : compare k k' ≠ .eq := fun he => h (LawfulEqOrd.eq_of_compare he).symm
  simp [get, put, ExtDTreeMap.get?_insert, hc]

@[simp] theorem get_delete_self (σ : Store K V) (k : K) : (σ.delete k).get k = none :=
  ExtDTreeMap.get?_erase_self

theorem get_delete_of_ne (σ : Store K V) {k k' : K} (h : k' ≠ k) :
    (σ.delete k).get k' = σ.get k' := by
  have hc : compare k k' ≠ .eq := fun he => h (LawfulEqOrd.eq_of_compare he).symm
  simp [get, delete, ExtDTreeMap.get?_erase, hc]

/-- Stores with the same lookups are equal. -/
theorem ext {σ τ : Store K V} (h : ∀ k, σ.get k = τ.get k) : σ = τ :=
  ExtDTreeMap.ext_get? h

/-! ## Scans -/

@[simp] theorem mem_scan {σ : Store K V} {range : K → Bool} {k : K} {v : V k} :
    ⟨k, v⟩ ∈ σ.scan range ↔ range k = true ∧ σ.get k = some v := by
  simp only [scan, List.mem_filter, get, ExtDTreeMap.mem_toList_iff_get?_eq_some]
  exact And.comm

/-- A scan lists its keys in strictly increasing order. -/
theorem scan_sorted (σ : Store K V) (range : K → Bool) :
    (σ.scan range).Pairwise fun a b => compare a.1 b.1 = .lt :=
  ExtDTreeMap.ordered_keys_toList.filter _

instance keyLt_irrefl : Std.Irrefl fun a b : (k : K) × V k => compare a.1 b.1 = .lt where
  irrefl a h := by
    rw [(ReflCmp.compare_self : compare a.1 a.1 = .eq)] at h
    cases h

instance keyLt_antisymm : Std.Antisymm fun a b : (k : K) × V k => compare a.1 b.1 = .lt where
  antisymm a b h h' := by
    rw [(OrientedCmp.eq_swap : compare a.1 b.1 = _), h'] at h
    cases h

/-- A filtered scan is determined by the entries that pass. -/
theorem scan_filter_congr {σ τ : Store K V} {range range' : K → Bool}
    {keep keep' : (k : K) × V k → Bool}
    (h : ∀ k v, (range k = true ∧ σ.get k = some v ∧ keep ⟨k, v⟩ = true) ↔
      (range' k = true ∧ τ.get k = some v ∧ keep' ⟨k, v⟩ = true)) :
    (σ.scan range).filter keep = (τ.scan range').filter keep' := by
  refine ((scan_sorted σ range).filter _).eq_of_mem_iff ((scan_sorted τ range').filter _) ?_
  rintro ⟨k, v⟩
  simp only [List.mem_filter, mem_scan, and_assoc]
  exact h k v

/-- A scan is determined by the lookups of its range. -/
theorem scan_congr {σ τ : Store K V} {range : K → Bool}
    (h : ∀ k, range k = true → σ.get k = τ.get k) : σ.scan range = τ.scan range := by
  refine (scan_sorted σ range).eq_of_mem_iff (scan_sorted τ range) ?_
  rintro ⟨k, v⟩
  simp only [mem_scan]
  constructor
  · rintro ⟨hr, hv⟩
    exact ⟨hr, by rw [← h k hr]; exact hv⟩
  · rintro ⟨hr, hv⟩
    exact ⟨hr, by rw [h k hr]; exact hv⟩

end Store

/-! ## Writes -/

/-- One write: a key and its new value, or none for a deletion. -/
abbrev Write (K : Type) (V : K → Type) : Type := (k : K) × Option (V k)

namespace Store

/-- The store after one write. -/
def apply (σ : Store K V) : Write K V → Store K V
  | ⟨k, some v⟩ => σ.put k v
  | ⟨k, none⟩ => σ.delete k

/-- The store after a list of writes, oldest first. -/
def applyAll (σ : Store K V) (ws : List (Write K V)) : Store K V := ws.foldl apply σ

@[simp] theorem applyAll_nil (σ : Store K V) : σ.applyAll [] = σ := rfl

@[simp] theorem applyAll_cons (σ : Store K V) (w : Write K V) (ws : List (Write K V)) :
    σ.applyAll (w :: ws) = (σ.apply w).applyAll ws := rfl

@[simp] theorem get_apply_self (σ : Store K V) (k : K) (o : Option (V k)) :
    (σ.apply ⟨k, o⟩).get k = o := by
  cases o <;> simp [apply]

theorem get_apply_of_ne (σ : Store K V) {k k' : K} (o : Option (V k)) (h : k' ≠ k) :
    (σ.apply ⟨k, o⟩).get k' = σ.get k' := by
  cases o with
  | none => exact get_delete_of_ne σ h
  | some v => exact get_put_of_ne σ v h

/-- Writes change only the keys they mention. -/
theorem get_applyAll_of_notMem {k : K} : ∀ (σ : Store K V) (ws : List (Write K V)),
    (∀ w ∈ ws, w.1 ≠ k) → (σ.applyAll ws).get k = σ.get k
  | _, [], _ => rfl
  | σ, ⟨k', o⟩ :: ws, h => by
      rw [applyAll_cons, get_applyAll_of_notMem _ ws fun w hw => h w (List.mem_cons_of_mem _ hw)]
      exact get_apply_of_ne σ o (Ne.symm (h ⟨k', o⟩ (by simp)))

/-- Two stores that agree at a key still agree there after the same writes. -/
theorem get_applyAll_congr {k : K} : ∀ (σ τ : Store K V) (ws : List (Write K V)),
    σ.get k = τ.get k → (σ.applyAll ws).get k = (τ.applyAll ws).get k
  | _, _, [], h => h
  | σ, τ, ⟨k', o⟩ :: ws, h => by
      rw [applyAll_cons, applyAll_cons]
      refine get_applyAll_congr _ _ ws ?_
      by_cases hk : k = k'
      · subst hk
        simp
      · rw [get_apply_of_ne σ o hk, get_apply_of_ne τ o hk, h]

/-- A key that is written ends up the same whatever the store was before. -/
theorem get_applyAll_of_mem {k : K} : ∀ (σ τ : Store K V) (ws : List (Write K V)),
    (∃ w ∈ ws, w.1 = k) → (σ.applyAll ws).get k = (τ.applyAll ws).get k
  | _, _, [], h => by simp at h
  | σ, τ, ⟨k', o⟩ :: ws, h => by
      rw [applyAll_cons, applyAll_cons]
      by_cases hk : k' = k
      · subst hk
        exact get_applyAll_congr _ _ ws (by simp)
      · refine get_applyAll_of_mem _ _ ws ?_
        obtain ⟨w, hw, hwk⟩ := h
        rcases List.mem_cons.mp hw with rfl | hw
        · exact absurd hwk hk
        · exact ⟨w, hw, hwk⟩

/-! ## Agreement off one key -/

/-- The stores have the same lookups at every key but `k`. -/
def AgreeOff (k : K) (σ τ : Store K V) : Prop := ∀ k', k' ≠ k → σ.get k' = τ.get k'

namespace AgreeOff

variable {k : K} {σ τ υ : Store K V}

theorem refl (σ : Store K V) : σ.AgreeOff k σ := fun _ _ => rfl

theorem apply (h : σ.AgreeOff k τ) (w : Write K V) : (σ.apply w).AgreeOff k (τ.apply w) :=
  fun k' hk => get_applyAll_congr σ τ [w] (h k' hk)

/-- Writing the key itself on one side changes nothing. -/
theorem put_right (h : σ.AgreeOff k τ) (v : V k) : σ.AgreeOff k (τ.put k v) :=
  fun k' hk => (h k' hk).trans (get_put_of_ne τ v hk).symm

theorem put_left (h : σ.AgreeOff k τ) (v : V k) : (σ.put k v).AgreeOff k τ :=
  fun k' hk => (get_put_of_ne σ v hk).trans (h k' hk)

end AgreeOff

end Store

end

end TxnKv
