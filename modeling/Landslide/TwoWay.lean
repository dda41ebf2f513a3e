import Mathlib.Logic.Function.Basic
import Mathlib.Data.List.Nodup

/-!
# Two-way tables

Keys and the numbers they were given, in two maps that are kept together: one from a key
to its number and one from a number to its key.  A rekeying takes entries one by one from
their key to another (`rekey`).  It keeps the two maps inverse to each other exactly if
every entry that moves lands on a key without a number, or on one whose own entry went
before it (`foldl_rekey_inverse_iff`).

Whatever the entries land on, a number that is found for a key leads back to it
(`Sound`).
-/

namespace Landslide

/-- A map from keys to numbers and one back. -/
structure TwoWay (K I : Type) where
  number : K → Option I
  key : I → Option K

namespace TwoWay

variable {K I : Type}

/-- Each of the two maps undoes the other. -/
def Inverse (t : TwoWay K I) : Prop := ∀ k i, t.number k = some i ↔ t.key i = some k

/-- The number of a key has this key. -/
def Sound (t : TwoWay K I) : Prop := ∀ k i, t.number k = some i → t.key i = some k

theorem Inverse.sound {t : TwoWay K I} (h : t.Inverse) : t.Sound := fun k i => (h k i).mp

/-- In inverse tables no two numbers have one key. -/
theorem Inverse.key_inj {t : TwoWay K I} (h : t.Inverse) {i j : I} {k : K} (hi : t.key i = some k)
    (hj : t.key j = some k) : i = j :=
  Option.some.inj (((h k i).mpr hi).symm.trans ((h k j).mpr hj))

variable [DecidableEq K] [DecidableEq I]

/-! ## Entering a key -/

/-- Gives a key a number. -/
def enter (t : TwoWay K I) (k : K) (i : I) : TwoWay K I where
  number := Function.update t.number k (some i)
  key := Function.update t.key i (some k)

theorem enter_number (t : TwoWay K I) (k r : K) (i : I) :
    (t.enter k i).number r = if r = k then some i else t.number r :=
  Function.update_apply _ _ _ _

theorem enter_key (t : TwoWay K I) (k : K) (i j : I) :
    (t.enter k i).key j = if j = i then some k else t.key j :=
  Function.update_apply _ _ _ _

theorem Sound.enter {t : TwoWay K I} (h : t.Sound) {i : I} (hi : t.key i = none) (k : K) :
    (t.enter k i).Sound := by
  intro r j hr
  rw [enter_number] at hr
  rw [enter_key]
  split at hr
  · next hrk =>
    cases hr
    rw [if_pos rfl, hrk]
  · have hj := h r j hr
    rw [if_neg, hj]
    rintro rfl
    rw [hi] at hj
    cases hj

/-- A new key with a new number keeps the tables inverse. -/
theorem Inverse.enter {t : TwoWay K I} (h : t.Inverse) {k : K} {i : I} (hk : t.number k = none)
    (hi : t.key i = none) : (t.enter k i).Inverse := by
  intro r j
  refine ⟨h.sound.enter hi k r j, fun hj => ?_⟩
  rw [enter_key] at hj
  rw [enter_number]
  split at hj
  · next hji =>
    cases hj
    rw [if_pos rfl, hji]
  · have hr := (h r j).mpr hj
    rw [if_neg, hr]
    rintro rfl
    rw [hk] at hr
    cases hr

/-! ## Rekeying -/

/-- Takes an entry from its key to another. -/
def rekey (remap : K → K) (t : TwoWay K I) (e : K × I) : TwoWay K I where
  number := Function.update (Function.update t.number e.1 none) (remap e.1) (some e.2)
  key := Function.update t.key e.2 (some (remap e.1))

variable {remap : K → K} {t : TwoWay K I}

theorem rekey_number (t : TwoWay K I) (e : K × I) (r : K) : (t.rekey remap e).number r =
    if r = remap e.1 then some e.2 else if r = e.1 then none else t.number r := by
  rw [rekey]
  dsimp only
  rw [Function.update_apply, Function.update_apply]

theorem rekey_key (t : TwoWay K I) (e : K × I) (j : I) :
    (t.rekey remap e).key j = if j = e.2 then some (remap e.1) else t.key j :=
  Function.update_apply _ _ _ _

/-- An entry that stays changes nothing. -/
theorem rekey_self {e : K × I} (hnumber : t.number e.1 = some e.2) (hkey : t.key e.2 = some e.1)
    (he : remap e.1 = e.1) : t.rekey remap e = t := by
  rw [rekey, he, ← hkey, Function.update_eq_self, Function.update_idem, ← hnumber,
    Function.update_eq_self]

theorem Sound.rekey (h : t.Sound) {e : K × I} (hkey : t.key e.2 = some e.1) :
    (t.rekey remap e).Sound := by
  intro r j hr
  rw [rekey_number] at hr
  rw [rekey_key]
  split at hr
  · next hre =>
    cases hr
    rw [if_pos rfl, hre]
  split at hr
  · cases hr
  · next hre =>
    have hj := h r j hr
    rw [if_neg, hj]
    rintro rfl
    exact hre (Option.some.inj (hj.symm.trans hkey))

/-- An entry that lands on a key without a number keeps the tables inverse. -/
theorem Inverse.rekey (h : t.Inverse) {e : K × I} (hnumber : t.number e.1 = some e.2)
    (hfree : t.number (remap e.1) = none) : (t.rekey remap e).Inverse := by
  intro r j
  refine ⟨h.sound.rekey ((h e.1 e.2).mp hnumber) r j, fun hj => ?_⟩
  rw [rekey_key] at hj
  rw [rekey_number]
  split at hj
  · next hje =>
    cases hj
    rw [if_pos rfl, hje]
  · next hje =>
    have hr := (h r j).mpr hj
    rw [if_neg, if_neg, hr]
    · rintro rfl
      exact hje (Option.some.inj (hr.symm.trans hnumber))
    · rintro rfl
      rw [hfree] at hr
      cases hr

/-! ## Rekeying many -/

/-- The numbers that are not rekeyed have the keys they had. -/
theorem foldl_rekey_key_of_notMem {i : I} : ∀ {l : List (K × I)} {t : TwoWay K I},
    (∀ e ∈ l, e.2 ≠ i) → (l.foldl (rekey remap) t).key i = t.key i
  | [], _, _ => rfl
  | e :: l, t, h => by
      rw [List.foldl_cons,
        foldl_rekey_key_of_notMem fun e' he' => h e' (List.mem_cons_of_mem _ he')]
      exact Function.update_of_ne (h e List.mem_cons_self).symm _ _

/-- A number that is rekeyed once has its new key. -/
theorem foldl_rekey_key_of_mem {e : K × I} : ∀ {l : List (K × I)} {t : TwoWay K I},
    (l.map (·.2)).Nodup → e ∈ l → (l.foldl (rekey remap) t).key e.2 = some (remap e.1)
  | e' :: l, t, hnodup, he => by
      rw [List.map_cons, List.nodup_cons] at hnodup
      rw [List.foldl_cons]
      rcases List.mem_cons.mp he with rfl | he
      · rw [foldl_rekey_key_of_notMem]
        · exact Function.update_self _ _ _
        · rintro e' he' heq
          exact hnodup.1 (heq ▸ List.mem_map_of_mem he')
      · exact foldl_rekey_key_of_mem hnodup.2 he

/-- A key on which nothing lands keeps its number, or loses it if its entry moves. -/
theorem foldl_rekey_number {k : K} : ∀ {l : List (K × I)} {t : TwoWay K I},
    (∀ e ∈ l, remap e.1 ≠ k) → (l.foldl (rekey remap) t).number k =
      if k ∈ l.map (·.1) then none else t.number k
  | [], _, _ => rfl
  | e :: l, t, h => by
      have he := h e List.mem_cons_self
      rw [List.foldl_cons, foldl_rekey_number fun e' he' => h e' (List.mem_cons_of_mem _ he'),
        List.map_cons, rekey_number, if_neg he.symm]
      by_cases hk : k = e.1
      · rw [if_pos hk, ite_self, if_pos (hk ▸ List.mem_cons_self)]
      · simp only [List.mem_cons, hk, false_or, if_false]

/-- Rekeying leaves every number that is found for a key the number with that key. -/
theorem Sound.foldl_rekey : ∀ {l : List (K × I)} {t : TwoWay K I}, t.Sound →
    (l.map (·.2)).Nodup → (∀ e ∈ l, t.key e.2 = some e.1) → (l.foldl (TwoWay.rekey remap) t).Sound
  | [], _, h, _, _ => h
  | e :: l, t, h, hnodup, hkeys => by
      rw [List.map_cons, List.nodup_cons] at hnodup
      rw [List.foldl_cons]
      refine (h.rekey (hkeys e List.mem_cons_self)).foldl_rekey hnodup.2 fun e' he' => ?_
      rw [rekey_key, if_neg]
      · exact hkeys e' (List.mem_cons_of_mem _ he')
      · rintro heq
        exact hnodup.1 (heq ▸ List.mem_map_of_mem he')

/-- Every entry that moves lands on a key without a number, or on one whose own entry
went before it. -/
def Lands (remap : K → K) (t : TwoWay K I) (l : List (K × I)) : Prop :=
  ∀ before e after, l = before ++ e :: after → remap e.1 ≠ e.1 →
    ∀ i, t.number (remap e.1) = some i → (remap e.1, i) ∈ before

omit [DecidableEq I] in
/-- The entries after one that lands as it should. -/
theorem lands_cons {e : K × I} {l : List (K × I)} {t' : TwoWay K I}
    (hinj : ∀ e' ∈ l, remap e'.1 ≠ remap e.1)
    (hhead : remap e.1 ≠ e.1 → t.number (remap e.1) = none)
    (hnumber : t.number e.1 = some e.2)
    (ht' : ∀ e' ∈ l, t'.number (remap e'.1) =
      if remap e'.1 = e.1 then none else t.number (remap e'.1)) :
    Lands remap t (e :: l) ↔ Lands remap t' l := by
  constructor
  · rintro h before e' after rfl hmove i hi
    have hmem : e' ∈ before ++ e' :: after := by simp
    rw [ht' e' hmem] at hi
    split at hi
    · cases hi
    · next hne =>
      rcases List.mem_cons.mp (h (e :: before) e' after rfl hmove i hi) with heq | hbefore
      · exact absurd (congrArg Prod.fst heq) hne
      · exact hbefore
  · intro h before e' after hsplit hmove i hi
    cases before with
    | nil =>
        cases hsplit
        rw [hhead hmove] at hi
        cases hi
    | cons e₀ before =>
        cases hsplit
        have hmem : e' ∈ before ++ e' :: after := by simp
        by_cases hne : remap e'.1 = e.1
        · rw [hne, hnumber] at hi
          cases hi
          rw [hne]
          exact List.mem_cons_self
        · refine List.mem_cons_of_mem _ (h before e' after rfl hmove i ?_)
          rw [ht' e' hmem, if_neg hne, hi]

/-- Rekeying keeps inverse tables inverse exactly if every entry lands as it should. -/
theorem foldl_rekey_inverse_iff : ∀ {l : List (K × I)} {t : TwoWay K I}, t.Inverse → l.Nodup →
    (∀ e ∈ l, t.number e.1 = some e.2) →
    (∀ e ∈ l, ∀ e' ∈ l, remap e.1 = remap e'.1 → e = e') →
    ((l.foldl (rekey remap) t).Inverse ↔ Lands remap t l)
  | [], t, h, _, _, _ => by
      refine iff_of_true h ?_
      intro before e after hsplit
      cases before <;> cases hsplit
  | e :: l, t, h, hnodup, hnumbers, hinj => by
      have hnumber := hnumbers e List.mem_cons_self
      have hkey := (h e.1 e.2).mp hnumber
      obtain ⟨hnotMem, hnodup⟩ := List.nodup_cons.mp hnodup
      have hlater : ∀ e' ∈ l, remap e'.1 ≠ remap e.1 := by
        rintro e' he' heq
        have := hinj e' (List.mem_cons_of_mem _ he') e List.mem_cons_self heq
        exact hnotMem (this ▸ he')
      have hinj' : ∀ e ∈ l, ∀ e' ∈ l, remap e.1 = remap e'.1 → e = e' := fun e₁ h₁ e₂ h₂ =>
        hinj e₁ (List.mem_cons_of_mem _ h₁) e₂ (List.mem_cons_of_mem _ h₂)
      -- an entry of the tables with the number of `e` is `e`
      have hother : ∀ e' ∈ l, e'.2 ≠ e.2 := by
        rintro e' he' heq
        have hkey' := (h e'.1 e'.2).mp (hnumbers e' (List.mem_cons_of_mem _ he'))
        rw [heq, hkey] at hkey'
        exact hnotMem (Prod.ext (Option.some.inj hkey') heq.symm ▸ he')
      rw [List.foldl_cons]
      by_cases hmove : remap e.1 = e.1
      · rw [rekey_self hnumber hkey hmove, foldl_rekey_inverse_iff h hnodup
          (fun e' he' => hnumbers e' (List.mem_cons_of_mem _ he')) hinj']
        refine (lands_cons hlater (absurd hmove) hnumber fun e' he' => ?_).symm
        rw [if_neg]
        rw [← hmove]
        exact hlater e' he'
      cases hland : t.number (remap e.1) with
      | none =>
          rw [foldl_rekey_inverse_iff (h.rekey hnumber hland) hnodup ?_ hinj']
          · refine (lands_cons hlater (fun _ => hland) hnumber fun e' he' => ?_).symm
            rw [rekey_number, if_neg (hlater e' he')]
          · intro e' he'
            have hnumber' := hnumbers e' (List.mem_cons_of_mem _ he')
            rw [rekey_number, if_neg, if_neg, hnumber']
            · rintro heq
              rw [heq, hnumber] at hnumber'
              exact hother e' he' (Option.some.inj hnumber').symm
            · rintro heq
              rw [heq, hland] at hnumber'
              cases hnumber'
      | some j =>
          refine iff_of_false (fun hinv => ?_) fun hlands => ?_
          · have hkeyj := (h _ _).mp hland
            have hkeye : (l.foldl (rekey remap) (t.rekey remap e)).key e.2 = some (remap e.1) := by
              rw [foldl_rekey_key_of_notMem hother]
              exact Function.update_self _ _ _
            by_cases hmem : remap e.1 ∈ l.map (·.1)
            · -- the entry it landed on is erased in its turn
              have hnone := foldl_rekey_number (t := t.rekey remap e) hlater
              rw [if_pos hmem, (hinv _ _).mpr hkeye] at hnone
              cases hnone
            · -- the entry it landed on keeps its key
              have hj : j ≠ e.2 := by
                rintro rfl
                rw [hkey] at hkeyj
                exact hmove (Option.some.inj hkeyj).symm
              have hkeyj' : (l.foldl (rekey remap) (t.rekey remap e)).key j = some (remap e.1) := by
                rw [foldl_rekey_key_of_notMem, rekey_key, if_neg hj, hkeyj]
                rintro e' he' rfl
                have hkey' := (h e'.1 e'.2).mp (hnumbers e' (List.mem_cons_of_mem _ he'))
                rw [hkeyj] at hkey'
                exact hmem (Option.some.inj hkey' ▸ List.mem_map_of_mem he')
              exact hj (hinv.key_inj hkeyj' hkeye)
          · have hnil := hlands [] e l rfl hmove j hland
            cases hnil

end TwoWay

end Landslide
