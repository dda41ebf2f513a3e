import Mathlib.Tactic

/-!
# Overlays with subtree tombstones

A map of paths is brought up to date by a list of entries: a value is put at its
path, and a tombstone takes away its path and everything below it.  The order of
the paths is one in which what is below a path comes after it, and entries are
merged in that order.

`Tracks` says when the entries collected from a map `base` to a map `live` are
enough: every path has its current value as its entry or is as it was, and a
tombstone stands above no live path that has no entry of its own.  Merging such
entries over `base` gives `live` (`Tracks.merge_eq`), and `Tracks.change` is the
rule for a step of the collection.
-/

namespace Subtree

variable {K V : Type} [DecidableEq K] (below : K → K → Prop) [DecidableRel below]

/-- Takes away a path and everything below it. -/
def erase (m : K → Option V) (k : K) : K → Option V :=
  fun q => if q = k ∨ below k q then none else m q

/-- One entry: a value or a tombstone. -/
def mergeEntry (m : K → Option V) (entry : K × Option V) : K → Option V :=
  match entry.2 with
  | some v => Function.update m entry.1 (some v)
  | none => erase below m entry.1

/-- Merges entries in order. -/
def merge (m : K → Option V) (entries : List (K × Option V)) : K → Option V :=
  entries.foldl (mergeEntry below) m

/-! ## What a list of entries covers -/

/-- A path has its current value as its entry, or has none and is as in `base`. -/
def Follows (base live : K → Option V) (entries : K → Option (Option V)) : Prop :=
  ∀ q, entries q = some (live q) ∨ entries q = none ∧ live q = base q

omit [DecidableEq K] [DecidableRel below] in
theorem Follows.refl (base : K → Option V) : Follows base base fun _ => none :=
  fun _ => .inr ⟨rfl, rfl⟩

omit [DecidableEq K] in
/-- One path is given an entry and its value. -/
theorem Follows.step {base live live' : K → Option V} {entries entries' : K → Option (Option V)}
    (h : Follows base live entries)
    (hq : ∀ q, entries' q = some (live' q) ∨ entries' q = entries q ∧ live' q = live q) :
    Follows base live' entries' := by
  intro q
  rcases hq q with hq | ⟨he, hl⟩
  · exact .inl hq
  · rw [he, hl]
    exact h q

/-- The entries lead from `base` to `live`. -/
structure Tracks (base live : K → Option V) (entries : K → Option (Option V)) : Prop where
  follows : Follows base live entries
  under : ∀ k q, entries k = some none → below k q → entries q = none → live q = none

namespace Tracks

variable {below} {base live live' : K → Option V} {entries entries' : K → Option (Option V)}

omit [DecidableEq K] [DecidableRel below] in
theorem refl (base : K → Option V) : Tracks below base base fun _ => none where
  follows := .refl base
  under k q hk := by cases hk

omit [DecidableEq K] [DecidableRel below] in
/-- A step that follows, drops no entry, and puts a new tombstone only where every
live path below has an entry. -/
theorem change (h : Tracks below base live entries) (hf : Follows base live' entries')
    (hkeep : ∀ q, entries' q = none → entries q = none)
    (htomb : ∀ k, entries' k = some none → entries k = some none ∨
      ∀ q, below k q → live q ≠ none → entries' q ≠ none) : Tracks below base live' entries' where
  follows := hf
  under k q hk hb hq := by
    have hold := hkeep q hq
    -- a path without an entry has not changed
    have hsame : live' q = live q := by
      rcases hf q with hf' | ⟨-, hbase'⟩
      · rw [hq] at hf'
        cases hf'
      · rcases h.follows q with hf | ⟨-, hbase⟩
        · rw [hold] at hf
          cases hf
        · rw [hbase', hbase]
    rw [hsame]
    rcases htomb k hk with hk | hk
    · exact h.under k q hk hb hold
    · by_contra hlive
      exact hk q hb hlive hq

/-- Merging over a map that is right, but at paths still to come, gives the map. -/
theorem merge_of_rest {r : K → K → Prop} (hbelow : ∀ k q, below k q → r k q)
    (h : Tracks below base live entries) (hasymm : ∀ a b, r a b → ¬ r b a)
    {l : List (K × Option V)} (hmem : ∀ e ∈ l, entries e.1 = some e.2)
    (hsorted : l.Pairwise fun a b => r a.1 b.1) {m : K → Option V}
    (hm : ∀ q, m q = live q ∨ q ∈ l.map (·.1))
    (hlater : ∀ q, entries q ≠ none → q ∈ l.map (·.1) ∨ ∀ e ∈ l, ¬ r e.1 q) :
    merge below m l = live := by
  induction l generalizing m with
  | nil =>
      funext q
      rcases hm q with hq | hq
      · exact hq
      · cases hq
  | cons e l ih =>
      obtain ⟨k, v⟩ := e
      have hk : entries k = some v := hmem (k, v) List.mem_cons_self
      obtain ⟨hhead, htail⟩ := List.pairwise_cons.mp hsorted
      have hv : live k = v := by
        rcases h.follows k with hf | ⟨hf, -⟩
        · exact (Option.some.inj (hk.symm.trans hf)).symm
        · rw [hk] at hf
          cases hf
      refine ih (fun e he => hmem e (List.mem_cons_of_mem _ he)) htail (fun q => ?_) (fun q hq => ?_)
      · by_cases hqk : q = k
        · left
          cases v with
          | none => simp [mergeEntry, erase, hqk, hv]
          | some v => simp [mergeEntry, hqk, hv]
        · have hstay : m q = live q ∨ q ∈ l.map (·.1) := by
            rcases hm q with hq | hq
            · exact .inl hq
            · rcases List.mem_cons.mp hq with hq | hq
              · exact absurd hq hqk
              · exact .inr hq
          cases v with
          | some v => simpa [mergeEntry, hqk] using hstay
          | none =>
              by_cases hb : below k q
              · by_cases hnone : live q = none
                · left
                  simp [mergeEntry, erase, hb, hnone]
                · -- a live path below the tombstone has an entry, which is yet to come
                  right
                  have hq : entries q ≠ none := fun hq => hnone (h.under k q hk hb hq)
                  rcases hlater q hq with hq | hq
                  · rcases List.mem_cons.mp hq with hq | hq
                    · exact absurd hq hqk
                    · exact hq
                  · exact absurd (hbelow k q hb) (hq _ List.mem_cons_self)
              · simpa [mergeEntry, erase, hqk, hb] using hstay
      · rcases hlater q hq with hq | hq
        · rcases List.mem_cons.mp hq with rfl | hq
          · exact .inr fun e he hr => hasymm _ _ (hhead e he) hr
          · exact .inl hq
        · exact .inr fun e he => hq e (List.mem_cons_of_mem _ he)

/-- Merging the entries, in an order in which what is below comes later, gives the
map they lead to. -/
theorem merge_eq {r : K → K → Prop} (hbelow : ∀ k q, below k q → r k q)
    (hasymm : ∀ a b, r a b → ¬ r b a) (h : Tracks below base live entries)
    {l : List (K × Option V)} (hmem : ∀ k v, (k, v) ∈ l ↔ entries k = some v)
    (hsorted : l.Pairwise fun a b => r a.1 b.1) : merge below base l = live := by
  have hkeys : ∀ q, entries q ≠ none → q ∈ l.map (·.1) := by
    intro q hq
    obtain ⟨v, hv⟩ := Option.ne_none_iff_exists'.mp hq
    exact List.mem_map.mpr ⟨(q, v), (hmem q v).mpr hv, rfl⟩
  refine merge_of_rest hbelow h hasymm (fun e he => (hmem e.1 e.2).mp he) hsorted (fun q => ?_)
    (fun q hq => .inl (hkeys q hq))
  rcases h.follows q with hf | ⟨-, hbase⟩
  · exact .inr (hkeys q (by rw [hf]; simp))
  · exact .inl hbase.symm

end Tracks

end Subtree
