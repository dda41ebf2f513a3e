import Landslide.Decimal
import Landslide.Raw.Listing

/-!
# Purging byte keys

`purge_below` scans `r/{stream}/` between two numbers of sixteen digits, deletes what it
finds in chunks, and goes on from the version that it reads off the last key of a chunk.
In a store whose ids have no slash and whose versions leave a zero in front (`Tidy`), the
keys found are those of the records in the range (`scan_records`), whatever the bounds
are.  So alone on the store a purge deletes the records below the floor and above the
pins of the live children, and nothing else (`purgeBelow_exact`).
-/

namespace Landslide.Raw

open TxnKv Landslide.Fuse

section

variable {D S : Type}

/-! ## Names of records -/

theorem toList_pad16 (n : Nat) : (pad16 n).toList = Decimal.padded 16 n := by
  rw [pad16, pad, String.toList_ofList, Decimal.padded]

/-- Versions that leave a zero in front are in the order of their names. -/
theorem pad16_lt_iff {v n : Nat} (hv : v < 10 ^ 15) : pad16 v < pad16 n ↔ v < n := by
  rw [String.lt_iff, toList_pad16, toList_pad16]
  exact Decimal.padded_lt_iff (by decide) hv

theorem rKey_eq (stream : String) (v : Nat) : rKey stream v = rPrefix stream ++ pad16 v := by
  refine String.toList_inj.mp ?_
  rw [toList_rKey, String.toList_append, toList_rPrefix]
  simp

theorem rKey_inj {stream stream' : String} {v w : Nat} (h : rKey stream v = rKey stream' w) :
    stream = stream' ∧ pad16 v = pad16 w := by
  have hlist := congrArg String.toList h
  rw [toList_rKey, toList_rKey, List.cons_inj_right, List.cons_inj_right] at hlist
  obtain ⟨hstream, hv⟩ :=
    Separated.append_sep_inj (slash_notMem_pad16 v) (slash_notMem_pad16 w) hlist
  exact ⟨String.toList_inj.mp hstream, String.toList_inj.mp hv⟩

theorem pad16_inj {v w : Nat} (h : pad16 v = pad16 w) : v = w := by
  have hvalue := congrArg (fun s : String => Decimal.value s.toList) h
  simpa only [toList_pad16, Decimal.value_padded] using hvalue

/-- The version read off the key of a record. -/
theorem versionSuffix_rKey (stream : String) {v : Nat} (hv : v < 10 ^ 16) :
    versionSuffix (rKey stream v) = .ok v := by
  have hlen : (Decimal.padded 16 v).length = 16 := Decimal.length_padded (by decide) hv
  have hdrop : (rKey stream v).toList.drop ((rKey stream v).toList.length - 16) =
      Decimal.padded 16 v := by
    rw [rKey_eq, String.toList_append, toList_pad16, List.length_append, hlen,
      Nat.add_sub_cancel, List.drop_left]
  have hdigits : (Decimal.padded 16 v).all Char.isDigit = true :=
    List.all_eq_true.mpr (Decimal.digits_padded 16 v)
  have hhead : (Decimal.padded 16 v).head? ≠ some '+' := by
    intro h
    have hplus := Decimal.digits_padded 16 v '+' (List.mem_of_head? h)
    exact absurd hplus (by decide)
  have hnil : Decimal.padded 16 v ≠ [] := by
    intro h
    rw [h] at hlen
    cases hlen
  rw [versionSuffix, hdrop]
  simp only [if_neg hhead]
  rw [if_pos ⟨hnil, hdigits⟩, ← Nat.ofDigitChars_eq_foldl]
  exact congrArg Except.ok (Decimal.value_padded 16 v)

/-! ## Stores -/

/-- The key has ids without slashes, and its version leaves a zero in front. -/
def Key.Tidy : Key → Prop
  | .record stream version => SlashFree stream ∧ version < 10 ^ 15
  | k => k.SlashFree

/-- A store of such keys. -/
def Tidy (σ : RawDb) : Prop :=
  ∀ key, (σ.get key).isSome = true → ∃ k : Key, Key.Tidy k ∧ key = keyName k

/-- The versions stored in `[lo, hi)`. -/
def stored (σ : RawDb) (stream : String) (lo hi : Nat) : List Nat :=
  (List.range' lo (hi - lo)).filter fun v => (σ.get (keyName (.record stream v))).isSome

theorem mem_stored {σ : RawDb} {stream : String} {lo hi v : Nat} :
    v ∈ stored σ stream lo hi ↔
      (lo ≤ v ∧ v < hi) ∧ (σ.get (keyName (.record stream v))).isSome = true := by
  rw [stored, List.mem_filter, List.mem_range'_1]
  refine and_congr_left fun _ => ?_
  omega

theorem stored_sorted (σ : RawDb) (stream : String) (lo hi : Nat) :
    (stored σ stream lo hi).Pairwise (· < ·) :=
  (List.pairwise_lt_range' 1 Nat.one_pos).filter _

variable {σ : RawDb} {stream : String}

theorem Key.Tidy.slashFree {k : Key} (h : Key.Tidy k) : k.SlashFree := by
  cases k with
  | record => exact h.1
  | tail | fence | trim | deleted | fork | forks | rollback | ts | snap | compaction | seq => exact h

/-- A key under the records of a stream is that of one of them. -/
theorem record_of_key (hs : SlashFree stream) {k : Key} (hk : k.SlashFree) {x : String}
    (hkey : rPrefix stream ++ x = keyName k) : ∃ v, k = .record stream v ∧ x = pad16 v := by
  have hlist : (rPrefix stream ++ x).toList = 'r' :: '/' :: (stream.toList ++ '/' :: x.toList) := by
    rw [String.toList_append, toList_rPrefix]
    simp
  have hhead : (keyName k).toList.head? = some 'r' := by
    rw [← hkey, hlist]
    rfl
  cases k with
  | record s v =>
      rw [keyName] at hkey
      rw [hkey, toList_rKey, List.cons_inj_right, List.cons_inj_right] at hlist
      rcases Separated.eq_or_under hlist with ⟨heq, hx⟩ | ⟨rest, hstream, -⟩ | ⟨rest, hstream, -⟩
      · exact ⟨v, by rw [String.toList_inj.mp heq], (String.toList_inj.mp hx).symm⟩
      · exact absurd (hstream ▸ by simp) hs
      · exact absurd (hstream ▸ by simp) hk
  | ts s tsMs v =>
      rw [keyName, toList_tsKey] at hhead
      cases hhead
  | snap s n =>
      rw [keyName, String.toList_append, toList_snapPrefix] at hhead
      cases hhead
  | compaction ulid =>
      rw [keyName, String.toList_append] at hhead
      cases hhead
  | seq => cases hhead
  | tail | fence | trim | deleted | fork | forks | rollback =>
      rw [keyName, toList_mKey] at hhead
      cases hhead

/-- A key that a scan of records finds is that of a record of the stream. -/
theorem Tidy.record_of_mem (h : Tidy σ) (hs : SlashFree stream) {x : String}
    (hsome : (σ.get (rPrefix stream ++ x)).isSome = true) : ∃ v < 10 ^ 15, x = pad16 v := by
  obtain ⟨k, hk, hkey⟩ := h _ hsome
  obtain ⟨v, rfl, hx⟩ := record_of_key hs hk.slashFree hkey
  exact ⟨v, hk.2, hx⟩

/-- A scan finds the records with versions in the range, in order. -/
theorem Tidy.scan_records (h : Tidy σ) (hs : SlashFree stream) (lo hi : Nat) :
    (σ.scan (inPrefix (rPrefix stream) (pad16 lo) (some (pad16 hi)))).map (·.1) =
      (stored σ stream lo hi).map fun v => keyName (.record stream v) := by
  have hscan : ((σ.scan (inPrefix (rPrefix stream) (pad16 lo) (some (pad16 hi)))).map
      (·.1)).Pairwise (· < ·) := by
    refine List.pairwise_map.mpr ((Store.scan_sorted σ _).imp fun hlt => ?_)
    exact String.lt_iff.mpr (compare_eq_lt.mp hlt)
  have hshort : ∀ v ∈ stored σ stream lo hi, v < 10 ^ 15 := by
    intro v hv
    have hsome := (mem_stored.mp hv).2
    rw [keyName, rKey_eq] at hsome
    obtain ⟨w, hw, hvw⟩ := h.record_of_mem hs hsome
    rwa [pad16_inj hvw]
  have hstored : ((stored σ stream lo hi).map fun v => keyName (.record stream v)).Pairwise
      (· < ·) := by
    refine List.pairwise_map.mpr ((stored_sorted σ stream lo hi).imp_of_mem ?_)
    intro v w hv hw hlt
    rw [keyName, keyName, rKey_eq, rKey_eq, String.lt_iff, String.toList_append,
      String.toList_append]
    exact List.append_left_lt (String.lt_iff.mp ((pad16_lt_iff (hshort v hv)).mpr hlt))
  refine hscan.eq_of_mem_iff hstored fun key => ?_
  rw [List.mem_map, List.mem_map]
  constructor
  · rintro ⟨⟨_, b⟩, hmem, rfl⟩
    obtain ⟨hrange, hget⟩ := Store.mem_scan.mp hmem
    obtain ⟨x, rfl, hlo, hhi⟩ := inPrefix_iff.mp hrange
    obtain ⟨v, hv, rfl⟩ := h.record_of_mem hs (by rw [hget]; rfl)
    rw [Option.all_some, decide_eq_true_eq] at hhi
    rw [pad16_lt_iff hv] at hlo hhi
    refine ⟨v, mem_stored.mpr ⟨⟨Nat.not_lt.mp hlo, hhi⟩, ?_⟩, rKey_eq _ _⟩
    rw [keyName, rKey_eq, hget]
    rfl
  · rintro ⟨v, hv, rfl⟩
    obtain ⟨⟨hlo, hhi⟩, hsome⟩ := mem_stored.mp hv
    obtain ⟨b, hb⟩ := Option.isSome_iff_exists.mp hsome
    refine ⟨⟨_, b⟩, Store.mem_scan.mpr ⟨inPrefix_iff.mpr ⟨pad16 v, rKey_eq _ _, ?_, ?_⟩, hb⟩, rfl⟩
    · rw [pad16_lt_iff (hshort v hv)]
      exact Nat.not_lt.mpr hlo
    · rw [Option.all_some, decide_eq_true_eq, pad16_lt_iff (hshort v hv)]
      exact hhi

/-! ## One chunk -/

/-- The store without some keys. -/
def deleteAll (σ : RawDb) (keys : List String) : RawDb := keys.foldl Store.delete σ

theorem get_deleteAll (key : String) : ∀ (keys : List String) (σ : RawDb),
    (deleteAll σ keys).get key = if key ∈ keys then none else σ.get key
  | [], _ => rfl
  | k :: keys, σ => by
      rw [deleteAll, List.foldl_cons]
      refine (get_deleteAll key keys (σ.delete k)).trans ?_
      by_cases hkeys : key ∈ keys
      · rw [if_pos hkeys, if_pos (List.mem_cons_of_mem _ hkeys)]
      · by_cases hk : key = k
        · subst hk
          rw [if_neg hkeys, if_pos List.mem_cons_self, Store.get_delete_self]
        · rw [if_neg hkeys, if_neg (by simp [hk, hkeys]), Store.get_delete_of_ne _ hk]

theorem deleteKeys_run : ∀ (keys : List String) (t : Txn String fun _ => Bytes),
    ∃ t', (deleteKeys keys).run t = .ok ([], t') ∧ t'.view = deleteAll t.view keys
  | [], t => ⟨t, rfl, rfl⟩
  | key :: keys, t => deleteKeys_run keys (t.noteWrite ⟨key, none⟩)

/-- The store without some records of the stream. -/
def withoutRecords (σ : RawDb) (stream : String) (versions : List Nat) : RawDb :=
  deleteAll σ (versions.map fun v => keyName (.record stream v))

theorem record_mem_map {versions : List Nat} {v : Nat} :
    keyName (.record stream v) ∈ versions.map (fun v => keyName (.record stream v)) ↔
      v ∈ versions := by
  rw [List.mem_map]
  constructor
  · rintro ⟨w, hw, hkey⟩
    exact pad16_inj (rKey_inj hkey).2 ▸ hw
  · exact fun hv => ⟨v, hv, rfl⟩

theorem get_withoutRecords (σ : RawDb) (versions : List Nat) (v : Nat) :
    (withoutRecords σ stream versions).get (keyName (.record stream v)) =
      if v ∈ versions then none else σ.get (keyName (.record stream v)) := by
  rw [withoutRecords, get_deleteAll]
  simp only [record_mem_map]

theorem tidy_withoutRecords (h : Tidy σ) (versions : List Nat) :
    Tidy (withoutRecords σ stream versions) := by
  intro key hsome
  rw [withoutRecords, get_deleteAll] at hsome
  split at hsome
  · cases hsome
  · exact h key hsome

/-- What a chunk leaves of the window. -/
theorem stored_withoutRecords {lo hi n last : Nat}
    (hlast : ((stored σ stream lo hi).take n).getLast? = some last) :
    stored (withoutRecords σ stream ((stored σ stream lo hi).take n)) stream (last + 1) hi =
      (stored σ stream lo hi).drop n := by
  have hsorted := stored_sorted σ stream lo hi
  refine (stored_sorted _ _ _ _).eq_of_mem_iff (hsorted.sublist (List.drop_sublist n _)) ?_
  intro v
  have hlo := (mem_stored.mp (List.mem_of_mem_take (List.mem_of_getLast? hlast))).1
  have hdrop := mem_drop_iff (v := v) hsorted hlast
  rw [hdrop, mem_stored, mem_stored, get_withoutRecords]
  constructor
  · rintro ⟨⟨hv, hhi⟩, hsome⟩
    refine ⟨⟨⟨by omega, hhi⟩, ?_⟩, by omega⟩
    split at hsome
    · cases hsome
    · exact hsome
  · rintro ⟨⟨⟨hv, hhi⟩, hsome⟩, hlt⟩
    refine ⟨⟨by omega, hhi⟩, ?_⟩
    rw [if_neg]
    · exact hsome
    · -- what is taken is not above the last one
      intro htake
      have hrest := hdrop.mpr ⟨mem_stored.mpr ⟨⟨hv, hhi⟩, hsome⟩, hlt⟩
      rw [← List.take_append_drop n (stored σ stream lo hi)] at hsorted
      exact Nat.lt_irrefl v ((List.pairwise_append.mp hsorted).2.2 v htake v hrest)

/-- One round of a purge. -/
theorem Tidy.purgeLoop_exec_succ (h : Tidy σ) (hs : SlashFree stream)
    (floor chunks next n : Nat) :
    (purgeLoop stream floor (chunks + 1) next n).exec σ =
      if next < floor then
        match ((stored σ stream next floor).take purgeChunk).getLast? with
        | none => (.ok (.purged n), σ)
        | some last =>
            (purgeLoop stream floor chunks (last + 1)
              (n + ((stored σ stream next floor).take purgeChunk).length)).exec
                (withoutRecords σ stream ((stored σ stream next floor).take purgeChunk))
      else (.ok (.purged n), σ) := by
  rw [purgeLoop]
  split
  swap
  · rfl
  have hkeys : ((σ.scan (inPrefix (rPrefix stream) (pad16 next) (some (pad16 floor)))).map
      (·.1)).take purgeChunk =
        ((stored σ stream next floor).take purgeChunk).map fun v => keyName (.record stream v) := by
    rw [h.scan_records hs, List.map_take]
  rw [Proc.exec]
  dsimp only
  rw [hkeys, List.length_map, purgeKeys, List.getLast?_map]
  cases hlast : ((stored σ stream next floor).take purgeChunk).getLast? with
  | none => rfl
  | some last =>
      have hsome := (mem_stored.mp (List.mem_of_mem_take (List.mem_of_getLast? hlast))).2
      have hshort : last < 10 ^ 16 := by
        rw [keyName, rKey_eq] at hsome
        obtain ⟨w, hw, hlastw⟩ := h.record_of_mem hs hsome
        rw [pad16_inj hlastw]
        omega
      obtain ⟨t, hrun, hview⟩ := deleteKeys_run
        (((stored σ stream next floor).take purgeChunk).map fun v => keyName (.record stream v))
        (.begin σ)
      rw [Option.map_some, keyName]
      dsimp only
      rw [versionSuffix_rKey stream hshort]
      dsimp only
      rw [Proc.exec, hrun]
      dsimp only
      rw [hview]
      rfl

theorem withoutRecords_append (σ : RawDb) (versions versions' : List Nat) :
    withoutRecords (withoutRecords σ stream versions) stream versions' =
      withoutRecords σ stream (versions ++ versions') := by
  simp [withoutRecords, deleteAll]

/-! ## The loop -/

/-- With more rounds than records in the window, a purge deletes them all and counts
them. -/
theorem purgeLoop_exec (hs : SlashFree stream) (floor : Nat) :
    ∀ (chunks next n : Nat) (σ : RawDb), Tidy σ → (stored σ stream next floor).length < chunks →
      (purgeLoop stream floor chunks next n).exec σ =
        (.ok (.purged (n + (stored σ stream next floor).length)),
          withoutRecords σ stream (stored σ stream next floor))
  | 0, _, _, _, _, hchunks => by omega
  | chunks + 1, next, n, σ, h, hchunks => by
      have hempty : stored σ stream next floor = [] →
          (.ok (.purged n), σ) = ((.ok (.purged (n + (stored σ stream next floor).length)),
            withoutRecords σ stream (stored σ stream next floor)) : Result × RawDb) := by
        intro hnil
        rw [hnil]
        rfl
      rw [h.purgeLoop_exec_succ hs]
      split
      swap
      · next hge =>
        refine hempty (List.eq_nil_iff_forall_not_mem.mpr fun v hv => ?_)
        have := (mem_stored.mp hv).1
        omega
      cases hlast : ((stored σ stream next floor).take purgeChunk).getLast? with
      | none =>
          refine hempty ?_
          rcases List.take_eq_nil_iff.mp (List.getLast?_eq_none_iff.mp hlast) with h₀ | h₀
          · cases h₀
          · exact h₀
      | some last =>
          have hpos := List.length_pos_of_mem (List.mem_of_getLast? hlast)
          have hrest := stored_withoutRecords hlast
          have hlen := congrArg List.length (List.take_append_drop purgeChunk
            (stored σ stream next floor))
          rw [List.length_append] at hlen
          dsimp only
          rw [purgeLoop_exec hs floor chunks _ _ _ (tidy_withoutRecords h _) (by rw [hrest]; omega),
            hrest, withoutRecords_append, List.take_append_drop, Nat.add_assoc, hlen]

/-! ## The pins -/

/-- A child that is not deleted pins the stream at `v` or above. -/
def PinnedFrom (σ : RawDb) (stream : String) (v : Nat) : Prop :=
  ∃ child b, σ.get (keyName (.forks stream child)) = some b ∧
    σ.get (keyName (.deleted child)) = none ∧ v ≤ fromBe b

theorem lastComponent_mKey (stream : String) {f : String} (hf : '/' ∉ f.toList) :
    lastComponent (mKey stream f) = f := by
  have hlist : (mKey stream f).toList.reverse =
      f.toList.reverse ++ '/' :: (stream.toList.reverse ++ ['/', 'm']) := by
    rw [toList_mKey]
    simp
  have hall : ∀ c ∈ f.toList.reverse, decide (c ≠ '/') = true := by
    intro c hc
    refine decide_eq_true ?_
    rintro rfl
    exact hf (List.mem_reverse.mp hc)
  rw [lastComponent, hlist, List.takeWhile_append_of_pos hall, List.takeWhile_cons_of_neg (by simp),
    List.append_nil, List.reverse_reverse, String.ofList_toList]

/-- The stream of a key under `m/`, and what follows it. -/
theorem mKey_inj_of_slashFree {s t f g : String} (hs : SlashFree s) (ht : SlashFree t)
    (h : mKey s f = mKey t g) : s = t ∧ f = g := by
  have hlist := congrArg String.toList h
  rw [toList_mKey, toList_mKey, List.cons_inj_right, List.cons_inj_right] at hlist
  rcases Separated.eq_or_under hlist with ⟨hst, hfg⟩ | ⟨rest, hst, -⟩ | ⟨rest, hst, -⟩
  · exact ⟨String.toList_inj.mp hst, String.toList_inj.mp hfg⟩
  · exact absurd (hst ▸ by simp) ht
  · exact absurd (hst ▸ by simp) hs

theorem inPrefix_forks {key : String} :
    inPrefix (mKey stream "forks/") "" none key = true ↔
      ∃ x, key = mKey stream ("forks/" ++ x) := by
  have hname : ∀ x, mKey stream "forks/" ++ x = mKey stream ("forks/" ++ x) := by
    intro x
    refine String.toList_inj.mp ?_
    rw [String.toList_append, toList_mKey, toList_mKey, String.toList_append]
    simp
  rw [inPrefix_iff]
  constructor
  · rintro ⟨x, rfl, -⟩
    exact ⟨x, hname x⟩
  · rintro ⟨x, rfl⟩
    exact ⟨x, (hname x).symm, not_lt_empty x, rfl⟩

/-- A key in the registry of a stream is the pin of a child. -/
theorem Tidy.pin_of_mem (h : Tidy σ) (hs : SlashFree stream) {x : String}
    (hsome : (σ.get (mKey stream ("forks/" ++ x))).isSome = true) : SlashFree x := by
  obtain ⟨k, hk, hkey⟩ := h _ hsome
  have hhead : (keyName k).toList.head? = some 'm' := by
    rw [← hkey, toList_mKey]
    rfl
  have hfield : ∀ {s g : String}, SlashFree s → g.toList.take 6 ≠ "forks/".toList →
      mKey stream ("forks/" ++ x) ≠ mKey s g := by
    intro s g hsf hg heq
    obtain ⟨-, rfl⟩ := mKey_inj_of_slashFree hs hsf heq
    exact hg (by simp [String.toList_append])
  cases k with
  | forks s child =>
      have hx : "forks/" ++ x = "forks/" ++ child := (mKey_inj_of_slashFree hs hk.1 hkey).2
      have hlist := congrArg String.toList hx
      rw [String.toList_append, String.toList_append, List.append_cancel_left_eq] at hlist
      rw [String.toList_inj.mp hlist]
      exact hk.2
  | rollback s v =>
      have htake : ("rollback/" ++ pad16 v).toList.take 6 ≠ "forks/".toList := by
        rw [String.toList_append]
        simp
      exact absurd hkey (hfield hk htake)
  | tail | fence | trim | deleted | fork => exact absurd hkey (hfield hk (by decide))
  | record s v =>
      rw [keyName, toList_rKey] at hhead
      cases hhead
  | ts s tsMs v =>
      rw [keyName, toList_tsKey] at hhead
      cases hhead
  | snap s n =>
      rw [keyName, String.toList_append, toList_snapPrefix] at hhead
      cases hhead
  | compaction ulid =>
      rw [keyName, String.toList_append] at hhead
      cases hhead
  | seq => cases hhead

/-- The pins found are those of the children. -/
theorem Tidy.covered_iff (h : Tidy σ) (hs : SlashFree stream) (v : Nat) :
    Covered σ stream v ↔ PinnedFrom σ stream v := by
  have hname : ∀ child, keyName (.forks stream child) = mKey stream ("forks/" ++ child) :=
    fun _ => rfl
  constructor
  · rintro ⟨_, _, ⟨key, b, hkey, hget, rfl, rfl⟩, hlive, hv⟩
    obtain ⟨x, rfl⟩ := inPrefix_forks.mp hkey
    have hx := h.pin_of_mem hs (by rw [hget]; rfl)
    rw [← hname, keyName_forks, lastComponent_mKey _ hx] at hlive
    exact ⟨x, b, hget, hlive, hv⟩
  · rintro ⟨child, b, hget, hlive, hv⟩
    have hx := h.pin_of_mem hs (by rw [← hname, hget]; rfl)
    refine ⟨child, _, ⟨_, b, inPrefix_forks.mpr ⟨child, rfl⟩, hget, ?_, rfl⟩, hlive, hv⟩
    rw [← hname, keyName_forks, lastComponent_mKey _ hx]

/-! ## The purge -/

/-- What a purge of a stream below a floor is to do: the records below the floor and above
every pin of a child that is not deleted are removed and counted, nothing else changes. -/
def PurgedExactly (σ : RawDb) (stream : String) (floor : Nat) (out : Result × RawDb) : Prop :=
  ∃ versions : List Nat, versions.Nodup ∧
    (∀ v, v ∈ versions ↔ (σ.get (keyName (.record stream v))).isSome = true ∧ v < floor ∧
      ¬ PinnedFrom σ stream v) ∧
    out.1 = .ok (.purged versions.length) ∧
    ∀ key, out.2.get key =
      if ∃ v ∈ versions, key = keyName (.record stream v) then none else σ.get key

theorem purgeBelow_exec [Payload D] (w : Wire D S) (h : Tidy σ) (hs : SlashFree stream)
    (floor : Nat) : ∃ lo, (∀ v, lo ≤ v ↔ ¬ PinnedFrom σ stream v) ∧
      ∀ chunks, (stored σ stream lo floor).length < chunks →
        (callProc w chunks (.purgeBelow stream floor)).exec σ =
          (.ok (.purged (stored σ stream lo floor).length),
            withoutRecords σ stream (stored σ stream lo floor)) := by
  obtain ⟨c, hc, hcovered⟩ := ceiling_eval (E := Error) σ stream
  refine ⟨c.elim 0 (· + 1), fun v => ?_, fun chunks hchunks => ?_⟩
  · rw [← h.covered_iff hs, ← hcovered]
    cases c with
    | none => simp
    | some at_ => simp
  · rw [callProc, purgeBelow, Proc.exec_ofReads, hc]
    dsimp only
    rw [purgeLoop_exec hs floor chunks _ 0 σ h hchunks, Nat.zero_add]

theorem get_mKey_withoutRecords (σ : RawDb) (versions : List Nat) (s f : String) :
    (withoutRecords σ stream versions).get (mKey s f) = σ.get (mKey s f) := by
  rw [withoutRecords, get_deleteAll, if_neg]
  intro hmem
  obtain ⟨v, -, hkey⟩ := List.mem_map.mp hmem
  have hhead := congrArg (·.toList.head?) hkey
  rw [keyName, toList_rKey, toList_mKey] at hhead
  cases hhead

/-- A purge leaves nothing to a second one. -/
theorem purgeBelow_again [Payload D] (w : Wire D S) (h : Tidy σ) (hs : SlashFree stream)
    (floor lo : Nat) (hlo : ∀ v, lo ≤ v ↔ ¬ PinnedFrom σ stream v) {chunks : Nat}
    (hchunks : 0 < chunks) :
    (callProc w chunks (.purgeBelow stream floor)).exec
        (withoutRecords σ stream (stored σ stream lo floor)) =
      (.ok (.purged 0), withoutRecords σ stream (stored σ stream lo floor)) := by
  obtain ⟨lo', hlo', hexec⟩ := purgeBelow_exec w
    (tidy_withoutRecords h (stored σ stream lo floor)) hs floor
  have hpinned : ∀ v, PinnedFrom (withoutRecords σ stream (stored σ stream lo floor)) stream v ↔
      PinnedFrom σ stream v := by
    intro v
    simp only [PinnedFrom, keyName, get_mKey_withoutRecords]
  have heq : lo' = lo := by
    have h₁ := (hlo' lo).mpr ((hpinned lo).not.mpr ((hlo lo).mp le_rfl))
    have h₂ := (hlo lo').mpr ((hpinned lo').not.mp ((hlo' lo').mp le_rfl))
    exact Nat.le_antisymm h₁ h₂
  subst heq
  have hnil : stored (withoutRecords σ stream (stored σ stream lo' floor)) stream lo' floor =
      [] := by
    refine List.eq_nil_iff_forall_not_mem.mpr fun v hv => ?_
    obtain ⟨hrange, hsome⟩ := mem_stored.mp hv
    rw [get_withoutRecords] at hsome
    split at hsome
    · cases hsome
    · next hmem => exact hmem (mem_stored.mpr ⟨hrange, hsome⟩)
  rw [hexec chunks (by rw [hnil]; exact hchunks), hnil]
  rfl

/-- Alone on a store whose ids have no slash and whose versions are below `10 ^ 15`, a
purge ends, and removes, counts and leaves what it is to; a second one removes nothing. -/
theorem purgeBelow_exact [Payload D] (w : Wire D S) (σ : RawDb) (h : Tidy σ) (stream : String)
    (hs : SlashFree stream) (floor : Nat) :
    ∃ rounds, ∀ chunks, rounds < chunks →
      let out := (callProc w chunks (.purgeBelow stream floor)).exec σ
      PurgedExactly σ stream floor out ∧
        (callProc w chunks (.purgeBelow stream floor)).exec out.2 = (.ok (.purged 0), out.2) := by
  obtain ⟨lo, hlo, hexec⟩ := purgeBelow_exec w h hs floor
  refine ⟨(stored σ stream lo floor).length, fun chunks hchunks => ?_⟩
  rw [hexec chunks hchunks]
  refine ⟨⟨stored σ stream lo floor, ?_, fun v => ?_, rfl, fun key => ?_⟩, ?_⟩
  · exact (stored_sorted σ stream lo floor).imp Nat.ne_of_lt
  · rw [mem_stored, hlo]
    tauto
  · rw [withoutRecords, get_deleteAll]
    simp only [List.mem_map, eq_comm]
  · exact purgeBelow_again w h hs floor lo hlo (by omega)

end

/-! ## A store of two records and a pin -/

/-- Records 0 and 3 of `s`, and a child `c` that pins version 1. -/
def pinnedStore : RawDb :=
  (((∅ : RawDb).put (keyName (.record "s" 0)) [0]).put (keyName (.record "s" 3)) [3]).put
    (keyName (.forks "s" "c")) (toBe 1)

theorem tidy_pinnedStore : Tidy pinnedStore := by
  intro key hsome
  by_cases hpin : key = keyName (.forks "s" "c")
  · exact ⟨.forks "s" "c", show SlashFree "s" ∧ SlashFree "c" by decide, hpin⟩
  · by_cases hthree : key = keyName (.record "s" 3)
    · exact ⟨.record "s" 3, show SlashFree "s" ∧ 3 < 10 ^ 15 by decide, hthree⟩
    · by_cases hzero : key = keyName (.record "s" 0)
      · exact ⟨.record "s" 0, show SlashFree "s" ∧ 0 < 10 ^ 15 by decide, hzero⟩
      · rw [pinnedStore, Store.get_put_of_ne _ _ hpin, Store.get_put_of_ne _ _ hthree,
          Store.get_put_of_ne _ _ hzero, Store.get_empty] at hsome
        cases hsome

theorem purgeBelow_exact_pinnedStore :
    ∃ rounds, ∀ chunks, rounds < chunks →
      let out := (callProc sampleWire chunks (.purgeBelow "s" (2 ^ 64 - 1))).exec pinnedStore
      PurgedExactly pinnedStore "s" (2 ^ 64 - 1) out ∧
        (callProc sampleWire chunks (.purgeBelow "s" (2 ^ 64 - 1))).exec out.2 =
          (.ok (.purged 0), out.2) :=
  purgeBelow_exact sampleWire pinnedStore tidy_pinnedStore "s" (by decide) _

end Landslide.Raw
