import Landslide.Sqlite.Runs

/-!
# Point-in-time restore

`restore_at` merges the segments that end at or before its target and then
applies the events that are left, from the last merged transaction up to the
target.  Its only check is that it reached the target.  So it is exact as long as
the purged events end where a segment does (`restoreAt_exact`).  A checkpoint that
coalesces without purging, after an earlier one purged, hides that boundary inside
a segment.  Then a target past it is reached from the remaining events alone
(`restoreAt_misses_purged`).
-/

namespace Landslide.Sqlite

open Std Overlay TxnKv

/-! ## Ascending transactions -/

/-- The transactions have ascending numbers above `txid`. -/
def Ascends : Nat → List Delta → Prop
  | _, [] => True
  | txid, d :: deltas => txid < d.txid ∧ Ascends d.txid deltas

theorem Consecutive.ascends : ∀ {deltas : List Delta} {txid : Nat}, Consecutive txid deltas →
    Ascends txid deltas
  | [], _, _ => trivial
  | _ :: _, _, h => ⟨by rw [h.1]; exact Nat.lt_succ_self _, h.2.ascends⟩

namespace Ascends

theorem append {txid : Nat} {deltas deltas' : List Delta} :
    Ascends txid (deltas ++ deltas') ↔
      Ascends txid deltas ∧ Ascends (lastTxid txid deltas) deltas' := by
  induction deltas generalizing txid with
  | nil => simp [Ascends, lastTxid]
  | cons d deltas ih =>
      rw [List.cons_append, Ascends, Ascends, ih, and_assoc]
      rfl

theorem le_last : ∀ {deltas : List Delta} {txid : Nat}, Ascends txid deltas →
    txid ≤ lastTxid txid deltas
  | [], _, _ => le_rfl
  | _ :: _, _, h => h.1.le.trans h.2.le_last

/-- The numbers lie between the first bound and the last number. -/
theorem mem {deltas : List Delta} {txid : Nat} (h : Ascends txid deltas) {d : Delta}
    (hd : d ∈ deltas) : txid < d.txid ∧ d.txid ≤ lastTxid txid deltas := by
  obtain ⟨before, after, rfl⟩ := List.append_of_mem hd
  obtain ⟨hbefore, hlt, hafter⟩ := append.mp h
  refine ⟨hbefore.le_last.trans_lt hlt, ?_⟩
  rw [lastTxid, List.foldl_append]
  exact hafter.le_last

theorem lt_last {deltas : List Delta} {txid : Nat} (h : Ascends txid deltas) (hne : deltas ≠ []) :
    txid < lastTxid txid deltas := by
  obtain ⟨d, hd⟩ := List.exists_mem_of_ne_nil _ hne
  obtain ⟨h₁, h₂⟩ := h.mem hd
  omega

/-- The transactions up to a target come first. -/
theorem filter_append_rest (target : Nat) : ∀ {deltas : List Delta} {txid : Nat},
    Ascends txid deltas → ∃ rest, deltas = deltas.filter (·.txid ≤ target) ++ rest
  | [], _, _ => ⟨[], rfl⟩
  | d :: deltas, txid, h => by
      by_cases hd : d.txid ≤ target
      · obtain ⟨rest, hrest⟩ := filter_append_rest target h.2
        refine ⟨rest, ?_⟩
        rw [List.filter_cons_of_pos (by simpa using hd), List.cons_append, ← hrest]
      · refine ⟨d :: deltas, ?_⟩
        rw [List.filter_eq_nil_iff.mpr]
        · rfl
        · intro x hx
          rcases List.mem_cons.mp hx with rfl | hx
          · simpa using hd
          · have := (h.2.mem hx).1
            simp
            omega

/-- The transactions up to a target, where the first ones are all up to it. -/
theorem filter_append {before : List Delta} {target : Nat} (h : Ascends 0 before)
    (hle : lastTxid 0 before ≤ target) (after : List Delta) :
    (before ++ after).filter (·.txid ≤ target) = before ++ after.filter (·.txid ≤ target) := by
  rw [List.filter_append, List.filter_eq_self.mpr]
  intro d hd
  have := (h.mem hd).2
  simp
  omega

theorem filter_eq_nil {deltas : List Delta} {txid target : Nat} (h : Ascends txid deltas)
    (hle : target ≤ txid) : deltas.filter (·.txid ≤ target) = [] := by
  rw [List.filter_eq_nil_iff]
  intro d hd
  have := (h.mem hd).1
  simp
  omega

end Ascends

theorem fold_txid (txid : Nat) {group : List Delta} (hne : group ≠ []) :
    (fold group).txid = lastTxid txid group := by
  have himage := congrArg DbImage.txid (apply_fold ({ txid := txid } : DbImage) hne)
  rw [DbImage.txid_applied] at himage
  exact himage

namespace Folded

variable {captured appended : List Delta}

theorem lastTxid_eq (h : Folded captured appended) (txid : Nat) :
    lastTxid txid appended = lastTxid txid captured := by
  have himage := congrArg DbImage.txid (h.applied_eq { txid := txid })
  rwa [DbImage.txid_applied, DbImage.txid_applied] at himage

theorem ascends (h : Folded captured appended) {txid : Nat} (ha : Ascends txid captured) :
    Ascends txid appended := by
  induction h with
  | nil => exact ha
  | @keep captured appended d hf ih =>
      rw [Ascends.append] at ha ⊢
      rw [hf.lastTxid_eq]
      exact ⟨ih ha.1, ha.2⟩
  | @fold captured appended group hne hf ih =>
      rw [Ascends.append] at ha ⊢
      rw [hf.lastTxid_eq]
      refine ⟨ih ha.1, ?_, trivial⟩
      rw [fold_txid (lastTxid txid captured) hne]
      exact ha.2.lt_last hne

/-- The appended transactions up to one of them stand for the captured ones up to
it. -/
theorem filter (h : Folded captured appended) (ha : Ascends 0 captured) {target : Nat}
    (ht : ∃ d ∈ appended, d.txid = target) :
    Folded (captured.filter (·.txid ≤ target)) (appended.filter (·.txid ≤ target)) := by
  -- a step either ends at the target, and then all is kept, or lies past it
  have snoc : ∀ {captured appended group : List Delta} {d : Delta}, Folded captured appended →
      Folded (captured ++ group) (appended ++ [d]) → Ascends 0 (captured ++ group) →
      ((∃ d ∈ appended, d.txid = target) →
        Folded (captured.filter (·.txid ≤ target)) (appended.filter (·.txid ≤ target))) →
      (∃ x ∈ appended ++ [d], x.txid = target) →
      Folded ((captured ++ group).filter (·.txid ≤ target))
        ((appended ++ [d]).filter (·.txid ≤ target)) := by
    intro captured appended group d hf hnext ha ih ht
    have hd := hnext.ascends ha
    obtain ⟨x, hx, rfl⟩ := ht
    rcases List.mem_append.mp hx with hx | hx
    · have hle := ((hf.ascends (Ascends.append.mp ha).1).mem hx).2
      rw [List.filter_append, List.filter_append,
        (Ascends.append.mp hd).2.filter_eq_nil hle,
        (Ascends.append.mp ha).2.filter_eq_nil (by rwa [hf.lastTxid_eq] at hle),
        List.append_nil, List.append_nil]
      exact ih ⟨x, hx, rfl⟩
    · cases List.mem_singleton.mp hx
      have hlast : lastTxid 0 (appended ++ [d]) = d.txid := by
        rw [lastTxid, List.foldl_append]
        rfl
      have hall := Ascends.filter_append hd hlast.le []
      have hall' := Ascends.filter_append ha (by rw [← hnext.lastTxid_eq, hlast]) []
      rw [List.append_nil, List.filter_nil, List.append_nil] at hall hall'
      rw [hall, hall']
      exact hnext
  induction h with
  | nil => exact .nil
  | @keep captured appended d hf ih =>
      exact snoc hf (hf.keep d) ha (fun ht => ih (Ascends.append.mp ha).1 ht) ht
  | @fold captured appended group hne hf ih =>
      exact snoc hf (hf.fold hne) ha (fun ht => ih (Ascends.append.mp ha).1 ht) ht

end Folded

section

variable {D S B : Type} {env : Outside D S B} {name : String}

/-! ## What is replayed -/

/-- The events of a stream are those from the purged ones on. -/
theorem eventsOf_present {σ : Landslide.Db D S} {hist : Nat → Option (Event D)} {n gone : Nat}
    (hr : Retains σ name hist n) (hfloor : floorOf σ name = 0) (hpres : Present σ name gone n)
    (hgone : gone ≤ n) : eventsOf σ name 0 none = between hist gone n := by
  rw [hr.eventsOf_eq, hfloor, Nat.max_self, ← between_append _ (Nat.zero_le gone) hgone]
  have hnil : between (fun v => (σ.get (.record name v)).map Event.fromParts) 0 gone = [] := by
    rw [between, List.filterMap_eq_nil_iff]
    intro v hv
    have hlt := (List.mem_range'_1.mp hv).2
    cases hget : σ.get (.record name v) with
    | none => rfl
    | some e =>
        have := ((hpres v).mp (by rw [hget]; rfl)).1
        omega
  rw [hnil, List.nil_append]
  refine between_congr fun v hlo hhi => ?_
  obtain ⟨e, he⟩ := Option.isSome_iff_exists.mp ((hpres v).mpr ⟨hlo, hhi⟩)
  rw [he, (hr.record v e he).2.2]
  rfl

/-- Replaying up to a target applies the transactions in its window. -/
theorem replayUpTo_foldl (base target : Nat) {events : List (Event D)}
    {batches : List (List Delta)}
    (h : List.Forall₂ (fun e ds => deltaEvents env e = .ok ds) events batches) :
    ∀ image : DbImage, events.foldl (replayUpTo env base target) (image, none) =
      (image.applied (batches.flatten.filter fun d => base < d.txid && d.txid ≤ target), none) := by
  induction h with
  | nil => exact fun _ => rfl
  | @cons e ds events batches hdec _ ih =>
      intro image
      have hstep : replayUpTo env base target (image, none) e =
          (image.applied (ds.filter fun d => base < d.txid && d.txid ≤ target), none) := by
        rw [replayUpTo, hdec]
      rw [List.foldl_cons, hstep, ih, List.flatten_cons, List.filter_append,
        DbImage.applied_append]

/-- The segments that are merged, and the transactions they stand for.  The next one
ends past the target. -/
theorem usable_parts {r : Remote D S B} {segments : List SegmentRef} {parts : List (List Delta)}
    (h : List.Forall₂ (Held env name r) segments parts) (target : Nat) :
    ∃ j, List.Forall₂ (Held env name r) (usable target segments) (parts.take j) ∧
      (∀ part ∈ parts.take j, ∃ d, part.getLast? = some d ∧ d.txid ≤ target) ∧
      ∀ part, parts[j]? = some part → ∃ d ∈ part, target < d.txid := by
  induction h with
  | nil => exact ⟨0, .nil, by simp, by simp⟩
  | @cons seg part segments parts hseg _ ih =>
      obtain ⟨i, l, b, -, rfl, -, -, hs⟩ := id hseg
      obtain ⟨first, hfirst, hstart⟩ := Option.map_eq_some_iff.mp hs.first
      obtain ⟨last, hlast, hend⟩ := Option.map_eq_some_iff.mp hs.last
      simp only [Prod.mk.injEq] at hend
      by_cases hu : l.txidStart > target ∨ l.txidEnd > target
      · refine ⟨0, ?_, by simp, fun p hp => ?_⟩
        · rw [usable, List.takeWhile_cons_of_neg (by simp [SegmentRef.of]; omega)]
          exact .nil
        · cases hp
          rcases hu with hu | hu
          · exact ⟨first, List.mem_of_mem_head? hfirst, by omega⟩
          · exact ⟨last, List.mem_of_getLast? hlast, by omega⟩
      · obtain ⟨j, hall, hle, hnext⟩ := ih
        refine ⟨j + 1, ?_, fun p hp => ?_, hnext⟩
        · rw [usable, List.takeWhile_cons_of_pos (by simpa [SegmentRef.of] using hu)]
          exact .cons hseg hall
        · rcases List.mem_cons.mp hp with rfl | hp
          · exact ⟨last, hlast, by omega⟩
          · exact hle p hp

theorem lastTxid_of_getLast (txid : Nat) {deltas : List Delta} {d : Delta}
    (h : deltas.getLast? = some d) : lastTxid txid deltas = d.txid := by
  obtain ⟨before, rfl⟩ := List.getLast?_eq_some_iff.mp h
  rw [lastTxid, List.foldl_append]
  rfl

theorem lastTxid_mem (txid : Nat) (deltas : List Delta) :
    lastTxid txid deltas = txid ∨ ∃ d ∈ deltas, d.txid = lastTxid txid deltas := by
  cases hlast : deltas.getLast? with
  | none =>
      rw [List.getLast?_eq_none_iff.mp hlast]
      exact .inl rfl
  | some d =>
      exact .inr ⟨d, List.mem_of_getLast? hlast, (lastTxid_of_getLast txid hlast).symm⟩

/-- The merged segments reach no further than the target. -/
theorem lastTxid_parts_le {target : Nat} : ∀ {parts : List (List Delta)} {txid : Nat},
    txid ≤ target → (∀ part ∈ parts, ∃ d, part.getLast? = some d ∧ d.txid ≤ target) →
      lastTxid txid parts.flatten ≤ target
  | [], _, htxid, _ => htxid
  | part :: parts, txid, _, hle => by
      obtain ⟨d, hlast, hd⟩ := hle part List.mem_cons_self
      rw [List.flatten_cons, lastTxid, List.foldl_append]
      refine lastTxid_parts_le ?_ fun p hp => hle p (List.mem_cons_of_mem _ hp)
      rw [show part.foldl (fun _ d => d.txid) txid = d.txid from lastTxid_of_getLast txid hlast]
      exact hd

/-- The last transaction of some segments ends one of them. -/
theorem Held.lastTxid {r : Remote D S B} {segments : List SegmentRef} {parts : List (List Delta)}
    (h : List.Forall₂ (Held env name r) segments parts) : ∀ txid : Nat,
    Sqlite.lastTxid txid parts.flatten = txid ∨
      ∃ seg ∈ segments, seg.txidEnd = Sqlite.lastTxid txid parts.flatten := by
  induction h with
  | nil => exact fun _ => .inl rfl
  | @cons seg part segments parts hseg _ ih =>
      intro txid
      obtain ⟨i, l, b, -, rfl, -, -, hs⟩ := hseg
      obtain ⟨last, hlast, hend⟩ := Option.map_eq_some_iff.mp hs.last
      simp only [Prod.mk.injEq] at hend
      have happ : Sqlite.lastTxid txid (part :: parts).flatten =
          Sqlite.lastTxid last.txid parts.flatten := by
        rw [List.flatten_cons, Sqlite.lastTxid, List.foldl_append]
        exact congrArg (Sqlite.lastTxid · parts.flatten) (lastTxid_of_getLast txid hlast)
      rw [happ]
      rcases ih last.txid with heq | ⟨seg, hmem, heq⟩
      · exact .inr ⟨_, List.mem_cons_self, by rw [heq, hend.1]; rfl⟩
      · exact .inr ⟨seg, List.mem_cons_of_mem _ hmem, heq⟩

/-- The target can be had: it is 0, a segment of the manifest ends there, or an event
of the stream still carries it. -/
def Kept (env : Outside D S B) (name : String) (σ : Landslide.Db D S) (target : Nat) : Prop :=
  target = 0 ∨ (∃ m, latestManifest env σ name = .ok m ∧ ∃ seg ∈ m.segments, seg.txidEnd = target) ∨
    ∃ e ∈ eventsOf σ name 0 none, ∃ ds, deltaEvents env e = .ok ds ∧ ∃ d ∈ ds, d.txid = target

/-- The window of a replay, when it reaches the target: everything past the merged
segments up to it. -/
theorem window_eq {before after kept : List Delta} {target : Nat}
    (ha : Ascends 0 (before ++ after))
    (hkept : (∃ mid, mid ⊆ before ∧ kept = mid ++ after) ∨ ∀ d ∈ kept, target < d.txid)
    (hreach : target ≤ lastTxid (lastTxid 0 before)
      (kept.filter fun d => lastTxid 0 before < d.txid && d.txid ≤ target)) :
    (kept.filter fun d => lastTxid 0 before < d.txid && d.txid ≤ target) =
      after.filter (·.txid ≤ target) := by
  obtain ⟨hbefore, hafter⟩ := Ascends.append.mp ha
  rcases hkept with ⟨mid, hsub, rfl⟩ | hpast
  · have hnil : mid.filter (fun d => lastTxid 0 before < d.txid && d.txid ≤ target) = [] := by
      rw [List.filter_eq_nil_iff]
      intro d hd
      have := (hbefore.mem (hsub hd)).2
      simp
      omega
    rw [List.filter_append, hnil, List.nil_append]
    refine List.filter_congr fun d hd => ?_
    have := (hafter.mem hd).1
    simp [this]
  · have hnil : kept.filter (fun d => lastTxid 0 before < d.txid && d.txid ≤ target) = [] := by
      rw [List.filter_eq_nil_iff]
      intro d hd
      have := hpast d hd
      simp
      omega
    rw [hnil] at hreach ⊢
    exact (hafter.filter_eq_nil hreach).symm

namespace Stored

variable {r : Remote D S B} {batches parts : List (List Delta)}

/-- The remaining events start within the merged segments, or past the target. -/
theorem kept_cases (h : Stored env name True r batches parts) (ha : Ascends 0 batches.flatten)
    {gone k : Nat} (hk : (parts.take k).flatten = (batches.take gone).flatten) {j target : Nat}
    (hnext : ∀ part, parts[j]? = some part → ∃ d ∈ part, target < d.txid) :
    let after := (parts.drop j).flatten ++ (batches.drop (covered r.store name)).flatten
    (parts.take j).flatten ++ after = batches.flatten ∧
      ((∃ mid, mid ⊆ (parts.take j).flatten ∧ (batches.drop gone).flatten = mid ++ after) ∨
        ∀ d ∈ (batches.drop gone).flatten, target < d.txid) := by
  intro after
  have hall : (parts.take j).flatten ++ after = batches.flatten := by
    rw [← List.append_assoc, ← List.flatten_append, List.take_append_drop, h.parts_eq,
      ← List.flatten_append, List.take_append_drop]
  have hsplit : (parts.take k).flatten ++ (batches.drop gone).flatten = batches.flatten := by
    rw [hk, ← List.flatten_append, List.take_append_drop]
  refine ⟨hall, ?_⟩
  by_cases hkj : k ≤ j
  · -- the purged events are all in merged segments
    have htake : (parts.take j).flatten =
        (parts.take k).flatten ++ ((parts.drop k).take (j - k)).flatten := by
      rw [← List.flatten_append, ← List.take_add, Nat.add_sub_cancel' hkj]
    refine .inl ⟨((parts.drop k).take (j - k)).flatten, ?_, ?_⟩
    · rw [htake]
      exact List.subset_append_right _ _
    · rw [htake, List.append_assoc, ← hsplit] at hall
      exact (List.append_cancel_left hall).symm
  · cases hpart : parts[j]? with
    | none =>
        have hlen := List.getElem?_eq_none_iff.mp hpart
        rw [List.take_of_length_le (by omega)] at hsplit
        refine .inl ⟨[], List.nil_subset _, ?_⟩
        rw [← hsplit, List.take_of_length_le hlen] at hall
        exact (List.append_cancel_left hall).symm
    | some part =>
        -- the next segment was purged, and it ends past the target
        right
        obtain ⟨d₀, hd₀, hlt⟩ := hnext part hpart
        obtain ⟨hj, hget⟩ := List.getElem?_eq_some_iff.mp hpart
        have hmem : d₀ ∈ (parts.take k).flatten := by
          refine List.mem_flatten.mpr ⟨part, ?_, hd₀⟩
          rw [← hget]
          exact List.mem_take_iff_getElem.mpr ⟨j, by omega, rfl⟩
        rw [← hsplit, Ascends.append] at ha
        intro d hd
        have h₁ := (ha.1.mem hmem).2
        have h₂ := (ha.2.mem hd).1
        omega

/-- A point-in-time restore fails, or it shows the transactions up to the target. -/
theorem restoreAt_cases (h : Stored env name True r batches parts) (henv : env.Lawful name)
    (hg : Grows 0 batches.flatten) (ha : Ascends 0 batches.flatten) (target : Nat) :
    (∃ e, restoreAt env r name target = .error e) ∨
      ∃ image, restoreAt env r name target = .ok image ∧
        image.view = (DbImage.applied {} (batches.flatten.filter (·.txid ≤ target))).view ∧
        image.txid = target ∧ Kept env name r.store target := by
  obtain ⟨hist, hr, hc⟩ := h.log.history
  obtain ⟨m, hm, hholds⟩ := h.manifest
  obtain ⟨gone, hpres, hle, htight⟩ := h.purge
  obtain ⟨k, hk⟩ := htight trivial
  obtain ⟨j, hheld, hparts, hnext⟩ := usable_parts hholds.segments target
  obtain ⟨hall, hkept⟩ := h.kept_cases ha hk hnext
  obtain ⟨ls, hls, hseals, -⟩ := fetchAll_eq henv hheld
  generalize (parts.drop j).flatten ++ (batches.drop (covered r.store name)).flatten = after
    at hall hkept
  have hevents := eventsOf_present hr h.floor hpres (hle.trans h.covered_le)
  have hforall := (Logged.readsAs_between hr hc _ gone rfl).forall₂
  rw [← hall] at hg ha
  obtain ⟨hgbefore, hgafter⟩ := Grows.append.mp hg
  have hbefore := (Ascends.append.mp ha).1
  have hbase := view_merge_all hseals {} hgbefore
  have htxid := DbImage.txid_eq hbase
  rw [DbImage.txid_applied] at htxid
  -- what the restore computes
  generalize hwindow : (batches.drop gone).flatten.filter (fun d =>
    lastTxid 0 (parts.take j).flatten < d.txid && d.txid ≤ target) = window
  have hrun : restoreAt env r name target =
      let image := (ls.foldl DbImage.mergeLtx {}).applied window
      if image.txid < target then
        let reached := image.txid
        .error (.invalidInput (s!"txid {target} is not reconstructable (beyond tail or " ++
          s!"purged by retention); reached txid {reached}"))
      else .ok image := by
    rw [restoreAt, hm]
    simp only [mergeSegments, hls]
    rw [Landslide.fold, readHistory_of_not_fork hr.fork, hevents, htxid]
    simp only [Except.map, replayUpTo_foldl _ _ hforall]
    rw [show lastTxid (DbImage.txid {}) (parts.take j).flatten = lastTxid 0 _ from rfl, hwindow]
  have hreached : ((ls.foldl DbImage.mergeLtx {}).applied window).txid =
      lastTxid (lastTxid 0 (parts.take j).flatten) window := by
    rw [DbImage.txid_applied, htxid]
  by_cases hshort : ((ls.foldl DbImage.mergeLtx {}).applied window).txid < target
  · left
    rw [hrun]
    dsimp only
    rw [if_pos hshort]
    exact ⟨_, rfl⟩
  have hle' : lastTxid 0 (parts.take j).flatten ≤ target := lastTxid_parts_le (Nat.zero_le _) hparts
  have hw : window = after.filter (·.txid ≤ target) := by
    rw [← hwindow]
    exact window_eq ha hkept (by rw [hwindow, ← hreached]; omega)
  have hmem := lastTxid_mem (lastTxid 0 (parts.take j).flatten) window
  have hend : lastTxid (lastTxid 0 (parts.take j).flatten) window = target := by
    refine Nat.le_antisymm ?_ (by omega)
    rcases hmem with heq | ⟨d, hd, heq⟩
    · rwa [heq]
    · rw [← heq]
      rw [hw] at hd
      simpa using (List.mem_filter.mp hd).2
  right
  refine ⟨(ls.foldl DbImage.mergeLtx {}).applied window, ?_, ?_, hreached.trans hend, ?_⟩
  · rw [hrun]
    dsimp only
    rw [if_neg hshort]
  · rw [← hall, hbefore.filter_append hle', ← hw, DbImage.applied_append]
    refine DbImage.view_applied_congr hbase ?_
    obtain ⟨rest, hrest⟩ := (Ascends.append.mp ha).2.filter_append_rest target
    rw [hrest, ← hw, Grows.append] at hgafter
    rw [DbImage.dbSize_applied]
    exact hgafter.1
  · rcases hmem with heq | ⟨d, hd, heq⟩
    · -- nothing was replayed, so a merged segment ends at the target
      rw [hend] at heq
      rcases Held.lastTxid hheld 0 with hz | ⟨seg, hseg, hsegEnd⟩
      · exact .inl (heq.trans hz)
      · refine .inr (.inl ⟨m, hm, seg, (List.takeWhile_sublist _).subset hseg, ?_⟩)
        rw [hsegEnd, heq]
    · right
      right
      rw [← hwindow] at hd
      obtain ⟨ds, hds, hmem'⟩ := List.mem_flatten.mp (List.mem_filter.mp hd).1
      obtain ⟨i, hi, hget⟩ := List.getElem_of_mem hds
      have hi' : i < (between hist gone batches.length).length := by rwa [hforall.length_eq]
      have hdec := hforall.get hi' hi
      rw [List.get_eq_getElem, List.get_eq_getElem, hget] at hdec
      refine ⟨_, ?_, ds, hdec, d, hmem', heq.trans hend⟩
      rw [hevents]
      exact List.getElem_mem hi'

end Stored

/-! ## Restores at a transaction -/

/-- In every run whose checkpoints keep the purge boundary, a point-in-time restore
that succeeds returns the captured transactions up to its target, and it fails for
a target that is gone or beyond the tail. -/
theorem restoreAt_exact [Payload D] (env : Outside D S B) (name : String)
    (henv : env.Lawful name) {st : State D S B}
    (h : Reached env name (fun st op => op.Keeps env name st) st) (hg : Grows 0 st.captured)
    {size : Nat} (hone : ∀ d ∈ st.captured, d.pageSize = size) (target : Nat) :
    (∀ image, restoreAt env st.remote name target = .ok image → image.txid = target ∧
      image.toBytes = (DbImage.applied {} (st.captured.filter (·.txid ≤ target))).toBytes ∧
      image.toBytes.isSome = true) ∧
    (¬ Kept env name st.remote.store target ∨ lastTxid 0 st.captured < target →
      ∃ e, restoreAt env st.remote name target = .error e) := by
  have hfaultless : ∀ (st : State D S B) (op : Op), op.Keeps env name st → op.Faultless := by
    intro st op hop
    cases op with
    | checkpoint => exact hop.1
    | «open» => trivial
    | sync => trivial
  obtain ⟨⟨batches, parts, hinv⟩, -⟩ := h.inv_of_faultless henv hfaultless
    (fun _ _ hop (_ : True) => hop) hg
  have hasc := hinv.consecutive.ascends
  rcases hinv.stored.restoreAt_cases henv (hinv.grows hg) (hinv.folded.ascends hasc) target with
    ⟨e, he⟩ | ⟨image, hok, hview, htxid, hkept⟩
  · refine ⟨fun image hok => ?_, fun _ => ⟨e, he⟩⟩
    rw [he] at hok
    cases hok
  · rw [hok]
    -- the target is 0 or the number of an appended transaction
    have hlast := (DbImage.txid_eq hview).symm.trans htxid
    rw [DbImage.txid_applied] at hlast
    have hfolded : Folded (st.captured.filter (·.txid ≤ target))
        (batches.flatten.filter (·.txid ≤ target)) := by
      rcases lastTxid_mem 0 (batches.flatten.filter (·.txid ≤ target)) with hz | ⟨d, hd, heq⟩
      · have htarget : target ≤ 0 := (hlast.symm.trans hz).le
        rw [hasc.filter_eq_nil htarget, (hinv.folded.ascends hasc).filter_eq_nil htarget]
        exact .nil
      · exact hinv.folded.filter hasc ⟨d, (List.mem_filter.mp hd).1, heq.trans hlast⟩
    have hview' : image.view =
        (DbImage.applied {} (st.captured.filter (·.txid ≤ target))).view := by
      rw [hview, hfolded.applied_eq]
    constructor
    · rintro image' ⟨⟩
      refine ⟨htxid, DbImage.toBytes_congr hview', ?_⟩
      rw [DbImage.toBytes_congr hview']
      exact toBytes_applied_isSome (fun d hd => hinv.sized d (List.mem_filter.mp hd).1)
        fun d hd => hone d (List.mem_filter.mp hd).1
    · rintro (hgone | hbeyond)
      · exact absurd hkept hgone
      · have hle : target ≤ lastTxid 0 st.captured := by
          rw [← hlast]
          rcases lastTxid_mem 0 (batches.flatten.filter (·.txid ≤ target)) with hz | ⟨d, hd, heq⟩
          · exact hz.le.trans (Nat.zero_le _)
          · rw [← hinv.folded.lastTxid_eq, show lastTxid (DbImage.txid {}) = lastTxid 0 from rfl,
              ← heq]
            exact ((hinv.folded.ascends hasc).mem (List.mem_filter.mp hd).1).2
        omega

/-- Three transactions are sealed and purged, two more are captured, and a checkpoint
seals them with the given options. -/
def purgedThen (opts : CheckpointOpts) : List Op :=
  let wal := walOf [(1, 1, 10), (2, 2, 20), (3, 3, 30)]
  let wal' := walOf [(1, 1, 10), (2, 2, 20), (3, 3, 30), (1, 3, 11), (2, 3, 21)]
  [.open, .checkpoint { purge := true } wal stamps 5 "c" none,
    .checkpoint opts wal' stamps 5 "c" none]

theorem restoreAt_exact_purgedThen :
    ∃ image, restoreAt plain (run plain "d" (purgedThen {})).remote "d" 4 = .ok image ∧
      image.txid = 4 ∧ image.toBytes = some [11, 11, 20, 20, 30, 30] := by
  have hmeets : Meets plain "d" (fun st op => op.Keeps plain "d" st) {} (purgedThen {}) := by
    refine ⟨trivial, ⟨rfl, .inl rfl⟩, ⟨rfl, .inr (.inl fun m hm => ?_)⟩, trivial⟩
    have hlen : (latestManifest plain (step plain "d" (step plain "d" {} .open)
        (.checkpoint { purge := true } (walOf [(1, 1, 10), (2, 2, 20), (3, 3, 30)]) stamps 5 "c"
          none)).remote.store "d").toOption.map (·.segments.length) = some 1 := by decide +kernel
    rw [hm] at hlen
    rw [show m.segments.length = 1 from Option.some.inj hlen]
    decide
  have hone : ∀ d ∈ (run plain "d" (purgedThen {})).captured, d.pageSize = 2 := by decide +kernel
  have hexact := (restoreAt_exact plain "d" (plain_lawful "d") (.run hmeets) (by decide +kernel)
    hone 4).1
  have hok : (restoreAt plain (run plain "d" (purgedThen {})).remote "d" 4).isOk = true := by
    decide +kernel
  cases hr : restoreAt plain (run plain "d" (purgedThen {})).remote "d" 4 with
  | error e =>
      rw [hr] at hok
      cases hok
  | ok image =>
      obtain ⟨htxid, hbytes, -⟩ := hexact image hr
      refine ⟨image, rfl, htxid, hbytes.trans ?_⟩
      decide +kernel

/-- The second checkpoint coalesces and does not purge.  Transaction 4 is restored
over an empty image: pages 2 and 3 are lost. -/
theorem restoreAt_misses_purged :
    let st := run plain "d" (purgedThen { coalesceAt := 1 })
    Grows 0 st.captured ∧ (∀ d ∈ st.captured, d.pageSize = 2) ∧
      ((restoreAt plain st.remote "d" 4).toOption.map fun image => (image.txid, image.toBytes)) =
        some (4, some [11, 11, 0, 0, 0, 0]) ∧
      (DbImage.applied {} (st.captured.filter (·.txid ≤ 4))).toBytes =
        some [11, 11, 20, 20, 30, 30] := by
  decide +kernel

end

end Landslide.Sqlite
