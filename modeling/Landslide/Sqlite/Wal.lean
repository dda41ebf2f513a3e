import Landslide.Sqlite.Image

/-!
# WAL parsing

The parser of `landslide-sqlite/src/wal.rs` and the capture loop of
`Db::sync_inner`.  A WAL is a header and then frames of one size.  A transaction
is a run of frames that ends at a commit frame, one whose size field is not 0.
The frames after the last commit frame are not consumed, and a frame whose salts
differ from the header's ends the scan.

The loop is bounded by the length of the buffer, and `captureLoop_ends` says that
it always ends for want of a frame.  The transactions found are numbered on from
the last one, and their pages have the page size of the header.
-/

namespace Landslide.Sqlite

/-! ## Headers and frames -/

def headerLen : Nat := 32

def frameHeaderLen : Nat := 24

/-- The two magic numbers of a WAL. -/
def magic : List Nat := [0x377f0682, 0x377f0683]

/-- Read position within one WAL generation. -/
structure WalCursor where
  salt1 : Nat := 0
  salt2 : Nat := 0
  /-- Next frame to read; the first after the last commit frame. -/
  frame : Nat := 0
deriving DecidableEq, Repr

structure Header where
  pageSize : Nat
  salt1 : Nat
  salt2 : Nat
deriving DecidableEq, Repr

/-- The first four bytes, big-endian. -/
def be32 (b : Bytes) : Nat := (b.take 4).foldl (fun n x => n * 256 + x.toNat) 0

/-- Parses a header; `none` if the file is short or not a WAL. -/
def header (wal : Bytes) : Option Header :=
  if wal.length < headerLen then none
  else if be32 wal ∈ magic then
    -- page size 1 is the on-disk encoding of 65536
    let pageSize := match be32 (wal.drop 8) with
      | 1 => 65536
      | n => n
    some { pageSize := pageSize, salt1 := be32 (wal.drop 16), salt2 := be32 (wal.drop 20) }
  else none

/-- The bytes in `[lo, hi)`, if they are all there. -/
def slice (b : Bytes) (lo hi : Nat) : Option Bytes :=
  if hi ≤ b.length then some ((b.drop lo).take (hi - lo)) else none

/-- Frame `index` as page number, size field and data. -/
def frame (wal : Bytes) (h : Header) (index : Nat) : Option (Nat × Nat × Bytes) :=
  let frameLen := frameHeaderLen + h.pageSize
  let off := headerLen + index * frameLen
  match slice wal off (off + frameHeaderLen) with
  | none => none
  | some hdr =>
      if be32 (hdr.drop 8) ≠ h.salt1 ∨ be32 (hdr.drop 12) ≠ h.salt2 then none
      else
        match slice wal (off + frameHeaderLen) (off + frameLen) with
        | none => none
        | some data => some (be32 hdr, be32 (hdr.drop 4), data)

theorem length_slice {b data : Bytes} {lo hi : Nat} (hle : lo ≤ hi) (h : slice b lo hi = some data) :
    data.length = hi - lo := by
  rw [slice] at h
  split at h
  · cases h
    rw [List.length_take, List.length_drop]
    omega
  · cases h

/-- A frame has a page of data and lies within the buffer. -/
theorem frame_eq_some {wal : Bytes} {h : Header} {index pgno dbSize : Nat} {data : Bytes}
    (hf : frame wal h index = some (pgno, dbSize, data)) :
    data.length = h.pageSize ∧ index < wal.length := by
  simp only [frame] at hf
  split at hf
  · cases hf
  · next hdr hhdr =>
    split at hf
    · cases hf
    · split at hf
      · cases hf
      · next data' hdata =>
        cases hf
        refine ⟨?_, ?_⟩
        · rw [length_slice (by omega) hdata]
          omega
        · rw [slice] at hhdr
          split at hhdr
          · next hle =>
            have hmul : index ≤ index * (frameHeaderLen + h.pageSize) :=
              Nat.le_mul_of_pos_right _ (by simp [frameHeaderLen])
            have hpos : 0 < headerLen := by decide
            omega
          · cases hhdr

/-! ## Capture -/

/-- Reads frames from index `idx` on.  Returns the transactions, the frames of the
one under way and the index reached. -/
def captureLoop (wal : Bytes) (h : Header) : Nat → Nat → Nat → List Frame → List Delta →
    List Delta × List Frame × Nat
  | 0, idx, _, txFrames, deltas => (deltas, txFrames, idx)
  | fuel + 1, idx, txid, txFrames, deltas =>
      match frame wal h idx with
      | none => (deltas, txFrames, idx)
      | some (pgno, dbSize, data) =>
          let txFrames := txFrames ++ [{ pgno := pgno, data := data }]
          if dbSize ≠ 0 then
            captureLoop wal h fuel (idx + 1) (txid + 1) [] (deltas ++
              [{ txid := txid + 1, pageSize := h.pageSize, dbSize := dbSize, pages := txFrames }])
          else captureLoop wal h fuel (idx + 1) txid txFrames deltas

/-- With a bound of the length of the buffer, the scan ends for want of a frame. -/
theorem captureLoop_ends (wal : Bytes) (h : Header) : ∀ (fuel idx txid : Nat)
    (txFrames : List Frame) (deltas : List Delta), wal.length < idx + fuel →
      frame wal h (captureLoop wal h fuel idx txid txFrames deltas).2.2 = none
  | 0, idx, _, _, _, hlt => by
      rw [captureLoop]
      cases hf : frame wal h idx with
      | none => rfl
      | some f =>
          have := (frame_eq_some hf).2
          omega
  | fuel + 1, idx, txid, txFrames, deltas, hlt => by
      rw [captureLoop]
      cases hf : frame wal h idx with
      | none => exact hf
      | some f =>
          obtain ⟨pgno, dbSize, data⟩ := f
          dsimp only
          split
          · exact captureLoop_ends wal h fuel (idx + 1) _ _ _ (by omega)
          · exact captureLoop_ends wal h fuel (idx + 1) _ _ _ (by omega)

/-- The transactions are numbered on from `txid`. -/
def Consecutive : Nat → List Delta → Prop
  | _, [] => True
  | txid, d :: deltas => d.txid = txid + 1 ∧ Consecutive d.txid deltas

/-- The number of the last of some transactions. -/
def lastTxid (txid : Nat) (deltas : List Delta) : Nat := deltas.foldl (fun _ d => d.txid) txid

theorem Consecutive.append {txid : Nat} {deltas deltas' : List Delta} :
    Consecutive txid (deltas ++ deltas') ↔
      Consecutive txid deltas ∧ Consecutive (lastTxid txid deltas) deltas' := by
  induction deltas generalizing txid with
  | nil => simp [Consecutive, lastTxid]
  | cons d deltas ih =>
      rw [List.cons_append, Consecutive, Consecutive, ih, and_assoc]
      rfl

theorem DbImage.txid_applied (image : DbImage) (deltas : List Delta) :
    (image.applied deltas).txid = lastTxid image.txid deltas := by
  induction deltas generalizing image with
  | nil => rfl
  | cons d deltas ih => exact ih (image.apply d)

/-- What the loop adds: transactions numbered on, whose pages have the page size
of the header. -/
theorem captureLoop_deltas (wal : Bytes) (h : Header) : ∀ (fuel idx txid : Nat)
    (txFrames : List Frame) (deltas : List Delta),
      (∀ f ∈ txFrames, f.data.length = h.pageSize) →
      ∃ more, (captureLoop wal h fuel idx txid txFrames deltas).1 = deltas ++ more ∧
        Consecutive txid more ∧ ∀ d ∈ more, d.Sized
  | 0, _, _, _, deltas, _ => ⟨[], by simp [captureLoop], trivial, by simp⟩
  | fuel + 1, idx, txid, txFrames, deltas, hframes => by
      rw [captureLoop]
      cases hf : frame wal h idx with
      | none => exact ⟨[], by simp, trivial, by simp⟩
      | some f =>
          obtain ⟨pgno, dbSize, data⟩ := f
          have hframes' : ∀ f ∈ txFrames ++ [⟨pgno, data⟩], f.data.length = h.pageSize := by
            intro f hmem
            rcases List.mem_append.mp hmem with hmem | hmem
            · exact hframes f hmem
            · rw [List.mem_singleton.mp hmem]
              exact (frame_eq_some hf).1
          dsimp only
          split
          · obtain ⟨more, heq, hcons, hsized⟩ := captureLoop_deltas wal h fuel (idx + 1) (txid + 1)
              [] (deltas ++ [⟨txid + 1, h.pageSize, dbSize, txFrames ++ [⟨pgno, data⟩]⟩]) (by simp)
            refine ⟨_ :: more, by rw [heq, List.append_assoc]; rfl, ⟨rfl, hcons⟩, ?_⟩
            intro d hd
            rcases List.mem_cons.mp hd with rfl | hd
            · exact hframes'
            · exact hsized d hd
          · exact captureLoop_deltas wal h fuel (idx + 1) txid _ deltas hframes'

/-- Reads every frame of a buffer. -/
def capture (wal : Bytes) (h : Header) (txid : Nat) : List Delta × List Frame × Nat :=
  captureLoop wal h (wal.length + 1) 0 txid [] []

theorem capture_ends (wal : Bytes) (h : Header) (txid : Nat) :
    frame wal h (capture wal h txid).2.2 = none :=
  captureLoop_ends wal h _ _ _ _ _ (by omega)

theorem capture_deltas (wal : Bytes) (h : Header) (txid : Nat) :
    Consecutive txid (capture wal h txid).1 ∧ ∀ d ∈ (capture wal h txid).1, d.Sized := by
  obtain ⟨more, heq, hcons, hsized⟩ :=
    captureLoop_deltas wal h (wal.length + 1) 0 txid [] [] (by simp)
  rw [capture, heq]
  exact ⟨hcons, hsized⟩

/-- What a scan of a WAL file finds from a cursor on. -/
structure Scan where
  cursor : WalCursor
  deltas : List Delta
  nextFrame : Nat

/-- Scans a WAL file past the cursor; a new generation starts over.  `none` where
there is no file, or it is short or not a WAL. -/
def scan (cursor : WalCursor) (txid : Nat) (file : Option Bytes) : Option Scan :=
  match file with
  | none => none
  | some file =>
      if file.length < headerLen then none
      else
        match header (file.take headerLen) with
        | none => none
        | some h =>
            let cursor := if (h.salt1, h.salt2) ≠ (cursor.salt1, cursor.salt2) then
              { salt1 := h.salt1, salt2 := h.salt2, frame := 0 } else cursor
            let base := cursor.frame
            let off := headerLen + base * (frameHeaderLen + h.pageSize)
            let wal := file.take headerLen ++ file.drop off
            let r := capture wal h txid
            some { cursor := cursor, deltas := r.1, nextFrame := base + r.2.2 - r.2.1.length }

/-- The transactions that a scan finds. -/
def found (cursor : WalCursor) (txid : Nat) (file : Option Bytes) : List Delta :=
  (scan cursor txid file).elim [] (·.deltas)

/-- The transactions of a scan are numbered on, and their pages have the page
size. -/
theorem scan_deltas {cursor : WalCursor} {txid : Nat} {file : Option Bytes} {s : Scan}
    (h : scan cursor txid file = some s) :
    Consecutive txid s.deltas ∧ ∀ d ∈ s.deltas, d.Sized := by
  unfold scan at h
  split at h
  · cases h
  · split at h
    · cases h
    · split at h
      · cases h
      · cases h
        exact capture_deltas _ _ txid

theorem found_deltas (cursor : WalCursor) (txid : Nat) (file : Option Bytes) :
    Consecutive txid (found cursor txid file) ∧ ∀ d ∈ found cursor txid file, d.Sized := by
  rw [found]
  cases hs : scan cursor txid file with
  | none => exact ⟨trivial, by simp⟩
  | some s => exact scan_deltas hs

end Landslide.Sqlite
