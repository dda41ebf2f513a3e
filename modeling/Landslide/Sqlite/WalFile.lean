import Landslide.Sqlite.Wal

/-!
# WAL files

The file that SQLite writes, as the parser of `landslide-sqlite/src/wal.rs` meets
it.  A generation is a header, the frames of its committed transactions, the frames
that aborted transactions left, and a torn frame.  The bytes of a page are kept, and
of a frame header all that is in it.

`frame_bytes` reads one frame back from such bytes.  From there `Generation.scan_eq`
says what a scan finds: a cursor behind the first transactions finds the others, in
order, and stops behind the last commit frame.
-/

namespace Landslide.Sqlite

/-! ## Frames and transactions -/

/-- A frame as it is written: its header and its page. -/
structure WalFrame where
  head : Bytes
  data : Bytes
deriving DecidableEq, Repr

namespace WalFrame

def pgno (f : WalFrame) : Nat := be32 f.head

def dbSize (f : WalFrame) : Nat := be32 (f.head.drop 4)

def bytes (f : WalFrame) : Bytes := f.head ++ f.data

/-- The page that the frame writes. -/
def page (f : WalFrame) : Frame := { pgno := f.pgno, data := f.data }

/-- A whole frame of the generation of a header. -/
structure Of (h : Header) (f : WalFrame) : Prop where
  head : f.head.length = frameHeaderLen
  data : f.data.length = h.pageSize
  salt1 : be32 (f.head.drop 8) = h.salt1
  salt2 : be32 (f.head.drop 12) = h.salt2

instance (h : Header) (f : WalFrame) : Decidable (f.Of h) :=
  decidable_of_iff (f.head.length = frameHeaderLen ∧ f.data.length = h.pageSize ∧
      be32 (f.head.drop 8) = h.salt1 ∧ be32 (f.head.drop 12) = h.salt2)
    ⟨fun ⟨h₁, h₂, h₃, h₄⟩ => ⟨h₁, h₂, h₃, h₄⟩, fun h => ⟨h.1, h.2, h.3, h.4⟩⟩

theorem Of.length_bytes {h : Header} {f : WalFrame} (hf : f.Of h) :
    f.bytes.length = frameHeaderLen + h.pageSize := by
  rw [bytes, List.length_append, hf.head, hf.data]

end WalFrame

/-- The frames of one committed transaction. -/
structure Tx where
  before : List WalFrame
  last : WalFrame
deriving DecidableEq, Repr

namespace Tx

def frames (t : Tx) : List WalFrame := t.before ++ [t.last]

/-- Written in the generation of a header, with the commit frame as the last. -/
structure Of (h : Header) (t : Tx) : Prop where
  frames : ∀ f ∈ t.frames, f.Of h
  before : ∀ f ∈ t.before, f.dbSize = 0
  last : t.last.dbSize ≠ 0

instance (h : Header) (t : Tx) : Decidable (t.Of h) :=
  decidable_of_iff ((∀ f ∈ t.frames, f.Of h) ∧ (∀ f ∈ t.before, f.dbSize = 0) ∧ t.last.dbSize ≠ 0)
    ⟨fun ⟨h₁, h₂, h₃⟩ => ⟨h₁, h₂, h₃⟩, fun h => ⟨h.1, h.2, h.3⟩⟩

/-- What is to be replicated of a transaction, as number `txid`. -/
def delta (txid : Nat) (t : Tx) : Delta where
  txid := txid
  pageSize := t.last.data.length
  dbSize := t.last.dbSize
  pages := t.frames.map (·.page)

theorem length_frames (t : Tx) : t.frames.length = t.before.length + 1 := by simp [frames]

end Tx

/-- Transactions numbered on from `txid`. -/
def numbered : Nat → List Tx → List Delta
  | _, [] => []
  | txid, t :: txs => t.delta (txid + 1) :: numbered (txid + 1) txs

theorem numbered_append : ∀ (txid : Nat) (txs txs' : List Tx),
    numbered txid (txs ++ txs') = numbered txid txs ++ numbered (txid + txs.length) txs'
  | _, [], _ => rfl
  | txid, t :: txs, txs' => by
      rw [List.cons_append, numbered, numbered, numbered_append, List.length_cons, List.cons_append,
        show txid + 1 + txs.length = txid + (txs.length + 1) by omega]

theorem lastTxid_numbered : ∀ (txid : Nat) (txs : List Tx),
    lastTxid txid (numbered txid txs) = txid + txs.length
  | _, [] => rfl
  | txid, t :: txs => by
      show lastTxid (txid + 1) (numbered (txid + 1) txs) = txid + (txs.length + 1)
      rw [lastTxid_numbered]
      omega

theorem numbered_eq_nil {txid : Nat} {txs : List Tx} : numbered txid txs = [] ↔ txs = [] := by
  cases txs with
  | nil => exact ⟨fun _ => rfl, fun _ => rfl⟩
  | cons t txs => exact ⟨by simp [numbered], by simp⟩

/-! ## Reading frames back -/

theorem slice_middle {wal a b c : Bytes} {lo hi : Nat} (hwal : wal = a ++ b ++ c)
    (hlo : lo = a.length) (hhi : hi = a.length + b.length) : slice wal lo hi = some b := by
  subst hwal hlo hhi
  rw [slice, if_pos (by simp only [List.length_append]; omega), List.append_assoc,
    List.drop_left, Nat.add_sub_cancel_left, List.take_left]

theorem length_bytes {h : Header} : ∀ {fs : List WalFrame}, (∀ f ∈ fs, f.Of h) →
    (fs.flatMap (·.bytes)).length = fs.length * (frameHeaderLen + h.pageSize)
  | [], _ => by simp
  | f :: fs, hfs => by
      rw [List.flatMap_cons, List.length_append, length_bytes fun g hg => hfs g (.tail _ hg),
        (hfs f (.head _)).length_bytes, List.length_cons, Nat.succ_mul]
      omega

section

variable {h : Header} {head torn : Bytes} {fs : List WalFrame}

/-- Frame `i` of a header, whole frames and a torn frame is the `i`th of the whole
ones. -/
theorem frame_bytes (hhead : head.length = headerLen) (hfs : ∀ f ∈ fs, f.Of h)
    (htorn : torn.length < frameHeaderLen + h.pageSize) (i : Nat) :
    frame (head ++ fs.flatMap (·.bytes) ++ torn) h i =
      fs[i]?.map fun f => (f.pgno, f.dbSize, f.data) := by
  cases hi : fs[i]? with
  | some f =>
      obtain ⟨hlt, hget⟩ := List.getElem?_eq_some_iff.mp hi
      have hf : f.Of h := hfs f (List.mem_of_getElem? hi)
      have hsplit : fs = fs.take i ++ f :: fs.drop (i + 1) := by
        rw [← hget, List.cons_getElem_drop_succ, List.take_append_drop]
      have hlen : (head ++ (fs.take i).flatMap (·.bytes)).length =
          headerLen + i * (frameHeaderLen + h.pageSize) := by
        rw [List.length_append, hhead, length_bytes fun g hg => hfs g (List.mem_of_mem_take hg),
          List.length_take_of_le hlt.le]
      have hwal : head ++ fs.flatMap (·.bytes) ++ torn =
          head ++ (fs.take i).flatMap (·.bytes) ++ f.head ++
            (f.data ++ ((fs.drop (i + 1)).flatMap (·.bytes) ++ torn)) := by
        conv_lhs => rw [hsplit]
        simp [WalFrame.bytes]
      have hhdr := slice_middle hwal hlen.symm (by rw [hlen, hf.head])
      have hdata := slice_middle (hwal.trans (List.append_assoc ..).symm)
        (show headerLen + i * (frameHeaderLen + h.pageSize) + frameHeaderLen = _ by
          rw [List.length_append, hlen, hf.head])
        (show headerLen + i * (frameHeaderLen + h.pageSize) + (frameHeaderLen + h.pageSize) = _ by
          rw [List.length_append, hlen, hf.head, hf.data]; omega)
      rw [frame]
      simp only [hhdr, hdata, hf.salt1, hf.salt2, ne_eq, not_true_eq_false, or_self, if_false]
      rfl
  | none =>
      -- what is left past the whole frames is shorter than a frame
      have hle : fs.length ≤ i := List.getElem?_eq_none_iff.mp hi
      have hmul := Nat.mul_le_mul_right (frameHeaderLen + h.pageSize) hle
      have hlen : (head ++ fs.flatMap (·.bytes) ++ torn).length <
          headerLen + i * (frameHeaderLen + h.pageSize) + (frameHeaderLen + h.pageSize) := by
        rw [List.length_append, List.length_append, hhead, length_bytes hfs]
        omega
      cases hf : frame (head ++ fs.flatMap (·.bytes) ++ torn) h i with
      | none => rfl
      | some r =>
          simp only [frame] at hf
          split at hf
          · cases hf
          · split at hf
            · cases hf
            · rw [slice, if_neg (by omega)] at hf
              cases hf

end

/-! ## Capture -/

section

variable {wal : Bytes} {h : Header} {fs : List WalFrame}

/-- Frames that are no commit frames gather in the transaction under way. -/
theorem captureLoop_before
    (hfs : ∀ i, frame wal h i = fs[i]?.map fun f => (f.pgno, f.dbSize, f.data)) :
    ∀ {before more : List WalFrame} {idx : Nat}, (∀ f ∈ before, f.dbSize = 0) →
      fs.drop idx = before ++ more → ∀ (fuel txid : Nat) (txFrames : List Frame)
        (deltas : List Delta),
        captureLoop wal h (before.length + fuel) idx txid txFrames deltas =
          captureLoop wal h fuel (idx + before.length) txid (txFrames ++ before.map (·.page)) deltas
  | [], _, _, _, _, fuel, txid, txFrames, deltas => by simp
  | f :: before, more, idx, hzero, hdrop, fuel, txid, txFrames, deltas => by
      have hf : fs[idx]? = some f := by
        rw [← List.head?_drop, hdrop]
        rfl
      have hrest : fs.drop (idx + 1) = before ++ more := by
        rw [← List.drop_drop, hdrop]
        rfl
      have hstep := captureLoop_before hfs (fun g hg => hzero g (.tail _ hg)) hrest fuel txid
        (txFrames ++ [f.page]) deltas
      rw [show (f :: before).length + fuel = (before.length + fuel) + 1 by
        rw [List.length_cons]; omega, captureLoop, hfs idx, hf]
      simp only [Option.map_some, hzero f (.head _), ne_eq, not_true_eq_false, if_false]
      show captureLoop wal h (before.length + fuel) (idx + 1) txid (txFrames ++ [f.page]) deltas = _
      rw [hstep, List.map_cons, List.append_assoc, List.length_cons,
        show idx + 1 + before.length = idx + (before.length + 1) by omega]
      rfl

/-- The frames of a transaction add it. -/
theorem captureLoop_tx
    (hfs : ∀ i, frame wal h i = fs[i]?.map fun f => (f.pgno, f.dbSize, f.data)) {t : Tx}
    (ht : t.Of h) {more : List WalFrame} {idx : Nat} (hdrop : fs.drop idx = t.frames ++ more)
    (fuel txid : Nat) (deltas : List Delta) :
    captureLoop wal h (t.frames.length + fuel) idx txid [] deltas =
      captureLoop wal h fuel (idx + t.frames.length) (txid + 1) []
        (deltas ++ [t.delta (txid + 1)]) := by
  rw [Tx.frames, List.append_assoc] at hdrop
  have hlast : fs[idx + t.before.length]? = some t.last := by
    rw [← List.head?_drop, ← List.drop_drop, hdrop, List.drop_left]
    rfl
  have hsize : t.last.data.length = h.pageSize := (ht.frames _ (by simp [Tx.frames])).data
  rw [t.length_frames, show t.before.length + 1 + fuel = t.before.length + (fuel + 1) by omega,
    captureLoop_before hfs ht.before hdrop, captureLoop, hfs, hlast]
  simp only [Option.map_some, ht.last, ne_eq, not_false_eq_true, if_true, List.nil_append]
  rw [Tx.delta, hsize, Tx.frames, List.map_append, Nat.add_assoc]
  rfl

/-- Transactions are added in order. -/
theorem captureLoop_txs
    (hfs : ∀ i, frame wal h i = fs[i]?.map fun f => (f.pgno, f.dbSize, f.data)) :
    ∀ {txs : List Tx} {more : List WalFrame} {idx : Nat}, (∀ t ∈ txs, t.Of h) →
      fs.drop idx = txs.flatMap (·.frames) ++ more → ∀ (fuel txid : Nat) (deltas : List Delta),
        captureLoop wal h ((txs.flatMap (·.frames)).length + fuel) idx txid [] deltas =
          captureLoop wal h fuel (idx + (txs.flatMap (·.frames)).length) (txid + txs.length) []
            (deltas ++ numbered txid txs)
  | [], _, _, _, _, fuel, txid, deltas => by simp [numbered]
  | t :: txs, more, idx, htxs, hdrop, fuel, txid, deltas => by
      rw [List.flatMap_cons, List.append_assoc] at hdrop
      have hrest : fs.drop (idx + t.frames.length) = txs.flatMap (·.frames) ++ more := by
        rw [← List.drop_drop, hdrop, List.drop_left]
      rw [List.flatMap_cons, List.length_append, Nat.add_assoc,
        captureLoop_tx hfs (htxs t (.head _)) hdrop,
        captureLoop_txs hfs (fun u hu => htxs u (.tail _ hu)) hrest, numbered, List.append_assoc,
        List.length_cons, Nat.add_assoc, Nat.add_assoc, Nat.add_comm 1]
      rfl

/-- A scan of transactions and of frames that no commit frame follows. -/
theorem capture_txs
    (hfs : ∀ i, frame wal h i = fs[i]?.map fun f => (f.pgno, f.dbSize, f.data)) {txs : List Tx}
    (htxs : ∀ t ∈ txs, t.Of h) {left : List WalFrame} (hleft : ∀ f ∈ left, f.dbSize = 0)
    (hall : fs = txs.flatMap (·.frames) ++ left) (hlen : fs.length ≤ wal.length) (txid : Nat) :
    capture wal h txid = (numbered txid txs, left.map (·.page), fs.length) := by
  have hlength : fs.length = (txs.flatMap (·.frames)).length + left.length := by
    rw [hall, List.length_append]
  have hdrop : fs.drop (txs.flatMap (·.frames)).length = left ++ [] := by
    rw [hall, List.drop_left, List.append_nil]
  obtain ⟨fuel, hfuel⟩ : ∃ fuel, wal.length + 1 =
      (txs.flatMap (·.frames)).length + (left.length + (fuel + 1)) :=
    ⟨wal.length - fs.length, by omega⟩
  have hend : frame wal h fs.length = none := by
    rw [hfs, List.getElem?_eq_none le_rfl]
    rfl
  rw [capture, hfuel, captureLoop_txs hfs htxs (show fs.drop 0 = _ from hall), Nat.zero_add,
    captureLoop_before hfs hleft hdrop, ← hlength, captureLoop, hend]
  rfl

end

/-! ## Generations -/

/-- The file of one generation. -/
structure Generation where
  head : Bytes
  header : Header
  /-- The committed transactions. -/
  txs : List Tx
  /-- What aborted transactions left past the last commit frame. -/
  left : List WalFrame
  /-- A torn frame at the end of the file. -/
  torn : Bytes
  length_head : head.length = headerLen
  header_eq : Sqlite.header head = some header
  txs_of : ∀ t ∈ txs, t.Of header
  left_of : ∀ f ∈ left, f.Of header ∧ f.dbSize = 0
  length_torn : torn.length < frameHeaderLen + header.pageSize

namespace Generation

def salts (g : Generation) : Nat × Nat := (g.header.salt1, g.header.salt2)

def file (g : Generation) : Bytes :=
  g.head ++ (g.txs.flatMap (·.frames) ++ g.left).flatMap (·.bytes) ++ g.torn

/-- The frames of the first `j` transactions. -/
def position (g : Generation) (j : Nat) : Nat := ((g.txs.take j).flatMap (·.frames)).length

/-- A cursor behind the first `j` transactions; one of another generation is at the
start. -/
def At (g : Generation) (cursor : WalCursor) (j : Nat) : Prop :=
  if (cursor.salt1, cursor.salt2) = g.salts then cursor.frame = g.position j else j = 0

theorem frames_of (g : Generation) {txs : List Tx} (hsub : ∀ t ∈ txs, t ∈ g.txs) :
    ∀ f ∈ txs.flatMap (·.frames) ++ g.left, f.Of g.header := by
  intro f hf
  rcases List.mem_append.mp hf with hf | hf
  · obtain ⟨t, ht, hf⟩ := List.mem_flatMap.mp hf
    exact (g.txs_of t (hsub t ht)).frames f hf
  · exact (g.left_of f hf).1

/-- The tail of the file past the first `j` transactions. -/
theorem drop_file (g : Generation) (j : Nat) :
    g.file.drop (headerLen + g.position j * (frameHeaderLen + g.header.pageSize)) =
      ((g.txs.drop j).flatMap (·.frames) ++ g.left).flatMap (·.bytes) ++ g.torn := by
  have hlen : (g.head ++ ((g.txs.take j).flatMap (·.frames)).flatMap (·.bytes)).length =
      headerLen + g.position j * (frameHeaderLen + g.header.pageSize) := by
    rw [List.length_append, g.length_head, length_bytes, position]
    intro f hf
    obtain ⟨t, ht, hf⟩ := List.mem_flatMap.mp hf
    exact (g.txs_of t (List.mem_of_mem_take ht)).frames f hf
  have hfile : g.file = g.head ++ ((g.txs.take j).flatMap (·.frames)).flatMap (·.bytes) ++
      (((g.txs.drop j).flatMap (·.frames) ++ g.left).flatMap (·.bytes) ++ g.torn) := by
    conv_lhs => rw [file, ← List.take_append_drop j g.txs]
    simp only [List.flatMap_append, List.append_assoc]
  rw [hfile, ← hlen, List.drop_left]

/-- A cursor behind the first `j` transactions finds the others, and the next one
starts behind the last commit frame. -/
theorem scan_eq (g : Generation) {cursor : WalCursor} {j : Nat} (hat : g.At cursor j) (txid : Nat) :
    scan cursor txid (some g.file) = some
      { cursor := { salt1 := g.header.salt1, salt2 := g.header.salt2, frame := g.position j }
        deltas := numbered txid (g.txs.drop j)
        nextFrame := g.position g.txs.length } := by
  have htake : g.file.take headerLen = g.head := by
    rw [file, List.append_assoc, ← g.length_head, List.take_left]
  have hshort : ¬g.file.length < headerLen := by
    rw [file, List.length_append, List.length_append, g.length_head]
    omega
  -- the cursor that the scan goes by
  have hcursor : (if (g.header.salt1, g.header.salt2) ≠ (cursor.salt1, cursor.salt2) then
      { salt1 := g.header.salt1, salt2 := g.header.salt2, frame := 0 } else cursor : WalCursor) =
        { salt1 := g.header.salt1, salt2 := g.header.salt2, frame := g.position j } := by
    rw [At, salts] at hat
    split at hat
    · next heq =>
      rw [if_neg (not_not.mpr heq.symm), ← hat]
      obtain ⟨h₁, h₂⟩ := Prod.mk.inj heq
      rw [← h₁, ← h₂]
    · next hne =>
      rw [if_pos (Ne.symm hne), hat]
      rfl
  have hsub : ∀ t ∈ g.txs.drop j, t ∈ g.txs := fun _ => List.mem_of_mem_drop
  have hof := g.frames_of hsub
  have hcapture : capture (g.head ++
      g.file.drop (headerLen + g.position j * (frameHeaderLen + g.header.pageSize))) g.header txid =
        (numbered txid (g.txs.drop j), g.left.map (·.page),
          ((g.txs.drop j).flatMap (·.frames) ++ g.left).length) := by
    rw [g.drop_file, ← List.append_assoc]
    refine capture_txs (frame_bytes g.length_head hof g.length_torn)
      (fun t ht => g.txs_of t (hsub t ht)) (fun f hf => (g.left_of f hf).2) rfl ?_ txid
    have hlen : ((g.txs.drop j).flatMap (·.frames) ++ g.left).length ≤
        (((g.txs.drop j).flatMap (·.frames) ++ g.left).flatMap (·.bytes)).length := by
      rw [length_bytes hof]
      exact Nat.le_mul_of_pos_right _ (by simp [frameHeaderLen])
    simp only [List.append_assoc, List.length_append] at hlen ⊢
    omega
  have hnext : g.position g.txs.length =
      g.position j + ((g.txs.drop j).flatMap (·.frames)).length := by
    rw [position, position, List.take_length, ← List.length_append, ← List.flatMap_append,
      List.take_append_drop]
  rw [scan]
  simp only [if_neg hshort, htake, g.header_eq, hcursor, hcapture]
  rw [hnext, List.length_append, List.length_map, ← Nat.add_assoc, Nat.add_sub_cancel]

end Generation

end Landslide.Sqlite
