import Landslide.Bincode
import Landslide.Cuts
import Landslide.Sqlite.Runs
import Landslide.Sqlite.WalFile

/-!
# Batch events

The events that a sync appends: `pack` and `unpack` of `landslide-sqlite/src/lib.rs`, with
bincode as it is and the compressor as a parameter.

`encodeDeltas` cuts the transactions greedily (`chunks_greedy`), so there is one way to say
which events it makes.  Every event is read back as its transactions (`deltaEvents_event`).
The store takes events of at most 1 MiB.  The cut is made by size before compression, and a
single transaction is never cut, so a large transaction may be over that.
-/

namespace Landslide.Sqlite

open Bincode

/-! ## Wire format -/

def Frame.format : Format Frame :=
  (u32.pair bytes).via (fun f => (f.pgno, f.data))
    (fun (pgno, data) => { pgno := pgno, data := data }) (fun _ => rfl)

namespace Delta

def format : Format Delta :=
  (u64.pair (u32.pair (u32.pair Frame.format.list))).via
    (fun d => (d.txid, d.pageSize, d.dbSize, d.pages))
    (fun (txid, pageSize, dbSize, pages) =>
      { txid := txid, pageSize := pageSize, dbSize := dbSize, pages := pages })
    (fun _ => rfl)

/-- What the types of the fields promise. -/
structure WellTyped (d : Delta) : Prop where
  txid : d.txid < 2 ^ 64
  pageSize : d.pageSize < 2 ^ 32
  dbSize : d.dbSize < 2 ^ 32
  count : d.pages.length < 2 ^ 64
  pages : ∀ f ∈ d.pages, f.pgno < 2 ^ 32 ∧ f.data.length < 2 ^ 64

theorem WellTyped.fits {d : Delta} (h : d.WellTyped) : format.Fits d :=
  ⟨h.txid, h.pageSize, h.dbSize, h.count, h.pages⟩

end Delta

theorem length_write_frame (f : Frame) : (Frame.format.write f).length = 4 + 8 + f.data.length := by
  show (u32.write f.pgno ++ bytes.write f.data).length = _
  rw [List.length_append, length_write_u32, length_write_bytes]
  omega

/-- `serializedSize` is the length of the bincode. -/
theorem length_write_delta (d : Delta) : (Delta.format.write d).length = serializedSize d := by
  show (u64.write d.txid ++ (u32.write d.pageSize ++ (u32.write d.dbSize ++
    Frame.format.list.write d.pages))).length = _
  simp only [List.length_append, length_write_u64, length_write_u32, Format.length_write_list,
    length_write_frame, serializedSize]
  omega

/-- The compressor, and what bincode says of bytes that end too early. -/
structure Packer where
  compress : Bytes → Bytes
  decompress : Bytes → Except String Bytes
  eof : String

namespace Packer

/-- What is compressed is decompressed again. -/
def Lossless (z : Packer) : Prop := ∀ b, z.decompress (z.compress b) = .ok b

theorem Lossless.injective {z : Packer} (h : z.Lossless) : Function.Injective z.compress := by
  intro a b hab
  have ha := h a
  rw [hab, h b] at ha
  exact (Except.ok.inj ha).symm

/-- `codec`. -/
def codecError (text : String) : Error := .invalidInput s!"codec: {text}"

def pack (z : Packer) (deltas : List Delta) : Bytes := z.compress (Delta.format.list.write deltas)

def unpack (z : Packer) (data : Bytes) : Except Error (List Delta) :=
  match z.decompress data with
  | .error text => .error (codecError text)
  | .ok raw =>
      match Delta.format.list.deserialize raw with
      | none => .error (codecError z.eof)
      | some deltas => .ok deltas

theorem unpack_pack {z : Packer} (hz : z.Lossless) {deltas : List Delta}
    (hcount : deltas.length < 2 ^ 64) (htyped : ∀ d ∈ deltas, d.WellTyped) :
    z.unpack (z.pack deltas) = .ok deltas := by
  have hfits : Delta.format.list.Fits deltas := ⟨hcount, fun d hd => (htyped d hd).fits⟩
  rw [unpack, pack, hz]
  simp only
  rw [Format.deserialize_write _ hfits]

/-- The event of a chunk. -/
def event (z : Packer) (chunk : List Delta) : NewEvent Bytes :=
  { eventType := txb, data := z.pack chunk }

end Packer

section

variable {S B : Type}

/-- The crate with this compressor. -/
def Outside.packed (env : Outside Bytes S B) (z : Packer) : Outside Bytes S B :=
  { env with deltas := { encode := fun deltas => .ok (z.pack deltas), decode := z.unpack } }

variable (env : Outside Bytes S B) (z : Packer)

theorem packChunks_packed : ∀ groups : List (List Delta),
    packChunks (env.packed z) groups = .ok (groups.map z.event)
  | [] => rfl
  | g :: groups => by
      rw [packChunks, packChunks_packed groups]
      rfl

theorem encodeDeltas_packed (deltas : List Delta) :
    encodeDeltas (env.packed z) deltas = .ok ((chunks [] 0 deltas).map z.event) :=
  packChunks_packed env z _

variable {z}

/-- A stored event of a chunk decodes to the chunk. -/
theorem deltaEvents_event (hz : z.Lossless) {chunk : List Delta}
    (hcount : chunk.length < 2 ^ 64) (htyped : ∀ d ∈ chunk, d.WellTyped) {e : Event Bytes}
    (he : (e.eventType, e.data) = ((z.event chunk).eventType, (z.event chunk).data)) :
    deltaEvents (env.packed z) e = .ok chunk := by
  obtain ⟨htype, hdata⟩ := Prod.mk.inj he
  rw [deltaEvents, if_pos (show e.eventType = txb from htype), hdata]
  exact z.unpack_pack hz hcount htyped

theorem mapM_deltaEvents (hz : z.Lossless) :
    ∀ (groups : List (List Delta)) (stored : List (Event Bytes)),
    (∀ g ∈ groups, g.length < 2 ^ 64 ∧ ∀ d ∈ g, d.WellTyped) →
    stored.map (fun e => (e.eventType, e.data)) =
      (groups.map z.event).map (fun e => (e.eventType, e.data)) →
    stored.mapM (deltaEvents (env.packed z)) = .ok groups
  | [], stored, _, heq => by
      rw [List.map_eq_nil_iff.mp heq]
      rfl
  | g :: groups, stored, htyped, heq => by
      obtain ⟨e, stored, rfl, he, hrest⟩ := List.map_eq_cons_iff.mp heq
      obtain ⟨hcount, hg⟩ := htyped g List.mem_cons_self
      have hmap := mapM_deltaEvents hz groups stored
        (fun g' hg' => htyped g' (List.mem_cons_of_mem _ hg')) hrest
      rw [List.mapM_cons, deltaEvents_event env hz hcount hg he, hmap]
      rfl

end

/-! ## Chunks -/

/-- A chunk under way with its size, and transactions to come. -/
theorem chunks_cut : ∀ (deltas chunk : List Delta) (size : Nat),
    size = (chunk.map serializedSize).sum → Cuts.Room serializedSize txbChunk chunk →
    Cuts.Greedy serializedSize txbChunk (chunk ++ deltas) (chunks chunk size deltas)
  | [], chunk, size, _, hroom => by
      rw [chunks, List.append_nil]
      split
      · next hnil =>
        rw [hnil]
        exact .nil
      · next hne => exact .single hne hroom
  | d :: deltas, chunk, size, hsize, hroom => by
      rw [chunks]
      split
      · next hover =>
        obtain ⟨hover, hne⟩ := hover
        have hrest := chunks_cut deltas [d] (serializedSize d) (by simp) (.inr le_rfl)
        refine .cons hne hroom ?_ hrest
        rw [Cuts.room_concat hne, ← hsize]
        omega
      · next hfit =>
        have hroom' : Cuts.Room serializedSize txbChunk (chunk ++ [d]) := by
          by_cases hne : chunk = []
          · rw [hne]
            exact .inr le_rfl
          · rw [Cuts.room_concat hne, ← hsize]
            by_contra hover
            exact hfit ⟨by omega, hne⟩
        have hrest := chunks_cut deltas (chunk ++ [d]) (size + serializedSize d) (by simp [hsize])
          hroom'
        rwa [List.append_assoc] at hrest

theorem chunks_greedy (deltas : List Delta) :
    Cuts.Greedy serializedSize txbChunk deltas (chunks [] 0 deltas) :=
  chunks_cut deltas [] 0 rfl (.inr (Nat.zero_le 1))

/-! ## Round trip -/

/-- The stored events of some transactions decode to groups that make up the transactions
in order.  No group is empty, and one that is larger than a chunk is a single transaction. -/
theorem encodeDeltas_decoded {S B : Type} (env : Outside Bytes S B) (z : Packer) (hz : z.Lossless)
    (deltas : List Delta) (hcount : deltas.length < 2 ^ 64) (htyped : ∀ d ∈ deltas, d.WellTyped) :
    ∃ events, encodeDeltas (env.packed z) deltas = .ok events ∧
      ∀ kept : List (Event Bytes),
        kept.map (fun e => (e.eventType, e.data)) =
          events.map (fun e => (e.eventType, e.data)) →
        ∃ groups, kept.mapM (deltaEvents (env.packed z)) = .ok groups ∧
          groups.flatten = deltas ∧
          ∀ g ∈ groups, g ≠ [] ∧
            (txbChunk < (g.map fun d => (Delta.format.write d).length).sum → g.length = 1) := by
  have hcut := chunks_greedy deltas
  have hsub : ∀ g ∈ chunks [] 0 deltas, g.Sublist deltas := by
    intro g hg
    have hflat := List.sublist_flatten_of_mem hg
    rwa [hcut.flatten] at hflat
  refine ⟨_, encodeDeltas_packed env z deltas, fun kept hkept => ?_⟩
  refine ⟨chunks [] 0 deltas, ?_, hcut.flatten, fun g hg => ⟨hcut.ne_nil g hg, fun hover => ?_⟩⟩
  · refine mapM_deltaEvents env hz _ kept (fun g hg => ⟨?_, fun d hd => ?_⟩) hkept
    · have hlen := (hsub g hg).length_le
      omega
    · exact htyped d ((hsub g hg).subset hd)
  · simp only [length_write_delta] at hover
    have hpos := List.length_pos_of_ne_nil (hcut.ne_nil g hg)
    rcases hcut.room g hg with hle | hlen
    · exact absurd hover (Nat.not_lt.mpr hle)
    · omega

/-- Two transactions. -/
def twoDeltas : List Delta :=
  [{ txid := 1, pageSize := 2, dbSize := 1, pages := [⟨1, [10, 11]⟩] },
    { txid := 2, pageSize := 2, dbSize := 2, pages := [⟨1, [12, 13]⟩, ⟨2, [14, 15]⟩] }]

/-- A compressor that stores bytes as they are. -/
def stored : Packer where
  compress b := b
  decompress b := .ok b
  eof := "io error: "

/-- Codecs of which only that of the transactions is used. -/
def bare : Outside Bytes Manifest Ltx where
  deltas := ⟨fun _ => .error ioError, fun _ => .error ioError⟩
  json _ := .error ioError
  ltx := ⟨.ok, .ok⟩
  manifest := ⟨.ok, .ok⟩
  ulid i := String.ofList (List.replicate i 'u')
  path := id

theorem encodeDeltas_decoded_twoDeltas :
    ∃ events, encodeDeltas (bare.packed stored) twoDeltas = .ok events ∧
      ∀ kept : List (Event Bytes),
        kept.map (fun e => (e.eventType, e.data)) = events.map (fun e => (e.eventType, e.data)) →
        ∃ groups, kept.mapM (deltaEvents (bare.packed stored)) = .ok groups ∧
          groups.flatten = twoDeltas ∧
          ∀ g ∈ groups, g ≠ [] ∧
            (txbChunk < (g.map fun d => (Delta.format.write d).length).sum → g.length = 1) := by
  have htyped : ∀ d ∈ twoDeltas, d.WellTyped := by
    intro d hd
    rcases List.mem_pair.mp hd with rfl | rfl <;>
      exact ⟨by decide, by decide, by decide, by decide, by decide⟩
  exact encodeDeltas_decoded bare stored (fun _ => rfl) twoDeltas (by decide) htyped

/-! ## Caps -/

/-- What the caps of the store ask of some transactions: their greedy cut has at most as many
groups as a batch takes, and no group is over the cap once it is packed. -/
def Packer.WithinCaps (z : Packer) (deltas : List Delta) : Prop :=
  ∃ groups, Cuts.Greedy serializedSize txbChunk deltas groups ∧
    groups.length ≤ maxBatchRecords ∧ ∀ g ∈ groups, (z.pack g).length ≤ maxRecordBytes

theorem Packer.withinCaps_iff {z : Packer} {deltas : List Delta} {groups : List (List Delta)}
    (h : Cuts.Greedy serializedSize txbChunk deltas groups) :
    z.WithinCaps deltas ↔
      groups.length ≤ maxBatchRecords ∧ ∀ g ∈ groups, (z.pack g).length ≤ maxRecordBytes := by
  constructor
  · rintro ⟨groups', h', hcaps⟩
    rw [h.unique h']
    exact hcaps
  · exact fun hcaps => ⟨groups, h, hcaps⟩

theorem Packer.withinCaps_singleton (z : Packer) (d : Delta) :
    z.WithinCaps [d] ↔ (z.pack [d]).length ≤ maxRecordBytes := by
  rw [withinCaps_iff (.single (List.cons_ne_nil d []) (.inr le_rfl)), List.forall_mem_singleton]
  exact and_iff_right (show 1 ≤ maxBatchRecords by decide)

theorem checkBatch_iff (z : Packer) (deltas : List Delta) :
    checkBatch ((chunks [] 0 deltas).map z.event) = .ok () ↔ z.WithinCaps deltas := by
  rw [Packer.withinCaps_iff (chunks_greedy _), checkBatch_ok_iff, List.length_map,
    List.forall_mem_map]
  rfl

/-- The events of one sync are taken by the store if and only if its transactions, folded
into one for a coalesced sync, are within the caps. -/
theorem checkBatch_encodeDeltas_iff {S B : Type} (env : Outside Bytes S B) (z : Packer)
    (coalesce : Bool) (captured : List Delta) :
    (∃ events, encodeDeltas (env.packed z) (batch coalesce captured) = .ok events ∧
      checkBatch events = .ok ()) ↔ z.WithinCaps (batch coalesce captured) := by
  rw [encodeDeltas_packed, ← checkBatch_iff]
  constructor
  · rintro ⟨_, ⟨⟩, hcheck⟩
    exact hcheck
  · exact fun hcheck => ⟨_, rfl, hcheck⟩

/-- A scan with the cursor that a scan left finds the same. -/
theorem scan_again {cursor : WalCursor} {txid : Nat} {file : Option Bytes} {s : Scan}
    (h : scan cursor txid file = some s) : scan s.cursor txid file = some s := by
  unfold scan at h ⊢
  split at h
  · cases h
  · split at h
    · cases h
    · next hlen =>
      split at h
      · cases h
      · next head hhead =>
        cases h
        simp only [if_neg hlen]
        split
        · simp
        · rfl

/-- A sync of transactions that are not within the caps fails, and the next one finds them
again. -/
theorem syncInner_over_cap {S B : Type} (env : Outside Bytes S B) (z : Packer) (coalesce : Bool)
    (wal : Option Bytes) (stamps : Nat → Nat → Stamp) (db : Db) (r : Remote Bytes S B)
    (hfound : found db.cursor db.image.txid wal ≠ [])
    (hover : ¬z.WithinCaps (batch coalesce (found db.cursor db.image.txid wal))) :
    ∃ text cursor, syncInner (env.packed z) coalesce wal stamps db r =
        (.error (.invalidInput text), { db with cursor := cursor }, r) ∧
      found cursor db.image.txid wal = found db.cursor db.image.txid wal := by
  cases hscan : scan db.cursor db.image.txid wal with
  | none => exact absurd (by rw [found, hscan]; rfl) hfound
  | some s =>
      have hs : found db.cursor db.image.txid wal = s.deltas := by rw [found, hscan]; rfl
      rw [hs] at hfound hover ⊢
      have hevents := encodeDeltas_packed env z (batch coalesce s.deltas)
      obtain ⟨text, hcheck⟩ := checkBatch_refuses fun hok => hover ((checkBatch_iff z _).mp hok)
      have hexec : (Call.appendWithToken db.name db.token (expected db.tail)
          ((chunks [] 0 (batch coalesce s.deltas)).map z.event) false stamps :
            Call Bytes S).exec r.store = (.error (.invalidInput text), r.store) := by
        rw [Call.exec, Call.proc, appendWithToken, commitAppends, hcheck]
        rfl
      refine ⟨text, s.cursor, ?_, by rw [found, scan_again hscan]; rfl⟩
      simp only [syncInner, hscan, if_neg hfound, hevents, hexec]

/-! ## Large transactions -/

/-- The pages of some bytes, by their size. -/
def pageAt (size : Nat) (b : Bytes) (i : Nat) : Bytes := (b.drop (i * size)).take size

theorem flatMap_pageAt (size : Nat) (b : Bytes) :
    ∀ n, (List.range n).flatMap (pageAt size b) = b.take (n * size)
  | 0 => by simp
  | n + 1 => by
      rw [List.range_succ, List.flatMap_append, flatMap_pageAt size b n, Nat.add_mul, Nat.one_mul,
        List.take_add, List.flatMap_singleton, pageAt]

theorem length_pageAt {size n i : Nat} {b : Bytes} (hlen : b.length = n * size) (hi : i < n) :
    (pageAt size b i).length = size := by
  have hle : (i + 1) * size ≤ n * size := Nat.mul_le_mul_right size hi
  rw [Nat.add_mul, Nat.one_mul] at hle
  rw [pageAt, List.length_take, List.length_drop]
  omega

/-- Page `i` of a database in the generation with salts 7 and 9. -/
def bigFrame (dbSize : Nat) (data : Bytes) (i : Nat) : WalFrame where
  head := (littleEndian 4 (i + 1)).reverse ++ (littleEndian 4 dbSize).reverse ++ field 7 ++
    field 9 ++ field 0 ++ field 0
  data := data

/-- The transaction that writes 257 pages of 4096 bytes. -/
def bigTx (b : Bytes) : Tx where
  before := (List.range 256).map fun i => bigFrame 0 (pageAt 4096 b i) i
  last := bigFrame 257 (pageAt 4096 b 256) 256

theorem bigFrame_of {data : Bytes} (hdata : data.length = 4096) (dbSize i : Nat) :
    (bigFrame dbSize data i).Of ⟨4096, 7, 9⟩ where
  head := rfl
  data := hdata
  salt1 := rfl
  salt2 := rfl

theorem bigTx_of {b : Bytes} (hlen : b.length = 257 * 4096) : (bigTx b).Of ⟨4096, 7, 9⟩ where
  frames f hf := by
    rcases List.mem_append.mp hf with hf | hf
    · obtain ⟨i, hi, rfl⟩ := List.mem_map.mp hf
      have hlt := List.mem_range.mp hi
      exact bigFrame_of (length_pageAt hlen (by omega)) 0 i
    · rw [List.mem_singleton.mp hf]
      exact bigFrame_of (length_pageAt hlen (by decide)) 257 256
  before f hf := by
    obtain ⟨i, -, rfl⟩ := List.mem_map.mp hf
    rfl
  last := by
    show be32 [0, 0, 1, 1] ≠ 0
    decide

/-- The WAL that holds nothing else. -/
def bigWal (b : Bytes) (hlen : b.length = 257 * 4096) : Generation where
  head := [0x37, 0x7f, 0x06, 0x82] ++ field 0 ++ [0, 0, 16, 0] ++ field 0 ++ field 7 ++ field 9 ++
    field 0 ++ field 0
  header := ⟨4096, 7, 9⟩
  txs := [bigTx b]
  left := []
  torn := []
  length_head := rfl
  header_eq := by simp [header, field, headerLen, be32, magic]
  txs_of t ht := by
    rw [List.mem_singleton.mp ht]
    exact bigTx_of hlen
  left_of := by simp
  length_torn := by decide

theorem found_bigWal {b : Bytes} (hlen : b.length = 257 * 4096) (txid : Nat) :
    found {} txid (some (bigWal b hlen).file) = [(bigTx b).delta (txid + 1)] := by
  have hat : (bigWal b hlen).At {} 0 := by
    show if ((0 : Nat), (0 : Nat)) = (7, 9) then _ else (0 : Nat) = 0
    rw [if_neg (by decide)]
  rw [found, (bigWal b hlen).scan_eq hat]
  rfl

/-- The bytes are what the pages of the transaction hold. -/
theorem pages_bigTx {b : Bytes} (hlen : b.length = 257 * 4096) (txid : Nat) :
    ((bigTx b).delta txid).pages.flatMap (·.data) = b := by
  have hpages : ((bigTx b).delta txid).pages.flatMap (·.data) =
      (List.range 257).flatMap (pageAt 4096 b) := by
    rw [List.range_succ, List.flatMap_append]
    simp [Tx.delta, Tx.frames, bigTx, WalFrame.page, bigFrame, List.flatMap_map]
  rw [hpages, flatMap_pageAt, List.take_of_length_le hlen.le]

theorem serializedSize_bigTx {b : Bytes} (hlen : b.length = 257 * 4096) (txid : Nat) :
    maxRecordBytes < serializedSize ((bigTx b).delta txid) := by
  have hpages : ∀ pages : List Frame,
      (pages.flatMap (·.data)).length ≤ (pages.map fun f => 4 + 8 + f.data.length).sum := by
    intro pages
    rw [List.length_flatMap]
    exact List.sum_le_sum fun f _ => by omega
  have hle := hpages ((bigTx b).delta txid).pages
  rw [pages_bigTx hlen, hlen] at hle
  rw [serializedSize, maxRecordBytes]
  omega

theorem be32_lt (b : Bytes) : be32 b < 2 ^ 32 := by
  have hfold : ∀ (bytes : Bytes) (n : Nat),
      bytes.foldl (fun n x => n * 256 + x.toNat) n < (n + 1) * 256 ^ bytes.length := by
    intro bytes
    induction bytes with
    | nil => simp
    | cons x bytes ih =>
        intro n
        have hx := x.toNat_lt
        have hrest := ih (n * 256 + x.toNat)
        have hle : (n * 256 + x.toNat + 1) * 256 ^ bytes.length ≤
            (n + 1) * 256 * 256 ^ bytes.length := Nat.mul_le_mul_right _ (by omega)
        rw [List.foldl_cons, List.length_cons, Nat.pow_succ', ← Nat.mul_assoc]
        exact Nat.lt_of_lt_of_le hrest hle
  have htake := hfold (b.take 4) 0
  have hpow : 256 ^ (b.take 4).length ≤ 256 ^ 4 :=
    Nat.pow_le_pow_right (by decide) (List.length_take_le 4 b)
  rw [be32]
  omega

theorem wellTyped_bigTx {b : Bytes} (hlen : b.length = 257 * 4096) {txid : Nat}
    (htxid : txid < 2 ^ 64) : ((bigTx b).delta txid).WellTyped where
  txid := htxid
  pageSize := by
    show (pageAt 4096 b 256).length < 2 ^ 32
    rw [length_pageAt hlen (by decide)]
    decide
  dbSize := be32_lt _
  count := by
    show ((bigTx b).frames.map (·.page)).length < 2 ^ 64
    rw [List.length_map, Tx.length_frames, bigTx, List.length_map, List.length_range]
    decide
  pages f hf := by
    obtain ⟨g, hg, rfl⟩ := List.mem_map.mp hf
    refine ⟨be32_lt _, ?_⟩
    show g.data.length < 2 ^ 64
    rw [((bigTx_of hlen).frames g hg).data]
    decide

theorem batch_singleton (coalesce : Bool) (d : Delta) : batch coalesce [d] = [d] := by
  rw [batch, if_neg (by simp)]

/-- A sync that finds only this transaction is over the caps if its pack is. -/
theorem over_cap_bigWal {z : Packer} {b : Bytes} (hlen : b.length = 257 * 4096) {txid : Nat}
    (hpack : maxRecordBytes < (z.pack [(bigTx b).delta (txid + 1)]).length) (coalesce : Bool) :
    ¬z.WithinCaps (batch coalesce (found {} txid (some (bigWal b hlen).file))) := by
  rw [found_bigWal, batch_singleton, Packer.withinCaps_singleton]
  exact Nat.not_le_of_lt hpack

/-- A transaction of 257 pages that the compressor stores as they are: a sync of it, whether
coalesced or not, is refused. -/
theorem checkBatch_encodeDeltas_large :
    let wal := (bigWal (List.replicate (257 * 4096) 0) List.length_replicate).file
    Function.Injective stored.compress ∧
      ∀ coalesce, ∃ events,
        encodeDeltas (bare.packed stored) (batch coalesce (found {} 0 (some wal))) = .ok events ∧
          checkBatch events ≠ .ok () := by
  intro wal
  refine ⟨fun _ _ h => h, fun coalesce => ⟨_, encodeDeltas_packed .., fun hcheck => ?_⟩⟩
  have hlen : (List.replicate (257 * 4096) (0 : UInt8)).length = 257 * 4096 := List.length_replicate
  have hpack : maxRecordBytes <
      (stored.pack [(bigTx (List.replicate (257 * 4096) 0)).delta (0 + 1)]).length := by
    show maxRecordBytes < (Delta.format.list.write [_]).length
    rw [Format.length_write_list, List.map_cons, List.map_nil, List.sum_singleton,
      length_write_delta]
    exact Nat.lt_add_left 8 (serializedSize_bigTx hlen 1)
  exact over_cap_bigWal hlen hpack coalesce ((checkBatch_iff stored _).mp hcheck)

/-- No compressor helps: some transaction of 257 pages is over the cap. -/
theorem exists_over_cap (z : Packer) (hz : Function.Injective z.compress) {txid : Nat}
    (htxid : txid + 1 < 2 ^ 64) :
    ∃ g : Generation, ∀ coalesce,
      ¬z.WithinCaps (batch coalesce (found {} txid (some g.file))) := by
  obtain ⟨b, hlen, hover⟩ := exists_length_gt (show maxRecordBytes + 1 < 257 * 4096 by decide)
    (fun b => z.pack [(bigTx b).delta (txid + 1)]) fun a b ha hb hab => by
      have hfits : ∀ {c : Bytes}, c.length = 257 * 4096 →
          Delta.format.list.Fits [(bigTx c).delta (txid + 1)] := by
        intro c hc
        refine ⟨show 1 < 2 ^ 64 by decide, fun d hd => ?_⟩
        rw [List.mem_singleton.mp hd]
        exact (wellTyped_bigTx hc htxid).fits
      have hlist := Delta.format.list.write_inj (hfits ha) (hfits hb) (hz hab)
      rw [← pages_bigTx ha (txid + 1), ← pages_bigTx hb (txid + 1), (List.cons.inj hlist).1]
  exact ⟨bigWal b hlen, over_cap_bigWal hlen hover⟩

end Landslide.Sqlite
