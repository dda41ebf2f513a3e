import Landslide.Kv
import Landslide.Separated
import Landslide.Txn.Coding
import Landslide.Fuse.Path

/-!
# Keys as the store holds them

The key functions of `kv.rs`.  A stream id is spliced into its keys as it is, slashes
included, and the keys of a stream are found again by prefix scans.  Keys are strings
here: the order of UTF-8 bytes is that of the characters.

`keyName` writes every key of the structured key space down, and a `Wire` the values:
JSON and bincode are parameters, the numbers are 8 bytes.
-/

namespace Landslide.Raw

open TxnKv Landslide.Fuse

/-! ## Numbers in keys -/

/-- `{n:0width}`: the decimal digits of a number, zeros in front. -/
def pad (width n : Nat) : String :=
  let digits := Nat.toDigits 10 n
  String.ofList (List.replicate (width - digits.length) '0' ++ digits)

/-- `{version:016}` -/
def pad16 (n : Nat) : String := pad 16 n

/-- `{ts_ms:016}`: the sign counts towards the width. -/
def padInt : Int → String
  | .ofNat n => pad 16 n
  | .negSucc n => "-" ++ pad 15 (n + 1)

theorem isDigit_of_mem_pad {width n : Nat} {c : Char} (h : c ∈ (pad width n).toList) :
    c.isDigit = true := by
  rw [pad, String.toList_ofList, List.mem_append] at h
  rcases h with h | h
  · rw [List.eq_of_mem_replicate h]
    decide
  · exact Nat.isDigit_of_mem_toDigits (by decide) (by decide) h

theorem slash_notMem_pad (width n : Nat) : '/' ∉ (pad width n).toList := by
  intro h
  exact absurd (isDigit_of_mem_pad h) (by decide)

theorem slash_notMem_pad16 (n : Nat) : '/' ∉ (pad16 n).toList := slash_notMem_pad 16 n

theorem slash_notMem_padInt (n : Int) : '/' ∉ (padInt n).toList := by
  cases n with
  | ofNat n => exact slash_notMem_pad 16 n
  | negSucc n =>
      rw [padInt, String.toList_append, List.mem_append]
      rintro (h | h)
      · exact absurd h (by decide)
      · exact slash_notMem_pad 15 _ h

/-! ## Keys -/

def rPrefix (stream : String) : String := s!"r/{stream}/"

def rKey (stream : String) (version : Nat) : String := s!"r/{stream}/{pad16 version}"

def mKey (stream field : String) : String := s!"m/{stream}/{field}"

def tsKey (stream : String) (tsMs : Int) (version : Nat) : String :=
  s!"i/{stream}/{padInt tsMs}/{pad16 version}"

def tsPrefix (stream : String) : String := s!"i/{stream}/"

def snapPrefix (stream : String) : String := s!"snap/{stream}/"

def compactionsPrefix : String := "j/compactions/"

def seqKey : String := "g/seq"

/-- The name of a key in the store. -/
def keyName : Key → String
  | .record stream version => rKey stream version
  | .tail stream => mKey stream "tail"
  | .fence stream => mKey stream "fence"
  | .trim stream => mKey stream "trim"
  | .deleted stream => mKey stream "deleted"
  | .fork stream => mKey stream "fork"
  | .forks stream child => mKey stream s!"forks/{child}"
  | .rollback stream fromVersion => mKey stream s!"rollback/{pad16 fromVersion}"
  | .ts stream tsMs version => tsKey stream tsMs version
  | .snap stream seq => snapPrefix stream ++ pad16 seq
  | .compaction ulid => compactionsPrefix ++ ulid
  | .seq => seqKey

theorem toList_rPrefix (stream : String) :
    (rPrefix stream).toList = 'r' :: '/' :: (stream.toList ++ ['/']) := by
  simp only [rPrefix, String.toList_append, List.append_assoc]
  rfl

theorem toList_rKey (stream : String) (version : Nat) :
    (rKey stream version).toList =
      'r' :: '/' :: (stream.toList ++ '/' :: (pad16 version).toList) := by
  simp only [rKey, String.toList_append, List.append_assoc]
  rfl

theorem toList_mKey (stream field : String) :
    (mKey stream field).toList = 'm' :: '/' :: (stream.toList ++ '/' :: field.toList) := by
  simp only [mKey, String.toList_append, List.append_assoc]
  rfl

theorem toList_tsKey (stream : String) (tsMs : Int) (version : Nat) :
    (tsKey stream tsMs version).toList = 'i' :: '/' ::
      (stream.toList ++ '/' :: ((padInt tsMs).toList ++ '/' :: (pad16 version).toList)) := by
  simp only [tsKey, String.toList_append, List.append_assoc]
  rfl

theorem toList_tsPrefix (stream : String) :
    (tsPrefix stream).toList = 'i' :: '/' :: (stream.toList ++ ['/']) := by
  simp only [tsPrefix, String.toList_append, List.append_assoc]
  rfl

theorem toList_snapPrefix (stream : String) :
    (snapPrefix stream).toList =
      's' :: 'n' :: 'a' :: 'p' :: '/' :: (stream.toList ++ ['/']) := by
  simp only [snapPrefix, String.toList_append, List.append_assoc]
  rfl

/-- The keys with a prefix and, after it, a suffix in the range. -/
def inPrefix (pre lo : String) (hi : Option String) (key : String) : Bool :=
  startsWith key pre && !(dropStart key pre < lo) && hi.all (dropStart key pre < ·)

theorem inPrefix_iff {pre lo : String} {hi : Option String} {key : String} :
    inPrefix pre lo hi key = true ↔
      ∃ x, key = pre ++ x ∧ ¬ x < lo ∧ hi.all (x < ·) = true := by
  simp only [inPrefix, Bool.and_eq_true, Bool.not_eq_true', decide_eq_false_iff_not]
  constructor
  · rintro ⟨⟨hpre, hlo⟩, hhi⟩
    obtain ⟨x, rfl⟩ := startsWith_iff.mp hpre
    rw [dropStart_append] at hlo hhi
    exact ⟨x, rfl, hlo, hhi⟩
  · rintro ⟨x, rfl, hlo, hhi⟩
    rw [dropStart_append]
    exact ⟨⟨startsWith_iff.mpr ⟨x, rfl⟩, hlo⟩, hhi⟩

theorem not_lt_empty (x : String) : ¬ x < "" := by
  rw [String.lt_iff]
  exact List.not_lt_nil _

/-- `rsplit('/').next()`: what follows the last slash. -/
def lastComponent (key : String) : String :=
  String.ofList (key.toList.reverse.takeWhile (· ≠ '/')).reverse

/-- The trailing 16 digits of a key, as `u64::from_str` reads them. -/
def versionSuffix (key : String) : Except Error Nat :=
  let suffix := key.toList.drop (key.toList.length - 16)
  let digits := if suffix.head? = some '+' then suffix.tail else suffix
  if digits ≠ [] ∧ digits.all Char.isDigit then
    .ok (digits.foldl (fun n c => 10 * n + (c.toNat - '0'.toNat)) 0)
  else .error (.invalidInput "bad versioned key")

/-! ## Values -/

/-- `u64::to_be_bytes` -/
def toBe (n : Nat) : Bytes := (List.range 8).map fun i => UInt8.ofNat (n / 256 ^ (7 - i))

/-- `u64::from_be_bytes`, 0 where there are not 8 bytes. -/
def fromBe (b : Bytes) : Nat :=
  if b.length = 8 then b.foldl (fun n x => 256 * n + x.toNat) 0 else 0

/-- A format: encoding does not fail, decoding may. -/
structure Codec (α : Type) where
  encode : α → Bytes
  decode : Bytes → Except Error α

/-- The formats of the values of a store. -/
structure Wire (D S : Type) where
  /-- `Envelope::encode` and `Envelope::decode` -/
  envelope : Codec (Envelope D)
  tail : Codec TailRecord
  /-- `str::as_bytes` and `String::from_utf8_lossy` -/
  token : Codec String
  fork : Codec ForkRef
  snapshot : Codec (SnapshotRecord S)
  compaction : Codec CompactionRecord

variable {D S : Type}

def Wire.encode (w : Wire D S) : (k : Key) → Val D S k → Bytes
  | .record _ _, env => w.envelope.encode env
  | .tail _, t => w.tail.encode t
  | .fence _, token => w.token.encode token
  | .trim _, floor => toBe floor
  | .deleted _, _ => []
  | .fork _, f => w.fork.encode f
  | .forks _ _, at_ => toBe at_
  | .rollback _ _, txn => toBe txn
  | .ts _ _ _, _ => []
  | .snap _ _, r => w.snapshot.encode r
  | .compaction _, r => w.compaction.encode r
  | .seq, n => toBe n

def Wire.decode (w : Wire D S) : (k : Key) → Bytes → Except Error (Val D S k)
  | .record _ _, b => w.envelope.decode b
  | .tail _, b => w.tail.decode b
  | .fence _, b => w.token.decode b
  | .trim _, b => .ok (fromBe b)
  | .deleted _, _ => .ok ()
  | .fork _, b => w.fork.decode b
  | .forks _ _, b => .ok (fromBe b)
  | .rollback _ _, b => .ok (fromBe b)
  | .ts _ _ _, _ => .ok ()
  | .snap _ _, b => w.snapshot.decode b
  | .compaction _, b => w.compaction.decode b
  | .seq, b => .ok (fromBe b)

/-- Keys and values as the store holds them. -/
def Wire.coding (w : Wire D S) : Coding Key (Val D S) String (fun _ => Bytes) Error where
  name := keyName
  encode := w.encode
  decode := w.decode

end Landslide.Raw
