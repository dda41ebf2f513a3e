import Landslide.Envelope

/-!
# Key layout and shared reads

The key space of `kv.rs`.  A key is kept structured: its kind, its stream and
its number.  Streams and children are ids without `/`, where the byte keys are
as distinct as the structured ones, and the 16-digit numbers of the byte keys
sort numerically, which is the order used here.  The type of the value at a key
is a function of the key.

The reads are programs over any view of the store, as `KvRead` is implemented
by the handle, by readers and by transactions.
-/

namespace Landslide

open TxnKv Std

/-! ## Keys -/

/-- The keys of the store. -/
inductive Key where
  /-- `r/{stream}/{version:016}` -/
  | record (stream : String) (version : Nat)
  /-- `m/{stream}/tail` -/
  | tail (stream : String)
  /-- `m/{stream}/fence` -/
  | fence (stream : String)
  /-- `m/{stream}/trim` -/
  | trim (stream : String)
  /-- `m/{stream}/deleted` -/
  | deleted (stream : String)
  /-- `m/{stream}/fork` -/
  | fork (stream : String)
  /-- `m/{stream}/forks/{child}` -/
  | forks (stream child : String)
  /-- `m/{stream}/rollback/{from:016}` -/
  | rollback (stream : String) (fromVersion : Nat)
  /-- `i/{stream}/{ts:016}/{version:016}` -/
  | ts (stream : String) (tsMs : Int) (version : Nat)
  /-- `snap/{stream}/{seq:016}` -/
  | snap (stream : String) (seq : Nat)
  /-- `j/compactions/{ulid}` -/
  | compaction (ulid : String)
  /-- `g/seq` -/
  | seq
deriving DecidableEq, Repr

/-- The value type at each key. -/
@[reducible] def Val (D S : Type) : Key → Type
  | .record _ _ => Envelope D
  | .tail _ => TailRecord
  | .fence _ => String
  | .trim _ => Nat
  | .deleted _ => Unit
  | .fork _ => ForkRef
  | .forks _ _ => Nat
  | .rollback _ _ => Nat
  | .ts _ _ _ => Unit
  | .snap _ _ => SnapshotRecord S
  | .compaction _ => CompactionRecord
  | .seq => Nat

namespace Key

/-- A string as a list of code points. -/
def chars (s : String) : List Int := s.toList.map fun c => (c.toNat : Int)

theorem chars_injective : Function.Injective chars := by
  intro s t h
  have hinj : Function.Injective fun c : Char => (c.toNat : Int) := by
    intro a b hab
    exact Char.toNat_inj.mp (by simpa using hab)
  exact String.toList_injective (List.map_injective_iff.mpr hinj h)

/-- The components a key is ordered by. -/
def code : Key → List (List Int)
  | .seq => [[0]]
  | .ts s t v => [[1], chars s, [t], [v]]
  | .compaction u => [[2], chars u]
  | .deleted s => [[3], chars s, [0]]
  | .fence s => [[3], chars s, [1]]
  | .fork s => [[3], chars s, [2]]
  | .forks s c => [[3], chars s, [3], chars c]
  | .rollback s v => [[3], chars s, [4], [v]]
  | .tail s => [[3], chars s, [5]]
  | .trim s => [[3], chars s, [6]]
  | .record s v => [[4], chars s, [v]]
  | .snap s n => [[5], chars s, [n]]

theorem code_injective : Function.Injective code := by
  intro a b h
  cases a <;> cases b <;> simp_all [code, chars_injective.eq_iff]

instance : Ord Key := ⟨compareOn code⟩

instance : TransOrd Key := inferInstanceAs (TransCmp (compareOn code))

instance : LawfulEqOrd Key where
  compare_self := fun {a} => (ReflCmp.compare_self : compareOn code a a = .eq)
  eq_of_compare h := code_injective (LawfulEqOrd.eq_of_compare h)

/-- The numbers of two keys that agree before them decide their order. -/
theorem compare_numbers (components : List (List Int)) (v w : Nat) :
    compare (components ++ [[(v : Int)]]) (components ++ [[(w : Int)]]) = .lt ↔ v < w := by
  induction components with
  | nil => simp [List.compare_cons_cons, Int.compare_eq_lt]
  | cons c components ih =>
      rw [List.cons_append, List.cons_append, List.compare_cons_cons,
        (ReflCmp.compare_self : compare c c = .eq), Ordering.then_eq_lt]
      simpa using ih

/-- Records of a stream are ordered by version. -/
theorem record_lt {stream : String} {v w : Nat} :
    compare (record stream v) (record stream w) = .lt ↔ v < w :=
  compare_numbers [[4], chars stream] v w

/-- Snapshots of a stream are ordered by sequence. -/
theorem snap_lt {stream : String} {m n : Nat} :
    compare (snap stream m) (snap stream n) = .lt ↔ m < n :=
  compare_numbers [[5], chars stream] m n

end Key

/-- A store of the event store. -/
abbrev Db (D S : Type) : Type := Store Key (Val D S)

/-- A program over a view of the store. -/
abbrev KvM (D S E α : Type) : Type := Prog Key (Val D S) E α

section

variable {D S E : Type}

/-! ## Read helpers -/

def tail (stream : String) : KvM D S E (Option TailRecord) := .read (Key.tail stream)

def forkRef (stream : String) : KvM D S E (Option ForkRef) := .read (Key.fork stream)

/-- The pins of a stream: child and pinned version. -/
def pinOf : (k : Key) × Val D S k → Option (String × Nat)
  | ⟨.forks _ child, at_⟩ => some (child, at_)
  | _ => none

/-- The keys of the pin registry of a stream. -/
def forksRange (stream : String) : Key → Bool
  | .forks s _ => s = stream
  | _ => false

/-- The highest of the pins whose child is not deleted, above `acc`. -/
def ceilingLoop (acc : Option Nat) : List (String × Nat) → KvM D S E (Option Nat)
  | [] => pure acc
  | (child, at_) :: pins => do
      let deleted ← .read (Key.deleted child)
      if deleted.isNone then ceilingLoop (some (acc.elim at_ (max · at_))) pins
      else ceilingLoop acc pins

/-- Highest fork pin held by a non-deleted child. -/
def ceiling (stream : String) : KvM D S E (Option Nat) := do
  let rows ← .readRange (forksRange stream)
  ceilingLoop none (rows.filterMap pinOf)

/-- The windows of a stream: hide `v ≥ from` with global sequence above `txn`. -/
def rollbackOf : (k : Key) × Val D S k → Option (Nat × Nat)
  | ⟨.rollback _ fromVersion, txn⟩ => some (fromVersion, txn)
  | _ => none

def rollbackRange (stream : String) : Key → Bool
  | .rollback s _ => s = stream
  | _ => false

def rollbacks (stream : String) : KvM D S E (List (Nat × Nat)) := do
  let rows ← .readRange (rollbackRange stream)
  return rows.filterMap rollbackOf

/-- The record keys of a stream with version in `[lo, hi)`. -/
def recordRange (stream : String) (lo : Nat) (hi : Option Nat) : Key → Bool
  | .record s v => s = stream && lo ≤ v && hi.all (v < ·)
  | _ => false

def envelopeOf : (k : Key) × Val D S k → Option (Envelope D)
  | ⟨.record _ _, env⟩ => some env
  | _ => none

/-- The guards of a read, applied to one envelope: range, deletion ceiling and
rollback windows. -/
def visible (lo : Nat) (hi : Option Nat) (deleted : Bool) (ceiling : Option Nat)
    (windows : List (Nat × Nat)) (env : Envelope D) : Bool :=
  !(env.version < lo || hi.any (env.version ≥ ·)) &&
  !(deleted && !ceiling.any (env.version ≤ ·)) &&
  !windows.any fun w => env.version ≥ w.1 && env.seq > w.2

/-- Raw records of a stream in `[lo, hi)`, with the guards of the stream applied:
trim floor, deletion ceiling and rollback windows. -/
def readEvents (stream : String) (lo : Nat) (hi : Option Nat) :
    KvM D S E (List (Event D)) := do
  let trim ← .read (Key.trim stream)
  let floor := trim.getD 0
  let deleted ← .read (Key.deleted stream)
  let ceiling ← (if deleted.isSome then ceiling stream else pure none : KvM D S E (Option Nat))
  let windows ← rollbacks stream
  let lo := max lo floor
  if hi.any (lo ≥ ·) then return []
  let rows ← .readRange (recordRange stream lo hi)
  let envs := rows.filterMap envelopeOf
  return (envs.filter (visible lo hi deleted.isSome ceiling windows)).map Event.fromParts

/-- The keys of the snapshots of a stream. -/
def snapRange (stream : String) : Key → Bool
  | .snap s _ => s = stream
  | _ => false

def snapshotOf : (k : Key) × Val D S k → Option (SnapshotRecord S)
  | ⟨.snap _ _, r⟩ => some r
  | _ => none

/-- The snapshot with the highest sequence. -/
def latestSnapshot (stream : String) : KvM D S E (Option (SnapshotRecord S)) := do
  let rows ← .readRange (snapRange stream)
  return (rows.filterMap snapshotOf).getLast?

/-! ## Fork-resolved history -/

/-- Logical history of a stream over `[lo, hi)`: the prefixes of the fork chain
pinned at each fork point, then the stream's own events.  The first argument
bounds the length of the chain. -/
def resolveHistory : Nat → String → List String → Nat → Option Nat →
    KvM D S Error (List (Event D))
  | 0, _, _, _, _ => .throw .depth
  | depth + 1, stream, visited, lo, hi =>
      if hi.any (lo ≥ ·) then pure []
      else if stream ∈ visited then
        .throw (.invalidInput s!"fork cycle at '{stream}'")
      else do
        let f ← forkRef stream
        let inherited ← (match f with
          | none => pure []
          | some f =>
              -- the parent's contribution lives at versions up to the fork point
              let parentHi := hi.elim (f.atVersion + 1) (min · (f.atVersion + 1))
              if lo < parentHi then
                resolveHistory depth f.stream (stream :: visited) lo (some parentHi)
              else pure [] : KvM D S Error (List (Event D)))
        let own ← readEvents stream lo hi
        return inherited ++ own

/-- A bound of a range of versions. -/
inductive Bound where
  | included (v : Nat)
  | excluded (v : Nat)
  | unbounded
deriving DecidableEq, Repr

/-- The half-open interval of a range. -/
def bounds (start stop : Bound) : Nat × Option Nat :=
  let lo := match start with
    | .included v => v
    | .excluded v => v + 1
    | .unbounded => 0
  let hi := match stop with
    | .included v => some (v + 1)
    | .excluded v => some v
    | .unbounded => none
  (lo, hi)

/-- The fork references of a store. -/
def forkRefs (σ : Db D S) : List ((k : Key) × Val D S k) :=
  σ.scan fun | .fork _ => true | _ => false

/-- `EventStore::read_history` on a committed state.  A chain has at most one
stream per fork reference and one more. -/
def readHistory (σ : Db D S) (stream : String) (start stop : Bound) :
    Except Error (List (Event D)) :=
  let (lo, hi) := bounds start stop
  (resolveHistory ((forkRefs σ).length + 1) stream [] lo hi).eval σ

/-- `EventStore::read_stream` on a committed state. -/
def readStream (σ : Db D S) (stream : String) (start stop : Bound) :
    Except Error (List (Event D)) :=
  let (lo, hi) := bounds start stop
  (readEvents stream lo hi).eval σ

end

end Landslide
