import Landslide.Kv

/-!
# Wire formats and objects

What the SQLite and the file system crates keep outside the event store: objects in
a bucket, and the formats their events, segments and manifests are written in.
Both crates address a stream the same way, by the version they last saw.
-/

namespace Landslide

/-- A wire format. -/
structure Codec (A W : Type) where
  encode : A → Except Error W
  decode : W → Except Error A

/-- Everything can be encoded, and decodes to itself. -/
def Codec.Lawful {A W : Type} (codec : Codec A W) : Prop :=
  ∀ a, ∃ w, codec.encode a = .ok w ∧ codec.decode w = .ok a

/-- The objects of a bucket. -/
abbrev Bucket (B : Type) : Type := String → Option B

/-- What outlives a handle: the event store, the bucket and the number of ULIDs
drawn. -/
structure Remote (D S B : Type) where
  store : Db D S := ∅
  bucket : Bucket B := fun _ => none
  draws : Nat := 0

/-- A bucket that does not answer, or an object that is not there. -/
def ioError : Error := .invalidInput "bucket io"

/-- The version that an append expects, given the tail of the handle. -/
def expected : Option Nat → ExpectedVersion
  | none => .noStream
  | some v => .exact v

end Landslide
