import Slotform.Schema.Basic
import Slotform.Sha256

/-!
Fingerprints of schemas. A fingerprint digests a byte string in which texts and counts carry their
lengths and every alternative its tag; the members of a record enter by their own fingerprints.
-/

namespace Slotform

/-- A digest of a schema. -/
structure Fingerprint where
  bytes : List UInt8
  deriving DecidableEq, Repr

namespace Fingerprint

def hexByte (b : UInt8) : List Char :=
  [Nat.digitChar (b.toNat / 16), Nat.digitChar (b.toNat % 16)]

def hex (f : Fingerprint) : String := String.ofList (f.bytes.flatMap hexByte)

/-- The first eight hexadecimal digits. -/
def shortHex (f : Fingerprint) : String := String.ofList ((f.bytes.take 4).flatMap hexByte)

def inspected (f : Fingerprint) : String := "Fingerprint(" ++ f.hex ++ ")"

/-- The order of fingerprints, by their first differing byte. -/
def compare (f g : Fingerprint) : Ordering := Ord.compare f.bytes g.bytes

/-- A count in four bytes, least significant first. -/
def countBytes (n : Nat) : List UInt8 :=
  [UInt8.ofNat n, UInt8.ofNat (n >>> 8), UInt8.ofNat (n >>> 16), UInt8.ofNat (n >>> 24)]

/-- A text after the number of its UTF-8 bytes. -/
def textBytes (s : String) : List UInt8 :=
  countBytes s.utf8ByteSize ++ s.toUTF8.toList

/-- A hint after a tag that says whether it is set. -/
def hintBytes : Option UInt32 → List UInt8
  | some n => 1 :: countBytes n.toNat
  | none => [0]

def alignByte : Option Align → UInt8
  | none => 0
  | some .left => 1
  | some .right => 2

def formatBytes (f : Format) : List UInt8 :=
  hintBytes f.size ++ hintBytes f.maxOccurs ++ [alignByte f.align]

def cardinalityByte : Cardinality → UInt8
  | .single => 0x01
  | .repeated => 0x02

/-- The part of the digested bytes that leaves and records share. The type of an item enters by
its written form. -/
def nodeBytes (n : Node) : List UInt8 :=
  textBytes n.name ++ textBytes n.element.display ++
    [cardinalityByte n.cardinality, if n.optional then 1 else 0] ++ formatBytes n.format

/-- The names of skipped fields after their number. -/
def skippedBytes (names : List String) : List UInt8 :=
  countBytes names.length ++ names.flatMap textBytes

end Fingerprint

namespace Schema

open Fingerprint

mutual

/-- The bytes that the fingerprint digests. The skipped names of a leaf are not among them. -/
def digested : Schema → List UInt8
  | leaf node kind => nodeBytes node ++ 0x10 :: textBytes kind.name
  | record node members =>
    nodeBytes node ++ 0x11 :: countBytes members.length ++ memberDigests members ++
      skippedBytes node.skipped

def memberDigests : List Schema → List UInt8
  | [] => []
  | member :: rest => Sha256.digest member.digested ++ memberDigests rest

end

def fingerprint (s : Schema) : Fingerprint := ⟨Sha256.digest s.digested⟩

end Schema

end Slotform
