import Slotform.Json.Basic
import Slotform.Json.Decode
import Slotform.Json.Reader

namespace Slotform

/-- The four bounds. -/
structure Limits where
  maxDepth : Nat := 64
  maxPayloadLen : Nat := 16777216
  maxWidth : Nat := 1048576
  maxOccurs : Nat := 1000000
  deriving DecidableEq, Repr

namespace Limits

def standard : Limits := {}

def toJson (l : Limits) : Json :=
  .ofEntries [
    ("max_depth", .ofNat l.maxDepth),
    ("max_payload_len", .ofNat l.maxPayloadLen),
    ("max_width", .ofNat l.maxWidth),
    ("max_occurs", .ofNat l.maxOccurs)]

/-- A bound that may be missing, in which case the standard one holds, but not `null`. -/
def bound? (fallback : Nat) : Option Json → Option Nat
  | some j => j.nat? UInt64.size
  | none => some fallback

/-- Reads limits from a document; what is missing keeps its standard value. -/
def ofJson? (j : Json) : Option Limits := do
  match ← j.fields ["max_depth", "max_payload_len", "max_width", "max_occurs"] 0 with
  | [depth, payload, width, occurs] =>
    let depth ← bound? standard.maxDepth depth
    let payload ← bound? standard.maxPayloadLen payload
    let width ← bound? standard.maxWidth width
    let occurs ← bound? standard.maxOccurs occurs
    some ⟨depth, payload, width, occurs⟩
  | _ => none

def printJson (l : Limits) : List Char := l.toJson.compact

def readJson? (text : List Char) : Option Limits := (Json.read? text).bind ofJson?

end Limits

end Slotform
