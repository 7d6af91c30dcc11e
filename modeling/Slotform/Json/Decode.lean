import Slotform.Decimal
import Slotform.Json.Basic

/-!
Taking JSON documents apart by the type they should describe. A structure is an object, whose
unknown keys are ignored and whose known keys may not repeat, or an array of its fields in order.
An alternative is its name, or an object with its name as the only key. The number of arrays and
objects that may still be entered is passed down; what an unknown key holds is not entered.
-/

namespace Slotform.Json

/-- How many nested arrays and objects are read. -/
def maxNesting : Nat := 127

/-- All texts of a list of keys, if none of them is broken. -/
def allTexts : List JsonText → Option (List (List Char))
  | [] => some []
  | key :: rest => do
    let key ← key
    let rest ← allTexts rest
    some (key :: rest)

/-- The values of the fields in order, absent ones included. In an array at least `least` fields
must be present, and the missing ones are the last. -/
def fields (names : List String) (least : Nat) : Json → Option (List (Option Json))
  | object entries => do
    let keys ← allTexts (entries.map (·.1))
    let known := keys.filter fun key => names.any (·.toList == key)
    if known.eraseDups.length < known.length then none
    else some (names.map fun name => entries.lookup (some name.toList))
  | array items =>
    if names.length < items.length ∨ items.length < least then none
    else some (names.zipIdx.map fun (_, i) => items[i]?)
  | _ => none

/-- The name of an alternative with what it carries, if the document is an object with one key. -/
def alternative : Json → Option (List Char × Option Json)
  | string (some name) => some (name, none)
  | object [(some name, payload)] => some (name, some payload)
  | _ => none

def isNull : Json → Bool
  | null => true
  | _ => false

/-- An alternative that carries nothing, by name or as an object that holds `null`. -/
def unit? (left : Nat) (j : Json) : Option (List Char) :=
  match j.alternative with
  | some (name, none) => some name
  | some (name, some payload) => if 0 < left ∧ payload.isNull then some name else none
  | none => none

def bool? : Json → Option Bool
  | bool b => some b
  | _ => none

def string? : Json → Option String
  | string (some text) => some (String.ofList text)
  | _ => none

/-- A natural number below a bound, written without sign, fraction or exponent. -/
def nat? (bound : Nat) : Json → Option Nat
  | number text => (Decimal.readDigits text).filter (· < bound)
  | _ => none

/-- A value that `null` or the lack of a value leaves out. -/
def optional? {α : Type} (read : Json → Option α) : Option Json → Option (Option α)
  | none => some none
  | some null => some none
  | some j => (read j).map some

def items? {α : Type} (read : Json → Option α) : Json → Option (List α)
  | array items => items.mapM read
  | _ => none

/-- An array of strings. -/
def strings? (left : Nat) (j : Json) : Option (List String) :=
  if 0 < left then j.items? string? else none

end Slotform.Json
