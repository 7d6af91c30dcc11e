import Slotform.Json.Basic
import Slotform.Json.Decode
import Slotform.Json.Reader
import Slotform.Schema.Basic

namespace Slotform

namespace Primitive

/-- The name of a primitive as an alternative in JSON. -/
def tag : Primitive → String
  | bool => "Bool"
  | u8 => "U8"
  | u16 => "U16"
  | u32 => "U32"
  | u64 => "U64"
  | s8 => "S8"
  | s16 => "S16"
  | s32 => "S32"
  | s64 => "S64"
  | f32 => "F32"
  | f64 => "F64"
  | char => "Char"
  | string => "String"

def ofTag? (tag : List Char) : Option Primitive := all.find? (·.tag.toList == tag)

theorem ofTag?_tag (p : Primitive) : ofTag? p.tag.toList = some p := by cases p <;> decide

end Primitive

namespace Ty

def toJson : Ty → Json
  | primitive p => .ofString p.tag
  | list item => .ofEntries [("List", item.toJson)]
  | option inner => .ofEntries [("Option", inner.toJson)]
  | named name => .ofEntries [("Named", .ofString name)]
  | custom kind => .ofEntries [("Custom", .ofString kind)]
  | value => .ofString "Value"

/-- The type of an alternative without content. -/
def ofTag? (tag : List Char) : Option Ty :=
  if tag = "Value".toList then some value else (Primitive.ofTag? tag).map primitive

def ofJson? : Nat → Json → Option Ty
  | 0, j => (j.unit? 0).bind ofTag?
  | left + 1, j =>
    match j.alternative with
    | some (tag, some payload) =>
      if tag = "List".toList then (ofJson? left payload).map list
      else if tag = "Option".toList then (ofJson? left payload).map option
      else if tag = "Named".toList then payload.string?.map named
      else if tag = "Custom".toList then payload.string?.map custom
      else (j.unit? (left + 1)).bind ofTag?
    | some (tag, none) => ofTag? tag
    | none => none

end Ty

namespace Kind

def toJson : Kind → Json
  | primitive p => .ofString p.tag
  | custom name => .ofEntries [("Custom", .ofString name)]

def ofJson? (left : Nat) (j : Json) : Option Kind :=
  match j.alternative with
  | some (tag, some payload) =>
    if tag = "Custom".toList then
      if 0 < left then payload.string?.map custom else none
    else ((j.unit? left).bind Primitive.ofTag?).map primitive
  | some (tag, none) => (Primitive.ofTag? tag).map primitive
  | none => none

end Kind

namespace Align

def toJson : Align → Json
  | left => .ofString "Left"
  | right => .ofString "Right"

def ofJson? (left : Nat) (j : Json) : Option Align := do
  let tag ← j.unit? left
  if tag = "Left".toList then some .left
  else if tag = "Right".toList then some .right
  else none

end Align

namespace Format

/-- A hint as a number, or `null` if it is not set. -/
def hintJson {α : Type} (write : α → Json) : Option α → Json
  | some x => write x
  | none => .null

def toJson (f : Format) : Json :=
  .ofEntries [
    ("size", hintJson (fun n => .ofNat n.toNat) f.size),
    ("max_occurs", hintJson (fun n => .ofNat n.toNat) f.maxOccurs),
    ("align", hintJson Align.toJson f.align)]

def word? (j : Json) : Option UInt32 := (j.nat? UInt32.size).map UInt32.ofNat

def ofJson? : Nat → Json → Option Format
  | 0, _ => none
  | left + 1, j => do
    match ← j.fields ["size", "max_occurs", "align"] 3 with
    | [size, maxOccurs, align] =>
      let size ← Json.optional? word? size
      let maxOccurs ← Json.optional? word? maxOccurs
      let align ← Json.optional? (Align.ofJson? left) align
      some ⟨size, maxOccurs, align⟩
    | _ => none

end Format

namespace Cardinality

def toJson : Cardinality → Json
  | single => .ofString "Single"
  | repeated => .ofString "Repeated"

def ofJson? (left : Nat) (j : Json) : Option Cardinality := do
  let tag ← j.unit? left
  if tag = "Single".toList then some .single
  else if tag = "Repeated".toList then some .repeated
  else none

end Cardinality

def Node.toJson (n : Node) (shape : Json) : Json :=
  .ofEntries ([
    ("name", .ofString n.name),
    ("element", n.element.toJson),
    ("cardinality", n.cardinality.toJson),
    ("optional", .bool n.optional),
    ("format", n.format.toJson),
    ("shape", shape)] ++
    if n.skipped.isEmpty then [] else [("skipped", .array (n.skipped.map .ofString))])

/-- The keys of a node. All but the last must be there. -/
def Node.keys : List String :=
  ["name", "element", "cardinality", "optional", "format", "shape", "skipped"]

def Node.ofJson? (left : Nat) (j : Json) : Option (Node × Json) := do
  match ← j.fields keys 6 with
  | [some name, some element, some cardinality, some optional, some format, some shape, skipped] =>
    let name ← name.string?
    let element ← Ty.ofJson? left element
    let cardinality ← Cardinality.ofJson? left cardinality
    let optional ← optional.bool?
    let format ← Format.ofJson? left format
    let skipped ← match skipped with
      | some names => names.strings? left
      | none => some []
    some (⟨name, element, cardinality, optional, format, skipped⟩, shape)
  | _ => none

namespace Schema

mutual

def toJson : Schema → Json
  | leaf node kind => node.toJson (.ofEntries [("Leaf", kind.toJson)])
  | record node members => node.toJson (.ofEntries [("Record", .array (membersJson members))])

def membersJson : List Schema → List Json
  | [] => []
  | member :: rest => member.toJson :: membersJson rest

end

def ofShape? (node : Node) (left : Nat) (members : Json → Option (List Schema)) (j : Json) :
    Option Schema :=
  match left, j.alternative with
  | left + 1, some (tag, some payload) =>
    if tag = "Leaf".toList then (Kind.ofJson? left payload).map (leaf node)
    else if tag = "Record".toList then (members payload).map (record node)
    else none
  | _, _ => none

def ofJson? : Nat → Json → Option Schema
  | 0, _ => none
  | left + 1, j => do
    let (node, shape) ← Node.ofJson? left j
    let members : Json → Option (List Schema) := match left with
      | inner + 2 => Json.items? (ofJson? inner)
      | _ => fun _ => none
    ofShape? node left members shape

/-- The indented JSON text of a schema. -/
def printJson (s : Schema) : List Char := s.toJson.indented 0

/-- The schema of a JSON text, if it describes one and nests no deeper than is read. -/
def readJson? (text : List Char) : Option Schema := (Json.read? text).bind (ofJson? Json.maxNesting)

end Schema

end Slotform
