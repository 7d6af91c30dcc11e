import Slotform.Ty

namespace Slotform

/-- How many items a member holds. -/
inductive Cardinality where
  | single | repeated
  deriving DecidableEq, Repr

/-- What leaves and records have in common: the member's name, the type of one item, the wrappers
around it, the formatting hints, and the names of the record's fields that were left out. -/
structure Node where
  name : String
  element : Ty
  cardinality : Cardinality := .single
  optional : Bool := false
  format : Format := .unset
  skipped : List String := []
  deriving DecidableEq, Repr

namespace Node

def isRepeated (n : Node) : Bool := n.cardinality = .repeated

/-- The type of the member, wrappers included. -/
def declared (n : Node) : Ty :=
  let item := if n.isRepeated then .list n.element else n.element
  if n.optional then .option item else item

/-- One item of a repeated member: single, required, without the occurrence hint. -/
def item (n : Node) : Node :=
  { n with
    cardinality := .single
    optional := false
    format := { n.format with maxOccurs := none } }

def required (n : Node) : Node := { n with optional := false }

def display (n : Node) : String := n.name ++ ": " ++ n.declared.display

end Node

/-- A schema tree. -/
inductive Schema where
  | leaf (node : Node) (kind : Kind)
  | record (node : Node) (members : List Schema)

namespace Schema

def node : Schema → Node
  | leaf node _ => node
  | record node _ => node

def name (s : Schema) : String := s.node.name

/-- The same tree under other attributes of its root. -/
def mapNode (change : Node → Node) : Schema → Schema
  | leaf node kind => leaf (change node) kind
  | record node members => record (change node) members

def ofKind (name : String) (kind : Kind) : Schema :=
  leaf ⟨name, kind.toTy, .single, false, .unset, []⟩ kind

def ofMembers (name typeName : String) (members : List Schema) : Schema :=
  record ⟨name, .named typeName, .single, false, .unset, []⟩ members

def repeated : Schema → Schema := mapNode fun n => { n with cardinality := .repeated }

def optional : Schema → Schema := mapNode fun n => { n with optional := true }

def withFormat (s : Schema) (format : Format) : Schema := s.mapNode fun n => { n with format }

def withSkipped (s : Schema) (skipped : List String) : Schema :=
  s.mapNode fun n => { n with skipped }

def item : Schema → Schema := mapNode Node.item

/-- The member without its optional wrapper. -/
def required : Schema → Schema := mapNode Node.required

def isRecord : Schema → Bool
  | leaf .. => false
  | record .. => true

def kind? : Schema → Option Kind
  | leaf _ kind => some kind
  | record .. => none

def members : Schema → List Schema
  | leaf .. => []
  | record _ members => members

def member? (s : Schema) (name : String) : Option Schema := s.members.find? (·.name == name)

mutual

/-- How many record levels lie below the root. -/
def depth : Schema → Nat
  | leaf .. => 0
  | record _ members => depthBelow members

def depthBelow : List Schema → Nat
  | [] => 0
  | member :: rest => max (member.depth + 1) (depthBelow rest)

end

mutual

/-- Schemas are equal when their trees are. -/
def decideEq : (s t : Schema) → Decidable (s = t)
  | leaf m j, leaf n k =>
    if h : m = n ∧ j = k then isTrue (by rw [h.1, h.2])
    else isFalse fun e => h (by cases e; exact ⟨rfl, rfl⟩)
  | record m xs, record n ys =>
    if h : m = n then
      match decideEqMembers xs ys with
      | isTrue e => isTrue (by rw [h, e])
      | isFalse e => isFalse fun c => e (by cases c; rfl)
    else isFalse fun c => h (by cases c; rfl)
  | leaf .., record .. => isFalse nofun
  | record .., leaf .. => isFalse nofun

def decideEqMembers : (xs ys : List Schema) → Decidable (xs = ys)
  | [], [] => isTrue rfl
  | x :: xs, y :: ys =>
    match decideEq x y, decideEqMembers xs ys with
    | isTrue h, isTrue e => isTrue (by rw [h, e])
    | isFalse h, _ => isFalse fun c => h (by cases c; rfl)
    | _, isFalse e => isFalse fun c => e (by cases c; rfl)
  | [], _ :: _ => isFalse nofun
  | _ :: _, [] => isFalse nofun

end

instance : DecidableEq Schema := decideEq

end Schema

/-! ## Outlines -/

/-- The hints that are set, each with a space in front. -/
def Format.outline (f : Format) : String :=
  let hint (label : String) (value : Option UInt32) : String :=
    match value with
    | some n => " " ++ label ++ "=" ++ toString n.toNat
    | none => ""
  let side := match f.align with
    | some .left => " align=left"
    | some .right => " align=right"
    | none => ""
  hint "size" f.size ++ hint "max_occurs" f.maxOccurs ++ side

def Node.outline (depth : Nat) (n : Node) : String :=
  String.ofList (List.replicate (2 * depth) ' ') ++ n.display ++ n.format.outline ++ "\n"

namespace Schema

mutual

def outlineAt (depth : Nat) : Schema → String
  | leaf node _ => node.outline depth
  | record node members => node.outline depth ++ outlineMembers (depth + 1) members

def outlineMembers (depth : Nat) : List Schema → String
  | [] => ""
  | member :: rest => member.outlineAt depth ++ outlineMembers depth rest

end

def outline (s : Schema) : String := s.outlineAt 0

end Schema

end Slotform
