namespace Slotform

/-- The types that need no definition. -/
inductive Primitive where
  | bool | u8 | u16 | u32 | u64 | s8 | s16 | s32 | s64 | f32 | f64 | char | string
  deriving DecidableEq, Repr

namespace Primitive

def name : Primitive → String
  | bool => "bool"
  | u8 => "u8"
  | u16 => "u16"
  | u32 => "u32"
  | u64 => "u64"
  | s8 => "s8"
  | s16 => "s16"
  | s32 => "s32"
  | s64 => "s64"
  | f32 => "f32"
  | f64 => "f64"
  | char => "char"
  | string => "string"

def all : List Primitive :=
  [bool, u8, u16, u32, u64, s8, s16, s32, s64, f32, f64, char, string]

theorem name_injective {p q : Primitive} (h : p.name = q.name) : p = q := by
  revert h; cases p <;> cases q <;> decide

def ofName? (name : String) : Option Primitive := all.find? (·.name == name)

theorem ofName?_name (p : Primitive) : ofName? p.name = some p := by cases p <;> decide

theorem name_of_ofName? {name : String} {p : Primitive} (h : ofName? name = some p) :
    p.name = name := by
  simpa using List.find?_some h

end Primitive

/-- A type reference. -/
inductive Ty where
  | primitive (p : Primitive)
  | list (item : Ty)
  | option (inner : Ty)
  | named (name : String)
  | custom (kind : String)
  | value
  deriving DecidableEq, Repr

namespace Ty

/-- The written form of a reference. Names and kinds are written bare, so that distinct
references may share a written form. -/
def display : Ty → String
  | primitive p => p.name
  | list item => "list<" ++ item.display ++ ">"
  | option inner => "option<" ++ inner.display ++ ">"
  | named name => name
  | custom kind => kind
  | value => "value"

def isPrimitive : Ty → Bool
  | primitive _ => true
  | _ => false

def isList : Ty → Bool
  | list _ => true
  | _ => false

def isDynamic : Ty → Bool
  | value => true
  | _ => false

/-- A list whose items are not known. -/
def rawList : Ty := list value

/-- The item type under all list and option wrappers. -/
def innermost : Ty → Ty
  | list item => item.innermost
  | option inner => inner.innermost
  | ty => ty

/-- The written form of the item type, which names a root member. -/
def itemName (ty : Ty) : String := ty.innermost.display

/-- Replaces the item type under all list and option wrappers. -/
def withInnermost : Ty → Ty → Ty
  | list item, replacement => list (item.withInnermost replacement)
  | option inner, replacement => option (inner.withInnermost replacement)
  | _, replacement => replacement

end Ty

/-- The kind of a leaf. -/
inductive Kind where
  | primitive (p : Primitive)
  | custom (name : String)
  deriving DecidableEq, Repr

namespace Kind

def name : Kind → String
  | primitive p => p.name
  | custom name => name

/-- The kind of a name: a primitive if it names one, otherwise an extension. -/
def ofName (name : String) : Kind :=
  match Primitive.ofName? name with
  | some p => primitive p
  | none => custom name

def isBuiltinName (name : String) : Bool := (Primitive.ofName? name).isSome

/-- The kind of a type, if a leaf can have that type. -/
def ofTy? : Ty → Option Kind
  | .primitive p => some (primitive p)
  | .custom kind => some (custom kind)
  | _ => none

def toTy : Kind → Ty
  | primitive p => .primitive p
  | custom name => .custom name

@[simp] theorem name_ofName (name : String) : (ofName name).name = name := by
  unfold ofName
  split
  · rename_i p h; exact Primitive.name_of_ofName? h
  · rfl

end Kind

/-- The side of a slot at which its text stands. -/
inductive Align where
  | left | right
  deriving DecidableEq, Repr

/-- Formatting hints. Sizes and occurrence counts are 32-bit. -/
structure Format where
  size : Option UInt32 := none
  maxOccurs : Option UInt32 := none
  align : Option Align := none
  deriving DecidableEq, Repr

namespace Format

def unset : Format := ⟨none, none, none⟩

def isUnset (f : Format) : Bool := f = unset

end Format

end Slotform
