import Slotform.Binary.Text
import Slotform.Text.Quoted
import Slotform.Ty

namespace Slotform

/-- A value of a primitive type. -/
inductive Atom where
  | bool (b : Bool)
  | u8 (n : UInt8)
  | u16 (n : UInt16)
  | u32 (n : UInt32)
  | u64 (n : UInt64)
  | s8 (n : Int8)
  | s16 (n : Int16)
  | s32 (n : Int32)
  | s64 (n : Int64)
  | f32 (x : Single)
  | f64 (x : Double)
  | char (c : Char)
  | string (s : String)
  deriving DecidableEq

def Atom.primitive : Atom → Primitive
  | bool _ => .bool
  | u8 _ => .u8
  | u16 _ => .u16
  | u32 _ => .u32
  | u64 _ => .u64
  | s8 _ => .s8
  | s16 _ => .s16
  | s32 _ => .s32
  | s64 _ => .s64
  | f32 _ => .f32
  | f64 _ => .f64
  | char _ => .char
  | string _ => .string

/-- Equality of atoms, in which floating-point numbers compare as numbers. -/
def Atom.equals : Atom → Atom → Bool
  | f32 x, f32 y => x.equals y
  | f64 x, f64 y => x.equals y
  | a, b => a = b

/-- A value in memory. -/
inductive Value where
  | atom (a : Atom)
  | list (items : List Value)
  | absent
  | present (inner : Value)
  | record (entries : List (String × Value))

namespace Value

def kindName : Value → String
  | atom a => a.primitive.name
  | list _ => "list"
  | absent => "option"
  | present _ => "option"
  | record _ => "record"

def isAbsent : Value → Bool
  | absent => true
  | _ => false

/-- The first entry of a record under a name. -/
def field? (name : String) : Value → Option Value
  | record entries => entries.lookup name
  | _ => none

mutual

/-- Equality of values, in which floating-point numbers compare as numbers. -/
def equals : Value → Value → Bool
  | atom a, atom b => a.equals b
  | list xs, list ys => equalItems xs ys
  | absent, absent => true
  | present x, present y => x.equals y
  | record xs, record ys => equalEntries xs ys
  | _, _ => false

def equalItems : List Value → List Value → Bool
  | [], [] => true
  | x :: xs, y :: ys => x.equals y && equalItems xs ys
  | _, _ => false

def equalEntries : List (String × Value) → List (String × Value) → Bool
  | [], [] => true
  | (m, x) :: xs, (n, y) :: ys => m == n && x.equals y && equalEntries xs ys
  | _, _ => false

end

end Value

/-- The content of an atom under the name of its constructor. -/
def Atom.inspected : Atom → String
  | bool b => "Bool(" ++ toString b ++ ")"
  | u8 n => "U8(" ++ toString n.toNat ++ ")"
  | u16 n => "U16(" ++ toString n.toNat ++ ")"
  | u32 n => "U32(" ++ toString n.toNat ++ ")"
  | u64 n => "U64(" ++ toString n.toNat ++ ")"
  | s8 n => "S8(" ++ toString n.toInt ++ ")"
  | s16 n => "S16(" ++ toString n.toInt ++ ")"
  | s32 n => "S32(" ++ toString n.toInt ++ ")"
  | s64 n => "S64(" ++ toString n.toInt ++ ")"
  | f32 x => "F32(" ++ String.ofList x.inspected ++ ")"
  | f64 x => "F64(" ++ String.ofList x.inspected ++ ")"
  | char c => "Char(" ++ String.ofList (Text.quotedChar c) ++ ")"
  | string s => "String(" ++ Text.quotedString s ++ ")"

namespace Value

mutual

/-- A value in full. -/
def inspected : Value → String
  | atom a => a.inspected
  | list items => "List([" ++ ", ".intercalate (inspectedItems items) ++ "])"
  | absent => "Option(None)"
  | present inner => "Option(Some(" ++ inner.inspected ++ "))"
  | record entries => "Record([" ++ ", ".intercalate (inspectedEntries entries) ++ "])"

def inspectedItems : List Value → List String
  | [] => []
  | item :: rest => item.inspected :: inspectedItems rest

def inspectedEntries : List (String × Value) → List String
  | [] => []
  | (name, value) :: rest =>
    ("(" ++ Text.quotedString name ++ ", " ++ value.inspected ++ ")") :: inspectedEntries rest

end

end Value

end Slotform
