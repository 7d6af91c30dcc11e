import Slotform.Binary.Text
import Slotform.Text.Quoted
import Slotform.Ty
import Slotform.Value.Basic

namespace Slotform.Slot

def blanks (n : Nat) : List Char := List.replicate n ' '

def trimStart (text : List Char) : List Char := text.dropWhile (· = ' ')

def trimEnd (text : List Char) : List Char := (text.reverse.dropWhile (· = ' ')).reverse

/-- A text of at most `width` characters in its slot. -/
def fill (align : Align) (width : Nat) (text : List Char) : List Char :=
  match align with
  | .left => text ++ blanks (width - text.length)
  | .right => blanks (width - text.length) ++ text

/-- The text of a slot without its padding. -/
def unfill (align : Align) (slot : List Char) : List Char :=
  match align with
  | .left => trimEnd slot
  | .right => trimStart slot

end Slotform.Slot

namespace Slotform

/-- Why a codec refuses a value or a text. -/
inductive CodecError where
  | unexpected (expected got : String)
  | invalid (text : List Char)
  deriving DecidableEq, Repr

def CodecError.message : CodecError → String
  | unexpected expected got => "expected " ++ expected ++ ", got " ++ got
  | invalid text => "invalid text " ++ String.ofList (Text.quoted text)

/-- The text conversion of one leaf kind. A reader is given the slot's text without its padding,
or the whole slot if every text of the kind has the same width. -/
structure Codec where
  render : Value → Except CodecError (List Char)
  parse : List Char → Except CodecError Value
  fixedWidth : Option Nat := none
  align : Align := .left

namespace Atom

def text : Atom → List Char
  | bool b => if b then ['1'] else ['0']
  | u8 n => Decimal.digits n.toNat
  | u16 n => Decimal.digits n.toNat
  | u32 n => Decimal.digits n.toNat
  | u64 n => Decimal.digits n.toNat
  | s8 n => Decimal.signed n.toInt
  | s16 n => Decimal.signed n.toInt
  | s32 n => Decimal.signed n.toInt
  | s64 n => Decimal.signed n.toInt
  | f32 x => x.plain
  | f64 x => x.plain
  | char c => [c]
  | string s => s.toList

/-- The number that a text without surrounding spaces denotes. -/
def number? (p : Primitive) (text : List Char) : Option Atom :=
  match p with
  | .u8 => (Decimal.readUnsigned UInt8.size text).map fun n => u8 (UInt8.ofNat n)
  | .u16 => (Decimal.readUnsigned UInt16.size text).map fun n => u16 (UInt16.ofNat n)
  | .u32 => (Decimal.readUnsigned UInt32.size text).map fun n => u32 (UInt32.ofNat n)
  | .u64 => (Decimal.readUnsigned UInt64.size text).map fun n => u64 (UInt64.ofNat n)
  | .s8 => (Decimal.readSigned Int8.size text).map fun n => s8 (Int8.ofInt n)
  | .s16 => (Decimal.readSigned Int16.size text).map fun n => s16 (Int16.ofInt n)
  | .s32 => (Decimal.readSigned Int32.size text).map fun n => s32 (Int32.ofInt n)
  | .s64 => (Decimal.readSigned Int64.size text).map fun n => s64 (Int64.ofInt n)
  | .f32 => (Binary.read? text).map f32
  | .f64 => (Binary.read? text).map f64
  | .bool | .char | .string => none

end Atom

namespace Primitive

/-- Every text of the type has one character. -/
def isOneChar : Primitive → Bool
  | bool | char => true
  | _ => false

/-- The types written as numbers. -/
def isNumber : Primitive → Bool
  | bool | char | string => false
  | _ => true

/-- Reads an atom. Numbers may have spaces on both sides. -/
def parse (p : Primitive) (text : List Char) : Except CodecError Atom :=
  match p with
  | .bool =>
    if text = ['1'] then .ok (.bool true)
    else if text = ['0'] then .ok (.bool false)
    else .error (.invalid text)
  | .char =>
    match text with
    | [c] => .ok (.char c)
    | _ => .error (.invalid text)
  | .string => .ok (.string (String.ofList text))
  | number =>
    let trimmed := Slot.trimStart (Slot.trimEnd text)
    match Atom.number? number trimmed with
    | some atom => .ok atom
    | none => .error (.invalid trimmed)

end Primitive

namespace Codec

def ofPrimitive (p : Primitive) : Codec where
  render
    | .atom a =>
      if a.primitive = p then .ok a.text else .error (.unexpected p.name a.primitive.name)
    | other => .error (.unexpected p.name other.kindName)
  parse text := (p.parse text).map .atom
  fixedWidth := if p.isOneChar then some 1 else none
  align := if p.isNumber then .right else .left

/-- The codec of a kind that needs no registration. -/
def builtin? : Kind → Option Codec
  | .primitive p => some (ofPrimitive p)
  | .custom _ => none

/-! ## Codecs for extension kinds -/

/-- A codec of strings that renders those that pass a test. -/
private def ofStrings (expected : String) (accepts : String → Bool)
    (reads : List Char → Bool) (fixedWidth : Option Nat) : Codec where
  render
    | .atom (.string s) => if accepts s then .ok s.toList else .error (.invalid s.toList)
    | other => .error (.unexpected expected other.kindName)
  parse text :=
    if reads text then .ok (.atom (.string (String.ofList text))) else .error (.invalid text)
  fixedWidth := fixedWidth
  align := .left

/-- Ten characters: digits, with a hyphen in the fifth and in the eighth place. -/
def isDate (text : List Char) : Bool :=
  text.length = 10 &&
    text.zipIdx.all fun (c, i) => if i = 4 ∨ i = 7 then c = '-' else c.isDigit

/-- Dates. Whatever fills ten bytes is written; only what looks like a date is read. -/
def date : Codec := ofStrings "date" (·.utf8ByteSize = 10) isDate (some 10)

def anyText : Codec := ofStrings "text" (fun _ => true) (fun _ => true) none

/-- Any text, in slots of three characters. -/
def code : Codec := ofStrings "code3" (fun _ => true) (fun _ => true) (some 3)

/-- The value of a lower-case hexadecimal digit. -/
def hexValue? (c : Char) : Option Nat :=
  if c.isDigit then some (c.toNat - 48)
  else if 'a' ≤ c ∧ c ≤ 'f' then some (c.toNat - 87)
  else none

/-- The number of a run of lower-case hexadecimal digits. -/
def hexNumber? (text : List Char) : Option Nat :=
  (text.mapM hexValue?).map fun digits => digits.foldl (fun n d => 16 * n + d) 0

/-- 32-bit numbers in lower-case hexadecimal, aligned to the right. -/
def hex : Codec where
  render
    | .atom (.u32 n) => .ok (Nat.toDigits 16 n.toNat)
    | other => .error (.unexpected "hex" other.kindName)
  parse text :=
    match hexNumber? text with
    | some n =>
      if 1 ≤ text.length ∧ text.length ≤ 8 then .ok (.atom (.u32 (UInt32.ofNat n)))
      else .error (.invalid text)
    | none => .error (.invalid text)
  align := .right

def extension? (name : String) : Option Codec :=
  if name = "date" then some date
  else if name = "pass" then some anyText
  else if name = "hex" then some hex
  else if name = "code3" then some code
  else none

end Codec

end Slotform
