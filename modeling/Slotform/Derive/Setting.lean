import Slotform.Derive.Item
import Slotform.Derive.Literal
import Slotform.Ty

namespace Slotform.Derive

/-- What an attribute belongs to. -/
inductive Place where
  | container | field | variant
  deriving DecidableEq, Repr

def Place.name : Place → String
  | container => "container"
  | field => "field"
  | variant => "variant"

/-- A kind of value that a key takes. -/
inductive ValueKind where
  | string | integer
  deriving DecidableEq, Repr

def ValueKind.name : ValueKind → String
  | string => "string literal"
  | integer => "integer literal"

/-- Why nothing is derived for an item. -/
inductive DeriveError where
  | genericType
  | unnamedFields
  | unionType
  | kindOnStruct
  | nameOnEnum
  | noVariants
  | variantWithFields
  | repeatedVariant (name : String)
  | unsupportedKey (place : Place)
  | emptyTypeName
  | emptyKindName
  | emptyVariantName
  | badAlign
  | missingList
  | assignedList
  | literalItem
  | punctItem
  | endOfItems
  | expectedIdent (atEnd : Bool)
  | expectedSign (c : Char)
  | expectedValue (kind : ValueKind) (atEnd : Bool)
  | numberTooLarge
  | negativeNumber
  deriving DecidableEq, Repr

/-- A complaint about what stands at some place, or about the end of the text. -/
private def orAtEnd (atEnd : Bool) (complaint : String) : String :=
  if atEnd then "unexpected end of input, " ++ complaint else complaint

def DeriveError.message : DeriveError → String
  | genericType => "Shape cannot be derived for generic types"
  | unnamedFields => "Shape can only be derived for structs with named fields"
  | unionType => "Shape cannot be derived for unions"
  | kindOnStruct => "`kind` on a struct is not supported; put it on a field"
  | nameOnEnum => "`name` is not supported on enums; an enum is a leaf, not a named type"
  | noVariants => "Shape cannot be derived for an enum without variants"
  | variantWithFields => "Shape can only be derived for enums whose variants are all units"
  | repeatedVariant name => "variant name `" ++ name ++ "` is used twice"
  | unsupportedKey place => "unsupported shape " ++ place.name ++ " attribute"
  | emptyTypeName => "type name cannot be empty"
  | emptyKindName => "kind name cannot be empty"
  | emptyVariantName => "variant name cannot be empty"
  | badAlign => "expected \"left\" or \"right\""
  | missingList => "expected attribute arguments in parentheses: #[shape(...)]"
  | assignedList => "expected parentheses: #[shape(...)]"
  | literalItem => "unexpected literal in nested attribute, expected ident"
  | punctItem => "unexpected token in nested attribute, expected ident"
  | endOfItems => orAtEnd true "expected nested attribute"
  | expectedIdent atEnd => orAtEnd atEnd "expected ident"
  | expectedSign c => "expected `" ++ c.toString ++ "`"
  | expectedValue kind atEnd => orAtEnd atEnd ("expected " ++ kind.name)
  | numberTooLarge => "number too large to fit in target type"
  | negativeNumber => "invalid digit found in string"

/-- One setting. -/
inductive Setting where
  | name (text : String)
  | kind (text : String)
  | rename (text : String)
  | skip
  | default
  | size (n : UInt32)
  | maxOccurs (n : UInt32)
  | align (side : Align)
  deriving DecidableEq, Repr

namespace Setting

/-- Splits off the equals sign before a value. -/
def afterEquals : List Token → Except DeriveError (List Token)
  | sign :: rest => if sign.isPunct '=' then .ok rest else .error (.expectedSign '=')
  | [] => .error (.expectedSign '=')

/-- Reads a text after an equals sign. -/
def readString (tokens : List Token) : Except DeriveError (String × List Token) := do
  match ← afterEquals tokens with
  | .literal literal :: rest =>
    match Literal.string? literal with
    | some text => .ok (text, rest)
    | none => .error (.expectedValue .string false)
  | rest => .error (.expectedValue .string rest.isEmpty)

/-- Reads a 32-bit number after an equals sign. -/
def readWord (tokens : List Token) : Except DeriveError (UInt32 × List Token) := do
  match ← afterEquals tokens with
  | .literal literal :: rest =>
    match Literal.integer? literal with
    | some n => if n < UInt32.size then .ok (UInt32.ofNat n, rest) else .error .numberTooLarge
    | none => .error (.expectedValue .integer false)
  | .punct '-' _ :: .literal literal :: _ =>
    if (Literal.integer? literal).isSome then .error .negativeNumber
    else .error (.expectedValue .integer false)
  | rest => .error (.expectedValue .integer rest.isEmpty)

def readName (empty : DeriveError) (tokens : List Token) :
    Except DeriveError (String × List Token) := do
  let (text, rest) ← readString tokens
  if text.isEmpty then .error empty else .ok (text, rest)

def readAlign (tokens : List Token) : Except DeriveError (Align × List Token) := do
  let (text, rest) ← readString tokens
  if text = "left" then .ok (.left, rest)
  else if text = "right" then .ok (.right, rest)
  else .error .badAlign

def readSetting (place : Place) (key : String) (rest : List Token) :
    Except DeriveError (Setting × List Token) :=
  let within {α : Type} (make : α → Setting) (result : Except DeriveError (α × List Token)) :
      Except DeriveError (Setting × List Token) :=
    result.map fun (value, rest) => (make value, rest)
  match place, key with
  | .container, "name" => within .name (readName .emptyTypeName rest)
  | .container, "kind" => within .kind (readName .emptyKindName rest)
  | .variant, "rename" => within .rename (readName .emptyVariantName rest)
  | .field, "rename" => within .rename (readString rest)
  | .field, "skip" => .ok (.skip, rest)
  | .field, "default" => .ok (.default, rest)
  | .field, "size" => within .size (readWord rest)
  | .field, "max_occurs" => within .maxOccurs (readWord rest)
  | .field, "align" => within .align (readAlign rest)
  | .field, "kind" => within .kind (readString rest)
  | place, _ => .error (.unsupportedKey place)

/-- Splits off a path separator. -/
def afterSeparator? : List Token → Option (List Token)
  | first :: second :: rest =>
    if first.isJoint ':' && second.isPunct ':' then some rest else none
  | _ => none

/-- Reads the further names of a path; says whether there are any. -/
def readPathRest : Nat → List Token → Except DeriveError (Bool × List Token)
  | 0, rest => .ok (false, rest)
  | bound + 1, tokens =>
    match afterSeparator? tokens with
    | none => .ok (false, tokens)
    | some (.ident _ :: rest) => (readPathRest bound rest).map fun (_, rest) => (true, rest)
    | some rest => .error (.expectedIdent rest.isEmpty)

/-- Reads the key of a setting: a single name, or nothing for any other path. -/
def readKey (tokens : List Token) : Except DeriveError (Option String × List Token) :=
  let (leading, tokens) := match afterSeparator? tokens with
    | some rest => (true, rest)
    | none => (false, tokens)
  match tokens with
  | .ident first :: rest =>
    (readPathRest rest.length rest).map fun (further, rest) =>
      (if leading || further then none else some first, rest)
  | [] => .error .endOfItems
  | .literal _ :: _ => .error .literalItem
  | .punct '-' _ :: .literal literal :: _ =>
    if Literal.isNumber literal then .error .literalItem else .error .punctItem
  | _ => .error .punctItem

/-- Reads the settings of a list with commas between them and perhaps after them. Every setting
takes tokens, which bounds their number. -/
def readList (place : Place) : Nat → List Token → Except DeriveError (List Setting)
  | _, [] => .ok []
  | 0, _ => .ok []
  | bound + 1, tokens => do
    let (key, rest) ← readKey tokens
    match key with
    | none => .error (.unsupportedKey place)
    | some key =>
      let (setting, rest) ← readSetting place key rest
      match rest with
      | [] => .ok [setting]
      | comma :: rest =>
        if comma.isPunct ',' then do
          let more ← readList place bound rest
          .ok (setting :: more)
        else .error (.expectedSign ',')

def ofAttribute (place : Place) : Attribute → Except DeriveError (List Setting)
  | .bare => .error .missingList
  | .assigned => .error .assignedList
  | .listed tokens => readList place tokens.length tokens

def ofAttributes (place : Place) : List Attribute → Except DeriveError (List Setting)
  | [] => .ok []
  | first :: rest => do
    let settings ← ofAttribute place first
    let more ← ofAttributes place rest
    .ok (settings ++ more)

def last? {α : Type} (settings : List Setting) (value? : Setting → Option α) : Option α :=
  settings.reverse.findSome? value?

def name? : Setting → Option String
  | name text => some text
  | _ => none

def kind? : Setting → Option String
  | kind text => some text
  | _ => none

def rename? : Setting → Option String
  | rename text => some text
  | _ => none

def size? : Setting → Option UInt32
  | size n => some n
  | _ => none

def maxOccurs? : Setting → Option UInt32
  | maxOccurs n => some n
  | _ => none

def align? : Setting → Option Align
  | align side => some side
  | _ => none

end Setting

end Slotform.Derive
