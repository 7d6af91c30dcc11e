import Slotform.Derive.Derivation

namespace Slotform.Derive

namespace Code

def code (source : String) : List Token := (Token.ofSource? source.toList).getD []

def parens (inner : List Token) : List Token := [.group .paren inner]

def brackets (inner : List Token) : List Token := [.group .bracket inner]

def braces (inner : List Token) : List Token := [.group .brace inner]

def ident (name : String) : List Token := [.ident name]

def text (s : String) : List Token := [.literal (Literal.ofString s)]

def comma : List Token := [.punct ',' false]

def separated (pieces : List (List Token)) : List Token := comma.intercalate pieces

def terminated (pieces : List (List Token)) : List Token := pieces.flatMap (· ++ comma)

def owned (s : String) : List Token := code "shapr_abi::__private::String::from" ++ parens (text s)

/-- A value that may be missing. -/
def maybe (content : Option (List Token)) : List Token :=
  match content with
  | some content => code "shapr_abi::__private::Some" ++ parens content
  | none => code "shapr_abi::__private::None"

def err (content : List Token) : List Token := code "shapr_abi::__private::Err" ++ parens content

def shown : List Token :=
  code "shapr_abi::__private::format!" ++
    parens ([.literal "\"\x7b:?\x7d\"".toList] ++ code ", other")

end Code

open Code

namespace DerivedMember

def describeCode (m : DerivedMember) : List Token :=
  if m.skip then code "shapr_abi::Type::Value"
  else
    let described :=
      code "<" ++ m.type ++ code "as shapr_abi::Shape>::describe" ++ parens (code "registry")
    match m.kind with
    | some kind =>
      described ++ code ".with_innermost" ++
        parens (code "shapr_abi::Type::custom" ++ parens (text kind))
    | none => described

def formatCode (f : Format) : List Token :=
  let word (n : UInt32) : List Token := [.literal (Literal.ofWord n.toNat)]
  let side : Align → List Token
    | .left => code "shapr_abi::Align::Left"
    | .right => code "shapr_abi::Align::Right"
  code "shapr_abi::Format" ++ braces (
    code "size:" ++ maybe (f.size.map word) ++ comma ++
    code "max_occurs:" ++ maybe (f.maxOccurs.map word) ++ comma ++
    code "align:" ++ maybe (f.align.map side) ++ comma)

def fieldCode (m : DerivedMember) : List Token :=
  code "shapr_abi::Field" ++ braces (
    code "name:" ++ owned m.name ++ comma ++
    code "ty:" ++ m.describeCode ++ comma ++
    code "format:" ++ formatCode m.format ++ comma ++
    code "skip:" ++ ident (if m.skip then "true" else "false") ++ comma)

def entryCode (m : DerivedMember) : List Token :=
  parens (owned m.name ++ comma ++
    code "shapr_abi::Value::from" ++ parens (code "value." ++ ident m.field))

/-- The variable that holds the entry of the numbered member. -/
def slot (i : Nat) : String := "__shape_slot_" ++ toString i

/-- What a member takes when a value leaves it out. -/
def absentCode (m : DerivedMember) : List Token :=
  if m.fallback then code "shapr_abi::__private::Default::default()"
  else
    code "return" ++
      err (code "shapr_abi::ConversionError::MissingField" ++ parens (owned m.name))

/-- The field that is made from the entry of the numbered member. -/
def assignCode (m : DerivedMember) (i : Nat) : List Token :=
  let failed := code "|e| shapr_abi::ConversionError::FieldError" ++
    parens (owned m.name ++ comma ++ code "shapr_abi::__private::Box::new(e)")
  let converted := code "<" ++ m.type ++ code "as shapr_abi::FromValue>::from_value(field_value)" ++
    code ".map_err" ++ parens failed ++ code "?"
  ident m.field ++ code ": match" ++ ident (slot i) ++ braces (
    code "shapr_abi::__private::Some(field_value) =>" ++ braces converted ++
    code "shapr_abi::__private::None =>" ++ m.absentCode ++ comma)

def defaultCode (m : DerivedMember) : List Token :=
  ident m.field ++ code ": shapr_abi::__private::Default::default()"

end DerivedMember

namespace Derivation

/-- The heads of the three implementations and of their functions. -/
def shapeImpl (item : String) (registry : String) (body : List Token) : List Token :=
  code "impl shapr_abi::Shape for" ++ ident item ++ braces (
    code "fn describe" ++
    parens (ident registry ++ code ": &mut shapr_abi::TypeRegistry") ++
    code "-> shapr_abi::Type" ++ braces body)

def fromImpl (item : String) (attributes body : List Token) : List Token :=
  code "impl shapr_abi::__private::From<" ++ ident item ++ code "> for shapr_abi::Value" ++
    braces (attributes ++ code "fn from" ++ parens (code "value:" ++ ident item) ++
      code "-> shapr_abi::Value" ++ braces body)

def tryFromImpl (item : String) (body : List Token) : List Token :=
  code "impl shapr_abi::__private::TryFrom<shapr_abi::Value> for" ++ ident item ++ braces (
    code "type Error = shapr_abi::ConversionError; fn try_from(value: shapr_abi::Value)" ++
    code "-> shapr_abi::__private::Result<Self, Self::Error>" ++ braces body)

def describeRecord (typeName : String) (members : List DerivedMember) : List Token :=
  let record := code "shapr_abi::TypeDef::record"
  code "let owner = shapr_abi::__private::TypeId::of::<Self>(); if registry.claim" ++
    parens (text typeName ++ code ", owner") ++ braces (
      code "registry.define" ++ parens (record ++ parens (text typeName ++ comma ++
        code "shapr_abi::__private::Vec::new(),")) ++ code ";" ++
      code "let fields = shapr_abi::__private::vec!" ++
        brackets (separated (members.map (·.fieldCode))) ++ code ";" ++
      code "registry.define" ++ parens (record ++ parens (text typeName ++ code ", fields")) ++
      code ";") ++
    code "shapr_abi::Type::named" ++ parens (text typeName)

def recordToValue (members : List DerivedMember) : List Token :=
  code "shapr_abi::Value::Record" ++ parens (code "shapr_abi::__private::vec!" ++
    brackets (separated ((kept members).map (·.entryCode))))

def slotArms (names : List String) : List Token :=
  names.zipIdx.flatMap fun (name, i) =>
    text name ++ code "=>" ++ ident (DerivedMember.slot i) ++
      code "= shapr_abi::__private::Some(field_value),"

def recordOfValue (members : List DerivedMember) : List Token :=
  let kept := kept members
  let expected := code "shapr_abi::ConversionError::ExpectedRecord" ++ parens shown
  let slots := (List.range kept.length).flatMap fun i =>
    code "let mut" ++ ident (DerivedMember.slot i) ++
      code ": shapr_abi::__private::Option<shapr_abi::Value> = shapr_abi::__private::None;"
  code "let fields = match value" ++ braces (
      code "shapr_abi::Value::Record(fields) => fields, other =>" ++
      braces (code "return" ++ err expected)) ++ code ";" ++
    slots ++
    code "for (name, field_value) in fields" ++ braces (
      code "match name.as_str()" ++ braces (
        slotArms (kept.map (·.name)) ++
        code "_ =>" ++ braces (code "return" ++
          err (code "shapr_abi::ConversionError::UnknownField(name)")))) ++
    code "shapr_abi::__private::Ok" ++ parens (code "Self" ++ braces (
      terminated (kept.zipIdx.map fun (m, i) => m.assignCode i) ++
      terminated ((members.filter (·.skip)).map (·.defaultCode))))

def leafToValue (item : String) (variants : List DerivedVariant) : List Token :=
  code "let name = match value" ++ braces (variants.flatMap fun v =>
      ident item ++ code "::" ++ ident v.variant ++ code "=>" ++ text v.text ++ comma) ++
    code "; shapr_abi::Value::String(shapr_abi::__private::String::from(name))"

/-- Turns a text into the variant it is written for. -/
def leafOfValue (item : String) (variants : List DerivedVariant) : List Token :=
  code "match value" ++ braces (
    code "shapr_abi::Value::String(name) => match name.as_str()" ++ braces (
      (variants.flatMap fun v => text v.text ++ code "=> shapr_abi::__private::Ok" ++
        parens (ident item ++ code "::" ++ ident v.variant) ++ comma) ++
      code "_ =>" ++ err (code "shapr_abi::ConversionError::UnknownVariant(name)") ++ comma) ++
    comma ++
    code "other =>" ++ err (code "shapr_abi::ConversionError::TypeMismatch" ++ braces (
      code "expected:" ++ owned "string" ++ comma ++ code "got:" ++ shown ++ comma)) ++ comma)

def tokens : Derivation → List Token
  | record item typeName members =>
    shapeImpl item "registry" (describeRecord typeName members) ++
      fromImpl item (code "#[allow(unused_variables)]") (recordToValue members) ++
      tryFromImpl item (recordOfValue members)
  | leaf item kind variants =>
    let described := match kind with
      | some kind => code "shapr_abi::Type::custom" ++ parens (text kind)
      | none => code "shapr_abi::Type::String"
    shapeImpl item "_registry" described ++ fromImpl item [] (leafToValue item variants) ++
      tryFromImpl item (leafOfValue item variants)

/-- The code as text, with single spaces between its words. -/
def render (d : Derivation) : String := " ".intercalate (Token.wordsOf d.tokens)

end Derivation

end Slotform.Derive
