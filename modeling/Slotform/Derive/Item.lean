import Slotform.Derive.Grammar.Statement
import Slotform.Derive.Lexer

namespace Slotform.Derive

/-- How a `shape` attribute is written: alone, with an equals sign, or with a list of settings. -/
inductive Attribute where
  | bare
  | assigned
  | listed (settings : List Token)

/-- A named field and the tokens of its type. -/
structure SourceField where
  attributes : List Attribute
  name : String
  type : List Token

structure SourceVariant where
  attributes : List Attribute
  name : String
  isUnit : Bool

inductive Body where
  | named (fields : List SourceField)
  | unnamed
  | enumeration (variants : List SourceVariant)
  | union

structure Item where
  attributes : List Attribute
  name : String
  hasParameters : Bool
  body : Body

namespace Item

/-- The content of an attribute's brackets, if it is a `shape` attribute. -/
def attribute? : List Token → Option Attribute
  | [name] => if name.isIdent "shape" then some .bare else none
  | [name, .group _ settings] => if name.isIdent "shape" then some (.listed settings) else none
  | name :: sign :: _ => if name.isIdent "shape" && sign.isPunct '=' then some .assigned else none
  | _ => none

/-- Splits off leading attributes. -/
def splitAttributes : List Token → List Attribute × List Token
  | hash :: .group .bracket content :: rest =>
    if hash.isPunct '#' then
      let (more, rest) := splitAttributes rest
      ((attribute? content).toList ++ more, rest)
    else ([], hash :: .group .bracket content :: rest)
  | tokens => ([], tokens)

def readAttributes : Scan (List Attribute) := modifyGet splitAttributes

def readName : Scan String := do
  let [.ident name] ← Phrase.token | failure
  return name

/-- Entries with commas between and perhaps after them, at most so many. -/
def entries {α : Type} (entry : Scan α) : Nat → Scan (List α)
  | 0 => return []
  | count + 1 => do
    if (← get).isEmpty then return []
    else
      let first ← entry
      let _ ← Phrase.comma
      let more ← entries entry count
      return first :: more

section

variable (parts : Parts)

def field : Scan SourceField := do
  let attributes ← readAttributes
  let _ ← Grammar.visibility
  let name ← readName
  let _ ← Phrase.sign ":"
  let type ← parts.type true
  return ⟨attributes, name, type⟩

def variant : Scan SourceVariant := do
  let attributes ← readAttributes
  let _ ← Grammar.visibility
  let name ← readName
  let fields ← Phrase.optional (Look.any [Look.group .paren, Look.group .brace]) Phrase.token
  let _ ← Grammar.defaultTo (parts.expression true)
  return ⟨attributes, name, fields.isEmpty⟩

def all? {α : Type} (entry : Scan α) (tokens : List Token) : Option (List α) :=
  match (entries entry tokens.length).run tokens with
  | some (entries, []) => some entries
  | _ => none

/-- What follows an item's name begins with parameters, and not with an empty list of them. -/
def startsWithParameters : List Token → Bool
  | first :: second :: _ => first.isPunct '<' && !second.isPunct '>'
  | _ => false

/-- The body of an item by its keyword and the tokens after its name. -/
def body? (keyword : String) (rest : List Token) : Option Body :=
  match keyword, rest.getLast? with
  | "struct", some (.group .brace inner) => (all? (field parts) inner).map .named
  | "struct", _ => some .unnamed
  | "enum", some (.group .brace inner) => (all? (variant parts) inner).map .enumeration
  | "union", some (.group .brace _) => some .union
  | _, _ => none

end

/-- What an item starts with: its attributes, its keyword and its name. -/
def heading : Scan (List Attribute × String × String) := do
  let attributes ← readAttributes
  let _ ← Grammar.visibility
  return (attributes, ← readName, ← readName)

def ofTokens? (tokens : List Token) : Option Item := do
  let ((attributes, keyword, name), rest) ← heading.run tokens
  let body ← body? (Grammar.within tokens) keyword rest
  return ⟨attributes, name, startsWithParameters rest, body⟩

def ofSource? (source : List Char) : Option Item := (Token.ofSource? source).bind ofTokens?

end Item

end Slotform.Derive
