import Slotform.Derive.Grammar.Pattern

namespace Slotform.Derive.Grammar

open Phrase

section

variable (parts : Parts)

/-- Parameters of a declaration. Brackets without any are left out. -/
def parameters : Phrase := do
  if Look.sign "<" (← get) then
    let parameters ← angled (parameter parts)
    return if parameters.length ≤ 2 then [] else parameters
  else return []

def condition : Phrase :=
  either Look.lifetime lifetime (parts.type true) ++ sign ":" ++ bounds parts

def conditionsEnd : Look :=
  Look.any [List.isEmpty, Look.group .brace, Look.signs [";", "="]]

/-- Conditions on parameters. The word for them is left out if there are none. -/
def conditions : Phrase := do
  if Look.word "where" (← get) then
    let word ← token
    let conditions ← repeatUntil conditionsEnd (condition parts ++ comma)
    return if conditions.isEmpty then [] else word ++ conditions
  else return []

/-- Brackets after `pub` that say where something is visible. -/
def visibilityScope : Look
  | .group .paren inner :: _ =>
    match inner with
    | [token] => ["crate", "self", "super"].any token.isIdent
    | token :: _ => token.isIdent "in"
    | [] => false
  | _ => false

def visibility : Phrase := optional (Look.word "pub") (token ++ optional visibilityScope token)

def semicolon : Phrase := sign ";"

def valueParameter : Phrase :=
  attributes parts ++
    either (Look.sign "...") (tokens 3)
      (parts.pattern ++ optional (Look.sign ":")
        (token ++ either (Look.sign "...") (tokens 3) (parts.type true)))

def function : Phrase :=
  tokens 2 ++ parameters parts ++ inside (list (valueParameter parts)) ++
    optional (Look.sign "->") (tokens 2 ++ parts.type true) ++ conditions parts ++
    either (Look.group .brace) (block parts) semicolon

def fields : Phrase :=
  choice [
    (Look.group .brace, inside (list (attributes parts ++ visibility ++ tokens 2 ++
      parts.type true))),
    (Look.group .paren, inside (list (attributes parts ++ visibility ++ parts.type true)))] nothing

def product : Phrase :=
  tokens 2 ++ parameters parts ++ conditions parts ++ fields parts ++ conditions parts ++
    optional (Look.sign ";") token

def variant : Phrase :=
  attributes parts ++ visibility ++ token ++ fields parts ++ defaultTo (parts.expression true)

def enumeration : Phrase :=
  tokens 2 ++ parameters parts ++ conditions parts ++ inside (list (variant parts))

def members : Phrase :=
  inside (attributes parts ++ repeatUntil List.isEmpty parts.declaration)

def trait : Phrase :=
  tokens 2 ++ parameters parts ++ colonBounds parts ++ defaultTo (bounds parts) ++
    conditions parts ++ either (Look.group .brace) (members parts) semicolon

/-- Angle brackets with parameters come, and not those of a path. -/
def parametersCome : Look := fun tokens =>
  Look.sign "<" tokens &&
    (Look.later 1 (Look.any [Look.signs [">", "#"], Look.word "const"]) tokens ||
      Look.later 1 Look.name tokens &&
        Look.later 2 (Look.signs [":", ",", ">", "="]) tokens &&
        !Look.later 2 (Look.sign "::") tokens ||
      Look.later 1 Look.lifetime tokens && Look.later 3 (Look.signs [":", ",", ">", "="]) tokens)

def implementation : Phrase :=
  token ++ optional parametersCome (parameters parts) ++ optional (Look.word "const") token ++
    optional (Look.sign "!") token ++ parts.type true ++
    optional (Look.word "for") (token ++ parts.type true) ++ conditions parts ++ members parts

def typeName : Phrase :=
  tokens 2 ++ parameters parts ++ colonBounds parts ++ conditions parts ++
    defaultTo (parts.type true) ++ conditions parts ++ semicolon

def namedConstant : Phrase :=
  token ++ optional (Look.word "mut") token ++ token ++ parameters parts ++ sign ":" ++
    parts.type true ++ defaultTo (parts.expression true) ++ conditions parts ++ semicolon

/-- The tokens up to a semicolon or braces, as they are. -/
def plain : Phrase :=
  repeatUntil (Look.any [List.isEmpty, Look.sign ";", Look.group .brace]) token ++ token

def linkageComes (next : Look) : Look := fun tokens =>
  Look.word "extern" tokens &&
    next (if Look.later 1 Look.literal tokens then tokens.drop 2 else tokens.drop 1)

def linkage : Phrase := token ++ optional Look.literal token

/-- A word before that of a declaration comes. -/
def modifierComes : Look := fun tokens =>
  let next := Look.later 1
  Look.words ["default", "async", "unsafe", "safe", "auto"] tokens && next Look.name tokens ||
    Look.word "const" tokens && next (Look.words ["fn", "unsafe", "async", "extern"]) tokens

/-- What stands before the word of a declaration. -/
def modifiers : Phrase :=
  visibility ++ repeatWhile modifierComes token ++
    optional (linkageComes (Look.word "fn")) linkage

def declaration : Phrase :=
  attributes parts ++ modifiers ++
    choice [
      (Look.word "fn", function parts),
      (Look.words ["struct", "union"], product parts),
      (Look.word "enum", enumeration parts),
      (Look.word "trait", trait parts),
      (Look.word "impl", implementation parts),
      (Look.word "type", typeName parts),
      (Look.words ["const", "static"], namedConstant parts),
      (Look.word "mod", tokens 2 ++ either (Look.group .brace) (members parts) semicolon),
      (linkageComes (Look.group .brace), linkage ++ members parts),
      (Look.word "use", repeatUntil (Look.sign ";") token ++ token)]
      plain

end

end Slotform.Derive.Grammar
