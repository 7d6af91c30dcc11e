import Slotform.Derive.Grammar.Phrase
import Slotform.Derive.Literal

namespace Slotform.Derive

/-- The phrases that other phrases contain. They may be as deeply nested as brackets and signs
go, so that each phrase is defined over those one level further in. -/
structure Parts where
  /-- A type, which may be a sum of bounds or not. -/
  type (sums : Bool) : Phrase
  pattern : Phrase
  /-- An expression, in which braces after a path belong to it or not. -/
  expression (braces : Bool) : Phrase
  /-- An expression that ends with the block it starts with, if it starts with one. -/
  early : Phrase
  /-- What stands in a block. -/
  statements : Phrase
  /-- A declaration of something, like a function. -/
  declaration : Phrase

namespace Grammar

open Phrase

/-- One entry between angle brackets. -/
structure Entry where
  isLifetime : Bool
  tokens : List Token
  comma : List Token

def Entry.all (entry : Entry) : List Token := entry.tokens ++ entry.comma

/-- The entries with lifetimes first, and a comma after these if there is none. -/
def lifetimesFirst (entries : List Entry) : List Token :=
  let (lifetimes, others) := entries.partition (·.isLifetime)
  let between := if others.isEmpty || lifetimes.getLast?.all (!·.comma.isEmpty) then []
    else [.punct ',' false]
  lifetimes.flatMap Entry.all ++ between ++ others.flatMap Entry.all

/-- The entries up to the closing angle bracket. -/
def entries (entry : Scan (Bool × List Token)) : Nat → Scan (List Entry)
  | 0 => return []
  | bound + 1 => do
    if Look.sign ">" (← get) then return []
    else
      let (isLifetime, tokens) ← entry
      let comma ← comma
      let more ← entries entry bound
      return ⟨isLifetime, tokens, comma⟩ :: more

def angled (entry : Scan (Bool × List Token)) : Phrase :=
  sign "<" ++ (do return lifetimesFirst (← entries entry (← get).length)) ++ sign ">"

section

variable (parts : Parts)

/-- What stands in the brackets of an attribute: a path, and perhaps a value for it. -/
def attributeContent : Phrase :=
  repeatWhile (Look.any [Look.name, Look.sign ":"]) token ++
    either (Look.sign "=") (token ++ parts.expression true) (repeatUntil List.isEmpty token)

/-- Attributes, of what follows them or of what they stand in. -/
def attributes : Phrase :=
  repeatWhile (Look.sign "#")
    (token ++ optional (Look.sign "!") token ++ inside (attributeContent parts))

def block : Phrase := inside parts.statements

def constant : Phrase :=
  choice [(Look.signedLiteral, signedLiteral), (Look.group .brace, block parts)] (parts.type true)

def startsBound : Look := fun tokens =>
  Look.any [Look.name, Look.lifetime, Look.group .paren, Look.signs ["?", "~", "::"]] tokens &&
    !Look.word "where" tokens

/-- Bounds with plus signs between them, if there are any. -/
def bounds : Phrase := optional startsBound (parts.type true)

/-- A colon with bounds after it. A colon before none is left out. -/
def colonBounds : Phrase := do
  if Look.sign ":" (← get) then
    let colon ← token
    let bounds ← bounds parts
    return if bounds.isEmpty then [] else colon ++ bounds
  else return []

/-- What gives a name a value or a type by default. -/
def defaultTo (phrase : Phrase) : Phrase := optional (Look.sign "=") (token ++ phrase)

/-- A declared parameter: a lifetime, a constant or a type. -/
def parameter : Scan (Bool × List Token) := do
  let first ← attributes parts
  let tokens ← get
  let rest ← choice [
      (Look.lifetime, lifetime ++ colonBounds parts),
      (Look.word "const",
        Phrase.tokens 3 ++ parts.type true ++ defaultTo (constant parts))]
    (token ++ colonBounds parts ++ defaultTo (parts.type true))
  return (Look.lifetime tokens, first ++ rest)

/-- An argument: a lifetime, a constant, a type, or what is said of a member by its name. -/
def argument : Scan (Bool × List Token) := do
  let tokens ← get
  if Look.lifetime tokens && !Look.later 2 (Look.sign "+") tokens then return (true, ← lifetime)
  else
    let rest ← choice [
        (Look.signedLiteral, signedLiteral),
        (Look.group .brace, block parts)]
      (parts.type true ++ defaultTo (constant parts) ++
        optional (Look.sign ":") (token ++ bounds parts))
    return (false, rest)

/-- A lifetime or a name that is captured. -/
def captured : Scan (Bool × List Token) := do
  if Look.lifetime (← get) then return (true, ← lifetime) else return (false, ← token)

/-- A path separator with an angle bracket after it comes. -/
def turbofishComes : Look := fun tokens =>
  Look.sign "::" tokens && Look.later 2 (Look.sign "<") tokens

/-- The arguments after a name in an expression. -/
def turbofish : Phrase := optional turbofishComes (tokens 2 ++ angled (argument parts))

/-- A name in a path with its arguments. In an expression a separator stands before these. -/
def segment (inExpression : Bool) : Phrase :=
  either (Look.words ["self", "super", "crate"]) token
    (token ++ either (fun tokens => !inExpression && Look.sign "<" tokens && !Look.sign "<=" tokens)
      (angled (argument parts)) (turbofish parts))

/-- A type in angle brackets, perhaps as some trait, before a path. -/
def qualifier : Phrase :=
  sign "<" ++ parts.type true ++
    optional (Look.word "as") (token ++ parts.type false) ++ sign ">"

/-- A separator that has no brackets after it comes. -/
def separatorComes : Look := fun tokens =>
  Look.sign "::" tokens && !Look.later 2 (Look.group .paren) tokens

def path (inExpression : Bool) : Phrase :=
  optional (Look.sign "<") (qualifier parts) ++ optional (Look.sign "::") (tokens 2) ++
    segment parts inExpression ++
    repeatWhile separatorComes (tokens 2 ++ segment parts inExpression)

def startsPath : Look := Look.any [Look.name, Look.sign "<", Look.sign "::"]

def invocationComes : Look := fun tokens => Look.sign "!" tokens && !Look.sign "!=" tokens

end

end Grammar

end Slotform.Derive
