import Slotform.Derive.Grammar.Declaration
import Slotform.Derive.Grammar.Expression
import Slotform.Derive.Grammar.Type

namespace Slotform.Derive

namespace Grammar

open Phrase

section

variable (parts : Parts)

def startsDeclaration : Look := fun tokens =>
  let next := Look.later 1
  let functions := Look.words ["fn", "unsafe", "extern"]
  Look.words ["pub", "extern", "use", "fn", "mod", "type", "struct", "enum", "trait",
      "impl"] tokens ||
    Look.words ["macro", "union", "auto", "default"] tokens && next Look.name tokens ||
    Look.words ["static", "const"] tokens && next Look.name tokens &&
      !next (Look.words ["static", "async", "move"]) tokens ||
    Look.word "const" tokens && next (Look.word "async") tokens && Look.later 2 functions tokens ||
    Look.word "async" tokens && next functions tokens ||
    Look.word "unsafe" tokens && !next (Look.group .brace) tokens ||
    Look.name tokens && next invocationComes tokens && Look.later 2 Look.name tokens

/-- An invocation with braces stands here as a statement. -/
def startsInvocation : Look := fun tokens =>
  let rest := tokens.dropWhile fun t => Look.name [t] || Look.sign ":" [t]
  Look.name tokens && invocationComes rest && Look.later 1 (Look.group .brace) rest &&
    !Look.later 2 (Look.sign "?") rest &&
    (!Look.later 2 (Look.sign ".") rest || Look.later 2 (Look.sign "..") rest)

def binding : Phrase :=
  token ++ alternatives parts ++ optional (Look.sign ":") (token ++ parts.type true) ++
    defaultTo (parts.expression true) ++
    optional (Look.word "else") (token ++ block parts) ++ sign ";"

def statement : Phrase :=
  attributes parts ++
    choice [
      (Look.sign ";", token),
      (Look.word "let", binding parts),
      (startsInvocation, repeatUntil (Look.group .brace) token ++ token ++
        optional (Look.sign ";") token),
      (startsDeclaration, parts.declaration)]
      (parts.early ++ optional (Look.sign ";") token)

def statements : Phrase := repeatUntil List.isEmpty (statement parts)

end

/-- A phrase that is not looked into before there are tokens for it. -/
def delayed (phrase : Unit → Phrase) : Phrase := fun tokens => phrase () tokens

/-- The phrases with at most so much nesting in them. -/
def nested : Nat → Parts
  | 0 => {
    type := fun _ => failure
    pattern := failure
    expression := fun _ => failure
    early := failure
    statements := failure
    declaration := failure }
  | depth + 1 =>
    let parts := nested depth
    { type := fun sums => delayed fun _ => type parts sums
      pattern := delayed fun _ => pattern parts
      expression := fun braces => delayed fun _ => expression parts braces
      early := delayed fun _ => early parts
      statements := delayed fun _ => statements parts
      declaration := delayed fun _ => declaration parts }

/-- The phrases that some tokens may consist of. Those nested in a phrase come after a word of it
or in brackets, and in brackets there may be two without a word between: a statement and the
expression that it is. So twice the number of words is deep enough. -/
def within (tokens : List Token) : Parts := nested (2 * (Token.wordsOf tokens).length)

end Grammar

end Slotform.Derive
