import Slotform.Derive.Grammar.Path

namespace Slotform.Derive.Grammar

open Phrase

section

variable (parts : Parts)

/-- What a function type or trait takes and gives. -/
def callable : Phrase :=
  inside (list (parts.type true)) ++ optional (Look.sign "->") (tokens 2 ++ parts.type false)

/-- Brackets after a path come, perhaps after a separator, which is left out. -/
def callableComes : Look := fun tokens =>
  Look.group .paren tokens || Look.sign "::" tokens && Look.later 2 (Look.group .paren) tokens

def namedType : Phrase :=
  path parts false ++
    choice [
      (callableComes, dropped (optional (Look.sign "::") (tokens 2)) ++ callable parts),
      (invocationComes, tokens 2)] nothing

/-- A list of parameters that something is for all of. -/
def forAll : Phrase := word "for" ++ angled (parameter parts)

def bound : Phrase :=
  choice [
    (Look.lifetime, lifetime),
    (Look.word "use", token ++ angled captured),
    (Look.group .paren, inside (parts.type true))]
    (optional (Look.sign "?") token ++ optional (Look.sign "~") (tokens 2) ++
      optional (Look.words ["const", "async"]) token ++
      optional (Look.word "for") (forAll parts) ++ optional (Look.sign "?") token ++
      namedType parts)

/-- Further bounds, each after a plus sign; at most so many. -/
def furtherBounds : Nat → Phrase
  | 0 => nothing
  | count + 1 => do
    if Look.sign "+" (← get) then
      let first ← token ++ optional startsBound (bound parts)
      let more ← furtherBounds count
      return first ++ more
    else return []

def sumRest (sums : Bool) : Phrase := do
  if sums then furtherBounds parts (← get).length else return []

/-- The parameter of a function type: a type, perhaps with a name, or three points. -/
def unnamedParameter : Phrase :=
  attributes parts ++
    optional (fun tokens => Look.name tokens && Look.later 1 (Look.sign ":") tokens &&
      !Look.later 1 (Look.sign "::") tokens) (tokens 2) ++
    either (Look.sign "...") (tokens 3) (parts.type true)

def functionType : Phrase :=
  repeatUntil (Look.word "fn") token ++ token ++ inside (list (unnamedParameter parts)) ++
    optional (Look.sign "->") (tokens 2 ++ parts.type false)

def type (sums : Bool) : Phrase :=
  choice [
    (Look.word "for", forAll parts ++ parts.type sums),
    (Look.words ["fn", "unsafe", "extern"], functionType parts),
    (Look.words ["dyn", "impl"],
      token ++ optional (Look.sign "*") token ++ bound parts ++ sumRest parts sums),
    (Look.group .paren, inside (list (parts.type true)) ++ sumRest parts sums),
    (Look.group .bracket,
      inside (parts.type true ++ optional (Look.sign ";") (token ++ parts.expression true))),
    (Look.sign "*", tokens 2 ++ parts.type false),
    (Look.sign "&", token ++ optional Look.lifetime lifetime ++
      optional (Look.word "mut") token ++ parts.type false),
    (Look.sign "!", token),
    (Look.any [Look.lifetime, Look.signs ["?", "~"], Look.words ["use", "const", "async"]],
      bound parts ++ sumRest parts sums)]
    (namedType parts ++ sumRest parts sums)

end

end Slotform.Derive.Grammar
