import Slotform.Derive.Grammar.Path

namespace Slotform.Derive.Grammar

open Phrase

section

variable (parts : Parts)

/-- Patterns with bars between and perhaps before them. -/
def alternatives : Phrase :=
  optional (Look.sign "|") token ++ parts.pattern ++
    repeatWhile (Look.sign "|") (token ++ parts.pattern)

def startsEnd : Look := fun tokens =>
  Look.any [Look.signedLiteral, startsPath] tokens && !Look.words ["if", "in"] tokens

def rangeEnd : Phrase :=
  choice [
    (Look.signedLiteral, signedLiteral),
    (Look.word "const", token ++ block parts)]
    (path parts true)

def points : Phrase :=
  choice [
    (Look.sign "...", do
      let _ ← tokens 3
      return [.punct '.' true, .punct '.' true, .punct '=' false]),
    (Look.sign "..=", tokens 3)]
    (tokens 2)

def rangeRest : Phrase := optional (Look.sign "..") (points ++ optional startsEnd (rangeEnd parts))

/-- The number of a member, in decimal whatever its base. -/
def index (text : List Char) : Scan Token := do
  let n ← Literal.integer? text
  return .literal (Nat.toDigits 10 n)

def member : Phrase := do
  match ← get with
  | .literal text :: rest =>
    set rest
    return [← index text]
  | _ => token

/-- A member of a structure pattern: two points, a name to bind, or a member with a pattern. -/
def memberPattern : Phrase :=
  attributes parts ++
    either (Look.sign "..") (tokens 2)
      (repeatWhile (Look.words ["box", "ref", "mut"]) token ++ member ++
        optional (Look.sign ":") (token ++ alternatives parts))

def pathRest : Phrase :=
  choice [
    (invocationComes, tokens 2),
    (Look.group .brace, inside (list (memberPattern parts))),
    (Look.group .paren, inside (list (alternatives parts))),
    (Look.sign "@", token ++ parts.pattern)]
    (rangeRest parts)

def pattern : Phrase :=
  choice [
    (Look.sign "&", token ++ optional Look.lifetime lifetime ++
      optional (Look.word "mut") token ++ parts.pattern),
    (Look.any [Look.group .paren, Look.group .bracket], inside (list (alternatives parts))),
    (Look.sign "..", rangeRest parts),
    (Look.any [Look.signedLiteral, Look.word "const"], rangeEnd parts ++ rangeRest parts),
    (Look.word "box", token ++ parts.pattern),
    (Look.words ["ref", "mut"], repeatWhile (Look.words ["ref", "mut"]) token ++ token ++
      optional (Look.sign "@") (token ++ parts.pattern))]
    (path parts true ++ pathRest parts)

end

end Slotform.Derive.Grammar
