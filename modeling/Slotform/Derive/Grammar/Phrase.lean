import Slotform.Derive.Token

/-!
Phrases of Rust source text. A phrase takes the tokens it consists of off the front and gives them
in canonical form, which is how a printer writes what was read. Phrases follow one another by `++`.
-/

namespace Slotform.Derive

/-- Takes tokens off the front; fails where there is not what it takes. -/
abbrev Scan := StateT (List Token) Option

/-- A scan that gives what it took in canonical form. -/
abbrev Phrase := Scan (List Token)

instance : Append Phrase := ⟨fun first second => do return (← first) ++ (← second)⟩

/-- A test of the tokens that come next. -/
abbrev Look := List Token → Bool

namespace Look

def any (looks : List Look) : Look := fun tokens => looks.any (· tokens)

/-- The test does not hold. -/
def no (look : Look) : Look := fun tokens => !look tokens

/-- The test holds further on. -/
def later (skipped : Nat) (look : Look) : Look := fun tokens => look (tokens.drop skipped)

/-- The characters of a sign, without blanks between them. -/
def signChars : List Char → Look
  | [], _ => true
  | [c], token :: _ => token.isPunct c
  | c :: more, token :: rest => token.isJoint c && signChars more rest
  | _, [] => false

/-- A sign of one or more punctuation characters. -/
def sign (chars : String) : Look := signChars chars.toList

def signs (all : List String) : Look := any (all.map sign)

def word (name : String) : Look
  | token :: _ => token.isIdent name
  | [] => false

def words (names : List String) : Look := any (names.map word)

def name : Look
  | .ident _ :: _ => true
  | _ => false

def literal : Look
  | .literal _ :: _ => true
  | _ => false

def group (delimiter : Delimiter) : Look
  | .group d _ :: _ => d = delimiter
  | _ => false

/-- A lifetime, which is a quote and a word. -/
def lifetime : Look := sign "'"

def signedLiteral : Look := fun tokens =>
  literal tokens || sign "-" tokens && later 1 literal tokens

end Look

namespace Phrase

/-- Nothing. -/
def nothing : Phrase := pure []

def token : Phrase := do
  match ← get with
  | first :: rest =>
    set rest
    return [first]
  | [] => failure

def tokens : Nat → Phrase
  | 0 => nothing
  | count + 1 => token ++ tokens count

/-- A sign. -/
def sign (chars : String) : Phrase := do
  if Look.sign chars (← get) then tokens chars.length else failure

def word (name : String) : Phrase := do
  if Look.word name (← get) then token else failure

/-- The first phrase if the test holds, and the second if it does not. -/
def either (look : Look) (first second : Phrase) : Phrase := do
  if look (← get) then first else second

def optional (look : Look) (phrase : Phrase) : Phrase := either look phrase nothing

/-- The phrase of the first test that holds, or the last phrase. -/
def choice (cases : List (Look × Phrase)) (other : Phrase) : Phrase :=
  cases.foldr (fun (look, phrase) rest => either look phrase rest) other

/-- At most so many repetitions, until the test holds. -/
def repetitions (stop : Look) (phrase : Phrase) : Nat → Phrase
  | 0 => nothing
  | bound + 1 => do
    if stop (← get) then return []
    else
      let first ← phrase
      let more ← repetitions stop phrase bound
      return first ++ more

/-- A phrase again and again until the test holds. Every repetition takes tokens, so that there
are no more of them than tokens. -/
def repeatUntil (stop : Look) (phrase : Phrase) : Phrase := do
  repetitions stop phrase (← get).length

/-- A phrase again and again as long as the test holds. -/
def repeatWhile (look : Look) (phrase : Phrase) : Phrase := repeatUntil (Look.no look) phrase

/-- A phrase that is left out. -/
def dropped (phrase : Phrase) : Phrase := do
  let _ ← phrase
  return []

/-- Brackets with a phrase inside, to the end of it. -/
def inside (content : Phrase) : Phrase := do
  match ← get with
  | .group delimiter inner :: rest =>
    let (inner, []) ← content.run inner | failure
    set rest
    return [.group delimiter inner]
  | _ => failure

def comma : Phrase := optional (Look.sign ",") token

/-- A phrase again and again, with commas between and perhaps after, to the end of the tokens. -/
def list (phrase : Phrase) : Phrase := repeatUntil List.isEmpty (phrase ++ comma)

/-- A lifetime. -/
def lifetime : Phrase := tokens 2

def signedLiteral : Phrase := optional (Look.sign "-") token ++ token

end Phrase

end Slotform.Derive
