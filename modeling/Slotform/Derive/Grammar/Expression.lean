import Slotform.Derive.Grammar.Pattern

namespace Slotform.Derive.Grammar

open Phrase

/-- Operators between operands. Longer ones come first, so that the first that fits is meant. -/
def operators : List String :=
  ["<<=", ">>=", "..=", "&&", "||", "<<", ">>", "==", "<=", "!=", ">=", "+=", "-=", "*=", "/=", "%=",
    "^=", "&=", "|=", "+", "-", "*", "/", "%", "^", "&", "|", "<", ">", "="]

/-- The text of a number split at its point, which is how two members run together. -/
def splitPoint (text : List Char) : List Char × Option (List Char) :=
  match text.dropWhile (· ≠ '.') with
  | _ :: rest => (text.takeWhile (· ≠ '.'), some rest)
  | [] => (text, none)

section

variable (parts : Parts)

/-- A block of its own starts here: one that ends a statement. -/
def startsBlock : Look := fun tokens =>
  Look.any [Look.words ["if", "while", "loop", "match"], Look.group .brace, Look.lifetime] tokens ||
    Look.word "for" tokens && !Look.later 1 (Look.sign "<") tokens ||
    Look.words ["unsafe", "try", "const"] tokens && Look.later 1 (Look.group .brace) tokens

/-- An operand starts here; braces start one or not. -/
def startsOperand (braces : Bool) : Look := fun tokens =>
  Look.any [Look.literal, Look.lifetime, Look.group .paren, Look.group .bracket,
    Look.signs ["..", "::", "#"]] tokens ||
    Look.name tokens && !Look.words ["as", "else", "in"] tokens ||
    braces && Look.group .brace tokens ||
    Look.signs ["!", "-", "*", "|", "&", "<"] tokens &&
      !Look.signs ["!=", "-=", "->", "*=", "|=", "&=", "<=", "<<="] tokens

/-- A closure starts here. -/
def startsClosure : Look := fun tokens =>
  let marks := ["static", "async", "move", "const"]
  let rest := tokens.dropWhile fun t => Look.words marks [t]
  Look.sign "|" rest || Look.word "for" rest && Look.later 1 (Look.sign "<") rest

def closureParameter : Phrase :=
  attributes parts ++ parts.pattern ++ optional (Look.sign ":") (token ++ parts.type true) ++ comma

def closureHead : Phrase :=
  optional (Look.word "for") (token ++ angled (parameter parts)) ++
    repeatWhile Look.name token ++
    sign "|" ++ repeatUntil (Look.sign "|") (closureParameter parts) ++ sign "|" ++
    optional (Look.sign "->") (tokens 2 ++ parts.type true)

/-- The arm of a choice: a pattern, perhaps a condition, and an expression. -/
def arm : Phrase :=
  attributes parts ++ alternatives parts ++
    optional (Look.word "if") (token ++ parts.expression true) ++ sign "=>" ++ parts.early ++ comma

/-- A condition and a block, and other ones after `else`; at most so many. -/
def branches : Nat → Phrase
  | 0 => nothing
  | count + 1 => do
    if Look.word "if" (← get) then
      let first ← token ++ parts.expression false ++ block parts
      let more ← optional (Look.word "else") (token ++ branches count)
      return first ++ more
    else block parts

/-- A block of its own, perhaps after a label. -/
def ownBlock : Phrase :=
  optional Look.lifetime (lifetime ++ sign ":") ++
    choice [
      (Look.word "if", do branches parts (← get).length),
      (Look.word "while", token ++ parts.expression false ++ block parts),
      (Look.word "for",
        token ++ alternatives parts ++ word "in" ++ parts.expression false ++ block parts),
      (Look.word "match", token ++ parts.expression false ++
        inside (attributes parts ++ repeatUntil List.isEmpty (arm parts)))]
      (repeatWhile Look.name token ++ block parts)

def memberValue : Phrase :=
  attributes parts ++
    either (Look.sign "..") (tokens 2 ++ optional (startsOperand true) (parts.expression true))
      (member ++ optional (Look.sign ":") (token ++ parts.expression true))

/-- A path, and what may belong to it. -/
def named (braces : Bool) : Phrase :=
  path parts true ++
    choice [
      (invocationComes, tokens 2),
      (fun tokens => braces && Look.group .brace tokens, inside (list (memberValue parts)))] nothing

/-- Expressions in brackets, with commas or a semicolon between. -/
def elements : Phrase :=
  inside (list (parts.expression true ++
    optional (Look.sign ";") (token ++ parts.expression true)))

/-- A name or number of a member. Two numbers with the point between may be one literal, and so
may a number with the point after it. -/
def selected : Nat → Phrase
  | 0 => nothing
  | count + 1 => do
    match ← get with
    | .literal text :: rest =>
      set rest
      let point := Token.punct '.' false
      match splitPoint text with
      | (first, none) => return [← index first]
      | (first, some []) => return [← index first, point] ++ (← selected count)
      | (first, some second) => return [← index first, point, ← index second]
    | _ => token ++ turbofish parts

/-- An operator after an operand comes. -/
def suffixComes : Look := fun tokens =>
  Look.any [Look.sign "?", Look.word "as", Look.group .paren, Look.group .bracket] tokens ||
    Look.sign "." tokens && !Look.sign ".." tokens

/-- An operator after an operand, with what belongs to it. -/
def suffixed : Phrase :=
  choice [
    (Look.sign ".", token ++ (do selected parts (← get).length)),
    (Look.any [Look.group .paren, Look.group .bracket], elements parts),
    (Look.word "as", token ++ parts.type false)]
    token

/-- Something comes that an operand always follows. -/
def leadComes : Look :=
  Look.any [Look.signs ["#", "&", "-", "*", "!", "..="], Look.word "let", startsClosure]

/-- Something that an operand always follows. -/
def lead : Phrase :=
  choice [
    (startsClosure, closureHead parts),
    (Look.sign "#", attributes parts),
    (Look.sign "..=", tokens 3),
    (Look.word "let", token ++ alternatives parts ++ sign "="),
    (Look.sign "&", token ++
      either (fun tokens => Look.word "raw" tokens &&
          Look.later 1 (Look.words ["const", "mut"]) tokens) (tokens 2)
        (optional (Look.word "mut") token))]
    token

/-- Something comes that an operand may follow: the points of a range, or a word that leaves. -/
def openingComes : Look :=
  Look.any [Look.sign "..", Look.words ["return", "yield", "break", "become"]]

/-- Something that an operand may follow. -/
def opening : Phrase :=
  either (Look.sign "..") (tokens 2)
    (token ++ optional (fun tokens =>
      Look.lifetime tokens && !Look.later 2 (Look.sign ":") tokens) lifetime)

def operand (braces : Bool) : Phrase :=
  choice [
    (Look.literal, token),
    (Look.any [Look.group .paren, Look.group .bracket], elements parts),
    (Look.word "continue", token ++ optional Look.lifetime lifetime),
    (startsBlock, ownBlock parts),
    (Look.word "async", repeatWhile Look.name token ++ block parts)]
    (named parts braces)

def operator : Phrase := do
  let tokens ← get
  match operators.find? (Look.sign · tokens) with
  | some chars => Phrase.tokens chars.length
  | none => failure

def operatorComes : Look := fun tokens => Look.signs operators tokens && !Look.sign "=>" tokens

/-- A row of operands and operators, in at most so many steps. An operand is due at its start and
after some operators. -/
def row (braces : Bool) : Nat → Bool → Phrase
  | 0, _ => nothing
  | count + 1, due => do
    let tokens ← get
    let step (first : Phrase) (due : Look) : Phrase := do
      let first ← first
      let more ← row braces count (due (← get))
      return first ++ more
    if due && leadComes tokens then step (lead parts) fun _ => true
    else if !due && operatorComes tokens then step operator fun _ => true
    else if Look.sign ".." tokens || due && openingComes tokens then
      step opening (startsOperand braces)
    else if due then step (operand parts braces) fun _ => false
    else if suffixComes tokens then step (suffixed parts) fun _ => false
    else return []

/-- A row that takes all it can. -/
def rowFrom (braces due : Bool) : Phrase := do row parts braces ((← get).length + 1) due

def expression (braces : Bool) : Phrase := rowFrom parts braces true

/-- An expression that ends with the block it starts with, unless a member of that is taken. -/
def early : Phrase :=
  attributes parts ++
    either startsBlock
      (ownBlock parts ++ optional (fun tokens => Look.sign "?" tokens ||
        Look.sign "." tokens && !Look.sign ".." tokens) (rowFrom parts true false))
      (expression parts true)

end

end Slotform.Derive.Grammar
