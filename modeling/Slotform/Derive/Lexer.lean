import Slotform.Derive.Literal
import Slotform.Derive.Token

namespace Slotform.Derive

/-- A token before brackets are matched. -/
inductive Lexeme where
  | ident (name : List Char)
  | punct (c : Char) (joint : Bool)
  | literal (text : List Char)
  | opening (delimiter : Delimiter)
  | closing (delimiter : Delimiter)

namespace Lexer

/-- Blank characters: Unicode white space and the direction marks. -/
def isBlank (c : Char) : Bool :=
  let n := c.toNat
  (0x09 ≤ n && n ≤ 0x0d) || (0x2000 ≤ n && n ≤ 0x200a) ||
    [0x20, 0x85, 0xa0, 0x1680, 0x200e, 0x200f, 0x2028, 0x2029, 0x202f, 0x205f, 0x3000].contains n

/-- Letters, the underscore, and whatever lies beyond ASCII and is not blank. -/
def isIdentStart (c : Char) : Bool :=
  c.isAlpha || c = '_' || (0x80 ≤ c.toNat && !isBlank c)

def isIdentChar (c : Char) : Bool := isIdentStart c || c.isDigit

def isPunct (c : Char) : Bool := "~!@#$%^&*-=+|;:,<.>/?'".toList.contains c

/-- Punctuation follows, and not a comment. -/
def punctFollows : List Char → Bool
  | '/' :: '/' :: _ => false
  | '/' :: '*' :: _ => false
  | c :: _ => isPunct c
  | [] => false

/-- The name that a literal may carry at its end. -/
def suffix (text : List Char) : List Char × List Char :=
  match text with
  | c :: _ =>
    if isIdentStart c then (text.takeWhile isIdentChar, text.dropWhile isIdentChar) else ([], text)
  | [] => ([], text)

/-- The rest of a quoted literal up to its closing quote, and what follows. -/
def quotedRest (quote : Char) : List Char → Option (List Char × List Char)
  | [] => none
  | '\\' :: c :: rest => (quotedRest quote rest).map fun (body, rest) => ('\\' :: c :: body, rest)
  | c :: rest =>
    if c = quote then some ([c], rest)
    else (quotedRest quote rest).map fun (body, rest) => (c :: body, rest)

/-- The rest of a raw literal up to a quote with its number of hashes, and what follows. -/
def rawRest (hashes : Nat) : List Char → Option (List Char × List Char)
  | [] => none
  | c :: rest =>
    if c = '"' ∧ rest.take hashes = List.replicate hashes '#' then
      some (c :: rest.take hashes, rest.drop hashes)
    else (rawRest hashes rest).map fun (body, rest) => (c :: body, rest)

/-- A literal with the characters before its body, and its suffix. -/
def withSuffix (start : List Char) (scanned : Option (List Char × List Char)) :
    Option (List Lexeme × List Char) :=
  scanned.map fun (body, rest) =>
    let (tail, rest) := suffix rest
    ([.literal (start ++ body ++ tail)], rest)

/-- A literal that starts here with a mark before its quotes, if there is one. -/
def markedLiteral? (text : List Char) : Option (List Lexeme × List Char) :=
  let raw (mark : List Char) (rest : List Char) : Option (List Lexeme × List Char) :=
    let hashes := rest.takeWhile (· = '#')
    match rest.drop hashes.length with
    | '"' :: body => withSuffix (mark ++ hashes ++ ['"']) (rawRest hashes.length body)
    | _ => none
  match text with
  | 'b' :: '\'' :: rest => withSuffix ['b', '\''] (quotedRest '\'' rest)
  | 'b' :: '"' :: rest => withSuffix ['b', '"'] (quotedRest '"' rest)
  | 'c' :: '"' :: rest => withSuffix ['c', '"'] (quotedRest '"' rest)
  | 'b' :: 'r' :: rest => raw ['b', 'r'] rest
  | 'c' :: 'r' :: rest => raw ['c', 'r'] rest
  | 'r' :: rest => raw ['r'] rest
  | _ => none

/-- An identifier, raw or not. -/
def identifier (text : List Char) : Lexeme × List Char :=
  match text with
  | 'r' :: '#' :: rest =>
    match rest.takeWhile isIdentChar with
    | [] => (.ident ['r'], '#' :: rest)
    | name => (.ident ('r' :: '#' :: name), rest.dropWhile isIdentChar)
  | _ => (.ident (text.takeWhile isIdentChar), text.dropWhile isIdentChar)

/-- A digit of a decimal number or a separator of digits. -/
def isDigit (c : Char) : Bool := c.isDigit || c = '_'

/-- The fraction of a decimal number. Two points, or a point before a name, are no fraction. -/
def fraction : List Char → List Char × List Char
  | '.' :: rest =>
    match rest with
    | c :: _ =>
      if c = '.' ∨ isIdentStart c then ([], '.' :: rest)
      else ('.' :: rest.takeWhile isDigit, rest.dropWhile isDigit)
    | [] => (['.'], [])
  | text => ([], text)

/-- The power of an exponent: an optional sign before its digits, separators anywhere. There is
none without a digit, or with two signs. -/
def power (signed valued : Bool) : List Char → Option (List Char × List Char)
  | [] => if valued then some ([], []) else none
  | c :: rest =>
    let next (signed valued : Bool) : Option (List Char × List Char) :=
      (power signed valued rest).map fun (body, rest) => (c :: body, rest)
    if c.isDigit then next signed true
    else if c = '_' then next signed valued
    else if valued then some ([], c :: rest)
    else if (c = '+' ∨ c = '-') ∧ !signed then next true valued
    else none

def exponent : List Char → List Char × List Char
  | e :: rest =>
    if e = 'e' ∨ e = 'E' then
      match power false false rest with
      | some (body, rest) => (e :: body, rest)
      | none => ([], e :: rest)
    else ([], e :: rest)
  | [] => ([], [])

def number (text : List Char) : Lexeme × List Char :=
  let based := match text with
    | '0' :: base :: _ => base = 'x' || base = 'o' || base = 'b'
    | _ => false
  if based then (.literal (text.takeWhile isIdentChar), text.dropWhile isIdentChar)
  else
    let (part, rest) := fraction (text.dropWhile isDigit)
    let (scale, rest) := exponent rest
    (.literal (text.takeWhile isDigit ++ part ++ scale ++ rest.takeWhile isIdentChar),
      rest.dropWhile isIdentChar)

/-- The attribute that a documenting comment stands for: of what follows it, or of what it stands
in. -/
def documentation (inner : Bool) (text : List Char) : List Lexeme :=
  .punct '#' false :: (if inner then [.punct '!' false] else []) ++
    [.opening .bracket, .ident "doc".toList, .punct '=' false,
      .literal (Literal.ofString (String.ofList text)), .closing .bracket]

/-- The text of a line comment, without the end of the line, and what follows it. -/
def lineBody : List Char → List Char × List Char
  | [] => ([], [])
  | '\n' :: rest => ([], '\n' :: rest)
  | '\r' :: '\n' :: rest => ([], '\n' :: rest)
  | c :: rest =>
    let (body, rest) := lineBody rest
    (c :: body, rest)

/-- The text of a block comment, in which other block comments may be open, and what follows. -/
def blockBody : Nat → List Char → Option (List Char × List Char)
  | 0, rest => some ([], rest)
  | _ + 1, [] => none
  | 1, '*' :: '/' :: rest => some ([], rest)
  | depth + 1, '*' :: '/' :: rest =>
    (blockBody depth rest).map fun (body, rest) => ('*' :: '/' :: body, rest)
  | depth + 1, '/' :: '*' :: rest =>
    (blockBody (depth + 2) rest).map fun (body, rest) => ('/' :: '*' :: body, rest)
  | depth + 1, c :: rest => (blockBody (depth + 1) rest).map fun (body, rest) => (c :: body, rest)

/-- What a comment stands for, by its kind, its text, and all that comes after its first two
characters. One mark more makes it document something, two do not. -/
def ofComment (mark : Char) (rest body : List Char) : List Lexeme :=
  match rest with
  | '!' :: _ => documentation true (body.drop 1)
  | first :: rest =>
    if first = mark ∧ rest.head? ≠ some mark then documentation false (body.drop 1) else []
  | [] => []

/-- A comment that starts here, after its first two characters. -/
def comment (line : Bool) (rest : List Char) : Option (List Lexeme × List Char) :=
  if line then
    let (body, after) := lineBody rest
    some (ofComment '/' rest body, after)
  else
    match rest with
    | '*' :: '/' :: after => some ([], after)
    | _ => (blockBody 1 rest).map fun (body, after) => (ofComment '*' rest body, after)

def bracket? (c : Char) : Option Lexeme :=
  match [Delimiter.paren, .bracket, .brace].find? (fun d => d.opening = c || d.closing = c) with
  | some d => some (if d.opening = c then .opening d else .closing d)
  | none => none

/-- The lexemes that start a text, none for blanks, and what follows them. -/
def step (text : List Char) : Option (List Lexeme × List Char) :=
  match text with
  | [] => none
  | '/' :: '/' :: rest => comment true rest
  | '/' :: '*' :: rest => comment false rest
  | '"' :: rest => withSuffix ['"'] (quotedRest '"' rest)
  | '\'' :: '\\' :: rest => withSuffix ['\'', '\\'] ((quotedRest '\'' ('\\' :: rest)).map
      fun (body, rest) => (body.drop 1, rest))
  | '\'' :: c :: '\'' :: rest => withSuffix ['\'', c, '\''] (some ([], rest))
  | '\'' :: rest => some ([.punct '\'' true], rest)
  | c :: rest =>
    if isBlank c then some ([], rest)
    else
      match markedLiteral? text with
      | some found => some found
      | none =>
        if isIdentStart c then
          let (lexeme, rest) := identifier text
          some ([lexeme], rest)
        else if c.isDigit then
          let (lexeme, rest) := number text
          some ([lexeme], rest)
        else
          match bracket? c with
          | some lexeme => some ([lexeme], rest)
          | none => if isPunct c then some ([.punct c (punctFollows rest)], rest) else none

/-- All lexemes of a text. The first argument bounds their number; every step takes characters, so
one more than the length of the text is enough. -/
def lexemes : Nat → List Char → Option (List Lexeme)
  | _, [] => some []
  | 0, _ => none
  | bound + 1, text => do
    let (first, rest) ← step text
    let more ← lexemes bound rest
    some (first ++ more)

/-- Matches brackets: the trees under way stand latest first, as do the groups that are open. -/
def trees (current : List Token) (outer : List (Delimiter × List Token)) :
    List Lexeme → Option (List Token)
  | [] => if outer.isEmpty then some current.reverse else none
  | .ident name :: rest => trees (.ident (String.ofList name) :: current) outer rest
  | .punct c joint :: rest => trees (.punct c joint :: current) outer rest
  | .literal text :: rest => trees (.literal text :: current) outer rest
  | .opening d :: rest => trees [] ((d, current) :: outer) rest
  | .closing d :: rest =>
    match outer with
    | (opened, before) :: outer =>
      if opened = d then trees (.group d current.reverse :: before) outer rest else none
    | [] => none

end Lexer

/-- The token trees of a source text, which may start with a byte order mark. -/
def Token.ofSource? (source : List Char) : Option (List Token) :=
  let source := match source with
    | c :: rest => if c = Char.ofNat 0xfeff then rest else source
    | [] => []
  (Lexer.lexemes (source.length + 1) source).bind (Lexer.trees [] [])

end Slotform.Derive
