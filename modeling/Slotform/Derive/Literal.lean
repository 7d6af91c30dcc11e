import Slotform.Text.Quoted

namespace Slotform.Derive.Literal

/-- The value of a digit in bases up to sixteen. -/
def digit? (base : Nat) (c : Char) : Option Nat :=
  let value :=
    if c.isDigit then some (c.toNat - 48)
    else if 'a' ≤ c ∧ c ≤ 'f' then some (c.toNat - 87)
    else if 'A' ≤ c ∧ c ≤ 'F' then some (c.toNat - 55)
    else none
  value.filter fun v => v < max base 10 || base = 16

/-- The exponent of a decimal number starts here, so that the number is no integer. -/
def isExponent : List Char → Bool
  | e :: rest =>
    (e = 'e' || e = 'E') &&
      match rest.dropWhile (· = '_') with
      | c :: _ => c.isDigit || c = '+' || c = '-'
      | [] => false
  | [] => false

/-- The number of a run of digits with underscores among them, and the suffix after it. -/
def digits (base : Nat) (found : Option Nat) : List Char → Option Nat
  | [] => found
  | c :: rest =>
    if c = '_' then digits base found rest
    else if base = 10 ∧ (c = '.' ∨ isExponent (c :: rest)) then none
    else
      match digit? base c with
      | some d => if d < base then digits base (some (found.getD 0 * base + d)) rest else none
      | none => found

/-- The number that an integer literal denotes, whatever its suffix. -/
def integer? (literal : List Char) : Option Nat :=
  match literal with
  | '0' :: 'x' :: rest => digits 16 none rest
  | '0' :: 'o' :: rest => digits 8 none rest
  | '0' :: 'b' :: rest => digits 2 none rest
  | c :: _ => if c.isDigit then digits 10 none literal else none
  | [] => none

/-- A literal that a minus sign may precede. -/
def isNumber (literal : List Char) : Bool := (literal.headD ' ').isDigit

/-- White space that a backslash at the end of a line skips. -/
def isWhite (c : Char) : Bool := c = ' ' || c = '\t' || c = '\n' || c = '\r'

/-- The number of hexadecimal digits with underscores among them. -/
def hexNumber (text : List Char) : Nat :=
  text.foldl (fun n c => (digit? 16 c).elim n (n * 16 + ·)) 0

/-- The text between the quotes of a string literal. The first argument bounds the number of
characters and escapes. -/
def unescape : Nat → List Char → Option (List Char)
  | 0, _ => none
  | bound + 1, text =>
    match text with
    | [] => none
    | '"' :: _ => some []
    | '\r' :: '\n' :: rest => (unescape bound rest).map ('\n' :: ·)
    | '\\' :: 'x' :: a :: b :: rest =>
      (unescape bound rest).map (Char.ofNat (hexNumber [a, b]) :: ·)
    | '\\' :: 'u' :: '\x7b' :: rest =>
      let code := rest.takeWhile (· ≠ '\x7d')
      (unescape bound (rest.drop (code.length + 1))).map (Char.ofNat (hexNumber code) :: ·)
    | '\\' :: c :: rest =>
      if c = 'n' then (unescape bound rest).map ('\n' :: ·)
      else if c = 'r' then (unescape bound rest).map ('\r' :: ·)
      else if c = 't' then (unescape bound rest).map ('\t' :: ·)
      else if c = '0' then (unescape bound rest).map (Char.ofNat 0 :: ·)
      else if c = '\n' ∨ c = '\r' then unescape bound (rest.dropWhile isWhite)
      else (unescape bound rest).map (c :: ·)
    | c :: rest => (unescape bound rest).map (c :: ·)

/-- The text up to a quote with the given hashes after it. -/
def rawBody (hashes : List Char) : List Char → List Char
  | [] => []
  | c :: rest => if c = '"' ∧ hashes.isPrefixOf rest then [] else c :: rawBody hashes rest

def string? (literal : List Char) : Option String :=
  match literal with
  | '"' :: rest => (unescape (rest.length + 1) rest).map String.ofList
  | 'r' :: rest =>
    let hashes := rest.takeWhile (· = '#')
    match rest.drop hashes.length with
    | '"' :: body => some (String.ofList (rawBody hashes body))
    | _ => none
  | _ => none

/-- The characters of a text in a literal. A null character takes a longer escape before an octal
digit. -/
def escape : List Char → List Char
  | [] => []
  | c :: rest =>
    if c = Char.ofNat 0 ∧ '0' ≤ rest.headD ' ' ∧ rest.headD ' ' ≤ '7' then
      ['\\', 'x', '0', '0'] ++ escape rest
    else Text.quoteChar '"' c ++ escape rest

def ofString (text : String) : List Char := '"' :: escape text.toList ++ ['"']

def ofWord (n : Nat) : List Char := Nat.toDigits 10 n ++ "u32".toList

end Slotform.Derive.Literal
