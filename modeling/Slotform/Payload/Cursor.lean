import Slotform.Decimal
import Slotform.Introspection.Error
import Slotform.Payload.Error
import Slotform.Payload.Layout

namespace Slotform

/-- What is left of a text, and how many characters came before it. -/
structure Cursor where
  rest : List Char
  position : Nat
  deriving DecidableEq, Repr

/-- The outcome of a move, and where it leaves the cursor whether it succeeds or not. -/
abbrev Move (α : Type) := Except PayloadError α × Cursor

/-- The outcome of a successful move together with the cursor after it. -/
def Move.require {α : Type} (move : Move α) : Except PayloadError (α × Cursor) :=
  move.1.map fun outcome => (outcome, move.2)

namespace Cursor

def ofText (text : List Char) : Cursor := ⟨text, 0⟩

def atEnd (c : Cursor) : Bool := c.rest.isEmpty

def remaining (c : Cursor) : Nat := c.rest.length

def peek? (c : Cursor) : Option Char := c.rest.head?

def skip (c : Cursor) (n : Nat) : Cursor := ⟨c.rest.drop n, c.position + n⟩

def next (c : Cursor) : Move Char :=
  match c.rest with
  | first :: _ => (.ok first, c.skip 1)
  | [] => (.error (.unexpectedEnd c.position), c)

/-- Takes exactly `n` characters, or none at all. -/
def take (n : Nat) (c : Cursor) : Move (List Char) :=
  let run := c.rest.take n
  if run.length = n then (.ok run, c.skip n)
  else (.error (.unexpectedEnd (c.position + run.length)), c)

def takeWhile (test : Char → Bool) (c : Cursor) : List Char × Cursor :=
  let run := c.rest.takeWhile test
  (run, c.skip run.length)

/-- Takes a possibly empty name. -/
def identifier (c : Cursor) : List Char × Cursor := c.takeWhile isNameChar

def expect (expected : Char) (c : Cursor) : Move Unit :=
  if c.peek? = some expected then (.ok (), c.skip 1)
  else (.error (.malformedHeader c.position (.expectedChar expected c.peek?)), c)

/-- Takes a number that fits into a word. -/
def number (c : Cursor) : Move Nat :=
  let (digits, after) := c.takeWhile Char.isDigit
  if digits.isEmpty then (.error (.malformedHeader c.position .expectedNumber), after)
  else if maxWord < Decimal.value digits then
    (.error (.malformedHeader c.position (.numberTooLarge digits)), after)
  else (.ok (Decimal.value digits), after)

/-- Takes `n` spaces. -/
def blank (n : Nat) (c : Cursor) : Move Unit :=
  match c.take n with
  | (.error e, after) => (.error e, after)
  | (.ok run, after) =>
    let spaces := run.takeWhile (· = ' ')
    if spaces.length < run.length then
      (.error (.malformedPayload (c.position + spaces.length) .expectedPadding), after)
    else (.ok (), after)

/-- Succeeds at the end of the text only. -/
def finish (c : Cursor) : Except PayloadError Unit :=
  if c.atEnd then .ok () else .error (.trailingInput c.remaining)

end Cursor

end Slotform
