import Slotform.Binary.Basic
import Slotform.Decimal

/-!
Decimal text of floating-point numbers. Among the decimals that read back as a given finite number,
the shortest one has the fewest digits; of two such with equally many digits it is the nearer, and
the larger when both are equally near. All arithmetic is on natural numbers, in units of
`10 ^ -scale`, in which every finite number is whole. Written plainly, a number has its shortest
digits and never an exponent; written for inspection, it has a point or an exponent, and the exponent
form begins below `10 ^ -4` and at `10 ^ 16`. Reading rounds to the nearest number of the format.
-/

namespace Slotform.BinaryFormat

/-- The decimal `digits * 10 ^ place`, in units of `10 ^ -scale`. -/
structure Numeral where
  digits : Nat
  place : Nat
  deriving DecidableEq, Repr

/-- The finite number of a magnitude in units of `10 ^ -scale`. -/
def decimalUnits (f : BinaryFormat) (magnitude : Nat) : Nat :=
  f.units magnitude * Nat.pow 5 f.scale

/-- A decimal reads back as the magnitude. -/
def readsBack (f : BinaryFormat) (magnitude digits place : Nat) : Bool :=
  f.round (digits * Nat.pow 10 place) (Nat.pow 10 f.scale) = magnitude

/-- The decimal at a place that reads back, if one of the two around the number does. -/
def decimalAt (f : BinaryFormat) (magnitude place : Nat) : Option Nat :=
  let exact := f.decimalUnits magnitude
  let step := Nat.pow 10 place
  let below := exact / step
  let above := below + 1
  match f.readsBack magnitude below place, f.readsBack magnitude above place with
  | true, true => some (if step ≤ 2 * (exact % step) then above else below)
  | true, false => some below
  | false, true => some above
  | false, false => none

/-- Looks for a decimal at this place and the places under it. The lowest place holds the number
itself. -/
def shortestFrom (f : BinaryFormat) (magnitude : Nat) : Nat → Numeral
  | 0 => ⟨f.decimalUnits magnitude, 0⟩
  | place + 1 =>
    match f.decimalAt magnitude (place + 1) with
    | some digits => ⟨digits, place + 1⟩
    | none => f.shortestFrom magnitude place

/-- The shortest decimal of a positive finite number. -/
def shortest (f : BinaryFormat) (magnitude : Nat) : Numeral :=
  f.shortestFrom magnitude (Nat.toDigits 10 (f.decimalUnits magnitude)).length

/-- Digits with a decimal point before the last `fraction` of them. -/
def pointed (digits : List Char) (fraction : Nat) : List Char :=
  if fraction < digits.length then
    digits.take (digits.length - fraction) ++ '.' :: digits.drop (digits.length - fraction)
  else '0' :: '.' :: (List.replicate (fraction - digits.length) '0' ++ digits)

/-- A decimal without an exponent; a whole number has no point. -/
def Numeral.plain (f : BinaryFormat) (d : Numeral) : List Char :=
  if f.scale ≤ d.place then
    Decimal.digits d.digits ++ List.replicate (d.place - f.scale) '0'
  else pointed (Decimal.digits d.digits) (f.scale - d.place)

/-- A decimal as one digit, further digits after a point, and an exponent. -/
def Numeral.scientific (digits : List Char) (exponent : Int) : List Char :=
  let mantissa := match digits with
    | first :: second :: rest => first :: '.' :: second :: rest
    | _ => digits
  mantissa ++ 'e' :: Decimal.signed exponent

/-- A decimal for inspection: never mistaken for an integer. -/
def Numeral.inspected (f : BinaryFormat) (d : Numeral) : List Char :=
  let digits := Decimal.digits d.digits
  let exponent : Int := (digits.length : Int) + d.place - f.scale - 1
  if exponent < -4 ∨ 16 ≤ exponent then Numeral.scientific digits exponent
  else if f.scale ≤ d.place then d.plain f ++ ['.', '0']
  else d.plain f

/-- The magnitude nearest to `digits * 10 ^ exponent`. The guards answer for exponents that are
far outside the format's range without forming their powers. -/
def ofDecimal (f : BinaryFormat) (digits : Nat) (exponent : Int) : Nat :=
  if digits = 0 then 0
  else
    let top : Int := Decimal.digitCount digits + exponent
    let reach : Int := f.exponents
    if reach < top then f.infinity
    else if top < -reach then 0
    else if 0 ≤ exponent then f.round (digits * Nat.pow 10 exponent.toNat) 1
    else f.round digits (Nat.pow 10 (-exponent).toNat)

/-- Reads what may follow the digits: nothing, or an exponent with an optional sign. -/
def readExponent : List Char → Option Int
  | [] => some 0
  | mark :: rest =>
    if mark = 'e' ∨ mark = 'E' then
      match rest with
      | '-' :: digits => (Decimal.readDigits digits).map fun n => -(n : Int)
      | '+' :: digits => (Decimal.readDigits digits).map Int.ofNat
      | digits => (Decimal.readDigits digits).map Int.ofNat
    else none

/-- Splits a text into its leading digits, the digits after a point, and what follows. -/
def splitDigits (text : List Char) : List Char × List Char × List Char :=
  let whole := text.takeWhile Char.isDigit
  match text.dropWhile Char.isDigit with
  | '.' :: rest => (whole, rest.takeWhile Char.isDigit, rest.dropWhile Char.isDigit)
  | rest => (whole, [], rest)

/-- Reads an unsigned text: a decimal, or a word for infinity or for what is not a number, in any
mixture of cases. -/
def readMagnitude (f : BinaryFormat) (text : List Char) : Option Nat :=
  let word := text.map Char.toLower
  if word = "inf".toList ∨ word = "infinity".toList then some f.infinity
  else if word = "nan".toList then some (f.infinity + 1)
  else
    let (whole, fraction, rest) := splitDigits text
    if whole.isEmpty && fraction.isEmpty then none
    else (readExponent rest).map fun exponent =>
      f.ofDecimal (Decimal.value (whole ++ fraction)) (exponent - fraction.length)

end Slotform.BinaryFormat

namespace Slotform.Binary

variable {f : BinaryFormat}

/-- A sign, and zero and the special values as words; other magnitudes as `render` says. -/
private def withSign (x : Binary f) (zero : List Char)
    (render : BinaryFormat.Numeral → List Char) : List Char :=
  if x.isNaN then "NaN".toList
  else
    let body :=
      if x.isInfinite then "inf".toList
      else if x.isZero then zero
      else render (f.shortest x.magnitude)
    if x.negative then '-' :: body else body

/-- The shortest digits, without an exponent. -/
def plain (x : Binary f) : List Char := x.withSign ['0'] (·.plain f)

/-- The shortest digits with a point or an exponent. -/
def inspected (x : Binary f) : List Char := x.withSign ['0', '.', '0'] (·.inspected f)

def read? (text : List Char) : Option (Binary f) :=
  match text with
  | '-' :: rest => (f.readMagnitude rest).map (Binary.mk true)
  | '+' :: rest => (f.readMagnitude rest).map (Binary.mk false)
  | _ => (f.readMagnitude text).map (Binary.mk false)

end Slotform.Binary
