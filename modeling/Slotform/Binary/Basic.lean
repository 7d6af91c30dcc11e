namespace Slotform

/-- The widths of the stored fraction and of the exponent field. -/
structure BinaryFormat where
  fractionBits : Nat
  exponentBits : Nat
  deriving DecidableEq, Repr

namespace BinaryFormat

def single : BinaryFormat := ⟨23, 8⟩

def double : BinaryFormat := ⟨52, 11⟩

/-- How many fractions there are for one exponent. -/
def fractions (f : BinaryFormat) : Nat := Nat.pow 2 f.fractionBits

/-- How many exponent fields there are. -/
def exponents (f : BinaryFormat) : Nat := Nat.pow 2 f.exponentBits

/-- The magnitude of infinity: an exponent field of ones over a fraction of zeros. -/
def infinity (f : BinaryFormat) : Nat := (f.exponents - 1) * f.fractions

/-- The least positive number is `2 ^ -scale`, and every finite number is a multiple of it. -/
def scale (f : BinaryFormat) : Nat := Nat.pow 2 (f.exponentBits - 1) - 2 + f.fractionBits

/-- The finite number of a magnitude, as a multiple of the least positive one. -/
def units (f : BinaryFormat) (magnitude : Nat) : Nat :=
  let field := magnitude / f.fractions
  let fraction := magnitude % f.fractions
  if field = 0 then fraction else (f.fractions + fraction) * Nat.pow 2 (field - 1)

end BinaryFormat

/-- The quotient rounded to the nearest integer, halves to the even one. -/
def roundHalfEven (num den : Nat) : Nat :=
  let quotient := num / den
  let twice := 2 * (num % den)
  if twice < den then quotient
  else if twice = den ∧ quotient % 2 = 0 then quotient
  else quotient + 1

namespace BinaryFormat

/-- The magnitude nearest to the quotient of two natural numbers, ties to the even fraction and
infinity from half a step above the largest finite number on. The shift leaves
`fractionBits + 1` significant bits; a carry out of them lands in the exponent field. -/
def round (f : BinaryFormat) (num den : Nat) : Nat :=
  let scaled := num * Nat.pow 2 f.scale
  let shift := (scaled / den).log2 - f.fractionBits
  min (shift * f.fractions + roundHalfEven scaled (den * Nat.pow 2 shift)) f.infinity

end BinaryFormat

/-- A floating-point number of the format. -/
structure Binary (f : BinaryFormat) where
  negative : Bool
  magnitude : Nat
  deriving DecidableEq, Repr

abbrev Single := Binary .single

abbrev Double := Binary .double

namespace Binary

variable {f : BinaryFormat}

def isNaN (x : Binary f) : Bool := f.infinity < x.magnitude

def isInfinite (x : Binary f) : Bool := x.magnitude = f.infinity

def isZero (x : Binary f) : Bool := x.magnitude = 0

/-- Numeric equality: the zeros are equal, and what is not a number equals nothing. -/
def equals (x y : Binary f) : Bool :=
  !x.isNaN && !y.isNaN && (x == y || (x.isZero && y.isZero))

/-- The number with the given bit pattern. -/
def ofBits (bits : Nat) : Binary f :=
  let below := f.exponents * f.fractions
  ⟨bits / below % 2 = 1, bits % below⟩

def toBits (x : Binary f) : Nat :=
  (if x.negative then f.exponents * f.fractions else 0) + x.magnitude

end Binary

end Slotform
