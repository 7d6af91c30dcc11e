/-!
Decimal notation of integers. A reader takes the whole text or refuses it: at least one ASCII
digit, leading zeros allowed, a plus sign always allowed and a minus sign only for signed kinds.
-/

namespace Slotform.Decimal

/-- The shortest decimal notation of a natural number. -/
def digits (n : Nat) : List Char := Nat.toDigits 10 n

def value (text : List Char) : Nat := Nat.ofDigitChars 10 text 0

/-- How many digits the notation of a number has. -/
def digitCount (n : Nat) : Nat := (digits n).length

/-- An integer, with a minus sign in front of a negative one. -/
def signed : Int → List Char
  | .ofNat n => digits n
  | .negSucc n => '-' :: digits (n + 1)

/-- A natural number in `width` digits, or in more if it needs them. -/
def padded (width n : Nat) : List Char :=
  List.replicate (width - digitCount n) '0' ++ digits n

def readDigits (text : List Char) : Option Nat :=
  if text.isEmpty then none
  else if text.all Char.isDigit then some (value text)
  else none

def readUnsigned (size : Nat) (text : List Char) : Option Nat :=
  let body := match text with
    | '+' :: rest => rest
    | _ => text
  (readDigits body).filter (· < size)

/-- Reads a number of a signed type with `size` values, one more of them negative than positive. -/
def readSigned (size : Nat) (text : List Char) : Option Int :=
  match text with
  | '+' :: rest => ((readDigits rest).filter (· < size / 2)).map Int.ofNat
  | '-' :: rest => ((readDigits rest).filter (· ≤ size / 2)).map fun n => -(n : Int)
  | _ => ((readDigits text).filter (· < size / 2)).map Int.ofNat

theorem value_digits (n : Nat) : value (digits n) = n :=
  Nat.ofDigitChars_toDigits (by decide) (by decide)

theorem isDigit_of_mem_digits {n : Nat} {c : Char} (h : c ∈ digits n) : c.isDigit = true :=
  Nat.isDigit_of_mem_toDigits (by decide) (by decide) h

theorem digits_ne_nil (n : Nat) : digits n ≠ [] := by
  unfold digits
  rw [Nat.toDigits_eq_if (by decide)]
  split <;> simp

theorem readDigits_digits (n : Nat) : readDigits (digits n) = some n := by
  have h : (digits n).all Char.isDigit = true := by
    simp only [List.all_eq_true]
    exact fun c hc => isDigit_of_mem_digits hc
  simp [readDigits, digits_ne_nil, h, value_digits]

end Slotform.Decimal
