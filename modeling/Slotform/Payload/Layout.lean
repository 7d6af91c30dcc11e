import Slotform.Decimal
import Slotform.Payload.Error

/-!
Slot layouts. A layout resolves every width and every number of occurrence slots of one payload;
its own width is the number of characters that the slots take together, as far as a 64-bit word
can count them.
-/

namespace Slotform

/-- The largest 64-bit word. -/
def maxWord : Nat := UInt64.size - 1

/-- Addition and multiplication that stop at the largest word. -/
def saturatingAdd (a b : Nat) : Nat := min (a + b) maxWord

def saturatingMul (a b : Nat) : Nat := min (a * b) maxWord

/-- The sizes of the slots of one payload. -/
inductive Layout where
  | leaf (width : Nat)
  | record (members : List Layout)
  | repeated (occurs : Nat) (element : Layout)
  | optional (inner : Layout)

namespace Layout

mutual

/-- The exact number of characters of the slots. -/
def exactWidth : Layout → Nat
  | leaf width => width
  | record members => exactWidths members
  | repeated occurs element => Decimal.digitCount occurs + occurs * element.exactWidth
  | optional inner => inner.exactWidth + 1

def exactWidths : List Layout → Nat
  | [] => 0
  | member :: rest => member.exactWidth + exactWidths rest

end

mutual

/-- The number of characters of the slots, stopping at the largest word. -/
def width : Layout → Nat
  | leaf width => width
  | record members => widthsFrom 0 members
  | repeated occurs element =>
    saturatingAdd (Decimal.digitCount occurs) (saturatingMul occurs element.width)
  | optional inner => saturatingAdd inner.width 1

/-- Adds the widths of members to a sum. -/
def widthsFrom (sum : Nat) : List Layout → Nat
  | [] => sum
  | member :: rest => widthsFrom (saturatingAdd sum member.width) rest

end

/-- The number of blank characters of unused slots. Unlike `width` this product does not saturate:
where no word holds it there is no number of blanks. -/
def blankWidth (slots : Nat) (element : Layout) : Except PayloadError Nat :=
  if slots * element.width < UInt64.size then .ok (slots * element.width)
  else .error (.wordOverflow slots element.width)

end Layout

end Slotform
