import Slotform.Limits
import Slotform.Payload.Cursor
import Slotform.Payload.Mapper

namespace Slotform

namespace Mapper

def checkLimit (quantity : Quantity) (value max : Nat) : Except PayloadError Unit :=
  if max < value then .error (.limitExceeded quantity value max) else .ok ()

/-- Reads `(width)` after a leaf kind. -/
def readWidth (c : Cursor) : Except PayloadError (Nat × Cursor) := do
  let ((), c) ← (c.expect '(').require
  let (width, c) ← c.number.require
  let ((), c) ← (c.expect ')').require
  .ok (width, c)

/-- Reads `[occurs]` after an element. -/
def readOccurs (c : Cursor) : Except PayloadError (Nat × Cursor) := do
  let ((), c) ← (c.expect '[').require
  let (occurs, c) ← c.number.require
  let ((), c) ← (c.expect ']').require
  .ok (occurs, c)

mutual

def readHeader (limits : Limits) : Mapper → Cursor → Except PayloadError (Layout × Cursor)
  | leaf node kind codec, c => do
    let (found, c) := c.identifier
    if found ≠ kind.name.toList then
      .error (.headerMismatch (.kind node.name kind.name found))
    else
      let (width, c) ← readWidth c
      checkLimit .leafWidth width limits.maxWidth
      match leafWidth? node codec with
      | some fixed =>
        if width = fixed then .ok (.leaf width, c)
        else .error (.headerMismatch (.width kind.name fixed width))
      | none => .ok (.leaf width, c)
  | record _ _ members, c => do
    let ((), c) ← (c.expect '\x7b').require
    let (slots, c) ← readMemberHeaders limits true members c
    let ((), c) ← (c.expect '\x7d').require
    .ok (.record slots, c)
  | repeated view element, c => do
    let (slot, c) ← readHeader limits element c
    let (occurs, c) ← readOccurs c
    checkLimit .occurrences occurs limits.maxOccurs
    match occurs? view with
    | some fixed =>
      if occurs = fixed then .ok (.repeated occurs slot, c)
      else .error (.headerMismatch (.occurs view.name fixed occurs))
    | none => .ok (.repeated occurs slot, c)
  | optional _ inner, c => do
    let (slot, c) ← readHeader limits inner c
    let ((), c) ← (c.expect '?').require
    .ok (.optional slot, c)

/-- Reads the headers of members; a semicolon precedes every one but the first. -/
def readMemberHeaders (limits : Limits) (first : Bool) :
    List Mapper → Cursor → Except PayloadError (List Layout × Cursor)
  | [], c => .ok ([], c)
  | member :: members, c => do
    let ((), c) ← if first then .ok ((), c) else (c.expect ';').require
    let (found, c) := c.identifier
    if found ≠ member.name.toList then .error (.headerMismatch (.member member.name found))
    else
      let ((), c) ← (c.expect ':').require
      let (slot, c) ← readHeader limits member c
      let (slots, c) ← readMemberHeaders limits false members c
      .ok (slot :: slots, c)

end

/-- Reads `n` values one after the other; those already read stand latest first. -/
def readTimes (read : Cursor → Except PayloadError (Value × Cursor)) :
    Nat → List Value → Cursor → Except PayloadError (List Value × Cursor)
  | 0, done, c => .ok (done.reverse, c)
  | n + 1, done, c => do
    let (value, c) ← read c
    readTimes read n (value :: done) c

/-- Reads the number of items of a list with the given number of slots. -/
def readCount (occurs : Nat) (c : Cursor) : Except PayloadError (Nat × Cursor) := do
  let (text, after) ← (c.take (Decimal.digitCount occurs)).require
  match (Decimal.readDigits text).filter (· ≤ maxWord) with
  | none => .error (.malformedPayload c.position (.invalidCount text))
  | some count =>
    if occurs < count then .error (.malformedPayload c.position (.countExceeds count occurs))
    else .ok (count, after)

mutual

def read : Mapper → Layout → Cursor → Except PayloadError (Value × Cursor)
  | leaf node kind codec, layout, c =>
    match layout with
    | .leaf width => do
      let (slot, c) ← (c.take width).require
      let text := if codec.fixedWidth.isSome then slot else Slot.unfill (leafAlign node codec) slot
      let value ← (codec.parse text).mapError (codecError node kind)
      .ok (value, c)
    | _ => .error (.layoutMismatch node.name)
  | record node _ members, layout, c =>
    match layout with
    | .record slots =>
      if slots.length = members.length then do
        let (entries, c) ← readMembers members slots c
        .ok (.record entries, c)
      else .error (.layoutMismatch node.name)
    | _ => .error (.layoutMismatch node.name)
  | repeated view element, layout, c =>
    match layout with
    | .repeated occurs slot => do
      let (count, c) ← readCount occurs c
      let (items, c) ← readTimes (fun c => element.read slot c) count [] c
      let unused ← slot.blankWidth (occurs - count)
      let ((), c) ← (c.blank unused).require
      .ok (.list items, c)
    | _ => .error (.layoutMismatch view.name)
  | optional view inner, layout, c =>
    match layout with
    | .optional slot => do
      let (flag, after) ← c.next.require
      if flag = '1' then
        let (value, c) ← inner.read slot after
        .ok (.present value, c)
      else if flag = '0' then
        let ((), c) ← (after.blank slot.width).require
        .ok (.absent, c)
      else .error (.malformedPayload c.position (.invalidFlag flag))
    | _ => .error (.layoutMismatch view.name)

/-- Reads the slots of members in order. -/
def readMembers : List Mapper → List Layout → Cursor →
    Except PayloadError (List (String × Value) × Cursor)
  | member :: members, slot :: slots, c => do
    let (value, c) ← member.read slot c
    let (entries, c) ← readMembers members slots c
    .ok ((member.name, value) :: entries, c)
  | _, _, c => .ok ([], c)

end

/-- Refuses a text that does not have exactly the given number of characters left. -/
def checkWidth (expected : Nat) (c : Cursor) : Except PayloadError Unit :=
  if c.remaining < expected then .error (.unexpectedEnd (c.position + c.remaining))
  else if expected < c.remaining then .error (.trailingInput (c.remaining - expected))
  else .ok ()

def decode (m : Mapper) (limits : Limits) (text : List Char) : Except PayloadError Value := do
  checkLimit .payloadLength text.length limits.maxPayloadLen
  let (layout, c) ← m.readHeader limits (.ofText text)
  checkWidth layout.width c
  let (value, c) ← m.read layout c
  c.finish
  .ok value

end Mapper

end Slotform
