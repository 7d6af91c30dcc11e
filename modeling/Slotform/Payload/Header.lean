import Slotform.Payload.Decode

/-!
Schemas read back from payload headers. A header tells the shape of its payload without the type
that the payload was written from: records are named after the members that hold them, the root
has a name of its own, and widths and occurrence numbers, which belong to the one payload, do not
become hints.
-/

namespace Slotform.Header

/-- The name of a root. -/
def rootName : String := "root"

/-- A member as a header describes it. -/
abbrev Item := Schema × Layout

/-- An item with the suffixes that follow it: an occurrence number, and a mark for optional. -/
def wrap (item : Item) (occurs : Option Nat) (optional : Bool) : Item :=
  let listed : Item := match occurs with
    | some n => (item.1.repeated, .repeated n item.2)
    | none => item
  if optional then (listed.1.optional, .optional listed.2) else listed

/-- Reads a suffix `[n]` within the limit, if there is one. -/
def readSuffix (limits : Limits) (c : Cursor) : Except PayloadError (Option Nat × Cursor) :=
  if c.peek? = some '[' then do
    let (occurs, c) ← Mapper.readOccurs c
    Mapper.checkLimit .occurrences occurs limits.maxOccurs
    .ok (some occurs, c)
  else .ok (none, c)

def readMark (c : Cursor) : Bool × Cursor :=
  if c.peek? = some '?' then (true, c.skip 1) else (false, c)

def readLeaf (limits : Limits) (name : String) (c : Cursor) :
    Except PayloadError (Item × Cursor) := do
  let (kind, after) := c.identifier
  if kind.isEmpty then .error (.malformedHeader c.position .expectedItem)
  else
    let (width, c) ← Mapper.readWidth after
    Mapper.checkLimit .leafWidth width limits.maxWidth
    .ok ((.ofKind name (.ofName (String.ofList kind)), .leaf width), c)

/-- Reads the members of a record with semicolons between them. Every member takes characters, so
that the length of the text bounds their number; without characters there is no member name. -/
def readMembers (readMember : String → Cursor → Except PayloadError (Item × Cursor)) :
    Nat → List String → Cursor → Except PayloadError (List Item × Cursor)
  | 0, _, c => .error (.malformedHeader c.position .expectedMember)
  | bound + 1, earlier, c => do
    let (found, after) := c.identifier
    let name := String.ofList found
    if found.isEmpty then .error (.malformedHeader c.position .expectedMember)
    else if earlier.contains name then
      .error (.malformedHeader c.position (.repeatedMember name))
    else
      let ((), c) ← (after.expect ':').require
      let (member, c) ← readMember name c
      if c.peek? = some ';' then
        let (rest, c) ← readMembers readMember bound (name :: earlier) (c.skip 1)
        .ok (member :: rest, c)
      else .ok ([member], c)

/-- Reads a leaf or a record. The first argument says how many record levels may still be entered,
this one included. -/
def readItem (limits : Limits) : Nat → String → Cursor → Except PayloadError (Item × Cursor)
  | 0, _, _ => .error (.limitExceeded .nestingDepth (limits.maxDepth + 1) limits.maxDepth)
  | allowance + 1, name, c =>
    if c.peek? = some '\x7b' then do
      let (items, c) ← readMembers
        (fun name c => do
          let (item, c) ← readItem limits allowance name c
          let (occurs, c) ← readSuffix limits c
          let (optional, c) := readMark c
          .ok (wrap item occurs optional, c))
        c.remaining [] (c.skip 1)
      let ((), c) ← (c.expect '\x7d').require
      .ok ((.ofMembers name name (items.map (·.1)), .record (items.map (·.2))), c)
    else readLeaf limits name c

/-- A way to read what follows the root item: its suffixes, and the cursor after them. -/
structure Reading where
  occurs : Option Nat
  optional : Bool
  after : Cursor

/-- The reading without any suffix. -/
def plainReading (c : Cursor) : Reading := ⟨none, false, c⟩

/-- The reading with a mark that starts here, if one does. -/
def markedReading (occurs : Option Nat) (c : Cursor) : List Reading :=
  match readMark c with
  | (true, after) => [⟨occurs, true, after⟩]
  | (false, _) => []

/-- The readings with suffixes, from the shortest to the longest. The payload follows without a
separator and may itself begin like a suffix. -/
def suffixedReadings (limits : Limits) (c : Cursor) : List Reading :=
  match readSuffix limits c with
  | .ok (some n, after) => ⟨some n, false, after⟩ :: markedReading (some n) after
  | _ => markedReading none c

/-- A reading announces exactly the width of the text that remains after it. -/
def Reading.fits (item : Item) (r : Reading) : Bool :=
  (wrap item r.occurs r.optional).2.width = r.after.remaining

/-- The reading that holds: the longest that fits, or else the longest. -/
def choose (item : Item) (plain : Reading) (suffixed : List Reading) : Reading :=
  ((plain :: suffixed).reverse.find? (·.fits item)).getD (suffixed.getLastD plain)

def readRoot (limits : Limits) (c : Cursor) : Except PayloadError (Item × Cursor) := do
  let (item, c) ← readItem limits (limits.maxDepth + 1) rootName c
  let chosen := choose item (plainReading c) (suffixedReadings limits c)
  .ok (wrap item chosen.occurs chosen.optional, chosen.after)

/-- The schema that the header at the start of a payload describes. -/
def readSchema (limits : Limits) (text : List Char) : Except PayloadError Schema := do
  Mapper.checkLimit .payloadLength text.length limits.maxPayloadLen
  let (item, _) ← readRoot limits (.ofText text)
  .ok item.1

end Slotform.Header
