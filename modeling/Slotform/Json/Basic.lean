namespace Slotform

/-- The text of a JSON string, or nothing for a string with an unpaired surrogate. -/
abbrev JsonText := Option (List Char)

/-- A JSON document. The entries of an object keep their order, and their keys may repeat. -/
inductive Json where
  | null
  | bool (b : Bool)
  | number (text : List Char)
  | string (text : JsonText)
  | array (items : List Json)
  | object (entries : List (JsonText × Json))
  deriving Inhabited

namespace Json

def ofString (s : String) : Json := string (some s.toList)

def ofNat (n : Nat) : Json := number (Nat.toDigits 10 n)

def ofEntries (entries : List (String × Json)) : Json :=
  object (entries.map fun entry => (some entry.1.toList, entry.2))

mutual

/-- How deeply arrays and objects are nested. -/
def nesting : Json → Nat
  | array items => nestingItems items + 1
  | object entries => nestingEntries entries + 1
  | _ => 0

def nestingItems : List Json → Nat
  | [] => 0
  | item :: rest => max item.nesting (nestingItems rest)

def nestingEntries : List (JsonText × Json) → Nat
  | [] => 0
  | (_, value) :: rest => max value.nesting (nestingEntries rest)

end

end Json

end Slotform

namespace Slotform.Json

def hexDigit (n : Nat) : Char := Nat.digitChar (n % 16)

/-- One character of a string. Only what must be escaped is, by its short escape if it has one. -/
def escapeChar (c : Char) : List Char :=
  if c = '"' then ['\\', '"']
  else if c = '\\' then ['\\', '\\']
  else if c = Char.ofNat 8 then ['\\', 'b']
  else if c = Char.ofNat 12 then ['\\', 'f']
  else if c = '\n' then ['\\', 'n']
  else if c = '\r' then ['\\', 'r']
  else if c = '\t' then ['\\', 't']
  else if c.toNat < 0x20 then
    ['\\', 'u', '0', '0', hexDigit (c.toNat / 16), hexDigit c.toNat]
  else [c]

/-- A string in quotes. A string that denotes no text is written as half of a surrogate pair. -/
def printText : JsonText → List Char
  | some text => '"' :: text.flatMap escapeChar ++ ['"']
  | none => "\"\\ud800\"".toList

def printBool (b : Bool) : List Char := if b then "true".toList else "false".toList

mutual

/-- The form without blanks. -/
def compact : Json → List Char
  | null => "null".toList
  | bool b => printBool b
  | number text => text
  | string text => printText text
  | array items => '[' :: compactItems items ++ [']']
  | object entries => '\x7b' :: compactEntries entries ++ ['\x7d']

def compactItems : List Json → List Char
  | [] => []
  | [item] => item.compact
  | item :: rest => item.compact ++ ',' :: compactItems rest

def compactEntries : List (JsonText × Json) → List Char
  | [] => []
  | [(key, value)] => printText key ++ ':' :: value.compact
  | (key, value) :: rest => printText key ++ ':' :: value.compact ++ ',' :: compactEntries rest

end

def newLine (depth : Nat) : List Char := '\n' :: List.replicate (2 * depth) ' '

mutual

/-- The indented form, with the enclosing bracket at a depth. -/
def indented (depth : Nat) : Json → List Char
  | null => "null".toList
  | bool b => printBool b
  | number text => text
  | string text => printText text
  | array [] => ['[', ']']
  | array (item :: rest) =>
    '[' :: indentedItems (depth + 1) (item :: rest) ++ newLine depth ++ [']']
  | object [] => ['\x7b', '\x7d']
  | object (entry :: rest) =>
    '\x7b' :: indentedEntries (depth + 1) (entry :: rest) ++ newLine depth ++ ['\x7d']

def indentedItems (depth : Nat) : List Json → List Char
  | [] => []
  | [item] => newLine depth ++ item.indented depth
  | item :: rest => newLine depth ++ item.indented depth ++ ',' :: indentedItems depth rest

def indentedEntries (depth : Nat) : List (JsonText × Json) → List Char
  | [] => []
  | [(key, value)] => newLine depth ++ printText key ++ ':' :: ' ' :: value.indented depth
  | (key, value) :: rest =>
    newLine depth ++ printText key ++ ':' :: ' ' :: value.indented depth ++
      ',' :: indentedEntries depth rest

end

end Slotform.Json
