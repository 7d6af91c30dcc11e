import Mathlib.Data.List.DropRight
import Slotform.Json.Basic
import Slotform.Json.Reader
import Slotform.Proofs.Decimal

namespace Slotform.Json

variable {c : Char} {text rest : List Char} {n fuel depth : Nat}

/-! ## Blanks -/

theorem skipBlanks_cons (printed : isBlank c = false) : skipBlanks (c :: rest) = c :: rest := by
  simp [skipBlanks, printed]

theorem skipBlanks_newLine (depth : Nat) (text : List Char) :
    skipBlanks (newLine depth ++ text) = skipBlanks text := by
  apply List.dropWhile_append_of_pos
  intro c mem
  rcases List.mem_cons.1 mem with rfl | mem
  · decide
  · rw [List.eq_of_mem_replicate mem]
    decide

/-! ## Strings -/

theorem hexValue?_hexDigit (n : Nat) : hexValue? (hexDigit n) = some (n % 16) := by
  have all : ∀ m < 16, hexValue? (Nat.digitChar m) = some m := by decide
  exact all (n % 16) (Nat.mod_lt n (by decide))

/-- A character is written by its short escape, by its number, or as it is. -/
theorem escapeChar_cases (c : Char) :
    (∃ e, e ≠ 'u' ∧ shortEscape? e = some c ∧ escapeChar c = ['\\', e]) ∨
      (c.toNat < 0x20 ∧ escapeChar c =
        ['\\', 'u', '0', '0', hexDigit (c.toNat / 16), hexDigit c.toNat]) ∨
      (c ≠ '"' ∧ c ≠ '\\' ∧ ¬ c.toNat < 0x20 ∧ escapeChar c = [c]) := by
  unfold escapeChar
  split
  next quote => exact .inl ⟨'"', by decide, by rw [quote]; decide, rfl⟩
  next quote =>
    split
    next backslash => exact .inl ⟨'\\', by decide, by rw [backslash]; decide, rfl⟩
    next backslash =>
      split
      next h => exact .inl ⟨'b', by decide, by rw [h]; decide, rfl⟩
      split
      next h => exact .inl ⟨'f', by decide, by rw [h]; decide, rfl⟩
      split
      next h => exact .inl ⟨'n', by decide, by rw [h]; decide, rfl⟩
      split
      next h => exact .inl ⟨'r', by decide, by rw [h]; decide, rfl⟩
      split
      next h => exact .inl ⟨'t', by decide, by rw [h]; decide, rfl⟩
      split
      next control => exact .inr (.inl ⟨control, rfl⟩)
      next printed => exact .inr (.inr ⟨quote, backslash, printed, rfl⟩)

/-- The unit that the number of a character below the surrogates stands for. -/
theorem ofEscape_toNat (small : c.toNat < 0xd800) : TextUnit.ofEscape c.toNat = .char c := by
  rw [TextUnit.ofEscape, if_neg (by omega), if_neg (by omega), Char.ofNat_toNat]

/-- Reads the escape of one character. -/
theorem readUnits_short {e : Char} (notHex : e ≠ 'u') (short : shortEscape? e = some c) :
    readUnits ('\\' :: e :: rest) =
      (readUnits rest).map fun (units, rest) => (.char c :: units, rest) := by
  rw [readUnits, short]
  · cases readUnits rest <;> rfl
  · intro _ _ _ _ _ hex
    exact absurd hex notHex

theorem readUnits_control (control : c.toNat < 0x20) :
    readUnits ('\\' :: 'u' :: '0' :: '0' :: hexDigit (c.toNat / 16) :: hexDigit c.toNat :: rest) =
      (readUnits rest).map fun (units, rest) => (.char c :: units, rest) := by
  have zero : hexValue? '0' = some 0 := by decide
  have unit : ((0 * 16 + 0) * 16 + c.toNat / 16 % 16) * 16 + c.toNat % 16 = c.toNat := by omega
  rw [readUnits, zero, hexValue?_hexDigit, hexValue?_hexDigit]
  simp only [Option.bind_eq_bind, Option.bind_some, unit, ofEscape_toNat (by omega : c.toNat < _)]
  cases readUnits rest <;> rfl

theorem readUnits_bare (quote : c ≠ '"') (backslash : c ≠ '\\') (printed : ¬ c.toNat < 0x20) :
    readUnits (c :: rest) = (readUnits rest).map fun (units, rest) => (.char c :: units, rest) := by
  rw [readUnits, if_neg (not_or.2 ⟨backslash, printed⟩)]
  · cases readUnits rest <;> rfl
  · exact quote
  · intro _ _ _ _ _ h
    exact absurd h backslash
  · intro _ _ h
    exact absurd h backslash

theorem readUnits_escapeChar (c : Char) (rest : List Char) :
    readUnits (escapeChar c ++ rest) =
      (readUnits rest).map fun (units, rest) => (.char c :: units, rest) := by
  rcases escapeChar_cases c with ⟨e, notHex, short, written⟩ | ⟨control, written⟩ |
    ⟨quote, backslash, printed, written⟩
  · rw [written]
    exact readUnits_short notHex short
  · rw [written]
    exact readUnits_control control
  · rw [written]
    exact readUnits_bare quote backslash printed

theorem readUnits_escaped (text rest : List Char) :
    readUnits (text.flatMap escapeChar ++ '"' :: rest) = some (text.map .char, rest) := by
  induction text with
  | nil => rw [List.flatMap_nil, List.nil_append, readUnits, List.map_nil]
  | cons c text ih =>
    rw [List.flatMap_cons, List.append_assoc, readUnits_escapeChar, ih]
    rfl

theorem joinUnits_chars (text : List Char) : joinUnits (text.map .char) = some text := by
  induction text with
  | nil => rfl
  | cons c text ih =>
    rw [List.map_cons, joinUnits, ih]
    rfl

theorem printText_append (text after : List Char) :
    printText (some text) ++ after = '"' :: (text.flatMap escapeChar ++ '"' :: after) := by
  change ('"' :: text.flatMap escapeChar ++ ['"']) ++ after = _
  rw [List.append_assoc]
  rfl

/-- A text is read back as it was. -/
theorem readText_escaped (text rest : List Char) :
    readText (text.flatMap escapeChar ++ '"' :: rest) = some (some text, rest) := by
  rw [readText, readUnits_escaped, Option.map_some]
  simp only [joinUnits_chars]

/-! ## Numbers -/

/-- What follows a number does not go on with it. -/
def Follows (rest : List Char) : Prop :=
  ∀ c ∈ rest.head?, c.isDigit = false ∧ c ≠ '.' ∧ c ≠ 'e' ∧ c ≠ 'E'

theorem follows_nil : Follows [] := nofun

theorem follows_cons (apart : c.isDigit = false ∧ c ≠ '.' ∧ c ≠ 'e' ∧ c ≠ 'E') :
    Follows (c :: rest) := by
  rintro _ ⟨⟩
  exact apart

/-- Only zero is written with a zero in front. -/
theorem digits_zero_cons {tail : List Char} (h : Decimal.digits n = '0' :: tail) : tail = [] := by
  cases tail with
  | nil => rfl
  | cons d tail =>
    -- The tail would denote the same number in fewer digits.
    have denotes := Decimal.denotes_digits n
    have shorter : Decimal.Denotes (d :: tail) n := by
      refine ⟨List.cons_ne_nil _ _, ?_, ?_⟩
      · intro c mem
        exact denotes.digits c (h ▸ List.mem_cons_of_mem _ mem)
      · have value := denotes.value
        rw [h, Decimal.value, Nat.ofDigitChars_cons] at value
        exact value
    have length := shorter.digitCount_le
    rw [Decimal.digitCount, h] at length
    exact absurd length (Nat.not_succ_le_self _)

theorem takeWhile_digits (follows : Follows rest) :
    (Decimal.digits n ++ rest).takeWhile Char.isDigit = Decimal.digits n ∧
      (Decimal.digits n ++ rest).dropWhile Char.isDigit = rest := by
  have digits : ∀ c ∈ Decimal.digits n, c.isDigit = true := fun _ => Decimal.isDigit_of_mem_digits
  rw [List.takeWhile_append_of_pos digits, List.dropWhile_append_of_pos digits]
  cases rest with
  | nil => exact ⟨List.append_nil _, rfl⟩
  | cons c rest =>
    have stop : c.isDigit = false := (follows c rfl).1
    rw [List.takeWhile_cons_of_neg (by simp [stop]), List.dropWhile_cons_of_neg (by simp [stop])]
    exact ⟨List.append_nil _, rfl⟩

theorem splitDigits_digits (follows : Follows rest) :
    splitDigits (Decimal.digits n ++ rest) = some (Decimal.digits n, rest) := by
  obtain ⟨taken, dropped⟩ := takeWhile_digits (n := n) follows
  rw [splitDigits, taken, dropped]
  obtain ⟨c, tail, written, -⟩ := Decimal.digits_eq_cons n
  rw [written]

theorem splitWhole_digits (follows : Follows rest) :
    splitWhole (Decimal.digits n ++ rest) = some (Decimal.digits n, rest) := by
  obtain ⟨c, tail, written, digit⟩ := Decimal.digits_eq_cons n
  by_cases zero : c = '0'
  · subst zero
    obtain rfl := digits_zero_cons written
    have alone : (rest.takeWhile Char.isDigit).isEmpty = true := by
      cases rest with
      | nil => rfl
      | cons c rest => simp [(follows c rfl).1]
    rw [written, List.cons_append, List.nil_append, splitWhole, if_pos alone]
  · have whole := splitDigits_digits (n := n) follows
    rw [written, List.cons_append] at whole ⊢
    rw [splitWhole, whole]
    intro _ same
    exact absurd (List.cons.inj same).1 zero

theorem splitFraction_follows (follows : Follows rest) : splitFraction rest = some ([], rest) := by
  cases rest with
  | nil => rfl
  | cons c rest =>
    rw [splitFraction]
    intro _ same
    exact absurd (List.cons.inj same).1 (follows c rfl).2.1

theorem splitExponent_follows (follows : Follows rest) : splitExponent rest = some ([], rest) := by
  cases rest with
  | nil => rfl
  | cons c rest =>
    obtain ⟨-, -, small, large⟩ := follows c rfl
    exact if_neg (not_or.2 ⟨small, large⟩)

/-- A natural number is split off whole. -/
theorem splitNumber_digits (follows : Follows rest) :
    splitNumber (Decimal.digits n ++ rest) = some (Decimal.digits n, rest) := by
  have unsigned : splitUnsigned (Decimal.digits n ++ rest) = some (Decimal.digits n, rest) := by
    rw [splitUnsigned, splitWhole_digits follows]
    simp [splitFraction_follows follows, splitExponent_follows follows]
  obtain ⟨c, tail, written, digit⟩ := Decimal.digits_eq_cons n
  rw [written, List.cons_append] at unsigned ⊢
  rw [splitNumber, unsigned]
  rintro _ ⟨⟩
  exact absurd digit (by decide)

/-! ## Values -/

theorem isBlank_of_isDigit (digit : c.isDigit = true) : isBlank c = false := by
  unfold isBlank
  simp only [Bool.or_eq_false_iff, decide_eq_false_iff_not]
  refine ⟨⟨⟨?_, ?_⟩, ?_⟩, ?_⟩ <;> rintro rfl <;> exact absurd digit (by decide)

theorem readValue_number (follows : Follows rest) :
    readValue (fuel + 1) (Decimal.digits n ++ rest) = some (ofNat n, rest) := by
  have number := splitNumber_digits (n := n) follows
  obtain ⟨c, tail, written, digit⟩ := Decimal.digits_eq_cons n
  rw [written, List.cons_append] at number ⊢
  rw [readValue, skipBlanks_cons (isBlank_of_isDigit digit)]
  split
  case h_7 =>
    rw [number, ← written]
    rfl
  all_goals
    next same =>
      obtain ⟨rfl, -⟩ := List.cons.inj same
      exact absurd digit (by decide)

theorem readValue_newLine (fuel depth : Nat) (text : List Char) :
    readValue fuel (newLine depth ++ text) = readValue fuel text := by
  cases fuel with
  | zero => rw [readValue, readValue]
  | succ fuel => rw [readValue, readValue, skipBlanks_newLine]

theorem skipBlanks_skipBlanks (text : List Char) :
    skipBlanks (skipBlanks text) = skipBlanks text :=
  List.dropWhile_idempotent _ _

theorem readItems_skipBlanks (fuel : Nat) (text : List Char) :
    readItems fuel (skipBlanks text) = readItems fuel text := by
  have same (fuel : Nat) : readValue fuel (skipBlanks text) = readValue fuel text := by
    cases fuel with
    | zero => rw [readValue, readValue]
    | succ fuel => rw [readValue, readValue, skipBlanks_skipBlanks]
  cases fuel with
  | zero => rw [readItems, readItems]
  | succ fuel => rw [readItems, readItems, same]

theorem readEntries_skipBlanks (fuel : Nat) (text : List Char) :
    readEntries fuel (skipBlanks text) = readEntries fuel text := by
  cases fuel with
  | zero => rw [readEntries, readEntries]
  | succ fuel => rw [readEntries, readEntries, skipBlanks_skipBlanks]

theorem readValue_bracket (fuel : Nat) (text : List Char) : readValue (fuel + 1) ('[' :: text) =
    match skipBlanks text with
    | ']' :: rest => some (array [], rest)
    | rest => (readItems fuel rest).map fun (items, rest) => (array items, rest) := by
  rw [readValue, skipBlanks_cons (by decide)]
  rfl

theorem readValue_brace (fuel : Nat) (text : List Char) : readValue (fuel + 1) ('\x7b' :: text) =
    match skipBlanks text with
    | '\x7d' :: rest => some (object [], rest)
    | rest => (readEntries fuel rest).map fun (entries, rest) => (object entries, rest) := by
  rw [readValue, skipBlanks_cons (by decide)]
  rfl

theorem readValue_array {tail : List Char} (starts : skipBlanks text = c :: tail)
    (filled : c ≠ ']') : readValue (fuel + 1) ('[' :: text) =
      (readItems fuel text).map fun (items, rest) => (array items, rest) := by
  rw [readValue_bracket, ← readItems_skipBlanks, starts]
  split
  next same =>
    cases same
    exact absurd rfl filled
  next => rfl

theorem readValue_object {tail : List Char} (starts : skipBlanks text = c :: tail)
    (filled : c ≠ '\x7d') : readValue (fuel + 1) ('\x7b' :: text) =
      (readEntries fuel text).map fun (entries, rest) => (object entries, rest) := by
  rw [readValue_brace, ← readEntries_skipBlanks, starts]
  split
  next same =>
    cases same
    exact absurd rfl filled
  next => rfl

/-! ## Documents -/

/-- Numbers are naturals in decimal, and every string is a text. -/
inductive Plain : Json → Prop where
  | null : Plain null
  | bool (b : Bool) : Plain (bool b)
  | nat (n : Nat) : Plain (ofNat n)
  | text (text : List Char) : Plain (string (some text))
  | array {items : List Json} : (∀ item ∈ items, Plain item) → Plain (array items)
  | object {entries : List (JsonText × Json)} : (∀ entry ∈ entries, entry.1.isSome) →
      (∀ entry ∈ entries, Plain entry.2) → Plain (object entries)

theorem plain_ofString (s : String) : (ofString s).Plain := .text s.toList

theorem plain_ofEntries {entries : List (String × Json)}
    (each : ∀ entry ∈ entries, entry.2.Plain) : (ofEntries entries).Plain := by
  apply Plain.object
  · intro _ mem
    obtain ⟨entry, -, rfl⟩ := List.mem_map.1 mem
    rfl
  · intro _ mem
    obtain ⟨entry, known, rfl⟩ := List.mem_map.1 mem
    exact each entry known

/-- The indented form starts with a character that neither is blank nor closes an array. -/
theorem Plain.indented_eq_cons {j : Json} (plain : j.Plain) (depth : Nat) :
    ∃ c tail, j.indented depth = c :: tail ∧ isBlank c = false ∧ c ≠ ']' := by
  cases plain with
  | null => exact ⟨'n', _, rfl, by decide, by decide⟩
  | bool b =>
    cases b with
    | false => exact ⟨'f', _, rfl, by decide, by decide⟩
    | true => exact ⟨'t', _, rfl, by decide, by decide⟩
  | nat n =>
    obtain ⟨c, tail, written, digit⟩ := Decimal.digits_eq_cons n
    refine ⟨c, tail, written, isBlank_of_isDigit digit, ?_⟩
    rintro rfl
    exact absurd digit (by decide)
  | text text => exact ⟨'"', _, rfl, by decide, by decide⟩
  | @array items _ =>
    cases items with
    | nil => exact ⟨'[', _, rfl, by decide, by decide⟩
    | cons => exact ⟨'[', _, rfl, by decide, by decide⟩
  | @object entries _ _ =>
    cases entries with
    | nil => exact ⟨'\x7b', _, rfl, by decide, by decide⟩
    | cons => exact ⟨'\x7b', _, rfl, by decide, by decide⟩

/-- The document is read from its indented form at any depth, whatever follows. -/
def ReadsBack (j : Json) : Prop :=
  ∀ fuel depth rest, (j.indented depth).length ≤ fuel → Follows rest →
    readValue (fuel + 1) (j.indented depth ++ rest) = some (j, rest)

@[simp] theorem length_newLine (depth : Nat) : (newLine depth).length = 2 * depth + 1 := by
  simp [newLine]

theorem indentedItems_cons {item next : Json} {more : List Json} :
    indentedItems depth (item :: next :: more) =
      newLine depth ++ item.indented depth ++ ',' :: indentedItems depth (next :: more) := rfl

theorem indentedEntries_cons {key : JsonText} {value : Json} {next : JsonText × Json}
    {more : List (JsonText × Json)} : indentedEntries depth ((key, value) :: next :: more) =
      newLine depth ++ printText key ++ ':' :: ' ' :: value.indented depth ++
        ',' :: indentedEntries depth (next :: more) := rfl

theorem readItems_indented {item : Json} {others : List Json}
    (each : ∀ i ∈ item :: others, i.ReadsBack) {fuel depth : Nat}
    (enough : (indentedItems depth (item :: others)).length ≤ fuel) (outer : Nat)
    (rest : List Char) :
    readItems (fuel + 1) (indentedItems depth (item :: others) ++ (newLine outer ++ ']' :: rest)) =
      some (item :: others, rest) := by
  have here := each item List.mem_cons_self
  induction others generalizing fuel item with
  | nil =>
    rw [indentedItems, List.length_append, length_newLine] at enough
    obtain ⟨fuel, rfl⟩ : ∃ less, fuel = less + 1 := ⟨fuel - 1, by omega⟩
    have read := here fuel depth (newLine outer ++ ']' :: rest) (by omega) (follows_cons (by decide))
    rw [indentedItems, List.append_assoc, readItems, readValue_newLine, read]
    simp only [skipBlanks_newLine, skipBlanks_cons (by decide : isBlank ']' = false)]
  | cons next more ih =>
    rw [indentedItems_cons] at enough ⊢
    simp only [List.length_append, List.length_cons, length_newLine] at enough
    obtain ⟨fuel, rfl⟩ : ∃ less, fuel = less + 1 := ⟨fuel - 1, by omega⟩
    have later : ∀ i ∈ next :: more, i.ReadsBack := fun i mem => each i (List.mem_cons_of_mem _ mem)
    have others := ih later (by omega : _ ≤ fuel) (later next List.mem_cons_self)
    simp only [List.append_assoc, List.cons_append]
    rw [readItems, readValue_newLine, here fuel depth _ (by omega) (follows_cons (by decide))]
    simp only [skipBlanks_cons (by decide : isBlank ',' = false)]
    rw [others]
    rfl

theorem readValue_space (fuel : Nat) (text : List Char) :
    readValue fuel (' ' :: text) = readValue fuel text := by
  have blank : skipBlanks (' ' :: text) = skipBlanks text := List.dropWhile_cons_of_pos (by decide)
  cases fuel with
  | zero => rw [readValue, readValue]
  | succ fuel => rw [readValue, readValue, blank]

/-- What an entry leaves to be read after its value, which ends the object or goes on. -/
def afterEntry (fuel : Nat) (key : JsonText) (value : Json) (rest : List Char) :
    Option (List (JsonText × Json) × List Char) :=
  match skipBlanks rest with
  | '\x7d' :: rest => some ([(key, value)], rest)
  | ',' :: rest =>
    (readEntries fuel rest).map fun (entries, rest) => ((key, value) :: entries, rest)
  | _ => none

theorem readEntries_quote (fuel : Nat) (text : List Char) :
    readEntries (fuel + 1) ('"' :: text) =
      match readText text with
      | none => none
      | some (key, rest) =>
        match skipBlanks rest with
        | ':' :: rest =>
          match readValue fuel rest with
          | none => none
          | some (value, rest) => afterEntry fuel key value rest
        | _ => none := by
  have quote : isBlank '"' = false := by decide
  rw [readEntries, skipBlanks_cons quote]
  rfl

theorem readEntries_newLine (fuel depth : Nat) (text : List Char) :
    readEntries fuel (newLine depth ++ text) = readEntries fuel text := by
  cases fuel with
  | zero => rw [readEntries, readEntries]
  | succ fuel => rw [readEntries, readEntries, skipBlanks_newLine]

theorem readEntries_entry {key : List Char} {value : Json} (reads : value.ReadsBack)
    (enough : (value.indented depth).length ≤ fuel) (follows : Follows rest) :
    readEntries (fuel + 2)
        (newLine depth ++ (printText (some key) ++ ':' :: ' ' :: (value.indented depth ++ rest))) =
      afterEntry (fuel + 1) (some key) value rest := by
  have colon : isBlank ':' = false := by decide
  rw [readEntries_newLine, printText_append, readEntries_quote]
  simp only [readText_escaped, skipBlanks_cons colon, readValue_space,
    reads fuel depth rest enough follows]

theorem afterEntry_brace (fuel outer : Nat) (key : JsonText) (value : Json) (rest : List Char) :
    afterEntry fuel key value (newLine outer ++ '\x7d' :: rest) = some ([(key, value)], rest) := by
  have brace : isBlank '\x7d' = false := by decide
  rw [afterEntry, skipBlanks_newLine, skipBlanks_cons brace]
  rfl

theorem afterEntry_comma (fuel : Nat) (key : JsonText) (value : Json) (rest : List Char) :
    afterEntry fuel key value (',' :: rest) =
      (readEntries fuel rest).map fun (entries, rest) => ((key, value) :: entries, rest) := by
  have comma : isBlank ',' = false := by decide
  rw [afterEntry, skipBlanks_cons comma]
  rfl

theorem readEntries_indented {entry : JsonText × Json} {others : List (JsonText × Json)}
    (texts : ∀ e ∈ entry :: others, e.1.isSome) (each : ∀ e ∈ entry :: others, e.2.ReadsBack)
    {fuel depth : Nat} (enough : (indentedEntries depth (entry :: others)).length ≤ fuel)
    (outer : Nat) (rest : List Char) :
    readEntries (fuel + 1)
        (indentedEntries depth (entry :: others) ++ (newLine outer ++ '\x7d' :: rest)) =
      some (entry :: others, rest) := by
  obtain ⟨key, value⟩ := entry
  obtain ⟨key, rfl⟩ := Option.isSome_iff_exists.1 (texts (key, value) List.mem_cons_self)
  have here : value.ReadsBack := each (some key, value) List.mem_cons_self
  induction others generalizing fuel key value with
  | nil =>
    rw [indentedEntries] at enough ⊢
    simp only [List.length_append, List.length_cons, length_newLine] at enough
    obtain ⟨fuel, rfl⟩ : ∃ less, fuel = less + 1 := ⟨fuel - 1, by omega⟩
    have follows : Follows (newLine outer ++ '\x7d' :: rest) := follows_cons (by decide)
    simp only [List.append_assoc, List.cons_append]
    rw [readEntries_entry here (by omega) follows, afterEntry_brace]
  | cons next more ih =>
    obtain ⟨key', value'⟩ := next
    have texts' := fun e mem => texts e (List.mem_cons_of_mem _ mem)
    have each' := fun e mem => each e (List.mem_cons_of_mem _ mem)
    obtain ⟨key', rfl⟩ := Option.isSome_iff_exists.1 (texts' (key', value') List.mem_cons_self)
    rw [indentedEntries_cons] at enough ⊢
    simp only [List.length_append, List.length_cons, length_newLine] at enough
    obtain ⟨fuel, rfl⟩ : ∃ less, fuel = less + 1 := ⟨fuel - 1, by omega⟩
    have others := ih value' key' texts' each' (by omega : _ ≤ fuel) (each' _ List.mem_cons_self)
    simp only [List.append_assoc, List.cons_append]
    rw [readEntries_entry here (by omega) (follows_cons (by decide)), afterEntry_comma, others]
    rfl

/-! ## Texts -/

theorem readValue_text (fuel : Nat) (text rest : List Char) :
    readValue (fuel + 1) (printText (some text) ++ rest) = some (string (some text), rest) := by
  have quote : isBlank '"' = false := by decide
  rw [printText_append, readValue, skipBlanks_cons quote]
  change (readText (text.flatMap escapeChar ++ '"' :: rest)).map _ = _
  rw [readText_escaped]
  rfl

theorem indentedItems_eq (depth : Nat) (item : Json) (others : List Json) :
    ∃ more, indentedItems depth (item :: others) =
      newLine depth ++ (item.indented depth ++ more) := by
  cases others with
  | nil => exact ⟨[], by rw [indentedItems, List.append_nil]⟩
  | cons next more => exact ⟨_, by rw [indentedItems_cons, List.append_assoc]⟩

theorem indentedEntries_eq (depth : Nat) (key : JsonText) (value : Json)
    (others : List (JsonText × Json)) : ∃ more, indentedEntries depth ((key, value) :: others) =
      newLine depth ++ (printText key ++ more) := by
  cases others with
  | nil => exact ⟨_, by rw [indentedEntries, List.append_assoc]⟩
  | cons next more => exact ⟨_, by rw [indentedEntries_cons, List.append_assoc, List.append_assoc]⟩

theorem readsBack_array {item : Json} {others : List Json} (plain : item.Plain)
    (each : ∀ i ∈ item :: others, i.ReadsBack) : (array (item :: others)).ReadsBack := by
  intro fuel depth rest enough _
  rw [indented] at enough ⊢
  simp only [List.length_append, List.length_cons, length_newLine] at enough
  obtain ⟨fuel, rfl⟩ : ∃ less, fuel = less + 1 := ⟨fuel - 1, by omega⟩
  simp only [List.append_assoc, List.cons_append, List.nil_append]
  have items := readItems_indented each
    (by omega : (indentedItems (depth + 1) (item :: others)).length ≤ fuel) depth rest
  obtain ⟨more, written⟩ := indentedItems_eq (depth + 1) item others
  obtain ⟨c, tail, first, printed, filled⟩ := plain.indented_eq_cons (depth + 1)
  have starts : skipBlanks (indentedItems (depth + 1) (item :: others) ++
      (newLine depth ++ ']' :: rest)) = c :: (tail ++ more ++ (newLine depth ++ ']' :: rest)) := by
    rw [written, List.append_assoc, skipBlanks_newLine, first]
    exact skipBlanks_cons printed
  rw [readValue_array starts filled, items]
  rfl

theorem readsBack_object {entry : JsonText × Json} {others : List (JsonText × Json)}
    (texts : ∀ e ∈ entry :: others, e.1.isSome) (each : ∀ e ∈ entry :: others, e.2.ReadsBack) :
    (object (entry :: others)).ReadsBack := by
  intro fuel depth rest enough _
  rw [indented] at enough ⊢
  simp only [List.length_append, List.length_cons, length_newLine] at enough
  obtain ⟨fuel, rfl⟩ : ∃ less, fuel = less + 1 := ⟨fuel - 1, by omega⟩
  simp only [List.append_assoc, List.cons_append, List.nil_append]
  have entries := readEntries_indented texts each
    (by omega : (indentedEntries (depth + 1) (entry :: others)).length ≤ fuel) depth rest
  obtain ⟨key, value⟩ := entry
  obtain ⟨key, rfl⟩ := Option.isSome_iff_exists.1 (texts (key, value) List.mem_cons_self)
  obtain ⟨more, written⟩ := indentedEntries_eq (depth + 1) (some key) value others
  have starts : skipBlanks (indentedEntries (depth + 1) ((some key, value) :: others) ++
      (newLine depth ++ '\x7d' :: rest)) =
        '"' :: (key.flatMap escapeChar ++ '"' :: (more ++ (newLine depth ++ '\x7d' :: rest))) := by
    have quote : isBlank '"' = false := by decide
    rw [written, List.append_assoc, skipBlanks_newLine, List.append_assoc, printText_append]
    exact skipBlanks_cons quote
  rw [readValue_object starts (by decide), entries]
  rfl

/-- What is printed is read back at any depth. -/
theorem Plain.readsBack {j : Json} (plain : j.Plain) : j.ReadsBack := by
  induction plain with
  | null => exact fun _ _ _ _ _ => rfl
  | bool b =>
    intro fuel depth rest _ _
    cases b <;> rfl
  | nat n => exact fun fuel depth rest _ follows => readValue_number follows
  | text text => exact fun fuel depth rest _ _ => readValue_text fuel text rest
  | @array items plain ih =>
    cases items with
    | nil => exact fun _ _ _ _ _ => rfl
    | cons item others => exact readsBack_array (plain item List.mem_cons_self) ih
  | @object entries texts _ ih =>
    cases entries with
    | nil => exact fun _ _ _ _ _ => rfl
    | cons entry others => exact readsBack_object texts ih

/-- The text of a document is read as the document. -/
theorem Plain.read?_indented {j : Json} (plain : j.Plain) (depth : Nat) :
    read? (j.indented depth) = some j := by
  have read := plain.readsBack (j.indented depth).length depth [] (Nat.le_refl _) follows_nil
  rw [List.append_nil] at read
  rw [read?, read]
  rfl

end Slotform.Json
