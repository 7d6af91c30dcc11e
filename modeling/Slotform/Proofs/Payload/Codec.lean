import Mathlib.Data.List.DropRight
import Slotform.Proofs.Binary.Text
import Slotform.Proofs.Payload.Grammar

namespace Slotform

namespace Slot

variable {align : Align} {text : List Char} {width : Nat}

theorem length_fill (fits : text.length ≤ width) : (fill align width text).length = width := by
  unfold fill blanks
  cases align <;> simp only [List.length_append, List.length_replicate] <;> omega

theorem fill_full : fill align text.length text = text := by
  unfold fill blanks
  cases align <;> simp

theorem trimStart_blanks (n : Nat) : trimStart (blanks n ++ text) = trimStart text := by
  unfold trimStart blanks
  exact List.dropWhile_append_of_pos (by simp)

theorem trimEnd_blanks (n : Nat) : trimEnd (text ++ blanks n) = trimEnd text := by
  have reversed : (text ++ blanks n).reverse = blanks n ++ text.reverse := by
    simp [blanks]
  unfold trimEnd
  rw [reversed]
  exact congrArg List.reverse (trimStart_blanks n)

/-- Padding is taken off again. -/
theorem unfill_fill : unfill align (fill align width text) = unfill align text := by
  cases align with
  | left => exact trimEnd_blanks _
  | right => exact trimStart_blanks _

theorem trimStart_eq_self_iff : trimStart text = text ↔ text.head? ≠ some ' ' := by
  cases text <;> simp [trimStart, List.dropWhile_eq_self_iff]

theorem trimEnd_eq_self_iff : trimEnd text = text ↔ text.getLast? ≠ some ' ' := by
  rw [← List.head?_reverse, ← trimStart_eq_self_iff]
  exact List.reverse_eq_iff

theorem trimStart_eq_self (h : ' ' ∉ text) : trimStart text = text :=
  trimStart_eq_self_iff.2 fun first => h (List.mem_of_head? first)

theorem trimEnd_eq_self (h : ' ' ∉ text) : trimEnd text = text :=
  trimEnd_eq_self_iff.2 fun last => h (List.mem_of_getLast? last)

theorem unfill_eq_self (h : ' ' ∉ text) : unfill align text = text := by
  cases align with
  | left => exact trimEnd_eq_self h
  | right => exact trimStart_eq_self h

theorem length_trimStart_le : (trimStart text).length ≤ text.length :=
  (List.dropWhile_suffix _).length_le

theorem length_trimEnd_le : (trimEnd text).length ≤ text.length := by
  unfold trimEnd
  rw [List.length_reverse]
  exact Nat.le_trans length_trimStart_le (Nat.le_of_eq List.length_reverse)

theorem length_unfill_le : (unfill align text).length ≤ text.length := by
  cases align with
  | left => exact length_trimEnd_le
  | right => exact length_trimStart_le

theorem trimStart_trimStart : trimStart (trimStart text) = trimStart text :=
  List.dropWhile_idempotent _ _

/-- Nothing more is taken off a text that has lost its padding. -/
theorem unfill_unfill : unfill align (unfill align text) = unfill align text := by
  cases align with
  | left =>
    have again : trimStart (trimStart text.reverse) = trimStart text.reverse := trimStart_trimStart
    change (trimStart (trimStart text.reverse).reverse.reverse).reverse = _
    rw [List.reverse_reverse, again]
    rfl
  | right => exact trimStart_trimStart

end Slot

def Primitive.isFloat : Primitive → Bool
  | f32 | f64 => true
  | _ => false

/-- What a payload keeps of an atom that stands at the given side of its slots. -/
def Atom.normal (align : Align) : Atom → Atom
  | string s => string (String.ofList (Slot.unfill align s.toList))
  | f32 x => f32 (if x.isNaN then ⟨false, BinaryFormat.single.infinity + 1⟩ else x)
  | f64 x => f64 (if x.isNaN then ⟨false, BinaryFormat.double.infinity + 1⟩ else x)
  | atom => atom

namespace Decimal

theorem space_not_mem_digits (n : Nat) : ' ' ∉ digits n :=
  fun h => absurd (isDigit_of_mem_digits h) (by decide)

theorem space_not_mem_signed (i : Int) : ' ' ∉ signed i := by
  cases i with
  | ofNat n => exact space_not_mem_digits n
  | negSucc n => simp [signed, space_not_mem_digits]

end Decimal

namespace Atom

/-- The text of a number has no space in it. -/
theorem space_not_mem_text {a : Atom} (number : a.primitive.isNumber = true) : ' ' ∉ a.text := by
  cases a with
  | bool | char | string => cases number
  | u8 | u16 | u32 | u64 => exact Decimal.space_not_mem_digits _
  | s8 | s16 | s32 | s64 => exact Decimal.space_not_mem_signed _
  | f32 x => exact x.space_not_mem_plain
  | f64 x => exact x.space_not_mem_plain

theorem read?_text {f : BinaryFormat} (narrow : f.scale ≤ f.exponents) (x : Binary f) :
    Binary.read? x.plain = some (if x.isNaN then ⟨false, f.infinity + 1⟩ else x) := by
  cases h : x.isNaN with
  | true => exact Binary.read?_plain_nan x h
  | false => exact Binary.read?_plain narrow x h

/-- A number is read back from its text. -/
theorem number?_text {a : Atom} (number : a.primitive.isNumber = true) (align : Align) :
    number? a.primitive a.text = some (a.normal align) := by
  cases a with
  | bool | char | string => cases number
  | u8 n =>
    have read := Decimal.readUnsigned_digits UInt8.size n.toNat_lt
    simp [primitive, number?, text, read, normal]
  | u16 n =>
    have read := Decimal.readUnsigned_digits UInt16.size n.toNat_lt
    simp [primitive, number?, text, read, normal]
  | u32 n =>
    have read := Decimal.readUnsigned_digits UInt32.size n.toNat_lt
    simp [primitive, number?, text, read, normal]
  | u64 n =>
    have read := Decimal.readUnsigned_digits UInt64.size n.toNat_lt
    simp [primitive, number?, text, read, normal]
  | s8 n =>
    have read := Decimal.readSigned_signed Int8.size n.le_toInt n.toInt_lt
    simp [primitive, number?, text, read, normal]
  | s16 n =>
    have read := Decimal.readSigned_signed Int16.size n.le_toInt n.toInt_lt
    simp [primitive, number?, text, read, normal]
  | s32 n =>
    have read := Decimal.readSigned_signed Int32.size n.le_toInt n.toInt_lt
    simp [primitive, number?, text, read, normal]
  | s64 n =>
    have read := Decimal.readSigned_signed Int64.size n.le_toInt n.toInt_lt
    simp [primitive, number?, text, read, normal]
  | f32 x =>
    have read := read?_text (f := .single) (by decide) x
    simp [primitive, number?, text, read, normal]
  | f64 x =>
    have read := read?_text (f := .double) (by decide) x
    simp [primitive, number?, text, read, normal]

theorem normal_whole {a : Atom} (whole : a.primitive.isFloat = false)
    (noText : a.primitive ≠ .string) (align : Align) : a.normal align = a := by
  cases a with
  | string => exact absurd rfl noText
  | f32 | f64 => cases whole
  | _ => rfl

/-- A whole number is written in no more characters than it was read from. -/
theorem length_number?_le {p : Primitive} {text : List Char} {a : Atom} (whole : p.isFloat = false)
    (h : number? p text = some a) : a.primitive = p ∧ a.text.length ≤ text.length := by
  cases p with
  | bool | char | string => cases h
  | f32 | f64 => cases whole
  | u8 | u16 | u32 | u64 =>
    obtain ⟨n, read, rfl⟩ := Option.map_eq_some_iff.1 h
    obtain ⟨small, short⟩ := Decimal.readUnsigned_le read
    refine ⟨rfl, ?_⟩
    simp only [Atom.text, UInt8.toNat_ofNat_of_lt', UInt16.toNat_ofNat_of_lt',
      UInt32.toNat_ofNat_of_lt', UInt64.toNat_ofNat_of_lt', small]
    exact short
  | s8 =>
    obtain ⟨i, read, rfl⟩ := Option.map_eq_some_iff.1 h
    obtain ⟨⟨lower, upper⟩, short⟩ := Decimal.readSigned_le (by decide) read
    exact ⟨rfl, by rwa [Atom.text, Int8.toInt_ofInt_of_le lower upper]⟩
  | s16 =>
    obtain ⟨i, read, rfl⟩ := Option.map_eq_some_iff.1 h
    obtain ⟨⟨lower, upper⟩, short⟩ := Decimal.readSigned_le (by decide) read
    exact ⟨rfl, by rwa [Atom.text, Int16.toInt_ofInt_of_le lower upper]⟩
  | s32 =>
    obtain ⟨i, read, rfl⟩ := Option.map_eq_some_iff.1 h
    obtain ⟨⟨lower, upper⟩, short⟩ := Decimal.readSigned_le (by decide) read
    exact ⟨rfl, by rwa [Atom.text, Int32.toInt_ofInt_of_le lower upper]⟩
  | s64 =>
    obtain ⟨i, read, rfl⟩ := Option.map_eq_some_iff.1 h
    obtain ⟨⟨lower, upper⟩, short⟩ := Decimal.readSigned_le (by decide) read
    exact ⟨rfl, by rwa [Atom.text, Int64.toInt_ofInt_of_le lower upper]⟩

end Atom

namespace Codec

open Mapper

variable {node : Node} {p : Primitive} {a : Atom} {width : Nat}

theorem render_ofPrimitive {v : Value} {text : List Char} :
    (ofPrimitive p).render v = .ok text ↔ ∃ a, v = .atom a ∧ a.primitive = p ∧ text = a.text := by
  cases v with
  | atom a => simp [ofPrimitive, @eq_comm _ text]
  | _ => simp [ofPrimitive]

theorem parse_number {text : List Char} (number : p.isNumber = true) :
    p.parse text = match Atom.number? p (Slot.trimStart (Slot.trimEnd text)) with
      | some atom => .ok atom
      | none => .error (.invalid (Slot.trimStart (Slot.trimEnd text))) := by
  cases p <;> first | rfl | cases number

/-- A codec reads out of a slot what it wrote into it. -/
theorem parse_fill (kind : a.primitive = p)
    (exact : ∀ fixed ∈ (ofPrimitive p).fixedWidth, width = fixed) :
    (ofPrimitive p).parse (slotText node (ofPrimitive p)
      (Slot.fill (leafAlign node (ofPrimitive p)) width a.text)) =
        .ok (.atom (a.normal (leafAlign node (ofPrimitive p)))) := by
  subst kind
  cases number : a.primitive.isNumber with
  | true =>
    have one : a.primitive.isOneChar = false := by
      cases a <;> first | rfl | cases number
    have bare := Atom.space_not_mem_text number
    have slot : slotText node (ofPrimitive a.primitive)
        (Slot.fill (leafAlign node (ofPrimitive a.primitive)) width a.text) = a.text := by
      simp [slotText, ofPrimitive, one, Slot.unfill_fill, Slot.unfill_eq_self bare]
    have parsed : a.primitive.parse a.text =
        .ok (a.normal (leafAlign node (ofPrimitive a.primitive))) := by
      have read := Atom.number?_text number (leafAlign node (ofPrimitive a.primitive))
      rw [parse_number number, Slot.trimEnd_eq_self bare, Slot.trimStart_eq_self bare, read]
    rw [slot]
    exact congrArg (Except.map Value.atom) parsed
  | false =>
    cases a with
    | bool b =>
      have width_eq : width = (Atom.bool b).text.length := by
        rw [exact 1 rfl]
        cases b <;> rfl
      rw [width_eq, Slot.fill_full]
      cases b <;> rfl
    | char c =>
      have width_eq : width = (Atom.char c).text.length := exact 1 rfl
      rw [width_eq, Slot.fill_full]
      rfl
    | string s =>
      have slot : slotText node (ofPrimitive .string)
          (Slot.fill (leafAlign node (ofPrimitive .string)) width s.toList) =
            Slot.unfill (leafAlign node (ofPrimitive .string)) s.toList := Slot.unfill_fill
      exact congrArg (Except.map Value.atom ∘ Primitive.parse .string) slot
    | _ => cases number

/-- Reading a boolean or a character takes a slot of one character. -/
theorem parse_oneChar {text : List Char} {a : Atom} (one : p.isOneChar = true)
    (h : p.parse text = .ok a) : a.primitive = p ∧ a.text = text := by
  cases p with
  | bool =>
    rw [Primitive.parse] at h
    split at h
    next isOne =>
      cases h
      exact ⟨rfl, isOne.symm⟩
    next =>
      obtain ⟨isZero, h⟩ := ite_ok_error_eq_ok.1 h
      cases h
      exact ⟨rfl, isZero.symm⟩
  | char =>
    unfold Primitive.parse at h
    cases text with
    | nil => cases h
    | cons c rest =>
      cases rest with
      | nil =>
        cases h
        exact ⟨rfl, rfl⟩
      | cons => cases h
  | _ => cases one

theorem slotText_oneChar {slot : List Char} (one : p.isOneChar = true) :
    slotText node (ofPrimitive p) slot = slot := by
  simp [slotText, ofPrimitive, one]

theorem slotText_unfill {slot : List Char} (many : p.isOneChar = false) :
    slotText node (ofPrimitive p) slot = Slot.unfill (leafAlign node (ofPrimitive p)) slot := by
  simp [slotText, ofPrimitive, many]

/-- What a codec reads out of a slot is an atom in normal form, whose text needs no wider slot. -/
theorem parse_slotText {slot : List Char} {v : Value} (whole : p.isFloat = false)
    (h : (ofPrimitive p).parse (slotText node (ofPrimitive p) slot) = .ok v) :
    ∃ a, v = .atom a ∧ a.primitive = p ∧ a.text.length ≤ slot.length ∧
      a.normal (leafAlign node (ofPrimitive p)) = a := by
  obtain ⟨a, parsed, rfl⟩ := map_eq_ok.1 h
  refine ⟨a, rfl, ?_⟩
  cases one : p.isOneChar with
  | true =>
    rw [slotText_oneChar one] at parsed
    obtain ⟨rfl, rfl⟩ := parse_oneChar one parsed
    have noText : a.primitive ≠ .string := by
      intro same
      rw [same] at one
      cases one
    exact ⟨rfl, Nat.le_refl _, Atom.normal_whole whole noText _⟩
  | false =>
    rw [slotText_unfill one] at parsed
    cases number : p.isNumber with
    | true =>
      rw [parse_number number] at parsed
      split at parsed
      next a read =>
        cases parsed
        obtain ⟨rfl, short⟩ := Atom.length_number?_le whole read
        have noText : a.primitive ≠ .string := by
          intro same
          rw [same] at number
          cases number
        refine ⟨rfl, ?_, Atom.normal_whole whole noText _⟩
        exact Nat.le_trans short (Nat.le_trans Slot.length_trimStart_le
          (Nat.le_trans Slot.length_trimEnd_le Slot.length_unfill_le))
      next => cases parsed
    | false =>
      obtain rfl : p = .string := by
        revert one number
        cases p <;> simp [Primitive.isOneChar, Primitive.isNumber]
      cases parsed
      refine ⟨rfl, ?_, ?_⟩
      · rw [Atom.text, String.toList_ofList]
        exact Slot.length_unfill_le
      · rw [Atom.normal, String.toList_ofList, Slot.unfill_unfill]

end Codec

end Slotform
