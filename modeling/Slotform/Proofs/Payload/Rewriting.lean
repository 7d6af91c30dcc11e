import Slotform.Proofs.Binary.Expansion
import Slotform.Proofs.Payload.Factory
import Slotform.Proofs.Payload.RoundTrip

/-!
# Sized slots written again

A floating-point number that was read out of a sized slot is written back into it whenever its
plain notation fits, and is refused for want of room otherwise (`Factory.rewrite_float`). Without
an exponent in the slot at most one character is missing, and none if the slot has a space in it or
a point behind a digit. With an exponent there is no such bound: four characters may hold a number
of eleven digits (`Factory.scientific_slot_refused`).
-/

namespace Slotform

namespace Slot

variable {align : Align} {slot : List Char}

theorem infix_trimStart : trimStart slot <:+: slot := (List.dropWhile_suffix _).isInfix

theorem infix_trimEnd : trimEnd slot <:+: slot := by
  have reversed : (trimEnd slot).reverse <:+: slot.reverse := by
    rw [trimEnd, List.reverse_reverse]
    exact infix_trimStart
  exact List.reverse_infix.1 reversed

/-- The text between the spaces of a slot. -/
def trimmed (align : Align) (slot : List Char) : List Char :=
  trimStart (trimEnd (unfill align slot))

theorem infix_trimmed : trimmed align slot <:+: slot := by
  have unfilled : unfill align slot <:+: slot := by
    cases align with
    | left => exact infix_trimEnd
    | right => exact infix_trimStart
  exact infix_trimStart.trans (infix_trimEnd.trans unfilled)

theorem trimmed_eq_self (h : ' ' ∉ slot) : trimmed align slot = slot := by
  rw [trimmed, unfill_eq_self h, trimEnd_eq_self h, trimStart_eq_self h]

theorem length_trimmed_lt (inside : ' ' ∈ slot) (bare : ' ' ∉ trimmed align slot) :
    (trimmed align slot).length < slot.length := by
  refine Nat.lt_of_le_of_ne infix_trimmed.length_le fun same => bare ?_
  rwa [infix_trimmed.eq_of_length same]

end Slot

/-! ## Numbers in slots -/

namespace Atom

/-- Not a number, where there is such a thing. -/
def isNaN : Atom → Bool
  | f32 x => x.isNaN
  | f64 x => x.isNaN
  | _ => false

theorem normal_float {a : Atom} (float : a.primitive.isFloat = true) (number : a.isNaN = false)
    (align : Align) : a.normal align = a := by
  cases a with
  | f32 x | f64 x =>
    have number : x.isNaN = false := number
    rw [normal, number]
    rfl
  | _ => cases float

/-- A floating-point number is written in at most one character more than a text without an
exponent, and in no more characters if a point stands right behind a digit. -/
theorem length_text_float_le {p : Primitive} {text : List Char} {a : Atom} (float : p.isFloat = true)
    (h : number? p text = some a) (number : a.isNaN = false) (lower : 'e' ∉ text)
    (upper : 'E' ∉ text) :
    ' ' ∉ text ∧ a.text.length ≤ text.length + 1 ∧
      ((∃ c : Char, c.isDigit = true ∧ [c, '.'] <:+: text) → a.text.length ≤ text.length) := by
  cases p with
  | f32 =>
    obtain ⟨x, read, rfl⟩ := Option.map_eq_some_iff.1 h
    exact Binary.length_plain_le (by decide) (by decide) number read lower upper
  | f64 =>
    obtain ⟨x, read, rfl⟩ := Option.map_eq_some_iff.1 h
    exact Binary.length_plain_le (by decide) (by decide +kernel) number read lower upper
  | _ => cases float

end Atom

namespace Codec

open Mapper

variable {node : Node} {p : Primitive} {slot : List Char} {a : Atom}

theorem parse_slotText_float (float : p.isFloat = true) :
    (ofPrimitive p).parse (slotText node (ofPrimitive p) slot) = .ok (.atom a) ↔
      Atom.number? p (Slot.trimmed (leafAlign node (ofPrimitive p)) slot) = some a := by
  have number : p.isNumber = true := by
    cases p <;> first | rfl | cases float
  have many : p.isOneChar = false := by
    cases p <;> first | rfl | cases float
  have parsed : (ofPrimitive p).parse (slotText node (ofPrimitive p) slot) =
      (p.parse (slotText node (ofPrimitive p) slot)).map .atom := rfl
  rw [parsed, slotText_unfill many, parse_number number, Slot.trimmed]
  split
  next read => simp [Except.map, read]
  next refused => simp [Except.map, refused]

theorem primitive_of_number? (float : p.isFloat = true) {text : List Char}
    (h : Atom.number? p text = some a) : a.primitive = p := by
  cases p with
  | f32 | f64 =>
    obtain ⟨x, _, rfl⟩ := Option.map_eq_some_iff.1 h
    rfl
  | _ => cases float

end Codec

/-! ## Leaves with a size -/

namespace Mapper

/-- The value has its place in slots of the width: measuring it keeps the width, and the slot it is
written into reads back as the value. -/
structure Refits (m : Mapper) (v : Value) (width : Nat) : Prop where
  measured : m.measure v (.leaf width) = (.ok (), .leaf width)
  written : ∃ text, m.write v (.leaf width) = .ok text ∧ text.length = width ∧
    ∀ rest position,
      m.read (.leaf width) ⟨text ++ rest, position⟩ = .ok (v, ⟨rest, position + width⟩)

/-- The value needs a wider slot: both measuring and writing say how much wider. -/
structure Exceeds (m : Mapper) (v : Value) (needed width : Nat) : Prop where
  measured : m.measure v (.leaf width) = (.error (.overflow m.name needed width), .leaf width)
  written : m.write v (.leaf width) = .error (.overflow m.name needed width)

variable {node : Node} {a : Atom} {width : Nat}

theorem renderLeaf_atom (node : Node) (a : Atom) :
    renderLeaf node (.primitive a.primitive) (.ofPrimitive a.primitive) (.atom a) = .ok a.text := by
  simp [renderLeaf, Codec.ofPrimitive, Except.mapError]

theorem refits_float (float : a.primitive.isFloat = true) (number : a.isNaN = false)
    (sized : leafWidth? node (.ofPrimitive a.primitive) = some width)
    (fits : a.text.length ≤ width) :
    (leaf node (.primitive a.primitive) (.ofPrimitive a.primitive)).Refits (.atom a) width := by
  have rendered := renderLeaf_atom node a
  have loose : ∀ fixed ∈ (Codec.ofPrimitive a.primitive).fixedWidth, width = fixed := by
    cases a with
    | f32 | f64 => exact fun _ h => by cases h
    | _ => cases float
  refine ⟨?_, _, write_leaf_ok.2 ⟨width, _, rfl, rendered, fits, rfl⟩, Slot.length_fill fits, ?_⟩
  · simp only [measure, rendered, sized, if_neg (Nat.not_lt.2 fits)]
  · intro rest position
    refine read_leaf_ok.2 ⟨_, Slot.length_fill fits, ⟨rfl, ?_⟩, ?_⟩
    · rw [Slot.length_fill fits]
    · rw [Codec.parse_fill rfl loose, Atom.normal_float float number]

theorem exceeds_atom (sized : leafWidth? node (.ofPrimitive a.primitive) = some width)
    (short : width < a.text.length) :
    (leaf node (.primitive a.primitive) (.ofPrimitive a.primitive)).Exceeds (.atom a)
      a.text.length width := by
  have rendered := renderLeaf_atom node a
  constructor
  · simp only [measure, rendered, sized, if_pos short]
    rfl
  · simp only [write, rendered]
    exact if_pos short

end Mapper

/-! ## Leaves of a factory -/

namespace Factory

open Mapper

/-- A floating-point number that was read out of a sized slot is written back into the slot exactly
if its plain notation has no more characters, and otherwise is refused for want of room. A slot
without an exponent lacks one character at most, and none if it has a space in it or a point behind
a digit. -/
theorem rewrite_float {codecs : CodecTable} {past : List Schema} {node : Node} {p : Primitive}
    (float : p.isFloat = true) (bare : node.Bare) {size : UInt32}
    (sized : node.format.size = some size)
    (builtin : codecs.codec? (.primitive p) = some (.ofPrimitive p))
    (distinct : Fingerprint.Identifies (past ++ [.leaf node (.primitive p)])) {kept : Kept Mapper}
    (made : ((after codecs past).create (.leaf node (.primitive p))).1 = .ok kept)
    {c c' : Cursor} {slot : List Char} (passes : c.Passes slot c') {a : Atom}
    (read : kept.value.read (.leaf size.toNat) c = .ok (.atom a, c')) (number : a.isNaN = false) :
    slot.length = size.toNat ∧
      (a.text.length ≤ size.toNat → kept.value.Refits (.atom a) size.toNat) ∧
      (size.toNat < a.text.length → kept.value.Exceeds (.atom a) a.text.length size.toNat) ∧
      ('e' ∉ slot → 'E' ∉ slot → a.text.length ≤ slot.length + 1 ∧
        (' ' ∈ slot ∨ (∃ digit : Char, digit.isDigit = true ∧ [digit, '.'] <:+: slot) →
          a.text.length ≤ slot.length)) := by
  have assembled := create_assembles distinct made
  obtain ⟨_, codec, found, leaf, _⟩ := (CodecTable.assemble_leaf_ok bare).1 assembled
  cases builtin.symm.trans found
  rw [leaf] at read ⊢
  obtain ⟨slot', length, passes', parsed⟩ := read_leaf_ok.1 read
  obtain rfl : slot = slot' := List.append_cancel_right (passes.1.symm.trans passes'.1)
  have denoted := (Codec.parse_slotText_float float).1 parsed
  obtain rfl := Codec.primitive_of_number? float denoted
  have width : leafWidth? node (.ofPrimitive a.primitive) = some size.toNat := by
    have loose : (Codec.ofPrimitive a.primitive).fixedWidth = none := by
      cases a with
      | f32 | f64 => rfl
      | _ => cases float
    rw [leafWidth?, loose, sized]
    rfl
  refine ⟨length, refits_float float number width, exceeds_atom width, ?_⟩
  intro lower upper
  have inside : Slot.trimmed (leafAlign node (.ofPrimitive a.primitive)) slot <:+: slot :=
    Slot.infix_trimmed
  obtain ⟨bare, near, pointed⟩ := Atom.length_text_float_le float denoted number
    (fun h => lower (inside.subset h)) (fun h => upper (inside.subset h))
  by_cases space : ' ' ∈ slot
  · have shorter := Slot.length_trimmed_lt space bare
    exact ⟨by omega, fun _ => by omega⟩
  · rw [Slot.trimmed_eq_self space] at near pointed
    exact ⟨near, fun h => pointed (h.resolve_left space)⟩

end Factory

/-! ## Slots of four characters -/

namespace Sample

/-- A number in single precision, in four characters. -/
def reading : Node := { name := "reading", element := .primitive .f32, format := { size := some 4 } }

def readingMapper : Mapper := .leaf reading (.primitive .f32) (.ofPrimitive .f32)

theorem assemble_reading :
    CodecTable.assemble [] (.leaf reading (.primitive .f32)) = .ok readingMapper := rfl

theorem distinct_reading :
    Fingerprint.Identifies ([] ++ [.leaf reading (.primitive .f32)]) := by decide +kernel

theorem read_reading {slot : List Char} {a : Atom} (length : slot.length = 4)
    (h : Atom.number? .f32 (Slot.trimmed .right slot) = some a) :
    readingMapper.read (.leaf 4) (.ofText slot) = .ok (.atom a, ⟨[], 4⟩) :=
  Mapper.read_leaf_ok.2 ⟨slot, length, ⟨(List.append_nil slot).symm, length ▸ (Nat.zero_add _).symm⟩,
    (Codec.parse_slotText_float rfl).2 h⟩

end Sample

namespace Factory

open Sample

/-- One and a half stands in its slot after a space, and fits it again. -/
theorem rewrite_float_reading :
    ∃ kept : Kept Mapper,
      ((after [] []).create (.leaf reading (.primitive .f32))).1 = .ok kept ∧
      kept.value.read (.leaf 4) (.ofText " 1.5".toList) =
        .ok (.atom (.f32 ⟨false, 0x3fc00000⟩), ⟨[], 4⟩) ∧
      kept.value.Refits (.atom (.f32 ⟨false, 0x3fc00000⟩)) 4 := by
  obtain ⟨kept, made, value⟩ := create_ok [] distinct_reading assemble_reading
  have read : kept.value.read (.leaf 4) (.ofText " 1.5".toList) =
      .ok (.atom (.f32 ⟨false, 0x3fc00000⟩), ⟨[], 4⟩) :=
    value ▸ read_reading rfl (by decide +kernel)
  have fits : (Atom.f32 ⟨false, 0x3fc00000⟩).text.length ≤ 4 := by decide +kernel
  have four : (4 : UInt32).toNat = 4 := rfl
  have passes : (Cursor.ofText " 1.5".toList).Passes " 1.5".toList ⟨[], 4⟩ := ⟨rfl, rfl⟩
  have sized : reading.format.size = some 4 := rfl
  have rewritten := rewrite_float rfl ⟨rfl, rfl⟩ sized rfl distinct_reading made passes
    (four ▸ read) (by decide)
  exact ⟨kept, made, read, rewritten.2.1 fits⟩

/-- Ten thousand million is read out of four characters, and then needs eleven. -/
theorem scientific_slot_refused :
    ∃ kept : Kept Mapper,
      ((after [] []).create (.leaf reading (.primitive .f32))).1 = .ok kept ∧
      kept.value.read (.leaf 4) (.ofText "1e10".toList) =
        .ok (.atom (.f32 ⟨false, 0x501502f9⟩), ⟨[], 4⟩) ∧
      kept.value.measure (.atom (.f32 ⟨false, 0x501502f9⟩)) (.leaf 4) =
        (.error (.overflow "reading" 11 4), .leaf 4) ∧
      kept.value.write (.atom (.f32 ⟨false, 0x501502f9⟩)) (.leaf 4) =
        .error (.overflow "reading" 11 4) := by
  obtain ⟨kept, made, value⟩ := create_ok [] distinct_reading assemble_reading
  have text : (Atom.f32 ⟨false, 0x501502f9⟩).text = "10000000000".toList := by decide +kernel
  let a : Atom := .f32 ⟨false, 0x501502f9⟩
  have sized : Mapper.leafWidth? reading (.ofPrimitive a.primitive) = some 4 := rfl
  have short : 4 < a.text.length := text ▸ by decide
  have wide := Mapper.exceeds_atom sized short
  rw [text] at wide
  refine ⟨kept, made, ?_, ?_, ?_⟩
  · rw [value]
    exact read_reading rfl (by decide +kernel)
  · rw [value]
    exact wide.measured
  · rw [value]
    exact wide.written

end Factory

end Slotform
