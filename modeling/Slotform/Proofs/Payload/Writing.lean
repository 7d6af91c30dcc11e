import Slotform.Payload.Encode
import Slotform.Proofs.Payload.Width
import Slotform.Proofs.Success

namespace Slotform

namespace Mapper

variable {node : Node} {kind : Kind} {codec : Codec} {view : Schema} {declared : List Schema}
  {m element inner : Mapper} {members : List Mapper} {v : Value} {L slot : Layout}
  {slots : List Layout} {text : List Char}

/-! ## Headers -/

theorem writeHeader_leaf_ok : (leaf node kind codec).writeHeader L = .ok text ↔
    ∃ width, L = .leaf width ∧ text = kind.name.toList ++ '(' :: Decimal.digits width ++ [')'] := by
  cases L <;> simp [writeHeader, @eq_comm _ text]

/-- A small number in three characters. -/
example : (leaf ⟨"age", .primitive .u8, .single, false, .unset, []⟩ (.primitive .u8)
    (.ofPrimitive .u8)).writeHeader (.leaf 3) = .ok "u8(3)".toList := by
  cbv

theorem writeHeader_record_ok : (record node declared members).writeHeader L = .ok text ↔
    ∃ slots inside, L = .record slots ∧ slots.length = members.length ∧
      writeMemberHeaders members slots = .ok inside ∧ text = '\x7b' :: inside ++ ['\x7d'] := by
  cases L <;> simp [writeHeader, @eq_comm _ text]

theorem writeHeader_repeated_ok : (repeated view element).writeHeader L = .ok text ↔
    ∃ occurs slot inside, L = .repeated occurs slot ∧ element.writeHeader slot = .ok inside ∧
      text = inside ++ '[' :: Decimal.digits occurs ++ [']'] := by
  cases L <;> simp [writeHeader, @eq_comm _ text]

theorem writeHeader_optional_ok : (optional view inner).writeHeader L = .ok text ↔
    ∃ slot inside, L = .optional slot ∧ inner.writeHeader slot = .ok inside ∧
      text = inside ++ ['?'] := by
  cases L <;> simp [writeHeader, @eq_comm _ text]

theorem length_writeHeader_pos (written : m.writeHeader L = .ok text) : 0 < text.length := by
  cases m with
  | leaf =>
    obtain ⟨width, rfl, rfl⟩ := writeHeader_leaf_ok.1 written
    simp only [List.length_append, List.length_cons]
    omega
  | record =>
    obtain ⟨slots, inside, rfl, _, _, rfl⟩ := writeHeader_record_ok.1 written
    simp only [List.length_append, List.length_cons]
    omega
  | repeated =>
    obtain ⟨occurs, slot, inside, rfl, _, rfl⟩ := writeHeader_repeated_ok.1 written
    simp only [List.length_append, List.length_cons]
    omega
  | optional =>
    obtain ⟨slot, inside, rfl, _, rfl⟩ := writeHeader_optional_ok.1 written
    simp only [List.length_append, List.length_cons]
    omega

theorem writeMemberHeaders_cons_ok :
    writeMemberHeaders (m :: members) (slot :: slots) = .ok text ↔
      ∃ header rest, m.writeHeader slot = .ok header ∧
        writeMemberHeaders members slots = .ok rest ∧
        text = m.name.toList ++ ':' :: header ++ if members.isEmpty then [] else ';' :: rest := by
  simp only [writeMemberHeaders, bind_eq_ok, Except.ok.injEq, @eq_comm _ text]
  cases members <;> simp

/-! ## Slots -/

theorem write_leaf_ok : (leaf node kind codec).write v L = .ok text ↔
    ∃ width rendered, L = .leaf width ∧ renderLeaf node kind codec v = .ok rendered ∧
      rendered.length ≤ width ∧ text = Slot.fill (leafAlign node codec) width rendered := by
  cases L <;> simp [write, @eq_comm _ text]

/-- A number stands at the right end of its slot. -/
example : (leaf ⟨"age", .primitive .u8, .single, false, .unset, []⟩ (.primitive .u8)
    (.ofPrimitive .u8)).write (.atom (.u8 7)) (.leaf 3) = .ok "  7".toList := by
  cbv

theorem write_record_ok : (record node declared members).write v L = .ok text ↔
    ∃ slots values, L = .record slots ∧
      recordValues node declared (members.map name) v = .ok values ∧
      slots.length = members.length ∧ writeMembers members values slots = .ok text := by
  cases L <;> simp [write]

theorem write_repeated_ok : (repeated view element).write v L = .ok text ↔
    ∃ occurs slot items texts, L = .repeated occurs slot ∧ v = .list items ∧
      items.length ≤ occurs ∧
      List.Forall₂ (fun item text => element.write item slot = .ok text) items texts ∧
      (occurs - items.length) * slot.width < UInt64.size ∧
      text = Decimal.padded (Decimal.digitCount occurs) items.length ++ texts.flatten ++
        Slot.blanks ((occurs - items.length) * slot.width) := by
  cases v <;> cases L <;>
    simp [write, listItems, mapM_eq_ok, Layout.blankWidth_ok, @eq_comm _ text]

theorem write_optional_ok : (optional view inner).write v L = .ok text ↔
    ∃ slot, L = .optional slot ∧ ((v = .absent ∧ text = '0' :: Slot.blanks slot.width) ∨
      ∃ x rest, v = .present x ∧ inner.write x slot = .ok rest ∧ text = '1' :: rest) := by
  cases v <;> cases L <;> simp [write, @eq_comm _ text]

theorem writeMembers_cons_ok {values : List Value} :
    writeMembers (m :: members) (v :: values) (slot :: slots) = .ok text ↔
      ∃ first rest, m.write v slot = .ok first ∧ writeMembers members values slots = .ok rest ∧
        text = first ++ rest := by
  simp [writeMembers, @eq_comm _ text]

/-- Members can be written in the place of others, if the first is written as the first and the rest
as the rest. -/
theorem writeMembers_cons_in_place {m' : Mapper} {members' : List Mapper} {v' : Value}
    {values values' : List Value}
    (first : ∀ L text, m.write v L = .ok text → m'.write v' L = .ok text)
    (others : ∀ slots text, writeMembers members values slots = .ok text →
      writeMembers members' values' slots = .ok text)
    {all : List Layout} (written : writeMembers (m :: members) (v :: values) all = .ok text) :
    writeMembers (m' :: members') (v' :: values') all = .ok text := by
  cases all with
  | nil => exact written
  | cons slot slots =>
    obtain ⟨text, rest, once, more, rfl⟩ := writeMembers_cons_ok.1 written
    exact writeMembers_cons_ok.2 ⟨text, rest, first _ _ once, others _ _ more, rfl⟩

end Mapper

end Slotform
