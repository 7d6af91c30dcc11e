import Slotform.Proofs.Payload.Codec
import Slotform.Proofs.Payload.Factory
import Slotform.Proofs.Payload.Least

namespace Slotform

namespace Mapper

/-- What is written can be counted, or what is announced can. -/
def Countable (text : List Char) (width : Nat) : Prop :=
  text.length < maxWord ∨ width < UInt64.size

theorem Countable.part {text text' : List Char} {width width' : Nat} (h : Countable text width)
    (shorter : text'.length ≤ text.length) (narrower : width' ≤ width) : Countable text' width' :=
  h.imp (Nat.lt_of_le_of_lt shorter) (Nat.lt_of_le_of_lt narrower)

/-- Blanks that can be counted are as wide as the slots that they stand for. -/
theorem mul_width_of_countable {unused : Nat} {slot : Layout}
    (counted : Countable (Slot.blanks (unused * slot.width)) (unused * slot.exactWidth)) :
    unused * slot.width = unused * slot.exactWidth := by
  rw [Countable, length_blanks] at counted
  exact Layout.mul_width_exact counted

theorem length_flatten {slot : Layout} {write : Value → Except PayloadError (List Char)}
    {items : List Value} {texts : List (List Char)}
    (written : List.Forall₂ (fun v text => write v = .ok text) items texts)
    (each : ∀ v ∈ items, ∀ text ∈ texts, write v = .ok text → text.length = slot.exactWidth) :
    texts.flatten.length = items.length * slot.exactWidth := by
  induction written with
  | nil => simp
  | @cons v text _ _ first _ ih =>
    have others := ih fun w hw text ht =>
      each w (List.mem_cons_of_mem _ hw) text (List.mem_cons_of_mem _ ht)
    rw [List.flatten_cons, List.length_append, others, List.length_cons, Nat.succ_mul,
      each v List.mem_cons_self text List.mem_cons_self first, Nat.add_comm]

mutual

theorem write_length : (m : Mapper) → ∀ {v : Value} {L : Layout} {text : List Char},
    m.write v L = .ok text → Countable text L.exactWidth → text.length = L.exactWidth
  | leaf node kind codec, _, _, _, written, _ => by
    obtain ⟨width, _, rfl, _, fits, rfl⟩ := write_leaf_ok.1 written
    exact Slot.length_fill fits
  | record node declared members, v, _, _, written, counted => by
    obtain ⟨slots, values, rfl, known, same, inside⟩ := write_record_ok.1 written
    obtain ⟨_, _, _, found⟩ := recordValues_ok.1 known
    rw [List.forall₂_map_left_iff] at found
    exact writeMembers_length members same found.length_eq.symm inside counted
  | repeated view element, _, _, _, written, counted => by
    obtain ⟨occurs, slot, items, texts, rfl, rfl, fits, each, _, rfl⟩ :=
      write_repeated_ok.1 written
    rw [Layout.exactWidth] at counted ⊢
    have slots : occurs * slot.exactWidth =
        items.length * slot.exactWidth + (occurs - items.length) * slot.exactWidth := by
      rw [← Nat.add_mul, Nat.add_sub_cancel' fits]
    have blanks := mul_width_of_countable (counted.part (by simp only [List.length_append]; omega)
      (by omega : (occurs - items.length) * slot.exactWidth ≤ _))
    have item : ∀ v ∈ items, ∀ text ∈ texts, element.write v slot = .ok text →
        text.length = slot.exactWidth := by
      intro v hv text ht once
      have some : 0 < occurs := Nat.lt_of_lt_of_le (List.length_pos_of_mem hv) fits
      have one : slot.exactWidth ≤ occurs * slot.exactWidth := Nat.le_mul_of_pos_left _ some
      have part := (List.sublist_flatten_of_mem ht).length_le
      apply write_length element once
      exact counted.part (by simp only [List.length_append]; omega) (by omega)
    rw [List.length_append, List.length_append, Decimal.length_padded fits,
      length_flatten each item, length_blanks, blanks, slots, Nat.add_assoc]
  | optional view inner, _, _, _, written, counted => by
    obtain ⟨slot, rfl, ⟨rfl, rfl⟩ | ⟨x, rest, rfl, once, rfl⟩⟩ := write_optional_ok.1 written
    · rw [Countable, List.length_cons, length_blanks, Layout.exactWidth] at counted
      rw [List.length_cons, length_blanks, Layout.exactWidth,
        Layout.width_exact (counted.imp Nat.lt_of_succ_lt Nat.lt_of_succ_lt)]
    · have inside := write_length inner once
        (counted.part (by simp) (by simp [Layout.exactWidth]))
      rw [List.length_cons, inside, Layout.exactWidth]

theorem writeMembers_length : (members : List Mapper) →
    ∀ {values : List Value} {slots : List Layout} {text : List Char},
      slots.length = members.length → values.length = members.length →
      writeMembers members values slots = .ok text →
      Countable text (Layout.exactWidths slots) → text.length = Layout.exactWidths slots
  | [], [], [], _, _, _, written, _ => by
    cases written
    rfl
  | member :: rest, v :: values, slot :: slots, _, same, same', written, counted => by
    obtain ⟨text, texts, once, inside, rfl⟩ := writeMembers_cons_ok.1 written
    rw [Layout.exactWidths] at counted ⊢
    have first := write_length member once (counted.part (by simp) (by omega))
    have others := writeMembers_length rest (Nat.succ.inj same) (Nat.succ.inj same') inside
      (counted.part (by simp) (by omega))
    rw [List.length_append, first, others]

end

/-- Slots that can be counted have a width that can. -/
theorem exactWidth_lt_of_write {m : Mapper} {v : Value} {L : Layout} {text : List Char}
    (written : m.write v L = .ok text) (counted : text.length < maxWord) :
    L.exactWidth < UInt64.size := by
  rw [← write_length m written (.inl counted)]
  exact Nat.lt_of_lt_of_le counted (Nat.sub_le _ _)

/-- A payload whose characters a word counts has a layout of that width: no product was too large
for it to be written. -/
theorem encode_narrow {m : Mapper} {v : Value} {t : List Char} (encoded : m.encode v = .ok t)
    (short : t.length ≤ maxWord) : (m.measured v).exactWidth < UInt64.size := by
  obtain ⟨_, header, slots, headed, filled, rfl⟩ := encode_ok.1 encoded
  have some := length_writeHeader_pos headed
  rw [List.length_append] at short
  exact exactWidth_lt_of_write filled (by omega)

/-- A value that has been measured is written if and only if every number of blanks is a word, and
nothing but a larger product keeps it from being written. The slots have the width that is
announced, as far as they can be counted; and where the exact width of the layout is a word, they
are written. -/
theorem write_pads (m : Mapper) (v : Value) (fits : (m.measure v m.layout).1 = .ok ()) :
    ((∃ slots, m.write v (m.measured v) = .ok slots) ↔
        ∀ n, m.Pads v (m.measured v) n → n < UInt64.size) ∧
      (∀ e, m.write v (m.measured v) = .error e → ∃ a b, e = .wordOverflow a b ∧
        m.Pads v (m.measured v) (a * b) ∧ UInt64.size ≤ a * b) ∧
      (∀ slots, m.write v (m.measured v) = .ok slots → slots.length < maxWord →
        slots.length = (m.measured v).width) ∧
      ((m.measured v).exactWidth < UInt64.size → ∃ slots,
        m.write v (m.measured v) = .ok slots ∧ slots.length = (m.measured v).width) := by
  have room := measured_hasRoom fits
  refine ⟨writes_iff.trans (and_iff_right room), fun e failed => room.write_error failed, ?_, ?_⟩
  · intro slots written counted
    rw [write_length m written (.inl counted),
      Layout.width_eq (exactWidth_lt_of_write written counted)]
  · intro narrow
    obtain ⟨slots, written⟩ := room.writes narrow
    rw [Layout.width_eq narrow]
    exact ⟨slots, written, write_length m written (.inr narrow)⟩

end Mapper

namespace Sample

def slips : Schema :=
  ((Schema.ofKind "slips" (.primitive .string)).withFormat { maxOccurs := some 3 }).repeated

def slipsMapper : Mapper :=
  .repeated slips (.leaf slips.item.node (.primitive .string) (.ofPrimitive .string))

def oneSlip : Value := .list [.atom (.string "on")]

end Sample

namespace Mapper

/-- Two unused slots of two characters. -/
theorem write_pads_slips :
    (Sample.slipsMapper.measure Sample.oneSlip Sample.slipsMapper.layout).1 = .ok () ∧
      Sample.slipsMapper.Pads Sample.oneSlip (Sample.slipsMapper.measured Sample.oneSlip) 4 ∧
      (∀ n, Sample.slipsMapper.Pads Sample.oneSlip (Sample.slipsMapper.measured Sample.oneSlip) n →
        n < UInt64.size) ∧
      Sample.slipsMapper.write Sample.oneSlip (Sample.slipsMapper.measured Sample.oneSlip) =
        .ok "1on    ".toList ∧
      (Sample.slipsMapper.measured Sample.oneSlip).width = 7 := by
  have fits : (Sample.slipsMapper.measure Sample.oneSlip Sample.slipsMapper.layout).1 = .ok () := by
    cbv
  have measured : Sample.slipsMapper.measured Sample.oneSlip = .repeated 3 (.leaf 2) := by cbv
  have unused : Sample.slipsMapper.Pads Sample.oneSlip
      (Sample.slipsMapper.measured Sample.oneSlip) 4 := by
    rw [measured]
    exact .unused (by decide)
  have written : Sample.slipsMapper.write Sample.oneSlip
      (Sample.slipsMapper.measured Sample.oneSlip) = .ok "1on    ".toList := by cbv
  have narrow : (Sample.slipsMapper.measured Sample.oneSlip).exactWidth < UInt64.size := by
    rw [measured]
    decide
  obtain ⟨small, _, _, wide⟩ := write_pads Sample.slipsMapper Sample.oneSlip fits
  obtain ⟨slots, again, length⟩ := wide narrow
  cases written.symm.trans again
  exact ⟨fits, unused, small.1 ⟨_, written⟩, written, length.symm⟩

end Mapper

namespace Sample

/-- Rows of cells that are almost as wide as hints allow, and as many rows as fill all words. -/
def sheets : Registry where
  definitions := [
    .record "Row" [
      ⟨"a", .primitive .string, { size := some 4294967295 }, false⟩,
      ⟨"b", .primitive .string, { size := some 4294967295 }, false⟩,
      ⟨"c", .primitive .string, { size := some 2 }, false⟩],
    .record "Sheet" [
      ⟨"rows", .list (.named "Row"), { maxOccurs := some 2147483648 }, false⟩]]

def sheetCell (name : String) (size : UInt32) : Schema :=
  (Schema.ofKind name (.primitive .string)).withFormat { size := some size }

def sheetCells : List Schema := [
  sheetCell "a" 4294967295, sheetCell "b" 4294967295, sheetCell "c" 2]

def sheetRows : Schema :=
  ((Schema.ofMembers "rows" "Row" sheetCells).withFormat { maxOccurs := some 2147483648 }).repeated

def sheet : Schema := .ofMembers "Sheet" "Sheet" [sheetRows]

def rowsMapper : Mapper :=
  .repeated sheetRows (.record sheetRows.item.node sheetCells
    (sheetCells.map fun s => .leaf s.node (.primitive .string) (.ofPrimitive .string)))

def sheetMapper : Mapper := .record sheet.node [sheetRows] [rowsMapper]

theorem readable_sheet : sheet.Readable :=
  ⟨.ofRegistry sheets, .named "Sheet", none, ⟨0, sheet⟩, .start sheets, by cbv, rfl⟩

theorem assemble_sheet : CodecTable.assemble [] sheet = .ok sheetMapper := rfl

theorem distinct_sheet : Fingerprint.Identifies ([] ++ [sheet]) := by decide +kernel

def blankSheet : Value := .record [("rows", .list [])]

end Sample

namespace Mapper

/-- A schema that is read and accepted, and a sheet that is measured and cannot be written: its rows
would take 2^64 blanks. -/
theorem write_pads_sheet : Sample.sheet.Readable ∧
    (∃ kept, ((Factory.after [] []).create Sample.sheet).1 = .ok kept ∧
      kept.value = Sample.sheetMapper) ∧
    (Sample.sheetMapper.measure Sample.blankSheet Sample.sheetMapper.layout).1 = .ok () ∧
    Sample.sheetMapper.Pads Sample.blankSheet (Sample.sheetMapper.measured Sample.blankSheet)
      UInt64.size ∧
    Sample.sheetMapper.write Sample.blankSheet (Sample.sheetMapper.measured Sample.blankSheet) =
      .error (.wordOverflow 2147483648 8589934592) ∧
    Sample.sheetMapper.encode Sample.blankSheet =
      .error (.wordOverflow 2147483648 8589934592) := by
  have measured : Sample.sheetMapper.measured Sample.blankSheet =
      .record [.repeated 2147483648 (.record [.leaf 4294967295, .leaf 4294967295, .leaf 2])] := by
    cbv
  have pads : Sample.sheetMapper.Pads Sample.blankSheet
      (Sample.sheetMapper.measured Sample.blankSheet) UInt64.size := by
    have known : recordValues Sample.sheet.node [Sample.sheetRows] ["rows"] Sample.blankSheet =
        .ok [.list []] := rfl
    rw [measured]
    exact .member (i := 0) known rfl rfl rfl (.unused (Nat.zero_le _))
  exact ⟨Sample.readable_sheet, Factory.create_ok [] Sample.distinct_sheet Sample.assemble_sheet,
    by cbv, pads, by cbv, by cbv⟩

end Mapper

end Slotform
