import Slotform.Proofs.Payload.Encoding
import Slotform.Proofs.Schema.Rendered

namespace Slotform

namespace Mapper

mutual

def rendered : Mapper → Mapper
  | leaf node kind codec =>
    leaf (node.rendered []) (.custom kind.name) codec
  | record node declared members =>
    record (node.rendered node.skipped) (Schema.renderedAll declared) (renderedAll members)
  | repeated view element => repeated view.rendered element.rendered
  | optional view inner => optional view.rendered inner.rendered

def renderedAll : List Mapper → List Mapper
  | [] => []
  | member :: rest => member.rendered :: renderedAll rest

end

@[simp] theorem schema_rendered (m : Mapper) : m.rendered.schema = m.schema.rendered := by
  cases m <;> rfl

theorem length_renderedAll (members : List Mapper) :
    (renderedAll members).length = members.length := by
  induction members with
  | nil => rfl
  | cons member rest ih => rw [renderedAll, List.length_cons, List.length_cons, ih]

@[simp] theorem name_rendered (m : Mapper) : m.rendered.name = m.name := by
  rw [name, schema_rendered, Schema.name_rendered, name]

theorem map_name_renderedAll (members : List Mapper) :
    (renderedAll members).map name = members.map name := by
  induction members with
  | nil => rfl
  | cons member rest ih => rw [renderedAll, List.map_cons, List.map_cons, ih, name_rendered]

@[simp] theorem occurs?_rendered (view : Schema) : occurs? view.rendered = occurs? view := by
  rw [occurs?, occurs?, Schema.format_rendered]

theorem listItems_rendered (view : Schema) (v : Value) :
    listItems view.rendered v = listItems view v := by
  cases v <;> simp [listItems]

mutual

theorem layout_rendered : (m : Mapper) → m.rendered.layout = m.layout
  | leaf .. => rfl
  | record _ _ members => congrArg Layout.record (layouts_renderedAll members)
  | repeated view element => by
    rw [rendered, layout, layout, layout_rendered element, occurs?_rendered]
  | optional _ inner => congrArg Layout.optional (layout_rendered inner)

theorem layouts_renderedAll : (members : List Mapper) →
    layouts (renderedAll members) = layouts members
  | [] => rfl
  | member :: rest => by
    rw [renderedAll, layouts, layouts, layout_rendered member, layouts_renderedAll rest]

end

theorem checkEntries_rendered (node : Node) (declared : List Schema) (earlier : List String)
    (entries : List (String × Value)) :
    checkEntries (node.rendered node.skipped) (Schema.renderedAll declared) earlier entries =
      checkEntries node declared earlier entries := by
  have names (name : String) : (Schema.renderedAll declared).any (·.name == name) =
      declared.any (·.name == name) := by
    simp [Schema.renderedAll_eq_map, List.any_map, Function.comp_def]
  induction entries generalizing earlier with
  | nil => rfl
  | cons entry rest ih =>
    obtain ⟨name, v⟩ := entry
    simp only [checkEntries, names, ih]
    rfl

theorem memberValues_rendered (node : Node) (entries : List (String × Value))
    (names : List String) : memberValues (node.rendered node.skipped) entries names =
      memberValues node entries names := by
  induction names with
  | nil => rfl
  | cons name rest ih =>
    rw [memberValues, memberValues, ih]
    rfl

theorem recordValues_rendered (node : Node) (declared : List Schema) (names : List String)
    (v : Value) : recordValues (node.rendered node.skipped) (Schema.renderedAll declared) names v =
      recordValues node declared names v := by
  cases v with
  | record entries => simp only [recordValues, checkEntries_rendered, memberValues_rendered]
  | _ => rfl

mutual

theorem measure_rendered : (m : Mapper) → (v : Value) → (L : Layout) →
    m.rendered.measure v L = m.measure v L
  | leaf .., _, _ => rfl
  | record node declared members, v, L => by
    simp only [rendered, measure, recordValues_rendered, map_name_renderedAll, length_renderedAll,
      measureMembers_renderedAll members]
    rfl
  | repeated view element, v, L => by
    simp only [rendered, measure, listItems_rendered, occurs?_rendered, Schema.name_rendered,
      measure_rendered element]
  | optional view inner, v, L => by
    simp only [rendered, measure, Schema.name_rendered, measure_rendered inner]

theorem measureMembers_renderedAll : (members : List Mapper) → (vs : List Value) →
    (slots : List Layout) →
    measureMembers (renderedAll members) vs slots = measureMembers members vs slots
  | [], _, _ => rfl
  | _ :: _, [], _ => rfl
  | _ :: _, _ :: _, [] => rfl
  | member :: members, v :: vs, slot :: slots => by
    simp only [renderedAll, measureMembers, measure_rendered member,
      measureMembers_renderedAll members]

end

mutual

theorem writeHeader_rendered : (m : Mapper) → (L : Layout) →
    m.rendered.writeHeader L = m.writeHeader L
  | leaf .., _ => rfl
  | record node declared members, L => by
    simp only [rendered, writeHeader, length_renderedAll, writeMemberHeaders_renderedAll members]
    rfl
  | repeated view element, L => by
    simp only [rendered, writeHeader, Schema.name_rendered, writeHeader_rendered element]
  | optional view inner, L => by
    simp only [rendered, writeHeader, Schema.name_rendered, writeHeader_rendered inner]

theorem writeMemberHeaders_renderedAll : (members : List Mapper) → (slots : List Layout) →
    writeMemberHeaders (renderedAll members) slots = writeMemberHeaders members slots
  | [], _ => rfl
  | _ :: _, [] => rfl
  | member :: members, slot :: slots => by
    have none : (renderedAll members).isEmpty = members.isEmpty := by
      cases members <;> rfl
    simp only [renderedAll, writeMemberHeaders, writeHeader_rendered member, name_rendered, none,
      writeMemberHeaders_renderedAll members]

end

mutual

theorem write_rendered : (m : Mapper) → (v : Value) → (L : Layout) →
    m.rendered.write v L = m.write v L
  | leaf .., _, _ => rfl
  | record node declared members, v, L => by
    simp only [rendered, write, recordValues_rendered, map_name_renderedAll, length_renderedAll,
      writeMembers_renderedAll members]
    rfl
  | repeated view element, v, L => by
    simp only [rendered, write, listItems_rendered, Schema.name_rendered, write_rendered element]
  | optional view inner, v, L => by
    simp only [rendered, write, Schema.name_rendered, write_rendered inner]

theorem writeMembers_renderedAll : (members : List Mapper) → (vs : List Value) →
    (slots : List Layout) →
    writeMembers (renderedAll members) vs slots = writeMembers members vs slots
  | [], _, _ => rfl
  | _ :: _, [], _ => rfl
  | _ :: _, _ :: _, [] => rfl
  | member :: members, v :: vs, slot :: slots => by
    simp only [renderedAll, writeMembers, write_rendered member, writeMembers_renderedAll members]

end

theorem measured_rendered (m : Mapper) (v : Value) : m.rendered.measured v = m.measured v := by
  rw [measured, measured, layout_rendered, measure_rendered]

/-- How a schema is written is all that encoding depends on. -/
theorem encode_rendered (m : Mapper) (v : Value) : m.rendered.encode v = m.encode v := by
  simp only [encode, layout_rendered, measure_rendered, writeHeader_rendered, write_rendered]

end Mapper

end Slotform
