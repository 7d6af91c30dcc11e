import Slotform.Proofs.Payload.Codec
import Slotform.Proofs.Payload.Factory
import Slotform.Proofs.Payload.Least
import Slotform.Proofs.Payload.Sharing

/-!
# Values that can be encoded

`Schema.Conforms` says, along the views of a schema, which values it has. A mapper encodes these
and no others, and it refuses the others while it measures: when a value has been measured in a
layout that is not too wide, neither its header nor its slots can fail
(`Factory.encode_iff_conforms`).
-/

namespace Slotform

/-! ## Conforming values -/

namespace Schema

/-- The values of a schema. A leaf has the atoms of its kind whose texts fit the width that the
codec or a hint fixes. The entries of a record are told apart by their names, which belong to
members or to skipped fields. -/
inductive Conforms : Schema → Value → Prop where
  | leaf {node : Node} {kind : Kind} {a : Atom} : node.Bare → a.primitive.name = kind.name →
      (∀ width ∈ Mapper.leafWidth? node (.ofPrimitive a.primitive), a.text.length ≤ width) →
      Conforms (.leaf node kind) (.atom a)
  | record {node : Node} {members : List Schema} {entries : List (String × Value)} :
      node.Bare → (entries.map Prod.fst).Nodup →
      (∀ name ∈ entries.map Prod.fst, name ∈ members.map Schema.name ∨ name ∈ node.skipped) →
      (∀ m ∈ members, m.name ∈ entries.map Prod.fst) →
      (∀ m ∈ members, ∀ v, (m.name, v) ∈ entries → Conforms m v) →
      Conforms (.record node members) (.record entries)
  | list {s : Schema} {items : List Value} : s.node.optional = false →
      s.node.isRepeated = true → (∀ most ∈ Mapper.occurs? s, items.length ≤ most) →
      (∀ v ∈ items, Conforms s.item v) → Conforms s (.list items)
  | absent {s : Schema} : s.node.optional = true → Conforms s .absent
  | present {s : Schema} {v : Value} : s.node.optional = true → Conforms s.required v →
      Conforms s (.present v)

section Inversion

variable {node : Node} {kind : Kind} {members : List Schema} {s : Schema} {v : Value}

theorem conforms_leaf (bare : node.Bare) : (leaf node kind).Conforms v ↔
    ∃ a, v = .atom a ∧ a.primitive.name = kind.name ∧
      ∀ width ∈ Mapper.leafWidth? node (.ofPrimitive a.primitive), a.text.length ≤ width := by
  constructor
  · intro h
    cases h with
    | leaf _ same fits => exact ⟨_, rfl, same, fits⟩
    | list _ hr => exact absurd hr bare.not_repeated
    | absent ho => exact absurd ho bare.not_optional
    | present ho => exact absurd ho bare.not_optional
  · rintro ⟨a, rfl, same, fits⟩
    exact .leaf bare same fits

theorem conforms_record (bare : node.Bare) : (record node members).Conforms v ↔
    ∃ entries, v = .record entries ∧ (entries.map Prod.fst).Nodup ∧
      (∀ name ∈ entries.map Prod.fst, name ∈ members.map Schema.name ∨ name ∈ node.skipped) ∧
      ∀ m ∈ members, ∃ v, entries.lookup m.name = some v ∧ m.Conforms v := by
  constructor
  · intro h
    cases h with
    | @record _ _ entries _ nodup known all conform =>
      refine ⟨entries, rfl, nodup, known, fun m hm => ?_⟩
      obtain ⟨⟨_, v⟩, entry, rfl⟩ := List.mem_map.1 (all m hm)
      exact ⟨v, (mem_entries_iff nodup).1 entry, conform m hm v entry⟩
    | list _ hr => exact absurd hr bare.not_repeated
    | absent ho => exact absurd ho bare.not_optional
    | present ho => exact absurd ho bare.not_optional
  · rintro ⟨entries, rfl, nodup, known, all⟩
    refine .record bare nodup known (fun m hm => ?_) fun m hm v entry => ?_
    · obtain ⟨v, found, _⟩ := all m hm
      exact List.mem_map_of_mem (f := Prod.fst) ((mem_entries_iff nodup).2 found)
    · obtain ⟨w, found, conforms⟩ := all m hm
      cases found.symm.trans ((mem_entries_iff nodup).1 entry)
      exact conforms

theorem conforms_repeated (ho : s.node.optional = false) (hr : s.node.isRepeated = true) :
    s.Conforms v ↔ ∃ items, v = .list items ∧ (∀ most ∈ Mapper.occurs? s, items.length ≤ most) ∧
      ∀ v ∈ items, s.item.Conforms v := by
  constructor
  · intro h
    cases h with
    | leaf bare => exact absurd hr bare.not_repeated
    | record bare => exact absurd hr bare.not_repeated
    | list _ _ few all => exact ⟨_, rfl, few, all⟩
    | absent h => cases ho.symm.trans h
    | present h => cases ho.symm.trans h
  · rintro ⟨items, rfl, few, all⟩
    exact .list ho hr few all

theorem conforms_optional (ho : s.node.optional = true) :
    s.Conforms v ↔ v = .absent ∨ ∃ x, v = .present x ∧ s.required.Conforms x := by
  constructor
  · intro h
    cases h with
    | leaf bare => exact absurd ho bare.not_optional
    | record bare => exact absurd ho bare.not_optional
    | list h => cases h.symm.trans ho
    | absent => exact .inl rfl
    | present _ inner => exact .inr ⟨_, rfl, inner⟩
  · rintro (rfl | ⟨x, rfl, inner⟩)
    · exact .absent ho
    · exact .present ho inner

end Inversion

/-- What a schema has for values is seen from the way it is written. -/
theorem conforms_rendered {s : Schema} {v : Value} : s.rendered.Conforms v ↔ s.Conforms v := by
  induction s using Schema.byViews generalizing v with
  | leaf node kind bare => rw [rendered, conforms_leaf bare.rendered, conforms_leaf bare]; rfl
  | record node members bare ih =>
    have names : (members.map rendered).map Schema.name = members.map Schema.name := by simp
    rw [rendered, conforms_record bare.rendered, conforms_record bare, renderedAll_eq_map, names]
    simp only [List.forall_mem_map, name_rendered]
    simp +contextual only [ih]
    rfl
  | repeated s ho hr ih =>
    rw [conforms_repeated (by simpa using ho) (by simpa using hr), conforms_repeated ho hr,
      ← item_rendered]
    simp only [ih, Mapper.occurs?, format_rendered]
  | optional s ho ih =>
    rw [conforms_optional (by simpa using ho), conforms_optional ho, ← required_rendered]
    simp only [ih]

end Schema

/-- Only built-in codecs are found, each for the kinds by the name of its primitive. -/
def CodecTable.BuiltIn (codecs : CodecTable) : Prop :=
  ∀ kind codec, codecs.codec? kind = some codec →
    ∃ p : Primitive, p.name = kind.name ∧ codec = .ofPrimitive p

namespace Mapper

/-! ## What measuring accepts -/

section Accepts

variable {codecs : CodecTable}

theorem checkEntries_ok {node : Node} {declared : List Schema} {earlier : List String}
    {entries : List (String × Value)} :
    checkEntries node declared earlier entries = .ok () ↔
      (entries.map Prod.fst).Nodup ∧ (∀ name ∈ entries.map Prod.fst, name ∉ earlier) ∧
        ∀ name ∈ entries.map Prod.fst, name ∈ declared.map Schema.name ∨ name ∈ node.skipped := by
  induction entries generalizing earlier with
  | nil => simp [checkEntries]
  | cons entry rest ih =>
    obtain ⟨name, v⟩ := entry
    have known : (!declared.any (·.name == name) && !node.skipped.contains name) = true ↔
        ¬ (name ∈ declared.map Schema.name ∨ name ∈ node.skipped) := by
      simp [not_or]
    rw [checkEntries]
    simp only [ite_error_eq_ok, known, not_not, List.contains_iff_mem, ih, List.map_cons,
      List.nodup_cons, List.forall_mem_cons]
    constructor
    · rintro ⟨isKnown, fresh, nodup, others, allKnown⟩
      refine ⟨⟨fun again => others name again List.mem_cons_self, nodup⟩,
        ⟨fresh, fun other h seen => others other h (List.mem_cons_of_mem _ seen)⟩,
        isKnown, allKnown⟩
    · rintro ⟨⟨once, nodup⟩, ⟨fresh, others⟩, isKnown, allKnown⟩
      refine ⟨isKnown, fresh, nodup, fun other h seen => ?_, allKnown⟩
      rcases List.mem_cons.1 seen with rfl | seen
      · exact once h
      · exact others other h seen

/-- The values of entries that stand under the names of the members, in their order. -/
theorem recordValues_of_names {node : Node} {members : List Schema}
    {entries : List (String × Value)} (nodup : (members.map Schema.name).Nodup)
    (names : entries.map Prod.fst = members.map Schema.name) :
    recordValues node members (members.map Schema.name) (.record entries) =
      .ok (entries.map Prod.snd) := by
  have distinct : (entries.map Prod.fst).Nodup := names ▸ nodup
  refine recordValues_ok.2 ⟨entries, rfl, checkEntries_ok.2 ⟨distinct, by simp, ?_⟩, ?_⟩
  · intro name hname
    exact .inl (names ▸ hname)
  · rw [← names, List.forall₂_map_left_iff, List.forall₂_map_right_iff, List.forall₂_same]
    exact fun e he => (mem_entries_iff distinct).1 he

/-- A mapper measures the values of its schema with success, and no others. -/
def Accepts (codecs : CodecTable) (s : Schema) (m : Mapper) : Prop :=
  ∀ v L, Shapes codecs s L → ((∃ grown, m.measure v L = (.ok (), grown)) ↔ s.Conforms v)

theorem measureEach_accepts {s : Schema} {m : Mapper} (keeps : KeepsShape codecs s m)
    (accepts : Accepts codecs s m) {items : List Value} {slot : Layout}
    (shape : Shapes codecs s slot) :
    (∃ grown, measureEach (fun v l => m.measure v l) items slot = (.ok (), grown)) ↔
      ∀ v ∈ items, s.Conforms v := by
  induction items generalizing slot with
  | nil => simp [measureEach]
  | cons v rest ih =>
    simp only [measureEach_cons_ok, List.forall_mem_cons, ← accepts v slot shape]
    have follows {mid : Layout} (first : m.measure v slot = (.ok (), mid)) :
        (∃ grown, measureEach (fun v l => m.measure v l) rest mid = (.ok (), grown)) ↔
          ∀ v ∈ rest, s.Conforms v := by
      have kept := keeps v slot shape
      rw [first] at kept
      exact ih kept
    constructor
    · rintro ⟨grown, mid, first, others⟩
      exact ⟨⟨mid, first⟩, (follows first).1 ⟨grown, others⟩⟩
    · rintro ⟨⟨mid, first⟩, conform⟩
      obtain ⟨grown, others⟩ := (follows first).2 conform
      exact ⟨grown, mid, first, others⟩

theorem measureMembers_accepts {members : List Schema} {mappers : List Mapper}
    (accepts : List.Forall₂ (fun s m => m.name = s.name ∧ Accepts codecs s m) members mappers)
    {entries : List (String × Value)} {slots : List Layout}
    (shapes : List.Forall₂ (Shapes codecs) members slots) :
    (∃ values grown, List.Forall₂ (fun name value => entries.lookup name = some value)
        (mappers.map name) values ∧ measureMembers mappers values slots = (.ok (), grown)) ↔
      ∀ s ∈ members, ∃ v, entries.lookup s.name = some v ∧ s.Conforms v := by
  induction accepts generalizing slots with
  | nil =>
    cases shapes
    simp [measureMembers]
  | cons first _ ih =>
    obtain ⟨name, accepts⟩ := first
    cases shapes with
    | cons shape shapes =>
      rw [List.forall_mem_cons, ← ih shapes]
      constructor
      · rintro ⟨values, grown, found, measured⟩
        rw [List.map_cons] at found
        cases found with
        | cons value found =>
          obtain ⟨_, others, once, more, rfl⟩ := measureMembers_cons_ok.1 measured
          exact ⟨⟨_, name ▸ value, (accepts _ _ shape).1 ⟨_, once⟩⟩, _, others, found, more⟩
      · rintro ⟨⟨v, value, conforms⟩, values, others, found, more⟩
        obtain ⟨grown, once⟩ := (accepts v _ shape).2 conforms
        exact ⟨v :: values, grown :: others, .cons (name ▸ value) found,
          measureMembers_cons_ok.2 ⟨grown, others, once, more, rfl⟩⟩

theorem accepts_leaf (builtin : codecs.BuiltIn) {node : Node} {kind : Kind} {codec : Codec}
    (bare : node.Bare) (found : codecs.codec? kind = some codec) :
    Accepts codecs (.leaf node kind) (.leaf node kind codec) := by
  intro v L shapes
  obtain ⟨codec', width, found', fixed, rfl⟩ := (shapes_leaf bare).1 shapes
  cases found.symm.trans found'
  obtain ⟨p, same, rfl⟩ := builtin kind codec found
  simp only [measure_leaf_ok fixed, Schema.conforms_leaf bare, renderLeaf, mapError_eq_ok,
    Codec.render_ofPrimitive]
  constructor
  · rintro ⟨_, _, ⟨a, rfl, rfl, rfl⟩, fits, rfl⟩
    exact ⟨a, rfl, same, fits⟩
  · rintro ⟨a, rfl, kinds, fits⟩
    obtain rfl : a.primitive = p := Primitive.name_injective (kinds.trans same.symm)
    exact ⟨_, a.text, ⟨a, rfl, rfl, rfl⟩, fits, rfl⟩

theorem accepts_record {node : Node} {members : List Schema} {mappers : List Mapper}
    (bare : node.Bare)
    (accepts : List.Forall₂ (fun s m => m.name = s.name ∧ Accepts codecs s m) members mappers) :
    Accepts codecs (.record node members) (.record node members mappers) := by
  intro v L shapes
  obtain ⟨slots, inner, rfl⟩ := (shapes_record bare).1 shapes
  have same : slots.length = mappers.length := inner.length_eq.symm.trans accepts.length_eq
  simp only [measure_record_ok same, Schema.conforms_record bare, recordValues_ok, checkEntries_ok]
  constructor
  · rintro ⟨_, values, grown, ⟨entries, rfl, ⟨nodup, _, known⟩, found⟩, measured, rfl⟩
    exact ⟨entries, rfl, nodup, known,
      (measureMembers_accepts accepts inner).1 ⟨values, grown, found, measured⟩⟩
  · rintro ⟨entries, rfl, nodup, known, conform⟩
    obtain ⟨values, grown, found, measured⟩ := (measureMembers_accepts accepts inner).2 conform
    exact ⟨_, values, grown, ⟨entries, rfl, ⟨nodup, by simp, known⟩, found⟩, measured, rfl⟩

theorem accepts_repeated {s : Schema} {element : Mapper} (ho : s.node.optional = false)
    (hr : s.node.isRepeated = true) (keeps : KeepsShape codecs s.item element)
    (accepts : Accepts codecs s.item element) : Accepts codecs s (.repeated s element) := by
  intro v L shapes
  obtain ⟨slot, occurs, inner, fixed, rfl⟩ := (shapes_repeated ho hr).1 shapes
  simp only [measure_repeated_ok fixed, Schema.conforms_repeated ho hr]
  constructor
  · rintro ⟨_, items, grown, rfl, few, measured, rfl⟩
    exact ⟨items, rfl, few, (measureEach_accepts keeps accepts inner).1 ⟨grown, measured⟩⟩
  · rintro ⟨items, rfl, few, conform⟩
    obtain ⟨grown, measured⟩ := (measureEach_accepts keeps accepts inner).2 conform
    exact ⟨_, items, grown, rfl, few, measured, rfl⟩

theorem accepts_optional {s : Schema} {inner : Mapper} (ho : s.node.optional = true)
    (accepts : Accepts codecs s.required inner) : Accepts codecs s (.optional s inner) := by
  intro v L shapes
  obtain ⟨slot, shape, rfl⟩ := (shapes_optional ho).1 shapes
  simp only [measure_optional_ok, Schema.conforms_optional ho]
  constructor
  · rintro ⟨_, ⟨rfl, _⟩ | ⟨x, grown, rfl, measured, _⟩⟩
    · exact .inl rfl
    · exact .inr ⟨x, rfl, (accepts x slot shape).1 ⟨grown, measured⟩⟩
  · rintro (rfl | ⟨x, rfl, conforms⟩)
    · exact ⟨_, .inl ⟨rfl, rfl⟩⟩
    · obtain ⟨grown, measured⟩ := (accepts x slot shape).2 conforms
      exact ⟨_, .inr ⟨x, grown, rfl, measured, rfl⟩⟩

theorem accepts (builtin : codecs.BuiltIn) {s : Schema} {m : Mapper}
    (assembled : codecs.assemble s = .ok m) : Accepts codecs s m :=
  byMeasuring (accepts_leaf builtin) accepts_record accepts_repeated accepts_optional assembled

end Accepts

/-! ## Headers of measured layouts -/

/-- Every layout in the shape of the schema has a header. -/
def HasHeaders (codecs : CodecTable) (s : Schema) (m : Mapper) : Prop :=
  ∀ L, Shapes codecs s L → ∃ header, m.writeHeader L = .ok header

section Headers

variable {codecs : CodecTable}

theorem writeMemberHeaders_ok {members : List Schema} {mappers : List Mapper}
    (headers : List.Forall₂ (HasHeaders codecs) members mappers) {slots : List Layout}
    (shapes : List.Forall₂ (Shapes codecs) members slots) :
    ∃ text, writeMemberHeaders mappers slots = .ok text := by
  induction headers generalizing slots with
  | nil => exact ⟨[], rfl⟩
  | cons first _ ih =>
    cases shapes with
    | cons shape shapes =>
      obtain ⟨header, written⟩ := first _ shape
      obtain ⟨rest, more⟩ := ih shapes
      exact ⟨_, writeMemberHeaders_cons_ok.2 ⟨header, rest, written, more, rfl⟩⟩

theorem hasHeaders {s : Schema} {m : Mapper} (assembled : codecs.assemble s = .ok m) :
    HasHeaders codecs s m := by
  refine CodecTable.byMapper ?leaf ?record ?repeated ?optional assembled
  case leaf =>
    intro node kind codec bare found L shapes
    obtain ⟨_, width, _, _, rfl⟩ := (shapes_leaf bare).1 shapes
    exact ⟨_, writeHeader_leaf_ok.2 ⟨width, rfl, rfl⟩⟩
  case record =>
    intro node members mappers bare all L shapes
    obtain ⟨slots, inner, rfl⟩ := (shapes_record bare).1 shapes
    have same : slots.length = mappers.length := inner.length_eq.symm.trans all.length_eq
    obtain ⟨text, written⟩ := writeMemberHeaders_ok (all.imp fun _ _ h => h.2) inner
    exact ⟨_, writeHeader_record_ok.2 ⟨slots, text, rfl, same, written, rfl⟩⟩
  case repeated =>
    intro s element ho hr headers L shapes
    obtain ⟨slot, occurs, inner, _, rfl⟩ := (shapes_repeated ho hr).1 shapes
    obtain ⟨text, written⟩ := headers slot inner
    exact ⟨_, writeHeader_repeated_ok.2 ⟨occurs, slot, text, rfl, written, rfl⟩⟩
  case optional =>
    intro s inner ho headers L shapes
    obtain ⟨slot, shape, rfl⟩ := (shapes_optional ho).1 shapes
    obtain ⟨text, written⟩ := headers slot shape
    exact ⟨_, writeHeader_optional_ok.2 ⟨slot, text, rfl, written, rfl⟩⟩

end Headers

/-- A value that is measured is encoded, if its layout is not too wide for a word. -/
theorem measured_encodes {codecs : CodecTable} {s : Schema} {m : Mapper}
    (assembled : codecs.assemble s = .ok m) {v : Value}
    (fits : (m.measure v m.layout).1 = .ok ())
    (narrow : (m.measured v).exactWidth < UInt64.size) :
    ∃ header slots, m.writeHeader (m.measured v) = .ok header ∧
      m.write v (m.measured v) = .ok slots := by
  obtain ⟨header, written⟩ := hasHeaders assembled _ (measured_shapes assembled v)
  obtain ⟨slots, filled⟩ := (measured_hasRoom fits).writes narrow
  exact ⟨header, slots, written, filled⟩

theorem measures_iff_conforms {codecs : CodecTable} (builtin : codecs.BuiltIn) {s : Schema}
    {m : Mapper} (assembled : codecs.assemble s = .ok m) (v : Value) :
    (m.measure v m.layout).1 = .ok () ↔ s.Conforms v := by
  rw [← accepts builtin assembled v m.layout (layout_shapes assembled)]
  constructor
  · intro fits
    exact ⟨m.measured v, Prod.ext fits rfl⟩
  · rintro ⟨grown, measured⟩
    rw [measured]

end Mapper

namespace CodecTable

theorem builtIn_byName : BuiltIn (byName []) := by
  intro kind codec found
  have named : (byName []).lookup kind.name =
      (Primitive.ofName? kind.name).map .ofPrimitive := lookup_builtin _
  rw [codec?, named] at found
  cases known : Primitive.ofName? kind.name with
  | some p =>
    rw [known] at found
    cases found
    exact ⟨p, Primitive.name_of_ofName? known, rfl⟩
  | none =>
    cases kind with
    | primitive p => cases known.symm.trans (Primitive.ofName?_name p)
    | custom name =>
      rw [known] at found
      cases found

end CodecTable

namespace Factory

/-- The mapper that a factory of built-in codecs gives for a schema measures the values of the
schema, and no others. It encodes them as well where the exact width of their layout is a word: what
it cannot encode it refuses while it measures, and neither the header nor the slots of a value fail
after that. -/
theorem encode_iff_conforms {past : List Schema} {s : Schema}
    (discerns : Fingerprint.Discerns (past ++ [s])) {kept : Kept Mapper}
    (accepted : ((after [] past).create s).1 = .ok kept) (v : Value) :
    ((kept.value.measure v kept.value.layout).1 = .ok () ↔ s.Conforms v) ∧
      ((kept.value.measured v).exactWidth < UInt64.size →
        ((∃ t, kept.value.encode v = .ok t) ↔ s.Conforms v) ∧
          ((kept.value.measure v kept.value.layout).1 = .ok () → ∃ header slots,
            kept.value.writeHeader (kept.value.measured v) = .ok header ∧
              kept.value.write v (kept.value.measured v) = .ok slots)) := by
  have assembled := create_rendered discerns accepted
  have measures : (kept.value.measure v kept.value.layout).1 = .ok () ↔ s.Conforms v := by
    rw [← Schema.conforms_rendered, ← Mapper.measure_rendered, ← Mapper.layout_rendered]
    exact Mapper.measures_iff_conforms CodecTable.builtIn_byName assembled v
  refine ⟨measures, fun narrow => ?_⟩
  have writes (fits : (kept.value.measure v kept.value.layout).1 = .ok ()) : ∃ header slots,
      kept.value.writeHeader (kept.value.measured v) = .ok header ∧
        kept.value.write v (kept.value.measured v) = .ok slots := by
    rw [← Mapper.measure_rendered, ← Mapper.layout_rendered] at fits
    rw [← Mapper.measured_rendered] at narrow
    obtain ⟨header, slots, written, filled⟩ := Mapper.measured_encodes assembled fits narrow
    rw [Mapper.writeHeader_rendered, Mapper.measured_rendered] at written
    rw [Mapper.write_rendered, Mapper.measured_rendered] at filled
    exact ⟨header, slots, written, filled⟩
  refine ⟨?_, writes⟩
  rw [← measures]
  constructor
  · rintro ⟨t, encoded⟩
    exact (Mapper.encode_ok.1 encoded).1
  · intro fits
    obtain ⟨header, slots, written, filled⟩ := writes fits
    exact ⟨_, Mapper.encode_ok.2 ⟨fits, header, slots, written, filled, rfl⟩⟩

/-- The entries of a conforming record stand in any order. -/
theorem encode_iff_conforms_person : ∃ kept, ((after [] []).create Sample.person).1 = .ok kept ∧
    ∃ v, Sample.person.Conforms v ∧ (kept.value.measured v).exactWidth < UInt64.size ∧
      (∃ t, kept.value.encode v = .ok t) ∧
      ∃ header slots, kept.value.writeHeader (kept.value.measured v) = .ok header ∧
        kept.value.write v (kept.value.measured v) = .ok slots := by
  obtain ⟨kept, accepted, made⟩ := create_ok [] Sample.distinct_person Sample.assemble_person
  let v : Value :=
    .record [("tags", .present (.list [.atom (.u8 7)])), ("name", .atom (.string "Ada"))]
  have fits : (kept.value.measure v kept.value.layout).1 = .ok () := by
    rw [made]
    cbv
  have measured : kept.value.measured v =
      .record [.leaf 3, .optional (.repeated 1 (.leaf 1))] := by
    rw [made]
    cbv
  have narrow : (kept.value.measured v).exactWidth < UInt64.size := by
    rw [measured]
    decide
  obtain ⟨measures, conforms⟩ := encode_iff_conforms Sample.distinct_person.discerns accepted v
  obtain ⟨encodes, written⟩ := conforms narrow
  obtain ⟨header, slots, headed, filled⟩ := written fits
  exact ⟨kept, accepted, v, measures.1 fits, narrow, encodes.2 (measures.1 fits), header, slots,
    headed, filled⟩

end Factory

end Slotform
