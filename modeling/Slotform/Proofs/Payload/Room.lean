import Slotform.Proofs.Payload.Conformance
import Slotform.Proofs.Payload.RoundTrip

/-!
# Values in shape

A value is in the shape of a schema if its atoms are of the leaves' kinds and its entries stand
under the names of the members, in their order. Such a value is refused for nothing but want of
room: a text is too wide for its slot, a list has too many items, or the slots are too many to be
counted (`Mapper.encode_matches`). If no slot takes anything from an atom, the value is its own
normal form (`Schema.Matches.normal`).
-/

namespace Slotform

/-- A slot takes nothing from the atom: no number is missing, and no text has a space at the end
that is padded. -/
def Atom.Tight (align : Align) : Atom → Prop
  | string s => match align with
    | .left => s.toList.getLast? ≠ some ' '
    | .right => s.toList.head? ≠ some ' '
  | f32 x => x.isNaN = false
  | f64 x => x.isNaN = false
  | _ => True

instance : (align : Align) → (a : Atom) → Decidable (a.Tight align)
  | .left, .string s => inferInstanceAs (Decidable (s.toList.getLast? ≠ some ' '))
  | .right, .string s => inferInstanceAs (Decidable (s.toList.head? ≠ some ' '))
  | _, .f32 x => inferInstanceAs (Decidable (x.isNaN = false))
  | _, .f64 x => inferInstanceAs (Decidable (x.isNaN = false))
  | _, .bool _ | _, .char _ => isTrue trivial
  | _, .u8 _ | _, .u16 _ | _, .u32 _ | _, .u64 _ => isTrue trivial
  | _, .s8 _ | _, .s16 _ | _, .s32 _ | _, .s64 _ => isTrue trivial

/-- A slot leaves just the tight texts as they are. -/
theorem Atom.normal_string {align : Align} {text : String} :
    (string text).normal align = string text ↔ (string text).Tight align := by
  have kept : Slot.unfill align text.toList = text.toList ↔ (string text).Tight align := by
    cases align with
    | left => exact Slot.trimEnd_eq_self_iff
    | right => exact Slot.trimStart_eq_self_iff
  rw [← kept, normal, string.injEq, ← String.toList_inj, String.toList_ofList]

theorem Atom.Tight.normal {align : Align} {a : Atom} (tight : a.Tight align) :
    a.normal align = a := by
  cases a with
  | string text => exact Atom.normal_string.2 tight
  | f32 x =>
    have number : x.isNaN = false := tight
    rw [Atom.normal, number]
    rfl
  | f64 x =>
    have number : x.isNaN = false := tight
    rw [Atom.normal, number]
    rfl
  | _ => rfl

namespace Schema

/-- A value in the shape and in the order of a schema, whatever its sizes. Each atom satisfies a
condition at the side of its slot. -/
inductive Matches (allowed : Align → Atom → Prop) : Schema → Value → Prop where
  | leaf {node : Node} {a : Atom} : node.Bare → allowed (node.format.align.getD .left) a →
      Matches allowed (.leaf node (.primitive a.primitive)) (.atom a)
  | record {node : Node} {members : List Schema} {entries : List (String × Value)} :
      node.Bare → entries.map Prod.fst = members.map Schema.name →
      (∀ m ∈ members, ∀ v, (m.name, v) ∈ entries → Matches allowed m v) →
      Matches allowed (.record node members) (.record entries)
  | list {s : Schema} {items : List Value} : s.node.optional = false →
      s.node.isRepeated = true → (∀ v ∈ items, Matches allowed s.item v) →
      Matches allowed s (.list items)
  | absent {s : Schema} : s.node.optional = true → Matches allowed s .absent
  | present {s : Schema} {v : Value} : s.node.optional = true → Matches allowed s.required v →
      Matches allowed s (.present v)

/-! ## Normal forms -/

/-- A value in shape from which the slots take nothing is in normal form. -/
theorem Matches.normal {s : Schema} {v : Value} (h : s.Matches Atom.Tight v)
    (proper : s.WellFormed) : s.normal v = v := by
  induction h with
  | @leaf node a bare tight =>
    rw [normal_bare (s := .leaf node _) bare]
    exact congrArg Value.atom tight.normal
  | @record node members entries bare names _ ih =>
    cases proper with
    | record _ _ nodup each =>
      have distinct : (entries.map Prod.fst).Nodup := names ▸ nodup
      rw [normal_bare (s := .record node members) bare]
      exact congrArg Value.record (normalMembers_of_names names
        (fun m hm v hv => ih m hm v hv (each m hm)) fun e he => (mem_entries_iff distinct).1 he)
  | @list s items ho hr _ ih =>
    rw [normal_repeated ho hr]
    have each : ∀ v ∈ items, s.item.normal v = v := fun v hv => ih v hv proper.item
    exact congrArg Value.list ((List.map_congr_left each).trans (List.map_id items))
  | absent ho =>
    rw [normal_optional ho]
    rfl
  | present ho _ ih =>
    rw [normal_optional ho]
    exact congrArg Value.present (ih proper.required)

end Schema

namespace Mapper

/-! ## Want of room -/

/-- Nothing goes wrong but that there is too little room. -/
def OnlyOverflows {α : Type} (outcome : Except PayloadError α) : Prop :=
  ∀ e, outcome = .error e → ∃ member needed available, e = .overflow member needed available

theorem OnlyOverflows.ok {α : Type} (a : α) : OnlyOverflows (.ok a) :=
  fun _ h => by cases h

theorem OnlyOverflows.overflow {α : Type} (member : String) (needed available : Nat) :
    OnlyOverflows (.error (.overflow member needed available) : Except PayloadError α) :=
  fun _ h => ⟨_, _, _, (Except.error.inj h).symm⟩

variable {allowed : Align → Atom → Prop}

/-- A mapper measures values in the shape of its schema unless there is too little room. -/
def MeasuresRoom (allowed : Align → Atom → Prop) (s : Schema) (m : Mapper) : Prop :=
  s.WellFormed → ∀ v L, s.Matches allowed v → Shapes [] s L → OnlyOverflows (m.measure v L).1

theorem measuresRoom_leaf {node : Node} {kind : Kind} {codec : Codec} (bare : node.Bare)
    (found : CodecTable.codec? [] kind = some codec) :
    MeasuresRoom allowed (.leaf node kind) (.leaf node kind codec) := by
  intro _ v L matched shapes
  obtain ⟨_, width, _, _, rfl⟩ := (shapes_leaf bare).1 shapes
  cases matched with
  | @leaf _ a _ _ =>
    cases found
    have rendered : renderLeaf node (.primitive a.primitive) (.ofPrimitive a.primitive) (.atom a) =
        .ok a.text := mapError_eq_ok.2 (Codec.render_ofPrimitive.2 ⟨a, rfl, rfl, rfl⟩)
    rw [measure, rendered]
    dsimp only
    cases leafWidth? node (.ofPrimitive a.primitive) with
    | none => exact .ok ()
    | some fixed =>
      dsimp only
      split
      · exact .overflow _ _ _
      · exact .ok ()
  | list _ hr => exact absurd hr bare.not_repeated
  | absent ho => exact absurd ho bare.not_optional
  | present ho => exact absurd ho bare.not_optional

theorem measureMembers_onlyOverflows {members : List Schema} {mappers : List Mapper}
    (measures : List.Forall₂ (fun s m => m.name = s.name ∧ MeasuresRoom allowed s m)
      members mappers)
    (proper : ∀ s ∈ members, s.WellFormed) {entries : List (String × Value)}
    (names : entries.map Prod.fst = members.map Schema.name)
    (matched : ∀ s ∈ members, ∀ v, (s.name, v) ∈ entries → s.Matches allowed v)
    {slots : List Layout} (shapes : List.Forall₂ (Shapes []) members slots) :
    OnlyOverflows (measureMembers mappers (entries.map Prod.snd) slots).1 := by
  induction measures generalizing entries slots with
  | nil =>
    cases shapes
    exact .ok ()
  | @cons s m members mappers first _ ih =>
    cases shapes with
    | @cons _ slot _ slots shape shapes =>
      obtain ⟨⟨key, v⟩, others, rfl, rfl, tail⟩ := List.map_eq_cons_iff.1 names
      have once := first.2 (proper s List.mem_cons_self) v slot
        (matched s List.mem_cons_self v List.mem_cons_self) shape
      have more := ih (fun n hn => proper n (List.mem_cons_of_mem _ hn)) tail
        (fun n hn w hw => matched n (List.mem_cons_of_mem _ hn) w (List.mem_cons_of_mem _ hw))
        shapes
      rw [List.map_cons, measureMembers]
      rcases measured : m.measure v slot with ⟨e | _, grown⟩
      · rw [measured] at once
        exact once
      · exact more

theorem measuresRoom_record {node : Node} {members : List Schema} {mappers : List Mapper}
    (bare : node.Bare)
    (measures : List.Forall₂ (fun s m => m.name = s.name ∧ MeasuresRoom allowed s m)
      members mappers) :
    MeasuresRoom allowed (.record node members) (.record node members mappers) := by
  intro proper v L matched shapes
  obtain ⟨slots, inner, rfl⟩ := (shapes_record bare).1 shapes
  have same : slots.length = mappers.length := inner.length_eq.symm.trans measures.length_eq
  have mapped : mappers.map name = members.map Schema.name :=
    (forall₂_map_eq measures fun _ _ h => h.1.symm).symm
  cases proper with
  | record _ _ nodup each =>
    cases matched with
    | record _ names all =>
      rw [measure, mapped, recordValues_of_names nodup names]
      dsimp only
      rw [if_pos same]
      exact measureMembers_onlyOverflows measures each names all inner
    | list _ hr => exact absurd hr bare.not_repeated
    | absent ho => exact absurd ho bare.not_optional
    | present ho => exact absurd ho bare.not_optional

theorem measureEach_onlyOverflows {s : Schema} {m : Mapper} (proper : s.WellFormed)
    (keeps : KeepsShape [] s m) (measures : MeasuresRoom allowed s m) {items : List Value}
    (matched : ∀ v ∈ items, s.Matches allowed v) {slot : Layout} (shape : Shapes [] s slot) :
    OnlyOverflows (measureEach (fun v l => m.measure v l) items slot).1 := by
  induction items generalizing slot with
  | nil => exact .ok ()
  | cons v rest ih =>
    have once := measures proper v slot (matched v List.mem_cons_self) shape
    have kept := keeps v slot shape
    rw [measureEach]
    rcases measured : m.measure v slot with ⟨e | _, grown⟩
    · rw [measured] at once
      exact once
    · rw [measured] at kept
      exact ih (fun w hw => matched w (List.mem_cons_of_mem _ hw)) kept

theorem measuresRoom_repeated {s : Schema} {element : Mapper} (ho : s.node.optional = false)
    (hr : s.node.isRepeated = true) (keeps : KeepsShape [] s.item element)
    (measures : MeasuresRoom allowed s.item element) :
    MeasuresRoom allowed s (.repeated s element) := by
  intro proper v L matched shapes
  obtain ⟨slot, occurs, inner, _, rfl⟩ := (shapes_repeated ho hr).1 shapes
  cases matched with
  | leaf bare => exact absurd hr bare.not_repeated
  | record bare => exact absurd hr bare.not_repeated
  | list _ _ all =>
    have each := measureEach_onlyOverflows proper.item keeps measures all inner
    rw [measure, listItems]
    dsimp only
    cases occurs? s with
    | none => exact each
    | some fixed =>
      dsimp only
      split
      · exact .overflow _ _ _
      · exact each
  | absent h => cases h.symm.trans ho
  | present h => cases h.symm.trans ho

theorem measuresRoom_optional {s : Schema} {inner : Mapper} (ho : s.node.optional = true)
    (measures : MeasuresRoom allowed s.required inner) :
    MeasuresRoom allowed s (.optional s inner) := by
  intro proper v L matched shapes
  obtain ⟨slot, shape, rfl⟩ := (shapes_optional ho).1 shapes
  cases matched with
  | leaf bare => exact absurd ho bare.not_optional
  | record bare => exact absurd ho bare.not_optional
  | list h => cases h.symm.trans ho
  | absent => exact .ok ()
  | present _ inside => exact measures proper.required _ slot inside shape

/-- A value in the shape of a schema is encoded unless there is too little room, or its layout is
too wide for the blanks to be counted. -/
theorem encode_matches {s : Schema} (proper : s.WellFormed) {m : Mapper}
    (assembled : CodecTable.assemble [] s = .ok m) {v : Value} (matched : s.Matches allowed v)
    {e : PayloadError} (failed : m.encode v = .error e) :
    (∃ member needed available, e = .overflow member needed available) ∨
      (UInt64.size ≤ (m.measured v).exactWidth ∧ ∃ a b, e = .wordOverflow a b) := by
  have measures : MeasuresRoom allowed s m := byMeasuring measuresRoom_leaf measuresRoom_record
    measuresRoom_repeated measuresRoom_optional assembled
  have only := measures proper v m.layout matched (layout_shapes assembled)
  rcases encode_error.1 failed with refused | ⟨fits, failed⟩
  · exact .inl (only e refused)
  · obtain ⟨header, written⟩ := hasHeaders assembled _ (measured_shapes assembled v)
    rcases failed with headless | ⟨_, _, unwritten⟩
    · cases written.symm.trans headless
    · obtain ⟨a, b, rfl, pads, large⟩ := (measured_hasRoom fits).write_error unwritten
      exact .inr ⟨Nat.le_trans large pads.le, a, b, rfl⟩

end Mapper

end Slotform
