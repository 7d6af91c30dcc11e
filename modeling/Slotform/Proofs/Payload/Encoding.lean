import Slotform.Proofs.Payload.Assembly
import Slotform.Proofs.Payload.Grammar
import Slotform.Proofs.Payload.Width
import Slotform.Proofs.Payload.Writing

namespace Slotform

/-- A layout has the shape of a schema, and the sizes that codecs and hints fix. -/
inductive Shapes (codecs : CodecTable) : Schema → Layout → Prop where
  | leaf {node : Node} {kind : Kind} {codec : Codec} {width : Nat} :
      node.Bare → codecs.codec? kind = some codec →
      (∀ fixed ∈ Mapper.leafWidth? node codec, width = fixed) →
      Shapes codecs (.leaf node kind) (.leaf width)
  | record {node : Node} {members : List Schema} {slots : List Layout} :
      node.Bare → List.Forall₂ (Shapes codecs) members slots →
      Shapes codecs (.record node members) (.record slots)
  | repeated {s : Schema} {slot : Layout} {occurs : Nat} :
      s.node.optional = false → s.node.isRepeated = true → Shapes codecs s.item slot →
      (∀ fixed ∈ Mapper.occurs? s, occurs = fixed) → Shapes codecs s (.repeated occurs slot)
  | optional {s : Schema} {slot : Layout} :
      s.node.optional = true → Shapes codecs s.required slot → Shapes codecs s (.optional slot)

section Inversion

variable {codecs : CodecTable} {node : Node} {kind : Kind} {members : List Schema} {s : Schema}
  {L : Layout}

theorem shapes_leaf (bare : node.Bare) :
    Shapes codecs (.leaf node kind) L ↔ ∃ codec width, codecs.codec? kind = some codec ∧
      (∀ fixed ∈ Mapper.leafWidth? node codec, width = fixed) ∧ L = .leaf width := by
  constructor
  · intro h
    cases h with
    | leaf _ found fixed => exact ⟨_, _, found, fixed, rfl⟩
    | repeated _ hr => exact absurd hr bare.not_repeated
    | optional ho => exact absurd ho bare.not_optional
  · rintro ⟨codec, width, found, fixed, rfl⟩
    exact .leaf bare found fixed

theorem shapes_record (bare : node.Bare) :
    Shapes codecs (.record node members) L ↔
      ∃ slots, List.Forall₂ (Shapes codecs) members slots ∧ L = .record slots := by
  constructor
  · intro h
    cases h with
    | record _ all => exact ⟨_, all, rfl⟩
    | repeated _ hr => exact absurd hr bare.not_repeated
    | optional ho => exact absurd ho bare.not_optional
  · rintro ⟨slots, all, rfl⟩
    exact .record bare all

theorem shapes_repeated (ho : s.node.optional = false) (hr : s.node.isRepeated = true) :
    Shapes codecs s L ↔ ∃ slot occurs, Shapes codecs s.item slot ∧
      (∀ fixed ∈ Mapper.occurs? s, occurs = fixed) ∧ L = .repeated occurs slot := by
  constructor
  · intro h
    cases h with
    | leaf bare => exact absurd hr bare.not_repeated
    | record bare => exact absurd hr bare.not_repeated
    | repeated _ _ inner fixed => exact ⟨_, _, inner, fixed, rfl⟩
    | optional h => cases ho.symm.trans h
  · rintro ⟨slot, occurs, inner, fixed, rfl⟩
    exact .repeated ho hr inner fixed

theorem shapes_optional (ho : s.node.optional = true) :
    Shapes codecs s L ↔ ∃ slot, Shapes codecs s.required slot ∧ L = .optional slot := by
  constructor
  · intro h
    cases h with
    | leaf bare => exact absurd ho bare.not_optional
    | record bare => exact absurd ho bare.not_optional
    | repeated h => cases h.symm.trans ho
    | optional _ inner => exact ⟨_, inner, rfl⟩
  · rintro ⟨slot, inner, rfl⟩
    exact .optional ho inner

end Inversion

namespace Layout

mutual

/-- Every width and every number of slots is within limits. -/
def Within (l : Limits) : Layout → Prop
  | leaf width => width ≤ l.maxWidth
  | record members => AllWithin l members
  | repeated occurs element => occurs ≤ l.maxOccurs ∧ element.Within l
  | optional inner => inner.Within l

def AllWithin (l : Limits) : List Layout → Prop
  | [] => True
  | member :: rest => member.Within l ∧ AllWithin l rest

end

end Layout

namespace Mapper

variable {codecs : CodecTable} {l : Limits}

/-! ## Measuring -/

theorem recordValues_ok {node : Node} {declared : List Schema} {names : List String} {v : Value}
    {values : List Value} :
    recordValues node declared names v = .ok values ↔ ∃ entries, v = .record entries ∧
      checkEntries node declared [] entries = .ok () ∧
      List.Forall₂ (fun name value => entries.lookup name = some value) names values := by
  have looked (entries : List (String × Value)) : memberValues node entries names = .ok values ↔
      List.Forall₂ (fun name value => entries.lookup name = some value) names values := by
    induction names generalizing values with
    | nil => simp [memberValues, @eq_comm _ [] values]
    | cons name rest ih =>
      unfold memberValues
      cases found : entries.lookup name with
      | none => simp [List.forall₂_cons_left_iff, found]
      | some value => simp [List.forall₂_cons_left_iff, found, ih, @eq_comm _ values]
  cases v with
  | record entries =>
    simp only [recordValues, bind_eq_ok, looked, Value.record.injEq]
    constructor
    · rintro ⟨_, checked, found⟩
      exact ⟨entries, rfl, checked, found⟩
    · rintro ⟨_, rfl, checked, found⟩
      exact ⟨(), checked, found⟩
  | _ => simp [recordValues]

/-- Every way in which a mapper measures keeps layouts in shape. -/
def KeepsShape (codecs : CodecTable) (s : Schema) (m : Mapper) : Prop :=
  ∀ v L, Shapes codecs s L → Shapes codecs s (m.measure v L).2

theorem measureEach_shapes {s : Schema} {measure : Value → Layout → Measured}
    (keeps : ∀ v L, Shapes codecs s L → Shapes codecs s (measure v L).2) (vs : List Value)
    {L : Layout} (shapes : Shapes codecs s L) : Shapes codecs s (measureEach measure vs L).2 := by
  induction vs generalizing L with
  | nil => exact shapes
  | cons v rest ih =>
    have grown := keeps v L shapes
    unfold measureEach
    split
    next measured =>
      rw [measured] at grown
      exact ih grown
    next => exact grown

theorem measureMembers_shapes {members : List Schema} {mappers : List Mapper}
    (keeps : List.Forall₂ (KeepsShape codecs) members mappers) (vs : List Value)
    {slots : List Layout} (shapes : List.Forall₂ (Shapes codecs) members slots) :
    List.Forall₂ (Shapes codecs) members (measureMembers mappers vs slots).2 := by
  induction keeps generalizing vs slots with
  | nil =>
    cases shapes
    exact .nil
  | cons first _ ih =>
    cases shapes with
    | cons shape shapes =>
      cases vs with
      | nil => exact .cons shape shapes
      | cons v rest =>
        have grown := first v _ shape
        unfold measureMembers
        split
        next measured =>
          rw [measured] at grown
          exact .cons grown (ih rest shapes)
        next measured =>
          rw [measured] at grown
          exact .cons grown shapes

theorem keepsShape_leaf {node : Node} {kind : Kind} {codec : Codec} (bare : node.Bare)
    (found : codecs.codec? kind = some codec) :
    KeepsShape codecs (.leaf node kind) (.leaf node kind codec) := by
  intro v L shapes
  obtain ⟨codec', width, found', fixed, rfl⟩ := (shapes_leaf bare).1 shapes
  cases found.symm.trans found'
  unfold measure
  split
  · exact shapes
  · dsimp only
    split
    next => split <;> exact shapes
    next free => exact .leaf bare found (by simp [free])

theorem keepsShape_record {node : Node} {members declared : List Schema} {mappers : List Mapper}
    (bare : node.Bare) (keeps : List.Forall₂ (KeepsShape codecs) members mappers) :
    KeepsShape codecs (.record node members) (.record node declared mappers) := by
  intro v L shapes
  obtain ⟨slots, inner, rfl⟩ := (shapes_record bare).1 shapes
  unfold measure
  split
  · exact shapes
  · dsimp only
    split
    · exact .record bare (measureMembers_shapes keeps _ inner)
    · exact shapes

theorem keepsShape_repeated {s : Schema} {element : Mapper} (ho : s.node.optional = false)
    (hr : s.node.isRepeated = true) (keeps : KeepsShape codecs s.item element) :
    KeepsShape codecs s (.repeated s element) := by
  intro v L shapes
  obtain ⟨slot, occurs, inner, fixed, rfl⟩ := (shapes_repeated ho hr).1 shapes
  have grown (items : List Value) := measureEach_shapes keeps items inner
  unfold measure
  split
  · exact shapes
  · dsimp only
    split
    next =>
      split
      · exact shapes
      · exact .repeated ho hr (grown _) fixed
    next free => exact .repeated ho hr (grown _) (by simp [free])

theorem keepsShape_optional {s : Schema} {inner : Mapper} (ho : s.node.optional = true)
    (keeps : KeepsShape codecs s.required inner) : KeepsShape codecs s (.optional s inner) := by
  intro v L shapes
  obtain ⟨slot, shape, rfl⟩ := (shapes_optional ho).1 shapes
  unfold measure
  dsimp only
  split
  · exact shapes
  · exact .optional ho (keeps _ _ shape)
  · exact shapes

theorem measure_shapes {s : Schema} {m : Mapper} (assembled : codecs.assemble s = .ok m) :
    KeepsShape codecs s m := by
  refine CodecTable.byMapper keepsShape_leaf ?_ keepsShape_repeated keepsShape_optional assembled
  intro node members mappers bare all
  exact keepsShape_record bare (all.imp fun _ _ h => h.2)

/-- Induction over a schema together with its mapper, where items are known to keep layouts in
shape: what is measured into one layout after the other needs it. -/
theorem byMeasuring {P : Schema → Mapper → Prop}
    (leaf : ∀ {node : Node} {kind : Kind} {codec : Codec}, node.Bare →
      codecs.codec? kind = some codec → P (.leaf node kind) (.leaf node kind codec))
    (record : ∀ {node : Node} {members : List Schema} {mappers : List Mapper}, node.Bare →
      List.Forall₂ (fun s m => m.name = s.name ∧ P s m) members mappers →
      P (.record node members) (.record node members mappers))
    (repeated : ∀ {s : Schema} {element : Mapper}, s.node.optional = false →
      s.node.isRepeated = true → KeepsShape codecs s.item element → P s.item element →
      P s (.repeated s element))
    (optional : ∀ {s : Schema} {inner : Mapper}, s.node.optional = true →
      P s.required inner → P s (.optional s inner))
    {s : Schema} {m : Mapper} (assembled : codecs.assemble s = .ok m) : P s m := by
  have both : KeepsShape codecs s m ∧ P s m := by
    refine CodecTable.byMapper (P := fun s m => KeepsShape codecs s m ∧ P s m)
      ?leaf ?record ?repeated ?optional assembled
    case leaf =>
      intro node kind codec bare found
      exact ⟨keepsShape_leaf bare found, leaf bare found⟩
    case record =>
      intro node members mappers bare all
      exact ⟨keepsShape_record bare (all.imp fun _ _ h => h.2.1),
        record bare (all.imp fun _ _ h => ⟨h.1, h.2.2⟩)⟩
    case repeated =>
      intro s element ho hr inner
      exact ⟨keepsShape_repeated ho hr inner.1, repeated ho hr inner.1 inner.2⟩
    case optional =>
      intro s inner ho both
      exact ⟨keepsShape_optional ho both.1, optional ho both.2⟩
  exact both.2

theorem layout_shapes {s : Schema} {m : Mapper} (assembled : codecs.assemble s = .ok m) :
    Shapes codecs s m.layout := by
  refine CodecTable.byMapper (P := fun s m => Shapes codecs s m.layout)
    ?leaf ?record ?repeated ?optional assembled
  case leaf =>
    intro node kind codec bare found
    refine .leaf bare found fun fixed h => ?_
    rw [Option.mem_def.1 h, Option.getD_some]
  case record =>
    intro node members mappers bare all
    refine .record bare ?_
    induction all with
    | nil => exact .nil
    | cons first _ ih => exact .cons first.2 ih
  case repeated =>
    intro s element ho hr inner
    refine .repeated ho hr inner fun fixed h => ?_
    rw [Option.mem_def.1 h, Option.getD_some]
  case optional =>
    intro s inner ho shape
    exact .optional ho shape

/-- The layout that a value is written in: the mapper's own, as far as the value grows it. -/
def measured (m : Mapper) (v : Value) : Layout := (m.measure v m.layout).2

theorem measured_shapes {s : Schema} {m : Mapper} (assembled : codecs.assemble s = .ok m)
    (v : Value) : Shapes codecs s (m.measured v) :=
  measure_shapes assembled v _ (layout_shapes assembled)

theorem encode_ok {m : Mapper} {v : Value} {t : List Char} :
    m.encode v = .ok t ↔ (m.measure v m.layout).1 = .ok () ∧ ∃ header slots,
      m.writeHeader (m.measured v) = .ok header ∧ m.write v (m.measured v) = .ok slots ∧
      t = header ++ slots := by
  simp only [encode, bind_eq_ok, Except.ok.injEq, @eq_comm _ t]
  constructor
  · rintro ⟨_, fits, header, written, slots, filled, rfl⟩
    exact ⟨fits, header, slots, written, filled, rfl⟩
  · rintro ⟨fits, header, slots, written, filled, rfl⟩
    exact ⟨(), fits, header, written, slots, filled, rfl⟩

/-- What fails first: measuring, the header, or the slots. -/
theorem encode_error {m : Mapper} {v : Value} {e : PayloadError} :
    m.encode v = .error e ↔ (m.measure v m.layout).1 = .error e ∨
      ((m.measure v m.layout).1 = .ok () ∧ (m.writeHeader (m.measured v) = .error e ∨
        ∃ header, m.writeHeader (m.measured v) = .ok header ∧
          m.write v (m.measured v) = .error e)) := by
  simp only [encode, bind_eq_error, reduceCtorEq, and_false, exists_false, or_false]
  constructor
  · rintro (refused | ⟨_, fits, failed⟩)
    · exact .inl refused
    · exact .inr ⟨fits, failed⟩
  · rintro (refused | ⟨fits, failed⟩)
    · exact .inl refused
    · exact .inr ⟨(), fits, failed⟩

/-- A mapper encodes a value as another mapper does another value, if it measures the same layout
and writes the same for it. -/
theorem encode_in_place {m m' : Mapper} {v v' : Value} {t : List Char} (encoded : m.encode v = .ok t)
    (measures : m.measure v m.layout = (.ok (), m.measured v) →
      m'.measure v' m'.layout = (.ok (), m.measured v))
    (heads : ∀ header, m.writeHeader (m.measured v) = .ok header →
      m'.writeHeader (m.measured v) = .ok header)
    (writes : ∀ slots, m.write v (m.measured v) = .ok slots →
      m'.write v' (m.measured v) = .ok slots) : m'.encode v' = .ok t := by
  obtain ⟨fits, header, slots, headed, filled, rfl⟩ := encode_ok.1 encoded
  have taken := measures (Prod.ext fits rfl)
  have same : m'.measured v' = m.measured v := by
    rw [measured, taken]
  refine encode_ok.2 ⟨congrArg Prod.fst taken, header, slots, ?_, ?_, rfl⟩
  · rw [same]
    exact heads _ headed
  · rw [same]
    exact writes _ filled

/-! ## Headers -/

/-- Whatever header a mapper writes for a layout within limits spells the layout. -/
def WritesHeader (codecs : CodecTable) (l : Limits) (s : Schema) (m : Mapper) : Prop :=
  ∀ L header, Shapes codecs s L → L.Within l → m.writeHeader L = .ok header →
    Spells codecs l s L header

theorem writeMemberHeaders_spells {members : List Schema} {mappers : List Mapper}
    (writes : List.Forall₂ (fun s m => m.name = s.name ∧ WritesHeader codecs l s m)
      members mappers) (some : members ≠ []) {slots : List Layout} {text : List Char}
    (shapes : List.Forall₂ (Shapes codecs) members slots) (within : Layout.AllWithin l slots)
    (h : writeMemberHeaders mappers slots = .ok text) :
    SpellsMembers codecs l members slots text := by
  induction writes generalizing slots text with
  | nil => exact absurd rfl some
  | cons first others ih =>
    obtain ⟨name, writes⟩ := first
    cases shapes with
    | cons shape shapes =>
      obtain ⟨header, rest, written, more, rfl⟩ := writeMemberHeaders_cons_ok.1 h
      have spelled := writes _ _ shape within.1 written
      rw [name]
      cases others with
      | nil =>
        cases shapes
        simpa using SpellsMembers.last spelled
      | cons =>
        have others := ih (List.cons_ne_nil _ _) shapes within.2 more
        simpa using SpellsMembers.more spelled others

theorem writeHeader_spells {s : Schema} (proper : s.WellFormed) {m : Mapper}
    (assembled : codecs.assemble s = .ok m) : WritesHeader codecs l s m := by
  revert proper
  refine CodecTable.byMapper (P := fun s m => s.WellFormed → WritesHeader codecs l s m)
    ?leaf ?record ?repeated ?optional assembled
  case leaf =>
    intro node kind codec bare found _ L header shapes within h
    obtain ⟨codec', width, found', fixed, rfl⟩ := (shapes_leaf bare).1 shapes
    cases found.symm.trans found'
    obtain ⟨_, ⟨⟩, rfl⟩ := writeHeader_leaf_ok.1 h
    have spelled := Spells.leaf bare found (Decimal.denotes_digits width) within fixed
    simpa using spelled
  case record =>
    intro node members mappers bare all proper L header shapes within h
    cases proper with
    | record some _ _ each =>
      have writes : List.Forall₂ (fun s m => m.name = s.name ∧ WritesHeader codecs l s m)
          members mappers := forall₂_imp_mem all fun s hs m h => ⟨h.1, h.2 (each s hs)⟩
      obtain ⟨slots, inner, rfl⟩ := (shapes_record bare).1 shapes
      obtain ⟨_, text, ⟨⟩, _, written, rfl⟩ := writeHeader_record_ok.1 h
      exact .record bare (writeMemberHeaders_spells writes some inner within written)
  case repeated =>
    intro s element ho hr writes proper L header shapes within h
    obtain ⟨slot, occurs, inner, fixed, rfl⟩ := (shapes_repeated ho hr).1 shapes
    obtain ⟨_, _, text, ⟨⟩, written, rfl⟩ := writeHeader_repeated_ok.1 h
    have spelled := writes proper.item slot text inner within.2 written
    simpa using Spells.repeated ho hr spelled (Decimal.denotes_digits occurs) within.1 fixed
  case optional =>
    intro s inner ho writes proper L header shapes within h
    obtain ⟨slot, shape, rfl⟩ := (shapes_optional ho).1 shapes
    obtain ⟨_, text, ⟨⟩, written, rfl⟩ := writeHeader_optional_ok.1 h
    exact .optional ho (writes proper.required slot text shape within written)

end Mapper

end Slotform
