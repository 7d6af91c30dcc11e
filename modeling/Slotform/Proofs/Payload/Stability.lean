import Slotform.Proofs.Payload.Conformance
import Slotform.Proofs.Payload.RoundTrip

/-!
# Decoded values are encoded again

A payload may be written more widely than its value needs: with zeros in front of numbers, spaces
around texts, and slots that nothing uses. What a decoder reads out of it conforms to the schema
and is in normal form, so it is encoded into a payload that is no longer and that is decoded to the
same value (`Factory.reencode_decoded`). Floating-point numbers are left out: their plain notation
may be longer than the one that was read.
-/

namespace Slotform

/-! ## Smaller layouts -/

namespace Layout

mutual

theorem Le.exactWidth_le : {L L' : Layout} → L.Le L' → L.exactWidth ≤ L'.exactWidth
  | _, _, .leaf le => le
  | _, _, .record all => all.exactWidths_le
  | _, _, .repeated few le =>
    Nat.add_le_add (Decimal.digitCount_mono few) (Nat.mul_le_mul few le.exactWidth_le)
  | _, _, .optional le => Nat.succ_le_succ le.exactWidth_le

theorem AllLe.exactWidths_le : {slots slots' : List Layout} → AllLe slots slots' →
    exactWidths slots ≤ exactWidths slots'
  | _, _, .nil => Nat.le_refl _
  | _, _, .cons le all => Nat.add_le_add le.exactWidth_le all.exactWidths_le

end

mutual

theorem Le.within {l : Limits} : {L L' : Layout} → L.Le L' → L'.Within l → L.Within l
  | _, _, .leaf le, within => Nat.le_trans le within
  | _, _, .record all, within => all.within within
  | _, _, .repeated few le, within => ⟨Nat.le_trans few within.1, le.within within.2⟩
  | .optional _, .optional _, .optional le, within => le.within within

theorem AllLe.within {l : Limits} : {slots slots' : List Layout} → AllLe slots slots' →
    AllWithin l slots' → AllWithin l slots
  | _, _, .nil, within => within
  | _, _, .cons le all, within => ⟨le.within within.1, all.within within.2⟩

end

end Layout

section Spelled

variable {codecs : CodecTable} {l : Limits}

mutual

/-- A layout that a header spells has the shape of the schema and is within the limits. -/
theorem Spells.shapes_within : {s : Schema} → {L : Layout} → {header : List Char} →
    Spells codecs l s L header → Shapes codecs s L ∧ L.Within l
  | _, _, _, .leaf bare found _ within fixed => ⟨.leaf bare found fixed, within⟩
  | _, _, _, .record bare all =>
    ⟨.record bare all.shapes_within.1, all.shapes_within.2⟩
  | _, _, _, .repeated ho hr inner _ within fixed =>
    ⟨.repeated ho hr inner.shapes_within.1 fixed, within, inner.shapes_within.2⟩
  | _, _, _, .optional ho inner => ⟨.optional ho inner.shapes_within.1, inner.shapes_within.2⟩

theorem SpellsMembers.shapes_within : {members : List Schema} → {slots : List Layout} →
    {header : List Char} → SpellsMembers codecs l members slots header →
    List.Forall₂ (Shapes codecs) members slots ∧ Layout.AllWithin l slots
  | _, _, _, .last first =>
    ⟨.cons first.shapes_within.1 .nil, first.shapes_within.2, trivial⟩
  | _, _, _, .more first others =>
    ⟨.cons first.shapes_within.1 others.shapes_within.1, first.shapes_within.2,
      others.shapes_within.2⟩

end

end Spelled

/-! ## Schemas of whole numbers -/

/-- No leaf holds a floating-point number. -/
inductive Schema.Whole : Schema → Prop where
  | leaf {node : Node} {kind : Kind} :
      (∀ p, kind = .primitive p → p.isFloat = false) → Whole (.leaf node kind)
  | record {node : Node} {members : List Schema} : (∀ m ∈ members, m.Whole) →
      Whole (.record node members)

theorem Schema.Whole.mapNode {s : Schema} (h : s.Whole) (change : Node → Node) :
    (s.mapNode change).Whole := by
  cases h with
  | leaf whole => exact .leaf whole
  | record all => exact .record all

theorem fills_whole_leaf {node : Node} {kind : Kind} (bare : node.Bare)
    (whole : (Schema.leaf node kind).Whole) {L : Layout} {v : Value} {slot : List Char}
    (fills : Fills [] (.leaf node kind) L v slot) :
    ∃ a, v = .atom a ∧ kind = .primitive a.primitive ∧ L = .leaf slot.length ∧
      a.text.length ≤ slot.length ∧ a.normal (node.format.align.getD .left) = a := by
  obtain ⟨codec, found, parses, rfl⟩ := (fills_leaf bare).1 fills
  cases kind with
  | custom name => cases found
  | primitive p =>
    cases found
    cases whole with
    | leaf whole =>
      obtain ⟨a, rfl, rfl, short, normal⟩ := Codec.parse_slotText (whole p rfl) parses
      exact ⟨a, rfl, rfl, rfl, short, Atom.normal_leafAlign a node ▸ normal⟩

namespace Schema

/-- Fields that were read stand under the names of the members, in their order. -/
theorem names_of_fillsMembers {codecs : CodecTable} {members : List Schema} {slots : List Layout}
    {entries : List (String × Value)} {text : List Char}
    (fills : FillsMembers codecs members slots entries text) :
    entries.map Prod.fst = members.map name :=
  (forall₂_map_eq fills.each fun _ _ h => h.1).symm

/-- What is read is in normal form. -/
theorem normal_of_fills {s : Schema} (proper : s.WellFormed) (whole : s.Whole) {L : Layout}
    {v : Value} {text : List Char} (fills : Fills [] s L v text) : s.normal v = v := by
  induction s using Schema.byViews generalizing L v text with
  | leaf node kind bare =>
    obtain ⟨a, rfl, _, _, _, normal⟩ := fills_whole_leaf bare whole fills
    rw [normal_bare (s := .leaf node kind) bare]
    exact congrArg Value.atom normal
  | record node members bare ih =>
    obtain ⟨slots, entries, all, rfl, rfl⟩ := (fills_record bare).1 fills
    cases proper with
    | record _ _ nodup each =>
      cases whole with
      | record wholes =>
        have names := names_of_fillsMembers all
        have distinct : (entries.map Prod.fst).Nodup := names ▸ nodup
        have own : ∀ m ∈ members, ∀ v, (m.name, v) ∈ entries → m.normal v = v := by
          intro m hm v entry
          obtain ⟨n, hn, named, _, _, filled⟩ := forall₂_exists_left all.each entry
          obtain rfl := List.inj_on_of_nodup_map nodup hn hm named
          exact ih n hn (each n hn) (wholes n hn) filled
        have same := normalMembers_of_names names own fun e he => (mem_entries_iff distinct).1 he
        rw [normal_bare (s := .record node members) bare]
        exact congrArg Value.record same
  | repeated s ho hr ih =>
    obtain ⟨_, _, items, _, _, _, _, _, all, rfl, rfl, rfl⟩ := (fills_repeated ho hr).1 fills
    have items_same : items.map s.item.normal = items := by
      have each : ∀ v ∈ items, s.item.normal v = v := fun v hv =>
        let ⟨_, filled⟩ := all.each v hv
        ih proper.item (whole.mapNode _) filled
      exact (List.map_congr_left each).trans (List.map_id items)
    rw [normal_repeated ho hr]
    exact congrArg Value.list items_same
  | optional s ho ih =>
    obtain ⟨_, rfl, ⟨rfl, rfl⟩ | ⟨w, _, filled, rfl, rfl⟩⟩ := (fills_optional ho).1 fills
    · rw [normal_optional ho]
      rfl
    · rw [normal_optional ho]
      exact congrArg Value.present (ih proper.required (whole.mapNode _) filled)

end Schema

namespace Mapper

/-! ## Measuring what was read -/

/-- Measuring a value that fills slots succeeds from any smaller layout on, and never grows it
beyond those slots. -/
def MeasuresWithin (s : Schema) (m : Mapper) : Prop :=
  s.WellFormed → s.Whole → ∀ v L text, Shapes [] s L → Fills [] s L v text →
    ∀ start : Layout, Shapes [] s start → start.Le L →
      ∃ grown, m.measure v start = (.ok (), grown) ∧ grown.Le L

theorem measuresWithin_leaf {node : Node} {kind : Kind} {codec : Codec} (bare : node.Bare)
    (found : CodecTable.codec? [] kind = some codec) :
    MeasuresWithin (.leaf node kind) (.leaf node kind codec) := by
  intro _ whole v L text shapes fills start shapes' smaller
  obtain ⟨a, rfl, rfl, rfl, short, _⟩ := fills_whole_leaf bare whole fills
  cases found
  obtain ⟨_, width, ⟨⟩, fixed, ⟨⟩⟩ := (shapes_leaf bare).1 shapes
  obtain ⟨_, width', ⟨⟩, fixed', rfl⟩ := (shapes_leaf bare).1 shapes'
  cases smaller with
  | leaf smaller =>
    refine ⟨.leaf (max width' a.text.length), (measure_leaf_ok fixed').2 ⟨a.text, ?_, ?_, rfl⟩,
      .leaf (Nat.max_le.2 ⟨smaller, short⟩)⟩
    · exact mapError_eq_ok.2 (Codec.render_ofPrimitive.2 ⟨a, rfl, rfl, rfl⟩)
    · exact fun one h => fixed one h ▸ short

theorem measureMembers_within {members : List Schema} {mappers : List Mapper}
    (measures : List.Forall₂ (fun s m => m.name = s.name ∧ MeasuresWithin s m) members mappers)
    (proper : ∀ s ∈ members, s.WellFormed) (whole : ∀ s ∈ members, s.Whole)
    {slots starts : List Layout} {entries : List (String × Value)} {text : List Char}
    (shapes : List.Forall₂ (Shapes []) members slots)
    (fills : FillsMembers [] members slots entries text)
    (shapes' : List.Forall₂ (Shapes []) members starts) (smaller : Layout.AllLe starts slots) :
    ∃ grown, measureMembers mappers (entries.map Prod.snd) starts = (.ok (), grown) ∧
      Layout.AllLe grown slots := by
  induction measures generalizing slots starts entries text with
  | nil =>
    cases shapes'
    cases fills
    exact ⟨[], rfl, smaller⟩
  | cons first _ ih =>
    cases shapes with
    | cons shape shapes =>
      cases shapes' with
      | cons shape' shapes' =>
        cases smaller with
        | cons le smaller =>
          cases fills with
          | cons filled fills =>
            obtain ⟨grown, once, le'⟩ := first.2 (proper _ List.mem_cons_self)
              (whole _ List.mem_cons_self) _ _ _ shape filled _ shape' le
            obtain ⟨others, more, les⟩ := ih (fun s hs => proper s (List.mem_cons_of_mem _ hs))
              (fun s hs => whole s (List.mem_cons_of_mem _ hs)) shapes fills shapes' smaller
            exact ⟨grown :: others, measureMembers_cons_ok.2 ⟨_, _, once, more, rfl⟩,
              .cons le' les⟩

theorem measuresWithin_record {node : Node} {members : List Schema} {mappers : List Mapper}
    (bare : node.Bare)
    (measures : List.Forall₂ (fun s m => m.name = s.name ∧ MeasuresWithin s m) members mappers) :
    MeasuresWithin (.record node members) (.record node members mappers) := by
  intro proper whole v L text shapes fills start shapes' smaller
  obtain ⟨slots, entries, filled, rfl, rfl⟩ := (fills_record bare).1 fills
  obtain ⟨starts, inner', rfl⟩ := (shapes_record bare).1 shapes'
  obtain ⟨_, inner, ⟨⟩⟩ := (shapes_record bare).1 shapes
  cases smaller with
  | record smaller =>
    cases proper with
    | record _ _ nodup each =>
      cases whole with
      | record wholes =>
        obtain ⟨grown, measured, le⟩ :=
          measureMembers_within measures each wholes inner filled inner' smaller
        have same : starts.length = mappers.length :=
          inner'.length_eq.symm.trans measures.length_eq
        have mapped : mappers.map name = members.map Schema.name :=
          (forall₂_map_eq measures fun _ _ h => h.1.symm).symm
        have values : recordValues node members (mappers.map name) (.record entries) =
            .ok (entries.map Prod.snd) :=
          mapped ▸ recordValues_of_names nodup (Schema.names_of_fillsMembers filled)
        exact ⟨.record grown, (measure_record_ok same).2 ⟨_, _, values, measured, rfl⟩, .record le⟩

theorem measureEach_within {s : Schema} {m : Mapper} (keeps : KeepsShape [] s m)
    (measures : MeasuresWithin s m) (proper : s.WellFormed) (whole : s.Whole) {slot : Layout}
    (shape : Shapes [] s slot) {items : List Value}
    (filled : ∀ v ∈ items, ∃ text, Fills [] s slot v text) {start : Layout}
    (shape' : Shapes [] s start) (smaller : start.Le slot) :
    ∃ grown, measureEach (fun v l => m.measure v l) items start = (.ok (), grown) ∧
      grown.Le slot := by
  induction items generalizing start with
  | nil => exact ⟨start, rfl, smaller⟩
  | cons v rest ih =>
    obtain ⟨text, fills⟩ := filled v List.mem_cons_self
    obtain ⟨mid, once, le⟩ := measures proper whole v _ text shape fills _ shape' smaller
    have kept := keeps v start shape'
    rw [once] at kept
    obtain ⟨grown, others, le'⟩ := ih (fun w hw => filled w (List.mem_cons_of_mem _ hw)) kept le
    exact ⟨grown, measureEach_cons_ok.2 ⟨mid, once, others⟩, le'⟩

theorem measuresWithin_repeated {s : Schema} {element : Mapper} (ho : s.node.optional = false)
    (hr : s.node.isRepeated = true) (keeps : KeepsShape [] s.item element)
    (measures : MeasuresWithin s.item element) : MeasuresWithin s (.repeated s element) := by
  intro proper whole v L text shapes fills start shapes' smaller
  obtain ⟨slot, occurs, items, _, _, _, _, few, all, rfl, rfl, rfl⟩ :=
    (fills_repeated ho hr).1 fills
  obtain ⟨_, _, inner, fixed, ⟨⟩⟩ := (shapes_repeated ho hr).1 shapes
  obtain ⟨start, occurs', inner', fixed', rfl⟩ := (shapes_repeated ho hr).1 shapes'
  cases smaller with
  | repeated fewer smaller =>
    obtain ⟨grown, each, le⟩ := measureEach_within keeps measures proper.item (whole.mapNode _)
      inner all.each inner' smaller
    refine ⟨_, (measure_repeated_ok fixed').2 ⟨items, grown, rfl, ?_, each, rfl⟩,
      .repeated (Nat.max_le.2 ⟨fewer, few⟩) le⟩
    exact fun one h => fixed one h ▸ few

theorem measuresWithin_optional {s : Schema} {inner : Mapper} (ho : s.node.optional = true)
    (measures : MeasuresWithin s.required inner) : MeasuresWithin s (.optional s inner) := by
  intro proper whole v L text shapes fills start shapes' smaller
  obtain ⟨slot, shape, rfl⟩ := (shapes_optional ho).1 shapes
  obtain ⟨start, shape', rfl⟩ := (shapes_optional ho).1 shapes'
  cases smaller with
  | optional smaller =>
    obtain ⟨_, ⟨⟩, ⟨rfl, rfl⟩ | ⟨w, _, filled, rfl, rfl⟩⟩ := (fills_optional ho).1 fills
    · exact ⟨_, measure_optional_ok.2 (.inl ⟨rfl, rfl⟩), .optional smaller⟩
    · obtain ⟨grown, once, le⟩ := measures proper.required (whole.mapNode _) w _ _ shape filled _
        shape' smaller
      exact ⟨_, measure_optional_ok.2 (.inr ⟨w, grown, rfl, once, rfl⟩), .optional le⟩

theorem measuresWithin {s : Schema} {m : Mapper} (assembled : CodecTable.assemble [] s = .ok m) :
    MeasuresWithin s m :=
  byMeasuring measuresWithin_leaf measuresWithin_record measuresWithin_repeated
    measuresWithin_optional assembled

/-! ## Shorter headers -/

/-- A header that is written for a smaller layout is no longer than one that spells a larger one:
numbers have no superfluous zeros and no more digits. -/
def HeadsShorter (codecs : CodecTable) (l : Limits) (s : Schema) (m : Mapper) : Prop :=
  ∀ L L' header header', L.Le L' → Spells codecs l s L' header' → m.writeHeader L = .ok header →
    header.length ≤ header'.length

variable {codecs : CodecTable} {l : Limits}

theorem writeMemberHeaders_shorter {members : List Schema} {mappers : List Mapper}
    (shorter : List.Forall₂ (fun s m => m.name = s.name ∧ HeadsShorter codecs l s m)
      members mappers) {slots slots' : List Layout} {header header' : List Char}
    (le : Layout.AllLe slots slots') (spells : SpellsMembers codecs l members slots' header')
    (written : writeMemberHeaders mappers slots = .ok header) :
    header.length ≤ header'.length := by
  induction shorter generalizing slots slots' header header' with
  | nil => cases spells
  | cons first others ih =>
    obtain ⟨name, shorter⟩ := first
    cases spells with
    | last spelled =>
      cases le with
      | cons le _ =>
        obtain ⟨text, _, once, _, rfl⟩ := writeMemberHeaders_cons_ok.1 written
        have short := shorter _ _ _ _ le spelled once
        cases others
        simp only [name, List.isEmpty_nil, if_true, List.length_append, List.length_cons,
          List.length_nil]
        omega
    | more spelled spells =>
      cases le with
      | cons le les =>
        obtain ⟨text, rest, once, more, rfl⟩ := writeMemberHeaders_cons_ok.1 written
        have short := shorter _ _ _ _ le spelled once
        have shorts := ih les spells more
        cases others with
        | nil => cases spells
        | cons =>
          simp only [name, List.isEmpty_cons, Bool.false_eq_true, if_false, List.length_append,
            List.length_cons]
          omega

theorem headsShorter {s : Schema} {m : Mapper} (assembled : codecs.assemble s = .ok m) :
    HeadsShorter codecs l s m := by
  refine CodecTable.byMapper ?leaf ?record ?repeated ?optional assembled
  case leaf =>
    intro node kind codec bare found L L' header header' le spells written
    obtain ⟨_, _, digits, _, denotes, _, _, rfl, rfl⟩ := (spells_leaf bare).1 spells
    cases le with
    | leaf le =>
      obtain ⟨_, ⟨⟩, rfl⟩ := writeHeader_leaf_ok.1 written
      have fewer := Nat.le_trans (Decimal.digitCount_mono le) denotes.digitCount_le
      unfold Decimal.digitCount at fewer
      simp only [List.length_append, List.length_cons, List.length_nil]
      omega
  case record =>
    intro node members mappers bare all L L' header header' le spells written
    obtain ⟨_, inside, spelled, rfl, rfl⟩ := (spells_record bare).1 spells
    cases le with
    | record le =>
      obtain ⟨_, inside, ⟨⟩, _, headed, rfl⟩ := writeHeader_record_ok.1 written
      have short := writeMemberHeaders_shorter all le spelled headed
      simp only [List.length_append, List.length_cons, List.length_nil]
      omega
  case repeated =>
    intro s element ho hr shorter L L' header header' le spells written
    obtain ⟨_, _, _, digits, spelled, denotes, _, _, rfl, rfl⟩ :=
      (spells_repeated ho hr).1 spells
    cases le with
    | repeated few le =>
      obtain ⟨_, _, inside, ⟨⟩, headed, rfl⟩ := writeHeader_repeated_ok.1 written
      have short := shorter _ _ _ _ le spelled headed
      have fewer := Nat.le_trans (Decimal.digitCount_mono few) denotes.digitCount_le
      unfold Decimal.digitCount at fewer
      simp only [List.length_append, List.length_cons, List.length_nil]
      omega
  case optional =>
    intro s inner ho shorter L L' header header' le spells written
    obtain ⟨_, _, spelled, rfl, rfl⟩ := (spells_optional ho).1 spells
    cases le with
    | optional le =>
      obtain ⟨_, inside, ⟨⟩, headed, rfl⟩ := writeHeader_optional_ok.1 written
      have short := shorter _ _ _ _ le spelled headed
      simp only [List.length_append, List.length_cons, List.length_nil]
      omega

/-! ## Whole payloads -/

variable {s : Schema} {m : Mapper} {header slots : List Char} {L : Layout} {v : Value}

/-- A mapper's own layout is the smallest in the shape of the schema. -/
theorem layout_le (assembled : codecs.assemble s = .ok m) :
    ∀ L, Shapes codecs s L → m.layout.Le L := by
  refine CodecTable.byMapper (P := fun s m => ∀ L, Shapes codecs s L → m.layout.Le L)
    ?leaf ?record ?repeated ?optional assembled
  case leaf =>
    intro node kind codec bare found L shapes
    obtain ⟨_, width, found', fixed, rfl⟩ := (shapes_leaf bare).1 shapes
    cases found.symm.trans found'
    refine .leaf ?_
    cases known : leafWidth? node codec with
    | none => exact Nat.zero_le _
    | some one => exact Nat.le_of_eq (fixed one known).symm
  case record =>
    intro node members mappers bare all L shapes
    obtain ⟨slots, inner, rfl⟩ := (shapes_record bare).1 shapes
    refine .record ?_
    clear shapes
    induction all generalizing slots with
    | nil =>
      cases inner
      exact .nil
    | cons first _ ih =>
      cases inner with
      | cons shape inner => exact .cons (first.2 _ shape) (ih _ inner)
  case repeated =>
    intro s element ho hr least L shapes
    obtain ⟨slot, occurs, inner, fixed, rfl⟩ := (shapes_repeated ho hr).1 shapes
    refine .repeated ?_ (least slot inner)
    cases known : occurs? s with
    | none => exact Nat.zero_le _
    | some one => exact Nat.le_of_eq (fixed one known).symm
  case optional =>
    intro s inner ho least L shapes
    obtain ⟨slot, shape, rfl⟩ := (shapes_optional ho).1 shapes
    exact .optional (least slot shape)

/-- A value that fills slots is measured within them. -/
theorem measured_within (assembled : CodecTable.assemble [] s = .ok m) (proper : s.WellFormed)
    (whole : s.Whole) (spells : Spells [] l s L header) (fills : Fills [] s L v slots) :
    (m.measure v m.layout).1 = .ok () ∧ (m.measured v).Le L := by
  have shapes := spells.shapes_within.1
  obtain ⟨grown, measured, le⟩ := measuresWithin assembled proper whole v L slots shapes fills
    m.layout (layout_shapes assembled) (layout_le assembled L shapes)
  rw [Mapper.measured, measured]
  exact ⟨rfl, le⟩

/-- The payload of a value that was read is no longer than what it was read from. -/
theorem encode_read (assembled : CodecTable.assemble [] s = .ok m) (proper : s.WellFormed)
    (whole : s.Whole) (spells : Spells [] l s L header) (fills : Fills [] s L v slots)
    (narrow : L.exactWidth < UInt64.size) :
    ∃ t, m.encode v = .ok t ∧ t.length ≤ (header ++ slots).length := by
  obtain ⟨fits, le⟩ := measured_within assembled proper whole spells fills
  have narrow' := Nat.lt_of_le_of_lt le.exactWidth_le narrow
  obtain ⟨header', slots', headed, filled⟩ := measured_encodes assembled fits narrow'
  refine ⟨_, encode_ok.2 ⟨fits, header', slots', headed, filled, rfl⟩, ?_⟩
  have shorter := headsShorter assembled _ _ _ _ le spells headed
  have length := (write_fills assembled v _ _ (measured_shapes assembled v) narrow' filled).length
  rw [List.length_append, List.length_append, length, fills.length]
  exact Nat.add_le_add shorter le.exactWidth_le

end Mapper

namespace Factory

/-- A value that was decoded is encoded into a payload that is no longer, and that is decoded to
the same value again. -/
theorem reencode_decoded {past : List Schema} {s : Schema} (readable : s.Readable)
    (whole : s.Whole) (distinct : Fingerprint.Identifies (past ++ [s])) {kept : Kept Mapper}
    (accepted : ((after [] past).create s).1 = .ok kept) {l : Limits} (words : l.Words)
    {t : List Char} {v : Value} (decoded : kept.value.decode l t = .ok v) :
    ∃ t', kept.value.encode v = .ok t' ∧ t'.length ≤ t.length ∧
      kept.value.decode l t' = .ok v := by
  have assembled := create_assembles distinct accepted
  have proper := readable.wellFormed
  obtain ⟨short, header, slots, L, rfl, spells, fills⟩ :=
    (Mapper.decode_ok words proper assembled).1 decoded
  have narrow := Mapper.exactWidth_lt_of_short words fills short
  obtain ⟨t', encoded, shorter⟩ := Mapper.encode_read assembled proper whole spells fills narrow
  obtain ⟨_, le⟩ := Mapper.measured_within assembled proper whole spells fills
  have again := Mapper.decode_encoded proper assembled encoded
    (Nat.lt_of_le_of_lt le.exactWidth_le narrow) words (Nat.le_trans shorter short)
    (le.within spells.shapes_within.2)
  rw [Schema.normal_of_fills proper whole fills] at again
  exact ⟨t', encoded, shorter, again⟩

/-- A payload with superfluous zeros and room for one more tag. -/
theorem reencode_decoded_person : ∃ kept, ((after [] []).create Sample.person).1 = .ok kept ∧
    kept.value.decode .standard Sample.text = .ok Sample.ada ∧ Sample.person.Whole ∧
      ∃ t', kept.value.encode Sample.ada = .ok t' ∧ t'.length ≤ Sample.text.length ∧
        kept.value.decode .standard t' = .ok Sample.ada := by
  obtain ⟨kept, accepted, made⟩ := create_ok [] Sample.distinct_person Sample.assemble_person
  have decoded : kept.value.decode .standard Sample.text = .ok Sample.ada := by
    rw [made]
    cbv
  have whole : Sample.person.Whole := by
    refine .record fun m hm => ?_
    simp only [List.mem_cons, List.not_mem_nil, or_false] at hm
    rcases hm with rfl | rfl
    · exact .leaf fun p hp => by cases hp; rfl
    · exact .leaf fun p hp => by cases hp; rfl
  exact ⟨kept, accepted, decoded, whole, reencode_decoded Sample.readable_person whole
    Sample.distinct_person accepted Limits.words_standard decoded⟩

end Factory

end Slotform
