import Slotform.Proofs.Payload.HeaderView
import Slotform.Proofs.Payload.Room

/-!
# Encoders of views

A view has neither hints nor skipped fields, and the records in it have other names. None of that
shows in a payload that was written without hints: the mapper of the view measures and writes the
normal form of a value as the mapper of the schema does the value, provided that no slot takes
anything from an atom (`Mapper.encode_headerView`).
-/

namespace Slotform

/-- No text in the value ends in a space, and every floating-point number is one. -/
inductive Value.Tight : Value → Prop where
  | atom {a : Atom} : a.Tight .left → Tight (.atom a)
  | list {items : List Value} : (∀ v ∈ items, v.Tight) → Tight (.list items)
  | absent : Tight .absent
  | present {v : Value} : v.Tight → Tight (.present v)
  | record {entries : List (String × Value)} : (∀ e ∈ entries, e.2.Tight) → Tight (.record entries)

namespace Mapper

variable {codecs : CodecTable} {s : Schema} {m : Mapper}

/-! ## Layouts and headers -/

theorem leafWidth?_unhinted {node : Node} {codec : Codec} (free : node.format = .unset) :
    leafWidth? node codec = codec.fixedWidth := by
  rw [leafWidth?, free]
  cases codec.fixedWidth <;> rfl

theorem leafWidth?_headerView_unhinted {node : Node} {codec : Codec} (free : node.format = .unset)
    (name : String) (element : Ty) :
    leafWidth? (node.headerView name element) codec = leafWidth? node codec := by
  rw [leafWidth?_unhinted free, leafWidth?_unhinted rfl]

/-- A view starts from the same layout. -/
theorem layout_headerView (assembled : codecs.assemble s = .ok m) (unhinted : s.Unhinted)
    (name : String) : (m.headerView name).layout = m.layout := by
  revert unhinted name
  refine CodecTable.byMapper
    (P := fun s m => s.Unhinted → ∀ name, (m.headerView name).layout = m.layout)
    ?leaf ?record ?repeated ?optional assembled
  case leaf =>
    intro node kind codec bare found unhinted name
    have free : node.format = .unset := unhinted.format
    rw [headerView, layout, layout, leafWidth?_headerView_unhinted free]
  case record =>
    intro node members mappers bare all unhinted name
    cases unhinted with
    | record _ each =>
      rw [headerView, layout, layout]
      congr 1
      induction all with
      | nil => rfl
      | cons first _ ih =>
        rw [headerViews, layouts, layouts, first.2 (each _ List.mem_cons_self),
          ih fun m hm => each m (List.mem_cons_of_mem _ hm)]
  case repeated =>
    intro s element ho hr same unhinted name
    rw [headerView, layout, layout, same unhinted.item, occurs?, occurs?,
      Schema.format_headerView, unhinted.format]
  case optional =>
    intro s inner ho same unhinted name
    rw [headerView, layout, layout, same unhinted.required]

theorem length_headerViews (members : List Mapper) :
    (headerViews members).length = members.length := by
  rw [headerViews_eq_map, List.length_map]

theorem isEmpty_headerViews (members : List Mapper) :
    (headerViews members).isEmpty = members.isEmpty := by
  cases members <;> rfl

/-- A view writes the same headers. -/
theorem writeHeader_headerView (assembled : codecs.assemble s = .ok m) (name : String) :
    ∀ L header, m.writeHeader L = .ok header → (m.headerView name).writeHeader L = .ok header := by
  revert name
  refine CodecTable.byMapper (P := fun _ m => ∀ name L header, m.writeHeader L = .ok header →
    (m.headerView name).writeHeader L = .ok header)
    ?leaf ?record ?repeated ?optional assembled
  case leaf =>
    intro node kind codec bare found name L header written
    obtain ⟨width, rfl, rfl⟩ := writeHeader_leaf_ok.1 written
    exact writeHeader_leaf_ok.2 ⟨width, rfl, rfl⟩
  case record =>
    intro node members mappers bare all name L header written
    obtain ⟨slots, text, rfl, length, each, rfl⟩ := writeHeader_record_ok.1 written
    refine writeHeader_record_ok.2
      ⟨slots, text, rfl, length.trans (length_headerViews _).symm, ?_, rfl⟩
    clear length written
    induction all generalizing slots text with
    | nil => exact each
    | cons first _ ih =>
      cases slots with
      | nil => exact each
      | cons slot slots =>
        obtain ⟨header, rest, once, more, rfl⟩ := writeMemberHeaders_cons_ok.1 each
        refine writeMemberHeaders_cons_ok.2 ⟨header, rest, first.2 _ _ _ once, ih _ _ more, ?_⟩
        rw [name_headerView, isEmpty_headerViews]
  case repeated =>
    intro s element ho hr same name L header written
    obtain ⟨occurs, slot, text, rfl, inside, rfl⟩ := writeHeader_repeated_ok.1 written
    exact writeHeader_repeated_ok.2 ⟨occurs, slot, text, rfl, same _ _ _ inside, rfl⟩
  case optional =>
    intro s inner ho same name L header written
    obtain ⟨slot, text, rfl, inside, rfl⟩ := writeHeader_optional_ok.1 written
    exact writeHeader_optional_ok.2 ⟨slot, text, rfl, same _ _ _ inside, rfl⟩

/-! ## Values -/

/-- What a mapper measures or writes of a value, its view measures or writes of the normal form. -/
structure Mirrors (s : Schema) (m : Mapper) (name : String) (v : Value) : Prop where
  measure : ∀ L grown, Shapes [] s L → m.measure v L = (.ok (), grown) →
    (m.headerView name).measure (s.normal v) L = (.ok (), grown)
  write : ∀ L text, m.write v L = .ok text →
    (m.headerView name).write (s.normal v) L = .ok text

/-- A mapper is mirrored by its views on all values from which slots take nothing. -/
def Mirrored (s : Schema) (m : Mapper) : Prop :=
  s.WellFormed → s.Unhinted → ∀ name v, v.Tight → Mirrors s m name v

theorem mirrored_leaf {node : Node} {kind : Kind} {codec : Codec} (bare : node.Bare)
    (found : CodecTable.codec? [] kind = some codec) :
    Mirrored (.leaf node kind) (.leaf node kind codec) := by
  intro _ unhinted name v tight
  have free : node.format = .unset := unhinted.format
  cases kind with
  | custom kind => cases found
  | primitive p =>
    cases found
    have rendered {text : List Char}
        (h : renderLeaf node (.primitive p) (.ofPrimitive p) v = .ok text) :
        renderLeaf (node.headerView name (.primitive p)) (.primitive p) (.ofPrimitive p)
          ((Schema.leaf node (.primitive p)).normal v) = .ok text := by
      rw [renderLeaf, mapError_eq_ok] at h ⊢
      obtain ⟨a, rfl, kind, rfl⟩ := Codec.render_ofPrimitive.1 h
      rw [Schema.normal_bare (s := .leaf node _) bare]
      cases tight with
      | atom tight =>
        have kept : a.normal (node.format.align.getD .left) = a := by
          rw [free]
          exact tight.normal
        exact Codec.render_ofPrimitive.2 ⟨a, congrArg Value.atom kept, kind, rfl⟩
    constructor
    · intro L grown shapes measured
      obtain ⟨_, width, ⟨⟩, fixed, rfl⟩ := (shapes_leaf bare).1 shapes
      obtain ⟨text, once, few, rfl⟩ := (measure_leaf_ok fixed).1 measured
      have same : leafWidth? (node.headerView name (.primitive p)) (.ofPrimitive p) =
          leafWidth? node (.ofPrimitive p) := leafWidth?_headerView_unhinted free _ _
      refine (measure_leaf_ok ?_).2 ⟨text, rendered once, ?_, rfl⟩
      · exact same ▸ fixed
      · exact same ▸ few
    · intro L text written
      obtain ⟨width, text, rfl, once, fits, rfl⟩ := write_leaf_ok.1 written
      refine write_leaf_ok.2 ⟨width, text, rfl, rendered once, fits, ?_⟩
      rw [leafAlign, free]
      rfl

/-- The same for the values of members, one after the other. -/
structure MirrorsAll (members : List Schema) (mappers : List Mapper) (values views : List Value) :
    Prop where
  measure : ∀ slots grown, List.Forall₂ (Shapes []) members slots →
    measureMembers mappers values slots = (.ok (), grown) →
    measureMembers (headerViews mappers) views slots = (.ok (), grown)
  write : ∀ slots text, writeMembers mappers values slots = .ok text →
    writeMembers (headerViews mappers) views slots = .ok text

theorem mirrorsAll_cons {members : List Schema} {mappers : List Mapper} {values views : List Value}
    {v : Value} (first : Mirrors s m m.name v) (others : MirrorsAll members mappers values views) :
    MirrorsAll (s :: members) (m :: mappers) (v :: values) (s.normal v :: views) where
  measure _ _ := measureMembers_cons_in_place first.measure others.measure
  write _ _ := writeMembers_cons_in_place first.write others.write

/-- The normal form of a record has entries for all members, and they are measured and written as
those of the record are. -/
theorem mirrors_members {members : List Schema} {mappers : List Mapper}
    (mirrored : List.Forall₂ (fun s m => m.name = s.name ∧ Mirrored s m) members mappers)
    (proper : ∀ s ∈ members, s.WellFormed) (unhinted : ∀ s ∈ members, s.Unhinted)
    {entries : List (String × Value)} (tight : ∀ name v, entries.lookup name = some v → v.Tight)
    {values : List Value} (found : List.Forall₂ (fun name value => entries.lookup name = some value)
      (mappers.map name) values) :
    (Schema.normalMembers members entries).map Prod.fst = members.map Schema.name ∧
      MirrorsAll members mappers values
        ((Schema.normalMembers members entries).map Prod.snd) := by
  induction mirrored generalizing values with
  | nil =>
    cases found
    exact ⟨rfl, fun _ _ _ h => h, fun _ _ h => h⟩
  | @cons s m _ _ first _ ih =>
    obtain ⟨name, mirrored⟩ := first
    rw [List.map_cons, name] at found
    cases found with
    | cons value found =>
      obtain ⟨names, others⟩ := ih (fun s hs => proper s (List.mem_cons_of_mem _ hs))
        (fun s hs => unhinted s (List.mem_cons_of_mem _ hs)) found
      have one := mirrored (proper s List.mem_cons_self) (unhinted s List.mem_cons_self) m.name _
        (tight _ _ value)
      rw [Schema.normalMembers, value]
      exact ⟨by rw [List.map_cons, List.map_cons, names], mirrorsAll_cons one others⟩

/-- A view finds the values of its members in the normal form of a record. -/
theorem recordValues_headerView {node : Node} {members : List Schema} {mappers : List Mapper}
    (proper : (Schema.record node members).WellFormed)
    (unhinted : (Schema.record node members).Unhinted)
    (mirrored : List.Forall₂ (fun s m => m.name = s.name ∧ Mirrored s m) members mappers)
    {v : Value} (tight : v.Tight) {values : List Value}
    (known : recordValues node members (mappers.map name) v = .ok values) (view : Node) :
    ∃ entries views, v = .record entries ∧
      recordValues view (Schema.headerViews members) ((headerViews mappers).map name)
        (.record (Schema.normalMembers members entries)) = .ok views ∧
      MirrorsAll members mappers values views := by
  obtain ⟨entries, rfl, checked, found⟩ := recordValues_ok.1 known
  obtain ⟨distinct, -, -⟩ := checkEntries_ok.1 checked
  cases proper with
  | record _ _ nodup each =>
    cases unhinted with
    | record _ free =>
      cases tight with
      | record tight =>
        obtain ⟨names, mirrors⟩ := mirrors_members mirrored each free
          (fun _ _ h => tight _ ((mem_entries_iff distinct).2 h)) found
        have viewed : (Schema.headerViews members).map Schema.name = members.map Schema.name := by
          rw [Schema.headerViews_eq_map, List.map_map]
          exact List.map_congr_left fun m _ => Schema.name_headerView
        have mapped : (headerViews mappers).map name =
            (Schema.headerViews members).map Schema.name := by
          rw [viewed, headerViews_eq_map, List.map_map]
          exact (forall₂_map_eq mirrored fun s m h => h.1.symm.trans (by simp)).symm
        refine ⟨entries, _, rfl, ?_, mirrors⟩
        rw [mapped]
        exact recordValues_of_names (viewed ▸ nodup) (names.trans viewed.symm)

theorem mirrored_record {node : Node} {members : List Schema} {mappers : List Mapper}
    (bare : node.Bare)
    (mirrored : List.Forall₂ (fun s m => m.name = s.name ∧ Mirrored s m) members mappers) :
    Mirrored (.record node members) (.record node members mappers) := by
  intro proper unhinted name v tight
  have normal := Schema.normal_bare (s := .record node members) bare
  constructor
  · intro L grown shapes measured
    obtain ⟨slots, inner, rfl⟩ := (shapes_record bare).1 shapes
    have same : slots.length = mappers.length := inner.length_eq.symm.trans mirrored.length_eq
    obtain ⟨values, grown, known, each, rfl⟩ := (measure_record_ok same).1 measured
    obtain ⟨entries, views, rfl, known', mirrors⟩ :=
      recordValues_headerView proper unhinted mirrored tight known
        (node.headerView name (.named name))
    rw [normal]
    exact (measure_record_ok (same.trans (length_headerViews mappers).symm)).2
      ⟨views, grown, known', mirrors.measure _ _ inner each, rfl⟩
  · intro L text written
    obtain ⟨slots, values, rfl, known, same, each⟩ := write_record_ok.1 written
    obtain ⟨entries, views, rfl, known', mirrors⟩ :=
      recordValues_headerView proper unhinted mirrored tight known
        (node.headerView name (.named name))
    rw [normal]
    exact write_record_ok.2 ⟨slots, views, rfl, known',
      same.trans (length_headerViews mappers).symm, mirrors.write _ _ each⟩

theorem mirrored_repeated {s : Schema} {element : Mapper} (ho : s.node.optional = false)
    (hr : s.node.isRepeated = true) (keeps : KeepsShape [] s.item element)
    (mirrored : Mirrored s.item element) : Mirrored s (.repeated s element) := by
  intro proper unhinted name v tight
  have unlimited : occurs? (s.headerView name) = none := by
    rw [occurs?, Schema.format_headerView]
    rfl
  have mirrors : ∀ items, v = .list items → ∀ x ∈ items, Mirrors s.item element name x := by
    rintro items rfl x hx
    cases tight with
    | list tight => exact mirrored proper.item unhinted.item name x (tight x hx)
  have normal := Schema.normal_repeated ho hr
  constructor
  · intro L grown shapes measured
    obtain ⟨slot, occurs, inner, fixed, rfl⟩ := (shapes_repeated ho hr).1 shapes
    obtain ⟨items, slot', rfl, _, each, rfl⟩ := (measure_repeated_ok fixed).1 measured
    have each' := measureEach_in_place keeps (List.forall₂_map_right_iff.2
      (List.forall₂_same.2 fun x hx => (mirrors items rfl x hx).measure)) inner each
    rw [normal, ← List.length_map s.item.normal]
    exact (measure_repeated_ok (by simp [unlimited])).2
      ⟨_, slot', rfl, by simp [unlimited], each', rfl⟩
  · intro L text written
    obtain ⟨occurs, slot, items, texts, rfl, rfl, few, each, small, rfl⟩ :=
      write_repeated_ok.1 written
    have each' : List.Forall₂ (fun w text => (element.headerView name).write w slot = .ok text)
        (items.map s.item.normal) texts :=
      forall₂_in_place each (List.forall₂_map_right_iff.2
        (List.forall₂_same.2 fun x hx => (mirrors items rfl x hx).write slot))
    rw [← List.length_map s.item.normal] at few small ⊢
    rw [normal]
    exact write_repeated_ok.2 ⟨occurs, slot, _, texts, rfl, rfl, few, each', small, rfl⟩

theorem mirrored_optional {s : Schema} {inner : Mapper} (ho : s.node.optional = true)
    (mirrored : Mirrored s.required inner) : Mirrored s (.optional s inner) := by
  intro proper unhinted name v tight
  have content : ∀ x, v = .present x → Mirrors s.required inner name x := by
    rintro x rfl
    cases tight with
    | present tight => exact mirrored proper.required unhinted.required name x tight
  have normal := Schema.normal_optional ho
  constructor
  · intro L grown shapes measured
    obtain ⟨slot, shape, rfl⟩ := (shapes_optional ho).1 shapes
    rw [normal]
    rcases measure_optional_ok.1 measured with ⟨rfl, rfl⟩ | ⟨x, slot', rfl, once, rfl⟩
    · exact measure_optional_ok.2 (.inl ⟨rfl, rfl⟩)
    · have same := (content x rfl).measure _ _ shape once
      exact measure_optional_ok.2 (.inr ⟨_, slot', rfl, same, rfl⟩)
  · intro L text written
    obtain ⟨slot, rfl, ⟨rfl, rfl⟩ | ⟨x, rest, rfl, once, rfl⟩⟩ := write_optional_ok.1 written
    · rw [normal]
      exact write_optional_ok.2 ⟨slot, rfl, .inl ⟨rfl, rfl⟩⟩
    · have same := (content x rfl).write _ _ once
      rw [normal]
      exact write_optional_ok.2 ⟨slot, rfl, .inr ⟨_, rest, rfl, same, rfl⟩⟩

theorem mirrored (assembled : CodecTable.assemble [] s = .ok m) : Mirrored s m :=
  byMeasuring mirrored_leaf mirrored_record mirrored_repeated mirrored_optional assembled

/-- A payload that was written without hints is that of the view as well. -/
theorem encode_headerView (assembled : CodecTable.assemble [] s = .ok m) (proper : s.WellFormed)
    (unhinted : s.Unhinted) {v : Value} (tight : v.Tight) {t : List Char}
    (encoded : m.encode v = .ok t) (name : String) :
    (m.headerView name).encode (s.normal v) = .ok t := by
  obtain ⟨measures, writes⟩ := mirrored assembled proper unhinted name v tight
  refine encode_in_place encoded (fun measured => ?_) (writeHeader_headerView assembled name _)
    (writes _)
  rw [layout_headerView assembled unhinted]
  exact measures _ _ (layout_shapes assembled) measured

end Mapper

end Slotform
