import Slotform.Proofs.Payload.Codec
import Slotform.Proofs.Payload.Decoding
import Slotform.Proofs.Payload.Encoding

/-!
# Payloads come back

What a mapper encodes it also decodes, into the normal form of the value: records have their
members in order and nothing else, and texts have lost the spaces at the padded end of their slots.
All that is not a number is read back as one such magnitude; every other leaf is as it was.
-/

namespace Slotform

/-! ## Normal forms -/

namespace Value

def mapItems (change : Value → Value) : Value → Value
  | list items => list (items.map change)
  | v => v

def mapPresent (change : Value → Value) : Value → Value
  | present v => present (change v)
  | v => v

end Value

namespace Schema

/-- Changes the items under the wrappers of a node. -/
def normalAround (node : Node) (item : Value → Value) (v : Value) : Value :=
  let listed := if node.isRepeated then Value.mapItems item else item
  if node.optional then v.mapPresent listed else listed v

/-- The normal form of a leaf. Texts stand at the left unless a hint says otherwise. -/
def normalLeaf (node : Node) : Value → Value
  | .atom a => .atom (a.normal (node.format.align.getD .left))
  | v => v

mutual

/-- What a payload keeps of a value. -/
def normal : Schema → Value → Value
  | .leaf node _, v => normalAround node (normalLeaf node) v
  | .record node members, v =>
    normalAround node
      (fun
        | .record entries => .record (normalMembers members entries)
        | other => other)
      v

def normalMembers : List Schema → List (String × Value) → List (String × Value)
  | [], _ => []
  | member :: rest, entries =>
    match entries.lookup member.name with
    | some v => (member.name, member.normal v) :: normalMembers rest entries
    | none => normalMembers rest entries

end

variable {s : Schema} {node : Node} {kind : Kind} {members : List Schema}

/-- The normal form of a single item. -/
def normalItem : Schema → Value → Value
  | .leaf node _ => normalLeaf node
  | .record _ members => fun
    | .record entries => .record (normalMembers members entries)
    | other => other

theorem normal_eq (s : Schema) : s.normal = normalAround s.node s.normalItem := by
  cases s <;> rfl

theorem normalItem_required : s.required.normalItem = s.normalItem := by cases s <;> rfl

theorem normalItem_item : s.item.normalItem = s.normalItem := by cases s <;> rfl

theorem normal_bare (bare : s.node.Bare) : s.normal = s.normalItem := by
  funext v
  simp [normal_eq, normalAround, bare.1, bare.2]

theorem normal_repeated (ho : s.node.optional = false) (hr : s.node.isRepeated = true) :
    s.normal = Value.mapItems s.item.normal := by
  funext v
  rw [normal_bare (s := s.item) s.bare_item, normalItem_item, normal_eq]
  simp [normalAround, ho, hr]

theorem normal_optional (ho : s.node.optional = true) :
    s.normal = Value.mapPresent s.required.normal := by
  funext v
  rw [normal_eq, normal_eq, normalItem_required, node_required]
  simp only [normalAround, ho, if_true]
  rfl

/-- Entries in normal form that stand under the names of the members are what is kept. -/
theorem normalMembers_of_names {members : List Schema} {entries all : List (String × Value)}
    (names : entries.map Prod.fst = members.map name)
    (same : ∀ m ∈ members, ∀ v, (m.name, v) ∈ entries → m.normal v = v)
    (found : ∀ e ∈ entries, all.lookup e.1 = some e.2) : normalMembers members all = entries := by
  induction members generalizing entries with
  | nil =>
    obtain rfl := List.map_eq_nil_iff.1 names
    rfl
  | cons m rest ih =>
    obtain ⟨⟨key, v⟩, others, rfl, rfl, tail⟩ := List.map_eq_cons_iff.1 names
    have value : all.lookup m.name = some v := found _ List.mem_cons_self
    rw [normalMembers, value]
    dsimp only
    rw [same m List.mem_cons_self v List.mem_cons_self,
      ih tail (fun n hn w hw => same n (List.mem_cons_of_mem _ hn) w (List.mem_cons_of_mem _ hw))
        fun e he => found e (List.mem_cons_of_mem _ he)]

/-- What is kept of a record stands under the names of the members, in their order. -/
theorem normalMembers_forall₂ {entries : List (String × Value)}
    (named : ∀ m ∈ members, m.name ∈ entries.map Prod.fst)
    (nodup : (entries.map Prod.fst).Nodup) :
    List.Forall₂ (fun m e => m.name = e.1 ∧ ∃ v, (m.name, v) ∈ entries ∧ e.2 = m.normal v)
      members (normalMembers members entries) := by
  induction members with
  | nil => exact .nil
  | cons m rest ih =>
    obtain ⟨⟨name, v⟩, entry, rfl⟩ := List.mem_map.1 (named m List.mem_cons_self)
    rw [normalMembers, (mem_entries_iff nodup).1 entry]
    exact .cons ⟨rfl, v, entry, rfl⟩ (ih fun n hn => named n (List.mem_cons_of_mem _ hn))

theorem names_normalMembers {entries : List (String × Value)}
    (names : entries.map Prod.fst = members.map name) (nodup : (members.map name).Nodup) :
    (normalMembers members entries).map Prod.fst = members.map name := by
  have all := normalMembers_forall₂ (fun m hm => names ▸ List.mem_map_of_mem hm)
    (names ▸ nodup : (entries.map Prod.fst).Nodup)
  exact (forall₂_map_eq all fun _ _ h => h.1).symm

theorem mem_normalMembers {entries : List (String × Value)}
    (names : entries.map Prod.fst = members.map name) (nodup : (members.map name).Nodup)
    {m : Schema} (hm : m ∈ members) {v w : Value} (entry : (m.name, v) ∈ entries) :
    (m.name, w) ∈ normalMembers members entries ↔ w = m.normal v := by
  have distinct : (entries.map Prod.fst).Nodup := names ▸ nodup
  have all := normalMembers_forall₂ (fun m hm => names ▸ List.mem_map_of_mem hm) distinct
  have only {v' : Value} (entry' : (m.name, v') ∈ entries) : v' = v :=
    Option.some.inj (((mem_entries_iff distinct).1 entry').symm.trans
      ((mem_entries_iff distinct).1 entry))
  constructor
  · intro listed
    obtain ⟨n, hn, same, v', entry', rfl⟩ := forall₂_exists_left all listed
    obtain rfl := List.inj_on_of_nodup_map nodup hn hm same
    rw [only entry']
  · rintro rfl
    obtain ⟨⟨_, _⟩, listed, rfl, v', entry', rfl⟩ := forall₂_exists_right all hm
    rwa [only entry'] at listed

end Schema

/-! ## Slots -/

namespace Atom

theorem normal_leafAlign (a : Atom) (node : Node) :
    a.normal (Mapper.leafAlign node (.ofPrimitive a.primitive)) =
      a.normal (node.format.align.getD .left) := by
  cases a <;> rfl

end Atom

namespace Mapper

/-- Whatever slots a mapper writes are filled with the normal form of the value. -/
def WritesSlots (s : Schema) (m : Mapper) : Prop :=
  ∀ v L text, Shapes [] s L → L.exactWidth < UInt64.size → m.write v L = .ok text →
    Fills [] s L (s.normal v) text

theorem writeMembers_fills {members : List Schema} {mappers : List Mapper}
    (writes : List.Forall₂ (fun s m => m.name = s.name ∧ WritesSlots s m) members mappers)
    {entries : List (String × Value)} {values : List Value}
    (found : List.Forall₂ (fun name value => entries.lookup name = some value)
      (mappers.map name) values)
    {slots : List Layout} {text : List Char} (shapes : List.Forall₂ (Shapes []) members slots)
    (narrow : ∀ slot ∈ slots, slot.exactWidth < UInt64.size)
    (h : writeMembers mappers values slots = .ok text) :
    FillsMembers [] members slots (Schema.normalMembers members entries) text := by
  induction writes generalizing values slots text with
  | nil =>
    cases shapes
    cases found
    cases h
    exact .nil
  | cons first _ ih =>
    obtain ⟨name, writes⟩ := first
    cases shapes with
    | cons shape shapes =>
      rw [List.map_cons] at found
      cases found with
      | cons value found =>
        obtain ⟨slot, rest, written, more, rfl⟩ := writeMembers_cons_ok.1 h
        rw [name] at value
        rw [Schema.normalMembers, value]
        exact .cons (writes _ _ _ shape (narrow _ List.mem_cons_self) written)
          (ih found shapes (fun slot h => narrow slot (List.mem_cons_of_mem _ h)) more)

theorem fillsItems_of_forall₂ {s : Schema} {slot : Layout} {items : List Value}
    {texts : List (List Char)}
    (h : List.Forall₂ (fun v text => Fills [] s slot (s.normal v) text) items texts) :
    FillsItems [] s slot (items.map s.normal) texts.flatten := by
  induction h with
  | nil => exact .nil
  | cons first _ ih => exact .cons first ih

theorem writesSlots_leaf {node : Node} {kind : Kind} {codec : Codec} (bare : node.Bare)
    (found : CodecTable.codec? [] kind = some codec) :
    WritesSlots (.leaf node kind) (.leaf node kind codec) := by
  intro v L text shapes _ h
  obtain ⟨codec', width, found', fixed, rfl⟩ := (shapes_leaf bare).1 shapes
  cases found.symm.trans found'
  cases kind with
  | custom name => cases found
  | primitive p =>
    cases found
    obtain ⟨_, _, ⟨⟩, rendered, fits, rfl⟩ := write_leaf_ok.1 h
    rw [renderLeaf, mapError_eq_ok, Codec.render_ofPrimitive] at rendered
    obtain ⟨a, rfl, kind, rfl⟩ := rendered
    have exact : ∀ one ∈ (Codec.ofPrimitive p).fixedWidth, width = one := by
      intro one h
      apply fixed
      rw [leafWidth?, Option.mem_def.1 h]
      rfl
    refine .leaf bare found' (Slot.length_fill fits) ?_
    subst kind
    rw [Codec.parse_fill rfl exact, Atom.normal_leafAlign,
      Schema.normal_bare (s := .leaf node _) bare]
    rfl

theorem writesSlots_record {node : Node} {members declared : List Schema} {mappers : List Mapper}
    (bare : node.Bare)
    (writes : List.Forall₂ (fun s m => m.name = s.name ∧ WritesSlots s m) members mappers) :
    WritesSlots (.record node members) (.record node declared mappers) := by
  intro v L text shapes narrow h
  obtain ⟨slots, inner, rfl⟩ := (shapes_record bare).1 shapes
  obtain ⟨_, values, ⟨⟩, known, _, written⟩ := write_record_ok.1 h
  obtain ⟨entries, rfl, _, found⟩ := recordValues_ok.1 known
  rw [Schema.normal_bare (s := .record node members) bare]
  exact .record bare (writeMembers_fills writes found inner (fun slot h =>
    Nat.lt_of_le_of_lt (Layout.exactWidth_le_exactWidths h) narrow) written)

theorem writesSlots_repeated {s : Schema} {element : Mapper} (ho : s.node.optional = false)
    (hr : s.node.isRepeated = true) (writes : WritesSlots s.item element) :
    WritesSlots s (.repeated s element) := by
  intro v L text shapes narrow h
  obtain ⟨slot, occurs, inner, fixed, rfl⟩ := (shapes_repeated ho hr).1 shapes
  obtain ⟨_, _, items, texts, ⟨⟩, rfl, fits, written, _, rfl⟩ := write_repeated_ok.1 h
  have inner_narrow : occurs * slot.exactWidth < UInt64.size :=
    Nat.lt_of_le_of_lt (Nat.le_add_left _ _) narrow
  have filled : FillsItems [] s.item slot (items.map s.item.normal) texts.flatten := by
    apply fillsItems_of_forall₂
    refine forall₂_imp_mem written fun v hv text written => ?_
    have some : 0 < occurs := Nat.lt_of_lt_of_le (List.length_pos_of_mem hv) fits
    exact writes _ _ _ inner
      (Nat.lt_of_le_of_lt (Nat.le_mul_of_pos_left _ some) inner_narrow) written
  have length : (items.map s.item.normal).length = items.length := List.length_map _
  rw [Schema.normal_repeated ho hr,
    Layout.mul_width_exact (.inr (Layout.sub_mul_lt inner_narrow _)), ← length]
  refine .repeated ho hr ?_ (Decimal.denotes_padded _ _) (length ▸ fits) filled
  exact Decimal.length_padded (length ▸ fits)

theorem writesSlots_optional {s : Schema} {inner : Mapper} (ho : s.node.optional = true)
    (writes : WritesSlots s.required inner) : WritesSlots s (.optional s inner) := by
  intro v L text shapes narrow h
  obtain ⟨slot, shape, rfl⟩ := (shapes_optional ho).1 shapes
  have small : slot.exactWidth < UInt64.size := Nat.lt_of_succ_lt narrow
  rw [Schema.normal_optional ho]
  obtain ⟨_, ⟨⟩, ⟨rfl, rfl⟩ | ⟨x, rest, rfl, written, rfl⟩⟩ := write_optional_ok.1 h
  · rw [Layout.width_eq small]
    exact .absent ho
  · exact .present ho (writes _ _ _ shape small written)

theorem write_fills {s : Schema} {m : Mapper} (assembled : CodecTable.assemble [] s = .ok m) :
    WritesSlots s m :=
  CodecTable.byMapper writesSlots_leaf writesSlots_record writesSlots_repeated
    writesSlots_optional assembled

/-- A header and slots that an encoder writes belong to the grammar. -/
theorem encode_fills {s : Schema} (proper : s.WellFormed) {m : Mapper}
    (assembled : CodecTable.assemble [] s = .ok m) {v : Value} {t : List Char}
    (encoded : m.encode v = .ok t) (narrow : (m.measured v).exactWidth < UInt64.size) {l : Limits}
    (within : (m.measured v).Within l) :
    ∃ header slots, t = header ++ slots ∧ m.write v (m.measured v) = .ok slots ∧
      Spells [] l s (m.measured v) header ∧ Fills [] s (m.measured v) (s.normal v) slots := by
  obtain ⟨_, header, slots, written, filled, rfl⟩ := encode_ok.1 encoded
  have shapes := measured_shapes assembled v
  exact ⟨header, slots, rfl, filled, writeHeader_spells proper assembled _ _ shapes within written,
    write_fills assembled _ _ _ shapes narrow filled⟩

/-- What a mapper encodes it decodes into the normal form of the value, provided that no width
overflows and that the payload is within the limits. -/
theorem decode_encoded {s : Schema} (proper : s.WellFormed) {m : Mapper}
    (assembled : CodecTable.assemble [] s = .ok m) {v : Value} {t : List Char}
    (encoded : m.encode v = .ok t) (narrow : (m.measured v).exactWidth < UInt64.size) {l : Limits}
    (words : l.Words) (short : t.length ≤ l.maxPayloadLen) (within : (m.measured v).Within l) :
    m.decode l t = .ok (s.normal v) := by
  obtain ⟨header, slots, rfl, _, spells, fills⟩ :=
    encode_fills proper assembled encoded narrow within
  exact (decode_ok words proper assembled).2 ⟨short, header, slots, _, rfl, spells, fills⟩

end Mapper

namespace Factory

/-- What the mapper of a schema encodes it decodes into the normal form of the value, provided that
no width overflows and that the payload is within the limits. -/
theorem decode_encode {past : List Schema} {s : Schema} (readable : s.Readable)
    (distinct : Fingerprint.Identifies (past ++ [s])) {kept : Kept Mapper}
    (accepted : ((after [] past).create s).1 = .ok kept) {v : Value} {t : List Char}
    (encoded : kept.value.encode v = .ok t)
    (narrow : (kept.value.measured v).exactWidth < UInt64.size) {l : Limits} (words : l.Words)
    (length : t.length ≤ l.maxPayloadLen) (within : (kept.value.measured v).Within l) :
    kept.value.decode l t = .ok (s.normal v) := by
  exact Mapper.decode_encoded readable.wellFormed (create_assembles distinct accepted) encoded narrow
    words length within

/-- Entries out of order and a space at the end of a text. -/
theorem decode_encode_person : ∃ kept, ((after [] []).create Sample.person).1 = .ok kept ∧
    ∃ v t, kept.value.encode v = .ok t ∧ kept.value.decode .standard t = .ok Sample.ada := by
  obtain ⟨kept, accepted, made⟩ := create_ok [] Sample.distinct_person Sample.assemble_person
  let v : Value :=
    .record [("tags", .present (.list [.atom (.u8 7)])), ("name", .atom (.string "Ada "))]
  have measured : kept.value.measured v =
      .record [.leaf 4, .optional (.repeated 1 (.leaf 1))] := by
    rw [made]
    cbv
  have encoded : kept.value.encode v =
      .ok "\x7bname:string(4);tags:u8(1)[1]?\x7dAda 117".toList := by
    rw [made]
    cbv
  have normal : Sample.person.normal v = Sample.ada := by cbv
  refine ⟨kept, accepted, v, _, encoded, normal ▸ decode_encode Sample.readable_person
    Sample.distinct_person accepted encoded ?_ Limits.words_standard (by decide) ?_⟩
  · rw [measured]
    decide
  · rw [measured]
    simp only [Layout.Within, Layout.AllWithin]
    decide

end Factory

end Slotform
