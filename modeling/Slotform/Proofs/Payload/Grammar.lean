import Slotform.Limits
import Slotform.Payload.Factory
import Slotform.Proofs.Decimal
import Slotform.Proofs.Schema.Views
import Slotform.Proofs.Success

/-!
# The grammar of payloads

`Spells` says which texts are headers of a schema under a layout, and `Fills` which texts are slots
that hold a value. Both follow the views of the schema and know nothing of cursors or mappers. A
header may write its numbers with leading zeros; in the slots only the count of a list may.
-/

namespace Slotform

namespace Mapper

/-- The part of a leaf's slot that its codec reads. -/
def slotText (node : Node) (codec : Codec) (slot : List Char) : List Char :=
  if codec.fixedWidth.isSome then slot else Slot.unfill (leafAlign node codec) slot

end Mapper

mutual

/-- A text is the header of a schema under a layout, within limits. -/
inductive Spells (codecs : CodecTable) (l : Limits) : Schema → Layout → List Char → Prop where
  | leaf {node : Node} {kind : Kind} {codec : Codec} {width : Nat} {digits : List Char} :
      node.Bare → codecs.codec? kind = some codec → Decimal.Denotes digits width →
      width ≤ l.maxWidth → (∀ fixed ∈ Mapper.leafWidth? node codec, width = fixed) →
      Spells codecs l (.leaf node kind) (.leaf width) (kind.name.toList ++ ('(' :: digits ++ [')']))
  | record {node : Node} {members : List Schema} {slots : List Layout} {text : List Char} :
      node.Bare → SpellsMembers codecs l members slots text →
      Spells codecs l (.record node members) (.record slots) ('\x7b' :: text ++ ['\x7d'])
  | repeated {s : Schema} {slot : Layout} {occurs : Nat} {text digits : List Char} :
      s.node.optional = false → s.node.isRepeated = true → Spells codecs l s.item slot text →
      Decimal.Denotes digits occurs → occurs ≤ l.maxOccurs →
      (∀ fixed ∈ Mapper.occurs? s, occurs = fixed) →
      Spells codecs l s (.repeated occurs slot) (text ++ ('[' :: digits ++ [']']))
  | optional {s : Schema} {slot : Layout} {text : List Char} :
      s.node.optional = true → Spells codecs l s.required slot text →
      Spells codecs l s (.optional slot) (text ++ ['?'])

/-- The headers of members after their names, with semicolons between them. -/
inductive SpellsMembers (codecs : CodecTable) (l : Limits) :
    List Schema → List Layout → List Char → Prop where
  | last {m : Schema} {slot : Layout} {text : List Char} :
      Spells codecs l m slot text → SpellsMembers codecs l [m] [slot] (m.name.toList ++ ':' :: text)
  | more {m : Schema} {rest : List Schema} {slot : Layout} {slots : List Layout}
      {text texts : List Char} :
      Spells codecs l m slot text → SpellsMembers codecs l rest slots texts →
      SpellsMembers codecs l (m :: rest) (slot :: slots)
        (m.name.toList ++ ':' :: (text ++ ';' :: texts))

end

mutual

/-- A text is the slots of a value under a layout. -/
inductive Fills (codecs : CodecTable) : Schema → Layout → Value → List Char → Prop where
  | leaf {node : Node} {kind : Kind} {codec : Codec} {width : Nat} {v : Value}
      {slot : List Char} :
      node.Bare → codecs.codec? kind = some codec → slot.length = width →
      codec.parse (Mapper.slotText node codec slot) = .ok v →
      Fills codecs (.leaf node kind) (.leaf width) v slot
  | record {node : Node} {members : List Schema} {slots : List Layout}
      {entries : List (String × Value)} {text : List Char} :
      node.Bare → FillsMembers codecs members slots entries text →
      Fills codecs (.record node members) (.record slots) (.record entries) text
  | repeated {s : Schema} {slot : Layout} {occurs : Nat} {items : List Value}
      {count text : List Char} :
      s.node.optional = false → s.node.isRepeated = true →
      count.length = Decimal.digitCount occurs → Decimal.Denotes count items.length →
      items.length ≤ occurs → FillsItems codecs s.item slot items text →
      Fills codecs s (.repeated occurs slot) (.list items)
        (count ++ text ++ Slot.blanks ((occurs - items.length) * slot.exactWidth))
  | absent {s : Schema} {slot : Layout} :
      s.node.optional = true →
      Fills codecs s (.optional slot) .absent ('0' :: Slot.blanks slot.exactWidth)
  | present {s : Schema} {slot : Layout} {v : Value} {text : List Char} :
      s.node.optional = true → Fills codecs s.required slot v text →
      Fills codecs s (.optional slot) (.present v) ('1' :: text)

inductive FillsMembers (codecs : CodecTable) :
    List Schema → List Layout → List (String × Value) → List Char → Prop where
  | nil : FillsMembers codecs [] [] [] []
  | cons {m : Schema} {rest : List Schema} {slot : Layout} {slots : List Layout} {v : Value}
      {entries : List (String × Value)} {text texts : List Char} :
      Fills codecs m slot v text → FillsMembers codecs rest slots entries texts →
      FillsMembers codecs (m :: rest) (slot :: slots) ((m.name, v) :: entries) (text ++ texts)

/-- The slots of items that share a layout, one after the other. -/
inductive FillsItems (codecs : CodecTable) : Schema → Layout → List Value → List Char → Prop where
  | nil {s : Schema} {slot : Layout} : FillsItems codecs s slot [] []
  | cons {s : Schema} {slot : Layout} {v : Value} {items : List Value} {text texts : List Char} :
      Fills codecs s slot v text → FillsItems codecs s slot items texts →
      FillsItems codecs s slot (v :: items) (text ++ texts)

end

/-! ## One view at a time -/

section Inversion

variable {codecs : CodecTable} {l : Limits} {node : Node} {kind : Kind} {members : List Schema}
  {s : Schema} {L : Layout} {v : Value} {text : List Char}

theorem spells_leaf (bare : node.Bare) :
    Spells codecs l (.leaf node kind) L text ↔ ∃ codec width digits,
      codecs.codec? kind = some codec ∧ Decimal.Denotes digits width ∧ width ≤ l.maxWidth ∧
      (∀ fixed ∈ Mapper.leafWidth? node codec, width = fixed) ∧ L = .leaf width ∧
      text = kind.name.toList ++ ('(' :: digits ++ [')']) := by
  constructor
  · intro h
    cases h with
    | leaf _ found denotes within fixed => exact ⟨_, _, _, found, denotes, within, fixed, rfl, rfl⟩
    | repeated _ hr => exact absurd hr bare.not_repeated
    | optional ho => exact absurd ho bare.not_optional
  · rintro ⟨codec, width, digits, found, denotes, within, fixed, rfl, rfl⟩
    exact .leaf bare found denotes within fixed

theorem spells_record (bare : node.Bare) :
    Spells codecs l (.record node members) L text ↔ ∃ slots inside,
      SpellsMembers codecs l members slots inside ∧ L = .record slots ∧
      text = '\x7b' :: inside ++ ['\x7d'] := by
  constructor
  · intro h
    cases h with
    | record _ all => exact ⟨_, _, all, rfl, rfl⟩
    | repeated _ hr => exact absurd hr bare.not_repeated
    | optional ho => exact absurd ho bare.not_optional
  · rintro ⟨slots, inside, all, rfl, rfl⟩
    exact .record bare all

theorem spells_repeated (ho : s.node.optional = false) (hr : s.node.isRepeated = true) :
    Spells codecs l s L text ↔ ∃ slot occurs inner digits,
      Spells codecs l s.item slot inner ∧ Decimal.Denotes digits occurs ∧
      occurs ≤ l.maxOccurs ∧ (∀ fixed ∈ Mapper.occurs? s, occurs = fixed) ∧
      L = .repeated occurs slot ∧ text = inner ++ ('[' :: digits ++ [']']) := by
  constructor
  · intro h
    cases h with
    | leaf bare => exact absurd hr bare.not_repeated
    | record bare => exact absurd hr bare.not_repeated
    | repeated _ _ inner denotes within fixed =>
      exact ⟨_, _, _, _, inner, denotes, within, fixed, rfl, rfl⟩
    | optional h => cases ho.symm.trans h
  · rintro ⟨slot, occurs, inner, digits, spells, denotes, within, fixed, rfl, rfl⟩
    exact .repeated ho hr spells denotes within fixed

theorem spells_optional (ho : s.node.optional = true) :
    Spells codecs l s L text ↔ ∃ slot inner, Spells codecs l s.required slot inner ∧
      L = .optional slot ∧ text = inner ++ ['?'] := by
  constructor
  · intro h
    cases h with
    | leaf bare => exact absurd ho bare.not_optional
    | record bare => exact absurd ho bare.not_optional
    | repeated h => cases h.symm.trans ho
    | optional _ inner => exact ⟨_, _, inner, rfl, rfl⟩
  · rintro ⟨slot, inner, spells, rfl, rfl⟩
    exact .optional ho spells

theorem fills_leaf (bare : node.Bare) :
    Fills codecs (.leaf node kind) L v text ↔ ∃ codec, codecs.codec? kind = some codec ∧
      codec.parse (Mapper.slotText node codec text) = .ok v ∧ L = .leaf text.length := by
  constructor
  · intro h
    cases h with
    | leaf _ found width parses => exact ⟨_, found, parses, by rw [width]⟩
    | repeated _ hr => exact absurd hr bare.not_repeated
    | absent ho => exact absurd ho bare.not_optional
    | present ho => exact absurd ho bare.not_optional
  · rintro ⟨codec, found, parses, rfl⟩
    exact .leaf bare found rfl parses

theorem fills_record (bare : node.Bare) :
    Fills codecs (.record node members) L v text ↔ ∃ slots entries,
      FillsMembers codecs members slots entries text ∧ L = .record slots ∧ v = .record entries := by
  constructor
  · intro h
    cases h with
    | record _ all => exact ⟨_, _, all, rfl, rfl⟩
    | repeated _ hr => exact absurd hr bare.not_repeated
    | absent ho => exact absurd ho bare.not_optional
    | present ho => exact absurd ho bare.not_optional
  · rintro ⟨slots, entries, all, rfl, rfl⟩
    exact .record bare all

theorem fills_repeated (ho : s.node.optional = false) (hr : s.node.isRepeated = true) :
    Fills codecs s L v text ↔ ∃ slot occurs items count inner,
      count.length = Decimal.digitCount occurs ∧ Decimal.Denotes count items.length ∧
      items.length ≤ occurs ∧ FillsItems codecs s.item slot items inner ∧
      L = .repeated occurs slot ∧ v = .list items ∧
      text = count ++ inner ++ Slot.blanks ((occurs - items.length) * slot.exactWidth) := by
  constructor
  · intro h
    cases h with
    | leaf bare => exact absurd hr bare.not_repeated
    | record bare => exact absurd hr bare.not_repeated
    | repeated _ _ digits denotes fits all =>
      exact ⟨_, _, _, _, _, digits, denotes, fits, all, rfl, rfl, rfl⟩
    | absent h => cases ho.symm.trans h
    | present h => cases ho.symm.trans h
  · rintro ⟨slot, occurs, items, count, inner, digits, denotes, fits, all, rfl, rfl, rfl⟩
    exact .repeated ho hr digits denotes fits all

theorem fills_optional (ho : s.node.optional = true) :
    Fills codecs s L v text ↔ ∃ slot, L = .optional slot ∧
      (v = .absent ∧ text = '0' :: Slot.blanks slot.exactWidth ∨
        ∃ w inner, Fills codecs s.required slot w inner ∧ v = .present w ∧
          text = '1' :: inner) := by
  constructor
  · intro h
    cases h with
    | leaf bare => exact absurd ho bare.not_optional
    | record bare => exact absurd ho bare.not_optional
    | repeated h => cases h.symm.trans ho
    | absent => exact ⟨_, rfl, .inl ⟨rfl, rfl⟩⟩
    | present _ inner => exact ⟨_, rfl, .inr ⟨_, _, inner, rfl, rfl⟩⟩
  · rintro ⟨slot, rfl, ⟨rfl, rfl⟩ | ⟨w, inner, fills, rfl, rfl⟩⟩
    · exact .absent ho
    · exact .present ho fills

end Inversion

/-! ## Values -/

/-- A list or an option. -/
def Value.Wrapped : Value → Prop
  | .list _ | .absent | .present _ => True
  | _ => False

/-- Built-in codecs read atoms, so that lists and options come from wrappers alone. -/
theorem Fills.wrapped_iff {s : Schema} {L : Layout} {v : Value} {text : List Char}
    (h : Fills [] s L v text) : v.Wrapped ↔ ¬ s.node.Bare := by
  cases h with
  | @leaf node kind codec width v slot bare found _ parses =>
    cases kind with
    | custom name => cases found
    | primitive p =>
      cases found
      obtain ⟨a, _, rfl⟩ := map_eq_ok.1 parses
      exact ⟨False.elim, fun h => h bare⟩
  | record bare => exact ⟨False.elim, fun h => h bare⟩
  | repeated _ hr => exact ⟨fun _ bare => bare.not_repeated hr, fun _ => trivial⟩
  | absent ho => exact ⟨fun _ bare => bare.not_optional ho, fun _ => trivial⟩
  | present ho => exact ⟨fun _ bare => bare.not_optional ho, fun _ => trivial⟩

/-! ## Lengths -/

section Lengths

variable {codecs : CodecTable} {l : Limits}

theorem length_blanks (n : Nat) : (Slot.blanks n).length = n := List.length_replicate

theorem Spells.ne_nil {s : Schema} {L : Layout} {text : List Char} (h : Spells codecs l s L text) :
    text ≠ [] := by
  cases h <;> simp

theorem SpellsMembers.each {members : List Schema} {slots : List Layout} {text : List Char}
    (h : SpellsMembers codecs l members slots text) :
    List.Forall₂ (fun s slot => ∃ header, Spells codecs l s slot header) members slots := by
  induction members generalizing slots text with
  | nil => cases h
  | cons m rest ih =>
    cases h with
    | last first => exact .cons ⟨_, first⟩ .nil
    | more first others => exact .cons ⟨_, first⟩ (ih others)

/-- The entries of a record stand under the names of its members, in their order. -/
theorem FillsMembers.each {members : List Schema} {slots : List Layout}
    {entries : List (String × Value)} {text : List Char}
    (h : FillsMembers codecs members slots entries text) :
    List.Forall₂ (fun s entry => s.name = entry.1 ∧
      ∃ slot text, Fills codecs s slot entry.2 text) members entries := by
  induction members generalizing slots entries text with
  | nil =>
    cases h
    exact .nil
  | cons m rest ih =>
    cases h with
    | cons first others => exact .cons ⟨rfl, _, _, first⟩ (ih others)

theorem FillsItems.each {s : Schema} {slot : Layout} {items : List Value} {text : List Char}
    (h : FillsItems codecs s slot items text) :
    ∀ v ∈ items, ∃ text, Fills codecs s slot v text := by
  induction items generalizing text with
  | nil => exact nofun
  | cons v rest ih =>
    cases h with
    | cons first others =>
      intro w hw
      rcases List.mem_cons.1 hw with rfl | hw
      · exact ⟨_, first⟩
      · exact ih others w hw

/-- Schemas of the same names are spelled in the place of members by what spells those, if each is
spelled by what spells the member it stands for. -/
theorem SpellsMembers.in_place {codecs' : CodecTable} {l' : Limits} {members members' : List Schema}
    (each : List.Forall₂ (fun s s' => s'.name = s.name ∧ ∀ slot text,
      Spells codecs l s slot text → Spells codecs' l' s' slot text) members members')
    {slots : List Layout} {text : List Char} (h : SpellsMembers codecs l members slots text) :
    SpellsMembers codecs' l' members' slots text := by
  induction each generalizing slots text with
  | nil => cases h
  | cons first rest ih =>
    obtain ⟨name, first⟩ := first
    cases h with
    | last spells =>
      cases rest
      exact name ▸ .last (first _ _ spells)
    | more spells others => exact name ▸ .more (first _ _ spells) (ih others)

/-- The same for slots that hold the entries of a record. -/
theorem FillsMembers.in_place {members members' : List Schema}
    (each : List.Forall₂ (fun s s' => s'.name = s.name ∧ ∀ slot v text,
      Fills codecs s slot v text → Fills codecs s' slot v text) members members')
    {slots : List Layout} {entries : List (String × Value)} {text : List Char}
    (h : FillsMembers codecs members slots entries text) :
    FillsMembers codecs members' slots entries text := by
  induction each generalizing slots entries text with
  | nil =>
    cases h
    exact .nil
  | cons first _ ih =>
    obtain ⟨name, first⟩ := first
    cases h with
    | cons fills others => exact name ▸ .cons (first _ _ _ fills) (ih others)

/-- The same for slots that hold the items of a list. -/
theorem FillsItems.in_place {s s' : Schema} {slot : Layout}
    (each : ∀ v text, Fills codecs s slot v text → Fills codecs s' slot v text) {items : List Value}
    {text : List Char} (h : FillsItems codecs s slot items text) :
    FillsItems codecs s' slot items text := by
  induction items generalizing text with
  | nil =>
    cases h
    exact .nil
  | cons v items ih =>
    cases h with
    | cons fills others => exact .cons (each _ _ fills) (ih others)

mutual

/-- Slots have exactly the width of their layout. -/
theorem Fills.length {s : Schema} {L : Layout} {v : Value} {text : List Char} :
    Fills codecs s L v text → text.length = L.exactWidth
  | .leaf _ _ width _ => width
  | .record _ all => all.length
  | .repeated _ _ digits _ fits all => by
    have items := all.length
    simp only [List.length_append, length_blanks, digits, items, Layout.exactWidth]
    rw [Nat.add_assoc, ← Nat.add_mul, Nat.add_sub_cancel' fits]
  | .absent _ => by rw [List.length_cons, length_blanks]; rfl
  | .present _ inner => by rw [List.length_cons, inner.length]; rfl

theorem FillsMembers.length {members : List Schema} {slots : List Layout}
    {entries : List (String × Value)} {text : List Char} :
    FillsMembers codecs members slots entries text → text.length = Layout.exactWidths slots
  | .nil => rfl
  | .cons first rest => by
    rw [List.length_append, first.length, rest.length]
    rfl

theorem FillsItems.length {s : Schema} {slot : Layout} {items : List Value} {text : List Char} :
    FillsItems codecs s slot items text → text.length = items.length * slot.exactWidth
  | .nil => by simp
  | .cons first rest => by
    rw [List.length_append, first.length, rest.length, List.length_cons, Nat.succ_mul,
      Nat.add_comm]

end

end Lengths

end Slotform
