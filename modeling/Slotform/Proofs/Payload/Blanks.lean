import Slotform.Proofs.Payload.Writing

/-!
# Room and blanks

There are two conditions for a value to be written into the slots of a layout. There must be room
for it, and the blanks of every list's unused slots must be counted by a word. A value that there is
room for is written if no product of words is too large, and nothing else keeps it from being
written (`Mapper.writes_iff`, `Mapper.HasRoom.write_error`).
-/

namespace Slotform

namespace Mapper

variable {m element : Mapper} {members : List Mapper} {v : Value} {values : List Value}
  {L slot : Layout} {slots : List Layout} {text : List Char} {n : Nat}

/-- A condition on each member with its value and its slot. -/
def InPlaces (P : Mapper → Value → Layout → Prop) (members : List Mapper) (values : List Value)
    (slots : List Layout) : Prop :=
  ∀ (i : Nat) (m : Mapper) (v : Value) (slot : Layout),
    members[i]? = some m → values[i]? = some v → slots[i]? = some slot → P m v slot

section InPlaces

variable {P : Mapper → Value → Layout → Prop}

theorem inPlaces_nil : InPlaces P [] values slots := by
  intro i m v slot hm
  simp at hm

theorem inPlaces_nil_values : InPlaces P members [] slots := by
  intro i m v slot _ hv
  simp at hv

theorem inPlaces_nil_slots : InPlaces P members values [] := by
  intro i m v slot _ _ hs
  simp at hs

theorem inPlaces_cons : InPlaces P (m :: members) (v :: values) (slot :: slots) ↔
    P m v slot ∧ InPlaces P members values slots := by
  constructor
  · intro all
    exact ⟨all 0 m v slot rfl rfl rfl, fun i => all (i + 1)⟩
  · rintro ⟨first, others⟩ i m' v' slot' hm hv hs
    cases i with
    | zero =>
      cases hm
      cases hv
      cases hs
      exact first
    | succ i => exact others i m' v' slot' hm hv hs

end InPlaces

/-- There is room for a value in the slots of a layout: no text is wider than its slot, and no list
has more items than slots. -/
inductive HasRoom : Mapper → Value → Layout → Prop where
  | leaf {node : Node} {kind : Kind} {codec : Codec} {v : Value} {text : List Char} {width : Nat} :
      renderLeaf node kind codec v = .ok text → text.length ≤ width →
      HasRoom (.leaf node kind codec) v (.leaf width)
  | record {node : Node} {declared : List Schema} {members : List Mapper} {v : Value}
      {values : List Value} {slots : List Layout} :
      recordValues node declared (members.map name) v = .ok values →
      slots.length = members.length → InPlaces HasRoom members values slots →
      HasRoom (.record node declared members) v (.record slots)
  | list {view : Schema} {element : Mapper} {items : List Value} {occurs : Nat} {slot : Layout} :
      items.length ≤ occurs → (∀ v ∈ items, HasRoom element v slot) →
      HasRoom (.repeated view element) (.list items) (.repeated occurs slot)
  | absent {view : Schema} {inner : Mapper} {slot : Layout} :
      HasRoom (.optional view inner) .absent (.optional slot)
  | present {view : Schema} {inner : Mapper} {v : Value} {slot : Layout} : HasRoom inner v slot →
      HasRoom (.optional view inner) (.present v) (.optional slot)

/-- Writing a value into the slots of a layout counts `n` blanks for the unused slots of a list. -/
inductive Pads : Mapper → Value → Layout → Nat → Prop where
  | unused {view : Schema} {element : Mapper} {items : List Value} {occurs : Nat} {slot : Layout} :
      items.length ≤ occurs → Pads (.repeated view element) (.list items) (.repeated occurs slot)
        ((occurs - items.length) * slot.width)
  | item {view : Schema} {element : Mapper} {items : List Value} {v : Value} {occurs n : Nat}
      {slot : Layout} : items.length ≤ occurs → v ∈ items → Pads element v slot n →
      Pads (.repeated view element) (.list items) (.repeated occurs slot) n
  | present {view : Schema} {inner : Mapper} {v : Value} {slot : Layout} {n : Nat} :
      Pads inner v slot n → Pads (.optional view inner) (.present v) (.optional slot) n
  | member {node : Node} {declared : List Schema} {members : List Mapper} {v : Value}
      {values : List Value} {slots : List Layout} {i n : Nat} {member : Mapper} {x : Value}
      {slot : Layout} : recordValues node declared (members.map name) v = .ok values →
      members[i]? = some member → values[i]? = some x → slots[i]? = some slot →
      Pads member x slot n → Pads (.record node declared members) v (.record slots) n

/-- The blanks of a list are no more than its slots. -/
theorem Pads.le (pads : m.Pads v L n) : n ≤ L.exactWidth := by
  induction pads with
  | @unused view element items occurs slot fits =>
    have product : (occurs - items.length) * slot.width ≤ occurs * slot.exactWidth :=
      Nat.mul_le_mul (Nat.sub_le _ _) slot.width_bounds.1
    exact Nat.le_trans product (Nat.le_add_left _ _)
  | @item view element items v occurs n slot fits hv _ ih =>
    have some : 0 < occurs := Nat.lt_of_lt_of_le (List.length_pos_of_mem hv) fits
    exact Nat.le_trans ih (Nat.le_trans (Nat.le_mul_of_pos_left _ some) (Nat.le_add_left _ _))
  | present _ ih => exact Nat.le_succ_of_le ih
  | member _ _ _ known _ ih =>
    exact Nat.le_trans ih (Layout.exactWidth_le_exactWidths (List.mem_of_getElem? known))

/-! ## What is written has room -/

theorem writeMembers_inPlaces (written : writeMembers members values slots = .ok text) :
    InPlaces (fun m v slot => ∃ part, m.write v slot = .ok part) members values slots := by
  induction members generalizing values slots text with
  | nil => exact inPlaces_nil
  | cons m rest ih =>
    cases values with
    | nil => exact inPlaces_nil_values
    | cons v values =>
      cases slots with
      | nil => exact inPlaces_nil_slots
      | cons slot slots =>
        obtain ⟨first, others, once, more, rfl⟩ := writeMembers_cons_ok.1 written
        exact inPlaces_cons.2 ⟨⟨first, once⟩, ih more⟩

mutual

theorem write_hasRoom : (m : Mapper) → ∀ {v : Value} {L : Layout} {text : List Char},
    m.write v L = .ok text → m.HasRoom v L
  | leaf node kind codec, _, _, _, written => by
    obtain ⟨width, rendered, rfl, known, fits, rfl⟩ := write_leaf_ok.1 written
    exact .leaf known fits
  | record node declared members, _, _, _, written => by
    obtain ⟨slots, values, rfl, known, same, inside⟩ := write_record_ok.1 written
    exact .record known same (writeMembers_hasRoom members inside)
  | repeated view element, _, _, _, written => by
    obtain ⟨occurs, slot, items, texts, rfl, rfl, fits, each, _, rfl⟩ :=
      write_repeated_ok.1 written
    apply HasRoom.list fits
    intro x hx
    obtain ⟨part, _, once⟩ := forall₂_exists_right each hx
    exact write_hasRoom element once
  | optional view inner, _, _, _, written => by
    obtain ⟨slot, rfl, ⟨rfl, rfl⟩ | ⟨x, rest, rfl, once, rfl⟩⟩ := write_optional_ok.1 written
    · exact .absent
    · exact .present (write_hasRoom inner once)

theorem writeMembers_hasRoom : (members : List Mapper) →
    ∀ {values : List Value} {slots : List Layout} {text : List Char},
      writeMembers members values slots = .ok text → InPlaces HasRoom members values slots
  | [], _, _, _, _ => inPlaces_nil
  | _ :: _, [], _, _, _ => inPlaces_nil_values
  | _ :: _, _ :: _, [], _, _ => inPlaces_nil_slots
  | m :: rest, _ :: _, _ :: _, _, written => by
    obtain ⟨first, others, once, more, rfl⟩ := writeMembers_cons_ok.1 written
    exact inPlaces_cons.2 ⟨write_hasRoom m once, writeMembers_hasRoom rest more⟩

end

/-- The blanks of what has been written were counted by words. -/
theorem Pads.lt_of_write (pads : m.Pads v L n) (written : m.write v L = .ok text) :
    n < UInt64.size := by
  induction pads generalizing text with
  | unused =>
    obtain ⟨_, _, _, _, ⟨⟩, ⟨⟩, _, _, small, _⟩ := write_repeated_ok.1 written
    exact small
  | item _ hx _ ih =>
    obtain ⟨_, _, _, _, ⟨⟩, ⟨⟩, _, each, _⟩ := write_repeated_ok.1 written
    obtain ⟨part, _, once⟩ := forall₂_exists_right each hx
    exact ih once
  | present _ ih =>
    obtain ⟨_, ⟨⟩, ⟨⟨⟩, _⟩ | ⟨_, rest, ⟨⟩, once, _⟩⟩ := write_optional_ok.1 written
    exact ih once
  | member known hm hx hs _ ih =>
    obtain ⟨_, values, ⟨⟩, known', _, inside⟩ := write_record_ok.1 written
    cases known.symm.trans known'
    obtain ⟨part, once⟩ := writeMembers_inPlaces inside _ _ _ _ hm hx hs
    exact ih once

/-! ## What has room is written, unless a product is too large -/

theorem writeMembers_error {e : PayloadError}
    (failed : writeMembers members values slots = .error e) :
    ∃ (i : Nat) (m : Mapper) (v : Value) (slot : Layout), members[i]? = some m ∧
      values[i]? = some v ∧ slots[i]? = some slot ∧ m.write v slot = .error e := by
  induction members generalizing values slots with
  | nil => cases failed
  | cons m rest ih =>
    cases values with
    | nil => cases failed
    | cons v values =>
      cases slots with
      | nil => cases failed
      | cons slot slots =>
        rw [writeMembers] at failed
        rcases bind_eq_error.1 failed with first | ⟨text, _, others⟩
        · exact ⟨0, m, v, slot, rfl, rfl, rfl, first⟩
        · rcases bind_eq_error.1 others with later | ⟨texts, _, done⟩
          · obtain ⟨i, m', v', slot', hm, hv, hs, error⟩ := ih later
            exact ⟨i + 1, m', v', slot', hm, hv, hs, error⟩
          · cases done

theorem write_list {view : Schema} {items : List Value} {occurs : Nat}
    (fits : items.length ≤ occurs) :
    (repeated view element).write (.list items) (.repeated occurs slot) = (do
      let texts ← items.mapM fun item => element.write item slot
      let unused ← slot.blankWidth (occurs - items.length)
      .ok (Decimal.padded (Decimal.digitCount occurs) items.length ++ texts.flatten ++
        Slot.blanks unused)) := by
  simp [write, listItems, bind, Except.bind, Nat.not_lt.2 fits]

/-- Where there is room, writing fails at a number of blanks that no word counts, and nowhere
else. -/
theorem HasRoom.write_error {e : PayloadError} (room : m.HasRoom v L)
    (failed : m.write v L = .error e) :
    ∃ a b, e = .wordOverflow a b ∧ m.Pads v L (a * b) ∧ UInt64.size ≤ a * b := by
  induction room with
  | leaf known fits =>
    rw [write_leaf_ok.2 ⟨_, _, rfl, known, fits, rfl⟩] at failed
    cases failed
  | @record node declared members v values slots known same _ ih =>
    have inside : writeMembers members values slots = .error e := by
      rw [write, known] at failed
      simpa [bind, Except.bind, same] using failed
    obtain ⟨i, m, x, slot, hm, hx, hs, error⟩ := writeMembers_error inside
    obtain ⟨a, b, rfl, pads, large⟩ := ih i m x slot hm hx hs error
    exact ⟨a, b, rfl, .member known hm hx hs pads, large⟩
  | @list view element items occurs slot fits _ ih =>
    rw [write_list fits] at failed
    rcases bind_eq_error.1 failed with inside | ⟨texts, _, failed⟩
    · obtain ⟨x, hx, error⟩ := mapM_error inside
      obtain ⟨a, b, rfl, pads, large⟩ := ih x hx error
      exact ⟨a, b, rfl, .item fits hx pads, large⟩
    · rcases bind_eq_error.1 failed with blanks | ⟨unused, _, done⟩
      · obtain ⟨large, rfl⟩ := Layout.blankWidth_error.1 blanks
        exact ⟨_, _, rfl, .unused fits, large⟩
      · cases done
  | absent => cases failed
  | @present view inner v slot _ ih =>
    have inside : inner.write v slot = .error e := by
      rw [write] at failed
      cases outcome : inner.write v slot with
      | ok text => simp [outcome, Except.map] at failed
      | error e' => simpa [outcome, Except.map] using failed
    obtain ⟨a, b, rfl, pads, large⟩ := ih inside
    exact ⟨a, b, rfl, .present pads, large⟩

/-- A value is written if and only if there is room for it and no number of blanks is too large. -/
theorem writes_iff : (∃ text, m.write v L = .ok text) ↔
    m.HasRoom v L ∧ ∀ n, m.Pads v L n → n < UInt64.size := by
  constructor
  · rintro ⟨text, written⟩
    exact ⟨write_hasRoom m written, fun n pads => pads.lt_of_write written⟩
  · rintro ⟨room, small⟩
    cases outcome : m.write v L with
    | ok text => exact ⟨text, rfl⟩
    | error e =>
      obtain ⟨a, b, _, pads, large⟩ := room.write_error outcome
      exact absurd (small _ pads) (Nat.not_lt.2 large)

/-- A layout whose exact width is a word has small numbers of blanks only. -/
theorem HasRoom.writes (room : m.HasRoom v L) (narrow : L.exactWidth < UInt64.size) :
    ∃ text, m.write v L = .ok text := by
  apply writes_iff.2
  refine ⟨room, ?_⟩
  intro n pads
  exact Nat.lt_of_le_of_lt pads.le narrow

end Mapper

end Slotform
