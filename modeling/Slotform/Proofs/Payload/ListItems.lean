import Slotform.Proofs.Payload.Conformance
import Slotform.Proofs.Payload.Factory
import Slotform.Proofs.Payload.Filtering

/-!
# Items that a payload pays for

A header may announce slots of no width, and the items of a list with such slots cost no characters.
All others do: a text has more characters than the value that is decoded from it has list items with
slots of some width, however the lists are nested. A list as such costs the digits of its count, so
that the limit on occurrences bounds the items that cost nothing, list by list
(`Mapper.decode_itemCount`).
-/

namespace Slotform

namespace Value

mutual

/-- The number of items of all lists in a value. -/
def itemCount : Value → Nat
  | atom _ => 0
  | list items => items.length + itemCounts items
  | absent => 0
  | present inner => inner.itemCount
  | record entries => entryItemCounts entries

def itemCounts : List Value → Nat
  | [] => 0
  | item :: rest => item.itemCount + itemCounts rest

def entryItemCounts : List (String × Value) → Nat
  | [] => 0
  | (_, value) :: rest => value.itemCount + entryItemCounts rest

end

end Value

namespace Layout

/-- The slots of the layout take characters. -/
def isWide (L : Layout) : Bool := 0 < L.exactWidth

mutual

/-- The number of items of all lists that the layout makes of a value, as far as the slots of the
items pass a test. -/
def itemsWhere (test : Layout → Bool) : Layout → Value → Nat
  | record slots, .record entries => memberItemsWhere test slots entries
  | repeated _ slot, .list items =>
    (items.map fun item => (test slot).toNat + slot.itemsWhere test item).sum
  | optional slot, .present inner => slot.itemsWhere test inner
  | _, _ => 0

def memberItemsWhere (test : Layout → Bool) : List Layout → List (String × Value) → Nat
  | slot :: slots, (_, value) :: entries =>
    slot.itemsWhere test value + memberItemsWhere test slots entries
  | _, _ => 0

end

/-- The number of items of all lists that the layout makes of a value. -/
def items : Layout → Value → Nat := itemsWhere fun _ => true

mutual

/-- A value fills the slots of a layout with so many characters. Leaves hold what was parsed. -/
inductive Occupies (parsed : Value → Prop) : Layout → Value → Nat → Prop where
  | leaf {width : Nat} {v : Value} : parsed v → Occupies parsed (.leaf width) v width
  | record {slots : List Layout} {entries : List (String × Value)} {n : Nat} :
      OccupiesMembers parsed slots entries n → Occupies parsed (.record slots) (.record entries) n
  | list {occurs n : Nat} {slot : Layout} {items : List Value} (blanks : Nat) :
      items.length ≤ occurs → OccupiesItems parsed slot items n →
      Occupies parsed (.repeated occurs slot) (.list items)
        (Decimal.digitCount occurs + n + blanks)
  | absent {slot : Layout} (blanks : Nat) : Occupies parsed (.optional slot) .absent (blanks + 1)
  | present {slot : Layout} {v : Value} {n : Nat} :
      Occupies parsed slot v n → Occupies parsed (.optional slot) (.present v) (n + 1)

inductive OccupiesMembers (parsed : Value → Prop) :
    List Layout → List (String × Value) → Nat → Prop where
  | nil : OccupiesMembers parsed [] [] 0
  | cons {slot : Layout} {slots : List Layout} {name : String} {v : Value}
      {entries : List (String × Value)} {n k : Nat} : Occupies parsed slot v n →
      OccupiesMembers parsed slots entries k →
      OccupiesMembers parsed (slot :: slots) ((name, v) :: entries) (n + k)

inductive OccupiesItems (parsed : Value → Prop) : Layout → List Value → Nat → Prop where
  | nil {slot : Layout} : OccupiesItems parsed slot [] 0
  | cons {slot : Layout} {v : Value} {items : List Value} {n k : Nat} : Occupies parsed slot v n →
      OccupiesItems parsed slot items k → OccupiesItems parsed slot (v :: items) (n + k)

end

/-! ## What items cost -/

section Costs

variable {parsed : Value → Prop} {l : Limits} {test : Layout → Bool}

theorem toNat_isWide (L : Layout) : L.isWide.toNat = min 1 L.exactWidth := by
  unfold isWide
  rcases Nat.eq_zero_or_pos L.exactWidth with none | some
  · simp [none]
  · simp [some, Nat.min_eq_left (Nat.succ_le_of_lt some)]

mutual

/-- Every item with a wide slot costs a character, and one is left if the slots of the whole are
wide. -/
theorem Occupies.wide_le : {L : Layout} → {v : Value} → {n : Nat} → Occupies parsed L v n →
    L.itemsWhere isWide v + min 1 L.exactWidth ≤ n
  | .leaf width, v, _, .leaf _ => by
    simp only [itemsWhere, exactWidth]
    omega
  | .record slots, _, _, .record members => by
    simpa only [itemsWhere, exactWidth] using members.wide_le
  | .repeated occurs slot, .list items, _, .list blanks _ filled => by
    have inside := filled.wide_le
    have digits := Decimal.digitCount_pos occurs
    simp only [itemsWhere]
    omega
  | .optional slot, _, _, .absent blanks => by
    simp only [itemsWhere]
    omega
  | .optional slot, _, _, .present filled => by
    have inside := filled.wide_le
    simp only [itemsWhere]
    omega

theorem OccupiesMembers.wide_le : {slots : List Layout} → {entries : List (String × Value)} →
    {n : Nat} → OccupiesMembers parsed slots entries n →
    memberItemsWhere isWide slots entries + min 1 (exactWidths slots) ≤ n
  | _, _, _, .nil => by simp [memberItemsWhere, exactWidths]
  | slot :: slots, _, _, .cons filled others => by
    have first := filled.wide_le
    have rest := others.wide_le
    simp only [memberItemsWhere, exactWidths]
    omega

theorem OccupiesItems.wide_le : {slot : Layout} → {items : List Value} → {n : Nat} →
    OccupiesItems parsed slot items n →
    (items.map fun item => slot.isWide.toNat + slot.itemsWhere isWide item).sum ≤ n
  | _, _, _, .nil => by simp
  | slot, _, _, .cons filled others => by
    have first := filled.wide_le
    have rest := others.wide_le
    rw [toNat_isWide] at rest ⊢
    simp only [List.map_cons, List.sum_cons]
    omega

end

mutual

/-- Every list costs a character, and has as many items as the limit on occurrences allows. -/
theorem Occupies.items_le : {L : Layout} → {v : Value} → {n : Nat} → Occupies parsed L v n →
    L.Within l → L.items v ≤ l.maxOccurs * n
  | .leaf width, _, _, .leaf _, _ => Nat.zero_le _
  | .record slots, _, _, .record members, within => members.items_le within
  | .repeated occurs slot, .list items, _, .list (n := n) blanks count filled, within => by
    have inside := filled.items_le within.2
    have digits : l.maxOccurs ≤ l.maxOccurs * Decimal.digitCount occurs :=
      Nat.le_mul_of_pos_right _ (Decimal.digitCount_pos occurs)
    have bound : items.length ≤ l.maxOccurs := Nat.le_trans count within.1
    calc Layout.items (.repeated occurs slot) (.list items)
      _ ≤ items.length + l.maxOccurs * n := inside
      _ ≤ l.maxOccurs * Decimal.digitCount occurs + l.maxOccurs * n := by omega
      _ ≤ l.maxOccurs * (Decimal.digitCount occurs + n + blanks) := by
        rw [← Nat.mul_add]
        exact Nat.mul_le_mul_left _ (Nat.le_add_right _ _)
  | .optional slot, _, _, .absent blanks, _ => Nat.zero_le _
  | .optional slot, _, _, .present filled, within =>
    Nat.le_trans (filled.items_le within) (Nat.mul_le_mul_left _ (Nat.le_add_right _ _))

theorem OccupiesMembers.items_le : {slots : List Layout} → {entries : List (String × Value)} →
    {n : Nat} → OccupiesMembers parsed slots entries n → AllWithin l slots →
    memberItemsWhere (fun _ => true) slots entries ≤ l.maxOccurs * n
  | _, _, _, .nil, _ => Nat.zero_le _
  | slot :: slots, _, _, .cons filled others, within => by
    have first := filled.items_le within.1
    have rest := others.items_le within.2
    rw [Nat.mul_add]
    exact Nat.add_le_add first rest

theorem OccupiesItems.items_le : {slot : Layout} → {items : List Value} → {n : Nat} →
    OccupiesItems parsed slot items n → slot.Within l →
    (items.map fun item => 1 + slot.items item).sum ≤ items.length + l.maxOccurs * n
  | _, _, _, .nil, _ => Nat.zero_le _
  | slot, _, _, .cons filled others, within => by
    have first := filled.items_le within
    have rest := others.items_le within
    rw [Nat.mul_add]
    simp only [List.map_cons, List.sum_cons, List.length_cons]
    omega

end

mutual

/-- A test divides the items of a value. -/
theorem Occupies.items_eq : {L : Layout} → {v : Value} → {n : Nat} → Occupies parsed L v n →
    L.items v = L.itemsWhere test v + L.itemsWhere (fun slot => !test slot) v
  | .leaf _, _, _, .leaf _ => rfl
  | .record _, _, _, .record members => members.items_eq
  | .repeated _ _, _, _, .list _ _ filled => filled.items_eq
  | .optional _, _, _, .absent _ => rfl
  | .optional _, _, _, .present filled => filled.items_eq

theorem OccupiesMembers.items_eq : {slots : List Layout} → {entries : List (String × Value)} →
    {n : Nat} → OccupiesMembers parsed slots entries n →
    memberItemsWhere (fun _ => true) slots entries = memberItemsWhere test slots entries +
      memberItemsWhere (fun slot => !test slot) slots entries
  | _, _, _, .nil => rfl
  | _ :: _, _, _, .cons filled others => by
    have first := filled.items_eq
    have rest := others.items_eq
    rw [items] at first
    simp only [memberItemsWhere]
    omega

theorem OccupiesItems.items_eq : {slot : Layout} → {items : List Value} → {n : Nat} →
    OccupiesItems parsed slot items n →
    (items.map fun item => 1 + slot.items item).sum =
      (items.map fun item => (test slot).toNat + slot.itemsWhere test item).sum +
        (items.map fun item =>
          (!test slot).toNat + slot.itemsWhere (fun slot => !test slot) item).sum
  | _, _, _, .nil => rfl
  | slot, _, _, .cons filled others => by
    have first := filled.items_eq
    have rest := others.items_eq
    have one : (test slot).toNat + (!test slot).toNat = 1 := by cases test slot <;> rfl
    simp only [List.map_cons, List.sum_cons]
    omega

end

mutual

/-- Where leaves hold no lists, the items that the layout makes are all there are. -/
theorem Occupies.itemCount_eq (flat : ∀ v, parsed v → v.itemCount = 0) :
    {L : Layout} → {v : Value} → {n : Nat} → Occupies parsed L v n → v.itemCount = L.items v
  | .leaf _, _, _, .leaf done => flat _ done
  | .record _, _, _, .record members => members.itemCount_eq flat
  | .repeated _ _, _, _, .list _ _ filled => filled.itemCount_eq flat
  | .optional _, _, _, .absent _ => rfl
  | .optional _, _, _, .present filled => filled.itemCount_eq flat

theorem OccupiesMembers.itemCount_eq (flat : ∀ v, parsed v → v.itemCount = 0) :
    {slots : List Layout} → {entries : List (String × Value)} → {n : Nat} →
    OccupiesMembers parsed slots entries n →
    Value.entryItemCounts entries = memberItemsWhere (fun _ => true) slots entries
  | _, _, _, .nil => rfl
  | _ :: _, _, _, .cons filled others => by
    rw [Value.entryItemCounts, filled.itemCount_eq flat, others.itemCount_eq flat]
    rfl

theorem OccupiesItems.itemCount_eq (flat : ∀ v, parsed v → v.itemCount = 0) :
    {slot : Layout} → {items : List Value} → {n : Nat} → OccupiesItems parsed slot items n →
    items.length + Value.itemCounts items = (items.map fun item => 1 + slot.items item).sum
  | _, _, _, .nil => rfl
  | _, _, _, .cons filled others => by
    have first := filled.itemCount_eq flat
    have rest := others.itemCount_eq flat
    simp only [Value.itemCounts, List.map_cons, List.sum_cons, List.length_cons]
    omega

end

end Costs

end Layout

namespace Mapper

open Cursor Layout

/-! ## What reading makes -/

mutual

def codecs : Mapper → List Codec
  | leaf _ _ codec => [codec]
  | record _ _ members => memberCodecs members
  | repeated _ element => element.codecs
  | optional _ inner => inner.codecs

def memberCodecs : List Mapper → List Codec
  | [] => []
  | member :: rest => member.codecs ++ memberCodecs rest

end

/-- Whatever the codecs parse is of this sort. -/
def Parses (codecs : List Codec) (parsed : Value → Prop) : Prop :=
  ∀ codec ∈ codecs, ∀ text v, codec.parse text = .ok v → parsed v

variable {parsed : Value → Prop} {c c' : Cursor}

theorem readCount_remaining {occurs count : Nat} (counted : readCount occurs c = .ok (count, c')) :
    count ≤ occurs ∧ c.remaining = Decimal.digitCount occurs + c'.remaining := by
  refine ⟨le_of_readCount counted, ?_⟩
  simp only [readCount_eq, bind_eq_ok, Prod.exists, take_ok] at counted
  obtain ⟨text, after, ⟨length, passes⟩, counted⟩ := counted
  split at counted
  · cases counted
  · obtain ⟨_, same⟩ := ite_error_eq_ok.1 counted
    cases same
    rw [← length]
    exact passes.remaining

theorem occupies_readTimes {read : Cursor → Except PayloadError (Value × Cursor)} {slot : Layout}
    (each : ∀ c v c', read c = .ok (v, c') →
      ∃ n, slot.Occupies parsed v n ∧ c.remaining = n + c'.remaining)
    {k : Nat} {done items : List Value} (times : readTimes read k done c = .ok (items, c')) :
    ∃ new n, items = done.reverse ++ new ∧ new.length = k ∧ slot.OccupiesItems parsed new n ∧
      c.remaining = n + c'.remaining := by
  induction k generalizing done c with
  | zero =>
    cases times
    exact ⟨[], 0, (List.append_nil _).symm, rfl, .nil, (Nat.zero_add _).symm⟩
  | succ k ih =>
    simp only [readTimes, bind_eq_ok, Prod.exists] at times
    obtain ⟨v, c₁, first, rest⟩ := times
    obtain ⟨n, filled, passed⟩ := each _ _ _ first
    obtain ⟨new, n', rfl, rfl, others, passed'⟩ := ih rest
    refine ⟨v :: new, n + n', by simp, rfl, .cons filled others, ?_⟩
    omega

mutual

/-- What is read fills the slots of the layout, with as many characters as reading has passed. -/
theorem occupies_read : (m : Mapper) → Parses m.codecs parsed → ∀ {L : Layout} {c c' : Cursor}
    {v : Value}, m.read L c = .ok (v, c') →
      ∃ n, L.Occupies parsed v n ∧ c.remaining = n + c'.remaining
  | leaf node kind codec, parses, L, c, c', v, done => by
    cases L with
    | leaf width =>
      obtain ⟨slot, rfl, passes, parse⟩ := read_leaf_ok.1 done
      exact ⟨_, .leaf (parses codec (List.mem_singleton_self _) _ _ parse), passes.remaining⟩
    | record | repeated | optional => cases done
  | record node declared members, parses, L, c, c', v, done => by
    cases L with
    | record slots =>
      simp only [read, ite_ok_error_eq_ok, bind_eq_ok, Prod.exists, Except.ok.injEq,
        Prod.mk.injEq] at done
      obtain ⟨same, entries, _, inside, rfl, rfl⟩ := done
      obtain ⟨n, filled, passed⟩ := occupies_readMembers members parses same inside
      exact ⟨n, .record filled, passed⟩
    | leaf | repeated | optional => cases done
  | repeated view element, parses, L, c, c', v, done => by
    cases L with
    | repeated occurs slot =>
      simp only [read, bind_eq_ok, Prod.exists, Except.ok.injEq, Prod.mk.injEq] at done
      obtain ⟨count, c₁, counted, items, c₂, times, width, _, _, _, unused, rfl, rfl⟩ := done
      obtain ⟨fits, digits⟩ := readCount_remaining counted
      obtain ⟨_, n, rfl, rfl, filled, passed⟩ :=
        occupies_readTimes (fun c v c' => occupies_read element parses) times
      have blank := (blank_ok.1 unused).remaining
      rw [Slot.blanks, List.length_replicate] at blank
      exact ⟨_, .list width fits filled, by omega⟩
    | leaf | record | optional => cases done
  | optional view inner, parses, L, c, c', v, done => by
    cases L with
    | optional slot =>
      simp only [read, bind_eq_ok, Prod.exists] at done
      obtain ⟨flag, c₁, first, done⟩ := done
      have marked := (next_ok.1 first).remaining
      rw [List.length_singleton] at marked
      split at done
      · simp only [bind_eq_ok, Prod.exists, Except.ok.injEq, Prod.mk.injEq] at done
        obtain ⟨w, _, inside, rfl, rfl⟩ := done
        obtain ⟨n, filled, passed⟩ := occupies_read inner parses inside
        exact ⟨n + 1, .present filled, by omega⟩
      · split at done
        · simp only [bind_eq_ok, Prod.exists, Except.ok.injEq, Prod.mk.injEq] at done
          obtain ⟨_, _, unused, rfl, rfl⟩ := done
          have blank := (blank_ok.1 unused).remaining
          rw [Slot.blanks, List.length_replicate] at blank
          exact ⟨_, .absent slot.width, by omega⟩
        · cases done
    | leaf | record | repeated => cases done

theorem occupies_readMembers : (members : List Mapper) → Parses (memberCodecs members) parsed →
    ∀ {slots : List Layout} {c c' : Cursor} {entries : List (String × Value)},
      slots.length = members.length → readMembers members slots c = .ok (entries, c') →
      ∃ n, OccupiesMembers parsed slots entries n ∧ c.remaining = n + c'.remaining
  | [], _, slots, c, c', entries, same, done => by
    cases List.eq_nil_of_length_eq_zero same
    cases done
    exact ⟨0, .nil, (Nat.zero_add _).symm⟩
  | member :: members, parses, [], c, c', entries, same, done => by cases same
  | member :: members, parses, slot :: slots, c, c', entries, same, done => by
    simp only [readMembers, bind_eq_ok, Prod.exists, Except.ok.injEq, Prod.mk.injEq] at done
    obtain ⟨v, c₁, first, rest, c₂, others, rfl, rfl⟩ := done
    obtain ⟨n, filled, passed⟩ := occupies_read member
      (fun codec h => parses codec (List.mem_append_left _ h)) first
    obtain ⟨k, filled', passed'⟩ := occupies_readMembers members
      (fun codec h => parses codec (List.mem_append_right _ h)) (Nat.succ.inj same) others
    exact ⟨n + k, .cons filled filled', by omega⟩

end

/-- A value without list items. -/
def Flat (v : Value) : Prop := v.itemCount = 0

/-- Built-in codecs make no lists. -/
theorem parses_flat {codecs : CodecTable} (builtin : codecs.BuiltIn) {s : Schema} {m : Mapper}
    (assembled : codecs.assemble s = .ok m) : Parses m.codecs Flat := by
  refine CodecTable.byMapper (P := fun _ m => Parses m.codecs Flat) ?leaf ?record ?repeated
    ?optional assembled
  case leaf =>
    intro node kind codec _ found codec' used text v parse
    obtain rfl := List.mem_singleton.1 used
    obtain ⟨p, _, rfl⟩ := builtin kind _ found
    obtain ⟨a, _, rfl⟩ := map_eq_ok.1 parse
    rfl
  case record =>
    intro node members mappers _ each
    show Parses (memberCodecs mappers) Flat
    induction each with
    | nil => exact nofun
    | cons first _ ih =>
      intro codec used
      exact (List.mem_append.1 used).elim (first.2 codec) (ih codec)
  case repeated => exact fun _ _ element => element
  case optional => exact fun _ inner => inner

/-! ## Whole payloads -/

/-- A text has more characters than the value decoded from it has list items with wide slots. All
items together are at most the limit on occurrences for each character; those that are not wide have
slots of no width. Unless a codec makes lists of its own, these are all list items of the value. -/
theorem decode_itemCount {m : Mapper} {l : Limits} {t : List Char} {v : Value}
    (decoded : m.decode l t = .ok v) : ∃ L c, m.readHeader l (.ofText t) = .ok (L, c) ∧
      L.itemsWhere isWide v < t.length ∧ L.items v ≤ l.maxOccurs * t.length ∧
      L.items v = L.itemsWhere isWide v + L.itemsWhere (fun slot => !slot.isWide) v ∧
      (Parses m.codecs Flat → v.itemCount = L.items v) := by
  obtain ⟨_, L, c, c', header, within, _, filled, _⟩ := decode_eq_ok.1 decoded
  obtain ⟨_, shorter⟩ := suits_of_readHeader m header
  have whole : (Cursor.ofText t).remaining = t.length := rfl
  have anything : Parses m.codecs fun _ => True := fun _ _ _ _ _ => trivial
  obtain ⟨n, occupies, passed⟩ := occupies_read m anything filled
  have wide := occupies.wide_le
  have short : n ≤ t.length := by omega
  refine ⟨L, c, (readHeader_within m).2 ⟨header, within⟩, by omega, ?_, occupies.items_eq, ?_⟩
  · exact Nat.le_trans (occupies.items_le within) (Nat.mul_le_mul_left _ short)
  · intro flat
    obtain ⟨_, occupies, _⟩ := occupies_read m flat filled
    exact occupies.itemCount_eq fun _ => id

end Mapper

theorem CodecTable.builtIn_nil : BuiltIn [] := by
  rintro (p | name) codec ⟨⟩
  exact ⟨p, rfl, rfl⟩

namespace Sample

open Mapper Layout

/-- The one tag of the sample's payload is paid for. -/
theorem decode_itemCount_person : personMapper.decode .standard text = .ok ada ∧
    ∃ L c, personMapper.readHeader .standard (.ofText text) = .ok (L, c) ∧
      L.itemsWhere isWide ada < text.length ∧ L.items ada ≤ 1000000 * text.length ∧
      L.items ada = L.itemsWhere isWide ada + L.itemsWhere (fun slot => !slot.isWide) ada ∧
      L.items ada = 1 := by
  have decoded : personMapper.decode .standard text = .ok ada := by cbv
  obtain ⟨L, c, header, wide, items, split, count⟩ := Mapper.decode_itemCount decoded
  have flat := parses_flat CodecTable.builtIn_nil assemble_person
  exact ⟨decoded, L, c, header, wide, items, split, (count flat).symm⟩

def roll : Schema := (Schema.ofKind "roll" (.primitive .string)).repeated

def rollMapper : Mapper :=
  .repeated roll (.leaf roll.item.node (.primitive .string) (.ofPrimitive .string))

/-- Sixteen empty strings are decoded from fifteen characters. -/
theorem decode_roll : ∃ kept v, ((Factory.after [] []).create roll).1 = .ok kept ∧
    kept.value.decode .standard "string(0)[16]16".toList = .ok v ∧
    "string(0)[16]16".toList.length < v.itemCount := by
  have distinct : Fingerprint.Identifies ([] ++ [roll]) := by decide +kernel
  have assembled : CodecTable.assemble [] roll = .ok rollMapper := rfl
  obtain ⟨kept, created, same⟩ := Factory.create_ok [] distinct assembled
  refine ⟨kept, .list (List.replicate 16 (.atom (.string ""))), created, ?_, by decide⟩
  rw [same]
  cbv

end Sample

end Slotform
