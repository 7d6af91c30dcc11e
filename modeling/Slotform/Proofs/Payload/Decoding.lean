import Slotform.Proofs.Introspection.Readable
import Slotform.Proofs.Payload.Assembly
import Slotform.Proofs.Payload.Cursor
import Slotform.Proofs.Payload.Factory
import Slotform.Proofs.Payload.Grammar
import Slotform.Proofs.Payload.Width

namespace Slotform

namespace Cursor

variable {c c' c₁ : Cursor} {name text : List Char} {x : Char}

/-- A name is read up to the first character that cannot belong to it. -/
theorem passes_named (all : ∀ a ∈ name, isNameChar a = true) (hx : isNameChar x = false) :
    c.Passes (name ++ x :: text) c' ↔
      c.identifier.1 = name ∧ c.identifier.2.Passes (x :: text) c' := by
  constructor
  · intro passes
    obtain ⟨c₁, named, next⟩ := passes_append.1 passes
    have read : c.identifier = (name, c₁) := by
      refine takeWhile_eq.2 ⟨named, all, ?_⟩
      intro y hy
      cases next.peek?.symm.trans hy
      exact hx
    rw [read]
    exact ⟨rfl, next⟩
  · rintro ⟨rfl, next⟩
    exact (takeWhile_eq.1 (rfl : c.takeWhile isNameChar = _)).1.trans next

end Cursor

namespace Mapper

open Cursor

variable {codecs : CodecTable} {l : Limits}

/-! ## Headers -/

section Header

/-- Reading a member's header passes exactly the texts that spell it. -/
def ReadsHeader (codecs : CodecTable) (l : Limits) (s : Schema) (m : Mapper) : Prop :=
  ∀ c L c', m.readHeader l c = .ok (L, c') ↔ ∃ text, c.Passes text c' ∧ Spells codecs l s L text

/-- Behind a member the others follow after a semicolon. -/
theorem readMemberHeaders_false {m : Mapper} {rest : List Mapper} {c : Cursor} :
    readMemberHeaders l false (m :: rest) c = (do
      let ((), c) ← (c.expect ';').require
      readMemberHeaders l true (m :: rest) c) := rfl

/-- A member's header stands behind its name and a colon. -/
theorem readMemberHeaders_true {m : Mapper} {rest : List Mapper} {c : Cursor} :
    readMemberHeaders l true (m :: rest) c =
      (if c.identifier.1 ≠ m.name.toList then
        .error (.headerMismatch (.member m.name c.identifier.1))
      else do
        let ((), c) ← (c.identifier.2.expect ':').require
        let (slot, c) ← readHeader l m c
        let (slots, c) ← readMemberHeaders l false rest c
        .ok (slot :: slots, c)) := rfl

section Sequence

variable {m : Mapper} {rest : List Mapper} {c c' : Cursor} {slots : List Layout}

theorem readMemberHeaders_false_ok :
    readMemberHeaders l false (m :: rest) c = .ok (slots, c') ↔
      ∃ c₁, c.Passes [';'] c₁ ∧ readMemberHeaders l true (m :: rest) c₁ = .ok (slots, c') := by
  simp only [readMemberHeaders_false, bind_eq_ok, Prod.exists, expect_ok]
  constructor
  · rintro ⟨_, c₁, semicolon, inside⟩
    exact ⟨c₁, semicolon, inside⟩
  · rintro ⟨c₁, semicolon, inside⟩
    exact ⟨(), c₁, semicolon, inside⟩

theorem readMemberHeaders_cons_ok :
    readMemberHeaders l true (m :: rest) c = .ok (slots, c') ↔
      c.identifier.1 = m.name.toList ∧ ∃ c₁ slot c₂ slots', c.identifier.2.Passes [':'] c₁ ∧
        m.readHeader l c₁ = .ok (slot, c₂) ∧ readMemberHeaders l false rest c₂ = .ok (slots', c') ∧
        slots = slot :: slots' := by
  simp only [readMemberHeaders_true, ite_error_eq_ok, Decidable.not_not, bind_eq_ok, Prod.exists,
    expect_ok, Except.ok.injEq, Prod.mk.injEq]
  constructor
  · rintro ⟨found, _, c₁, colon, slot, c₂, header, slots', c₃, others, rfl, rfl⟩
    exact ⟨found, c₁, slot, c₂, slots', colon, header, others, rfl⟩
  · rintro ⟨found, c₁, slot, c₂, slots', colon, header, others, rfl⟩
    exact ⟨found, (), c₁, colon, slot, c₂, header, slots', c', others, rfl, rfl⟩

theorem readMemberHeaders_true_ok (name : ∀ x ∈ m.name.toList, isNameChar x = true) :
    readMemberHeaders l true (m :: rest) c = .ok (slots, c') ↔ ∃ c₁ slot c₂ slots',
      c.Passes (m.name.toList ++ [':']) c₁ ∧ m.readHeader l c₁ = .ok (slot, c₂) ∧
      readMemberHeaders l false rest c₂ = .ok (slots', c') ∧ slots = slot :: slots' := by
  simp only [readMemberHeaders_cons_ok, passes_named name (by decide : isNameChar ':' = false)]
  constructor
  · rintro ⟨found, c₁, slot, c₂, slots', colon, behind⟩
    exact ⟨c₁, slot, c₂, slots', ⟨found, colon⟩, behind⟩
  · rintro ⟨c₁, slot, c₂, slots', ⟨found, colon⟩, behind⟩
    exact ⟨found, c₁, slot, c₂, slots', colon, behind⟩

end Sequence

theorem readMemberHeaders_ok {members : List Schema} {mappers : List Mapper}
    (each : List.Forall₂ (fun s m => m.name = s.name ∧ ReadsHeader codecs l s m) members mappers)
    (names : ∀ s ∈ members, ∀ x ∈ s.name.toList, isNameChar x = true) (some : members ≠ [])
    {c c' : Cursor} {slots : List Layout} :
    readMemberHeaders l true mappers c = .ok (slots, c') ↔
      ∃ text, c.Passes text c' ∧ SpellsMembers codecs l members slots text := by
  induction each generalizing c slots with
  | nil => exact absurd rfl some
  | @cons s m members mappers first rest ih =>
    obtain ⟨hname, reads⟩ := first
    rw [readMemberHeaders_true_ok (hname ▸ names s List.mem_cons_self), hname]
    cases rest with
    | nil =>
      simp only [readMemberHeaders, Except.ok.injEq, Prod.mk.injEq]
      constructor
      · rintro ⟨c₁, slot, c₂, slots', named, header, ⟨rfl, rfl⟩, rfl⟩
        obtain ⟨text, passes, spells⟩ := (reads _ _ _).1 header
        refine ⟨_, ?_, .last spells⟩
        simpa using named.trans passes
      · rintro ⟨_, passes, spells⟩
        cases spells with
        | last spells =>
          rw [List.append_cons, passes_append] at passes
          obtain ⟨c₁, named, passes⟩ := passes
          exact ⟨c₁, _, c', [], named, (reads _ _ _).2 ⟨_, passes, spells⟩, ⟨rfl, rfl⟩, rfl⟩
        | more _ rest => cases rest
    | cons next rest =>
      have others := @ih (fun s hs => names s (List.mem_cons_of_mem _ hs)) (List.cons_ne_nil _ _)
      simp only [readMemberHeaders_false_ok]
      constructor
      · rintro ⟨c₁, slot, c₂, slots', named, header, ⟨c₃, semicolon, more⟩, rfl⟩
        obtain ⟨text, passes, spells⟩ := (reads _ _ _).1 header
        obtain ⟨texts, passes', all⟩ := others.1 more
        refine ⟨_, ?_, .more spells all⟩
        simpa using named.trans (passes.trans (semicolon.trans passes'))
      · rintro ⟨_, passes, spells⟩
        cases spells with
        | more spells all =>
          rw [List.append_cons, passes_append] at passes
          obtain ⟨c₁, named, passes⟩ := passes
          obtain ⟨c₂, passes, behind⟩ := passes_append.1 passes
          obtain ⟨c₃, semicolon, passes'⟩ := passes_cons.1 behind
          exact ⟨c₁, _, c₂, _, named, (reads _ _ _).2 ⟨_, passes, spells⟩,
            ⟨c₃, semicolon, others.2 ⟨_, passes', all⟩⟩, rfl⟩

/-- A quantity in a header must be the hinted one, where there is a hint. -/
theorem hinted_eq_ok {ε α : Type} {hint : Option Nat} {quantity : Nat} {a b : α} {e : Nat → ε} :
    (match hint with
      | some fixed => if quantity = fixed then .ok a else .error (e fixed)
      | none => .ok a : Except ε α) = .ok b ↔ (∀ fixed ∈ hint, quantity = fixed) ∧ a = b := by
  cases hint <;> simp

section Forms

variable {node : Node} {kind : Kind} {codec : Codec} {view : Schema} {declared : List Schema}
  {element inner : Mapper} {members : List Mapper} {L : Layout} {c c' : Cursor}

theorem readHeader_leaf :
    readHeader l (.leaf node kind codec) c =
      (if c.identifier.1 ≠ kind.name.toList then
        .error (.headerMismatch (.kind node.name kind.name c.identifier.1))
      else do
        let (width, c) ← readWidth c.identifier.2
        checkLimit .leafWidth width l.maxWidth
        match leafWidth? node codec with
        | some fixed =>
          if width = fixed then .ok (.leaf width, c)
          else .error (.headerMismatch (.width kind.name fixed width))
        | none => .ok (.leaf width, c)) := rfl

theorem readHeader_leaf_ok : (leaf node kind codec).readHeader l c = .ok (L, c') ↔
    ∃ width digits, c.identifier.1 = kind.name.toList ∧
      c.identifier.2.Passes ('(' :: digits ++ [')']) c' ∧ width ≤ maxWord ∧
      Decimal.Denotes digits width ∧ width ≤ l.maxWidth ∧
      (∀ fixed ∈ leafWidth? node codec, width = fixed) ∧ L = .leaf width := by
  simp only [readHeader_leaf, ite_error_eq_ok, Decidable.not_not, bind_eq_ok, Prod.exists,
    readWidth_ok, checkLimit_ok, hinted_eq_ok, Prod.mk.injEq]
  constructor
  · rintro ⟨named, width, _, ⟨word, digits, denotes, passes⟩, _, within, fixed, rfl, rfl⟩
    exact ⟨width, digits, named, passes, word, denotes, within, fixed, rfl⟩
  · rintro ⟨width, digits, named, passes, word, denotes, within, fixed, rfl⟩
    exact ⟨named, width, c', ⟨word, digits, denotes, passes⟩, (), within, fixed, rfl, rfl⟩

theorem readHeader_record_ok : (record node declared members).readHeader l c = .ok (L, c') ↔
    ∃ slots c₁ c₂, c.Passes ['\x7b'] c₁ ∧ readMemberHeaders l true members c₁ = .ok (slots, c₂) ∧
      c₂.Passes ['\x7d'] c' ∧ L = .record slots := by
  simp only [readHeader, bind_eq_ok, Prod.exists, expect_ok, Except.ok.injEq, Prod.mk.injEq]
  constructor
  · rintro ⟨_, c₁, opened, slots, c₂, inside, _, _, closed, rfl, rfl⟩
    exact ⟨slots, c₁, c₂, opened, inside, closed, rfl⟩
  · rintro ⟨slots, c₁, c₂, opened, inside, closed, rfl⟩
    exact ⟨(), c₁, opened, slots, c₂, inside, (), c', closed, rfl, rfl⟩

theorem readHeader_repeated :
    readHeader l (.repeated view element) c = (do
      let (slot, c) ← readHeader l element c
      let (occurs, c) ← readOccurs c
      checkLimit .occurrences occurs l.maxOccurs
      match occurs? view with
      | some fixed =>
        if occurs = fixed then .ok (.repeated occurs slot, c)
        else .error (.headerMismatch (.occurs view.name fixed occurs))
      | none => .ok (.repeated occurs slot, c)) := rfl

theorem readHeader_repeated_ok : (repeated view element).readHeader l c = .ok (L, c') ↔
    ∃ occurs slot digits c₁, element.readHeader l c = .ok (slot, c₁) ∧
      c₁.Passes ('[' :: digits ++ [']']) c' ∧ occurs ≤ maxWord ∧
      Decimal.Denotes digits occurs ∧ occurs ≤ l.maxOccurs ∧
      (∀ fixed ∈ occurs? view, occurs = fixed) ∧ L = .repeated occurs slot := by
  simp only [readHeader_repeated, bind_eq_ok, Prod.exists, readOccurs_ok, checkLimit_ok,
    hinted_eq_ok, Prod.mk.injEq]
  constructor
  · rintro ⟨slot, c₁, inside, occurs, _, ⟨word, digits, denotes, number⟩, _, within, fixed, rfl,
      rfl⟩
    exact ⟨occurs, slot, digits, c₁, inside, number, word, denotes, within, fixed, rfl⟩
  · rintro ⟨occurs, slot, digits, c₁, inside, number, word, denotes, within, fixed, rfl⟩
    exact ⟨slot, c₁, inside, occurs, c', ⟨word, digits, denotes, number⟩, (), within, fixed, rfl,
      rfl⟩

theorem readHeader_optional_ok : (optional view inner).readHeader l c = .ok (L, c') ↔
    ∃ slot c₁, inner.readHeader l c = .ok (slot, c₁) ∧ c₁.Passes ['?'] c' ∧
      L = .optional slot := by
  simp only [readHeader, bind_eq_ok, Prod.exists, expect_ok, Except.ok.injEq, Prod.mk.injEq]
  constructor
  · rintro ⟨slot, c₁, inside, _, _, mark, rfl, rfl⟩
    exact ⟨slot, c₁, inside, mark, rfl⟩
  · rintro ⟨slot, c₁, inside, mark, rfl⟩
    exact ⟨slot, c₁, inside, (), c', mark, rfl, rfl⟩

end Forms

theorem readsHeader_leaf (words : l.Words) {node : Node} {kind : Kind} {codec : Codec}
    (bare : node.Bare) (proper : kind.Proper) (found : codecs.codec? kind = some codec) :
    ReadsHeader codecs l (.leaf node kind) (.leaf node kind codec) := by
  intro c L c'
  simp only [readHeader_leaf_ok, spells_leaf bare]
  constructor
  · rintro ⟨width, digits, named, passes, _, denotes, within, fixed, rfl⟩
    exact ⟨_, (passes_named proper.isNameChar (by decide)).2 ⟨named, passes⟩, codec, width, digits,
      found, denotes, within, fixed, rfl, rfl⟩
  · rintro ⟨_, passes, codec', width, digits, found', denotes, within, fixed, rfl, rfl⟩
    cases found.symm.trans found'
    obtain ⟨named, passes⟩ := (passes_named proper.isNameChar (by decide)).1 passes
    exact ⟨width, digits, named, passes, Nat.le_trans within words.width, denotes, within, fixed,
      rfl⟩

theorem readsHeader_record {node : Node} {members declared : List Schema} {mappers : List Mapper}
    (bare : node.Bare) (some : members ≠ [])
    (names : ∀ s ∈ members, ∀ x ∈ s.name.toList, isNameChar x = true)
    (reads : List.Forall₂ (fun s m => m.name = s.name ∧ ReadsHeader codecs l s m) members mappers) :
    ReadsHeader codecs l (.record node members) (.record node declared mappers) := by
  intro c L c'
  simp only [readHeader_record_ok, spells_record bare, readMemberHeaders_ok reads names some]
  constructor
  · rintro ⟨slots, c₁, c₂, opened, ⟨inside, passes, spells⟩, closed, rfl⟩
    exact ⟨_, opened.trans (passes.trans closed), slots, inside, spells, rfl, rfl⟩
  · rintro ⟨_, passes, slots, inside, spells, rfl, rfl⟩
    obtain ⟨c₁, opened, passes⟩ := passes_cons.1 passes
    obtain ⟨c₂, passes, closed⟩ := passes_append.1 passes
    exact ⟨slots, c₁, c₂, opened, ⟨inside, passes, spells⟩, closed, rfl⟩

theorem readsHeader_repeated (words : l.Words) {s : Schema} {element : Mapper}
    (ho : s.node.optional = false) (hr : s.node.isRepeated = true)
    (reads : ReadsHeader codecs l s.item element) :
    ReadsHeader codecs l s (.repeated s element) := by
  intro c L c'
  simp only [readHeader_repeated_ok, spells_repeated ho hr, reads _ _ _]
  constructor
  · rintro ⟨occurs, slot, digits, c₁, ⟨text, passes, spells⟩, number, _, denotes, within, fixed,
      rfl⟩
    exact ⟨_, passes.trans number, slot, occurs, text, digits, spells, denotes, within, fixed,
      rfl, rfl⟩
  · rintro ⟨_, passes, slot, occurs, text, digits, spells, denotes, within, fixed, rfl, rfl⟩
    obtain ⟨c₁, passes, number⟩ := passes_append.1 passes
    exact ⟨occurs, slot, digits, c₁, ⟨text, passes, spells⟩, number,
      Nat.le_trans within words.occurs, denotes, within, fixed, rfl⟩

theorem readsHeader_optional {s : Schema} {inner : Mapper} (ho : s.node.optional = true)
    (reads : ReadsHeader codecs l s.required inner) :
    ReadsHeader codecs l s (.optional s inner) := by
  intro c L c'
  simp only [readHeader_optional_ok, spells_optional ho, reads _ _ _]
  constructor
  · rintro ⟨slot, c₁, ⟨text, passes, spells⟩, mark, rfl⟩
    exact ⟨_, passes.trans mark, slot, text, spells, rfl, rfl⟩
  · rintro ⟨_, passes, slot, text, spells, rfl, rfl⟩
    obtain ⟨c₁, passes, mark⟩ := passes_append.1 passes
    exact ⟨slot, c₁, ⟨text, passes, spells⟩, mark, rfl⟩

/-- Reading a header passes exactly the texts that spell it. -/
theorem readHeader_ok (words : l.Words) {s : Schema} (proper : s.WellFormed) {m : Mapper}
    (assembled : codecs.assemble s = .ok m) : ReadsHeader codecs l s m := by
  revert proper
  refine CodecTable.byMapper (P := fun s m => s.WellFormed → ReadsHeader codecs l s m)
    ?leaf ?record ?repeated ?optional assembled
  case leaf =>
    intro node kind codec bare found proper
    cases proper with
    | leaf proper => exact readsHeader_leaf words bare proper found
  case record =>
    intro node members mappers bare all proper
    cases proper with
    | record some names _ each =>
      apply readsHeader_record bare some fun s hs => (name_of_nameFault? (names s hs)).2
      exact forall₂_imp_mem all fun s hs m h => ⟨h.1, h.2 (each s hs)⟩
  case repeated =>
    intro s element ho hr reads proper
    exact readsHeader_repeated words ho hr (reads proper.item)
  case optional =>
    intro s inner ho reads proper
    exact readsHeader_optional ho (reads proper.required)

end Header

/-! ## Slots -/

section Slots

variable {l : Limits}

/-- Reading slots of a layout that a header spells passes exactly the texts that fill it. -/
def ReadsSlots (codecs : CodecTable) (l : Limits) (s : Schema) (m : Mapper) : Prop :=
  ∀ L header, Spells codecs l s L header → L.exactWidth < UInt64.size → ∀ c v c',
    m.read L c = .ok (v, c') ↔ ∃ text, c.Passes text c' ∧ Fills codecs s L v text

theorem readTimes_ok {read : Cursor → Except PayloadError (Value × Cursor)} {s : Schema}
    {slot : Layout} {n : Nat} {done vs : List Value} {c c' : Cursor}
    (reads : 0 < n → ∀ c v c', read c = .ok (v, c') ↔
      ∃ text, c.Passes text c' ∧ Fills codecs s slot v text) :
    readTimes read n done c = .ok (vs, c') ↔ ∃ items text, items.length = n ∧
      vs = done.reverse ++ items ∧ c.Passes text c' ∧ FillsItems codecs s slot items text := by
  induction n generalizing done c with
  | zero =>
    simp only [readTimes, Except.ok.injEq, Prod.mk.injEq]
    constructor
    · rintro ⟨rfl, rfl⟩
      exact ⟨[], [], rfl, (List.append_nil _).symm, passes_nil.2 rfl, .nil⟩
    · rintro ⟨items, text, none, rfl, passes, all⟩
      cases List.eq_nil_of_length_eq_zero none
      cases all
      exact ⟨(List.append_nil _).symm, (passes_nil.1 passes).symm⟩
  | succ n ih =>
    have others (v : Value) (c₁ : Cursor) := @ih (v :: done) c₁ fun _ => reads (Nat.succ_pos n)
    simp only [readTimes, bind_eq_ok, Prod.exists, reads (Nat.succ_pos n), others]
    constructor
    · rintro ⟨v, c₁, ⟨text, passes, fills⟩, items, texts, rfl, rfl, passes', all⟩
      exact ⟨v :: items, _, rfl, by simp, passes.trans passes', .cons fills all⟩
    · rintro ⟨items, text, length, rfl, passes, all⟩
      cases all with
      | nil => cases length
      | cons fills all =>
        obtain ⟨c₁, passes, passes'⟩ := passes_append.1 passes
        exact ⟨_, c₁, ⟨_, passes, fills⟩, _, _, by simpa using length, by simp, passes', all⟩

theorem readCount_eq {occurs : Nat} {c : Cursor} : readCount occurs c = (do
    let (text, after) ← (c.take (Decimal.digitCount occurs)).require
    match (Decimal.readDigits text).filter (· ≤ maxWord) with
    | none => .error (.malformedPayload c.position (.invalidCount text))
    | some count =>
      if occurs < count then .error (.malformedPayload c.position (.countExceeds count occurs))
      else .ok (count, after)) := rfl

/-- A number is counted if there are slots enough, and hence if it is a word. -/
theorem counted_eq_ok {ε α : Type} {occurs : Nat} (word : occurs ≤ maxWord) {text : List Char}
    {e : ε} {e' : Nat → ε} {a : Nat → α} {b : α} :
    (match (Decimal.readDigits text).filter (· ≤ maxWord) with
      | none => .error e
      | some count => if occurs < count then .error (e' count) else .ok (a count) : Except ε α) =
        .ok b ↔
      ∃ count, count ≤ occurs ∧ Decimal.Denotes text count ∧ a count = b := by
  simp only [Decimal.denotes_iff_readDigits]
  split
  next h =>
    simp only [reduceCtorEq, false_iff, not_exists, not_and]
    intro count fits read
    simp [read] at h
    omega
  next n h =>
    obtain ⟨read, _⟩ := Option.filter_eq_some_iff.1 h
    simp only [ite_error_eq_ok, Nat.not_lt, Except.ok.injEq, read, Option.some.injEq]
    constructor
    · rintro ⟨fits, same⟩
      exact ⟨n, fits, rfl, same⟩
    · rintro ⟨_, fits, rfl, same⟩
      exact ⟨fits, same⟩

theorem readCount_ok {occurs count : Nat} {c c' : Cursor} (word : occurs ≤ maxWord) :
    readCount occurs c = .ok (count, c') ↔ count ≤ occurs ∧ ∃ text,
      text.length = Decimal.digitCount occurs ∧ Decimal.Denotes text count ∧ c.Passes text c' := by
  simp only [readCount_eq, bind_eq_ok, Prod.exists, take_ok, counted_eq_ok word, Prod.mk.injEq]
  constructor
  · rintro ⟨text, c₁, ⟨length, passes⟩, _, fits, denotes, rfl, rfl⟩
    exact ⟨fits, text, length, denotes, passes⟩
  · rintro ⟨fits, text, length, denotes, passes⟩
    exact ⟨text, c', ⟨length, passes⟩, count, fits, denotes, rfl, rfl⟩

theorem readMembers_ok {members : List Schema} {mappers : List Mapper}
    (each : List.Forall₂ (fun s m => m.name = s.name ∧ ReadsSlots codecs l s m) members mappers)
    {slots : List Layout}
    (spelled : List.Forall₂ (fun s slot => ∃ header, Spells codecs l s slot header) members slots)
    (narrow : Layout.exactWidths slots < UInt64.size) {c c' : Cursor}
    {entries : List (String × Value)} :
    readMembers mappers slots c = .ok (entries, c') ↔
      ∃ text, c.Passes text c' ∧ FillsMembers codecs members slots entries text := by
  induction each generalizing slots c c' entries with
  | nil =>
    cases spelled
    simp only [readMembers, Except.ok.injEq, Prod.mk.injEq]
    constructor
    · rintro ⟨rfl, rfl⟩
      exact ⟨[], passes_nil.2 rfl, .nil⟩
    · rintro ⟨text, passes, fills⟩
      cases fills
      exact ⟨rfl, (passes_nil.1 passes).symm⟩
  | cons first _ ih =>
    obtain ⟨name, reads⟩ := first
    cases spelled with
    | cons header spelled =>
      obtain ⟨header, spells⟩ := header
      rw [Layout.exactWidths] at narrow
      have others := @ih _ spelled (Nat.lt_of_le_of_lt (Nat.le_add_left _ _) narrow)
      simp only [readMembers, bind_eq_ok, Prod.exists, others, Except.ok.injEq, Prod.mk.injEq, name,
        reads _ _ spells (Nat.lt_of_le_of_lt (Nat.le_add_right _ _) narrow)]
      constructor
      · rintro ⟨v, c₁, ⟨text, passes, fills⟩, rest, c₂, ⟨texts, passes', all⟩, rfl, rfl⟩
        exact ⟨_, passes.trans passes', .cons fills all⟩
      · rintro ⟨_, passes, fills⟩
        cases fills with
        | cons fills all =>
          obtain ⟨c₁, passes, passes'⟩ := passes_append.1 passes
          exact ⟨_, c₁, ⟨_, passes, fills⟩, _, c', ⟨_, passes', all⟩, rfl, rfl⟩

theorem read_leaf_ok {node : Node} {kind : Kind} {codec : Codec} {width : Nat} {v : Value}
    {c c' : Cursor} : (leaf node kind codec).read (.leaf width) c = .ok (v, c') ↔
      ∃ slot, slot.length = width ∧ c.Passes slot c' ∧
        codec.parse (slotText node codec slot) = .ok v := by
  simp only [read, bind_eq_ok, Prod.exists, take_ok, mapError_eq_ok, Except.ok.injEq,
    Prod.mk.injEq]
  constructor
  · rintro ⟨slot, _, ⟨width, passes⟩, _, parsed, rfl, rfl⟩
    exact ⟨slot, width, passes, parsed⟩
  · rintro ⟨slot, width, passes, parsed⟩
    exact ⟨slot, c', ⟨width, passes⟩, v, parsed, rfl, rfl⟩

theorem readsSlots_leaf {node : Node} {kind : Kind} {codec : Codec} (bare : node.Bare)
    (found : codecs.codec? kind = some codec) :
    ReadsSlots codecs l (.leaf node kind) (.leaf node kind codec) := by
  intro L header spells _ c v c'
  obtain ⟨_, width, _, _, _, _, _, rfl, _⟩ := (spells_leaf bare).1 spells
  simp only [read_leaf_ok, fills_leaf bare]
  constructor
  · rintro ⟨slot, rfl, passes, parses⟩
    exact ⟨slot, passes, codec, found, parses, rfl⟩
  · rintro ⟨slot, passes, codec', found', parses, width⟩
    cases found.symm.trans found'
    cases width
    exact ⟨slot, rfl, passes, parses⟩

theorem readsSlots_record {node : Node} {members declared : List Schema} {mappers : List Mapper}
    (bare : node.Bare)
    (reads : List.Forall₂ (fun s m => m.name = s.name ∧ ReadsSlots codecs l s m) members mappers) :
    ReadsSlots codecs l (.record node members) (.record node declared mappers) := by
  intro L header spells narrow c v c'
  obtain ⟨slots, _, spelled, rfl, _⟩ := (spells_record bare).1 spells
  have same : slots.length = mappers.length := spelled.each.length_eq.symm.trans reads.length_eq
  simp only [read, same, if_true, bind_eq_ok, Prod.exists, readMembers_ok reads spelled.each narrow,
    Except.ok.injEq, Prod.mk.injEq, fills_record bare]
  constructor
  · rintro ⟨entries, c₁, ⟨text, passes, fills⟩, rfl, rfl⟩
    exact ⟨text, passes, slots, entries, fills, rfl, rfl⟩
  · rintro ⟨text, passes, _, entries, fills, ⟨⟩, rfl⟩
    exact ⟨entries, c', ⟨text, passes, fills⟩, rfl, rfl⟩

theorem readsSlots_repeated (words : l.Words) {s : Schema} {element : Mapper}
    (ho : s.node.optional = false) (hr : s.node.isRepeated = true)
    (reads : ReadsSlots codecs l s.item element) : ReadsSlots codecs l s (.repeated s element) := by
  intro L header spells narrow c v c'
  obtain ⟨slot, occurs, _, _, spelled, _, within, _, rfl, _⟩ := (spells_repeated ho hr).1 spells
  have word := Nat.le_trans within words.occurs
  have inner : occurs * slot.exactWidth < UInt64.size :=
    Nat.lt_of_le_of_lt (Nat.le_add_left _ _) narrow
  -- A list without slots does not bound the width of an item, but then no item is read.
  have items (count : Nat) (fits : count ≤ occurs) (some : 0 < count) :=
    reads slot _ spelled (Nat.lt_of_le_of_lt
      (Nat.le_mul_of_pos_left _ (Nat.lt_of_lt_of_le some fits)) inner)
  simp only [read, bind_eq_ok, Prod.exists, readCount_ok word, blank_ok,
    Layout.blankWidth_sub inner, Except.ok.injEq, exists_eq_left', Prod.mk.injEq,
    fills_repeated ho hr]
  constructor
  · rintro ⟨count, c₁, ⟨fits, digits, length, denotes, counted⟩, vs, c₂, done, _, c₃, passes,
      rfl, rfl⟩
    obtain ⟨_, text, rfl, rfl, filled, all⟩ := (readTimes_ok (items count fits)).1 done
    exact ⟨_, (counted.trans filled).trans passes, slot, occurs, _, digits, text, length, denotes,
      fits, all, rfl, rfl, rfl⟩
  · rintro ⟨_, passes, _, _, vs, digits, text, length, denotes, fits, all, ⟨⟩, rfl, rfl⟩
    obtain ⟨c₂, passes, blanks⟩ := passes_append.1 passes
    obtain ⟨c₁, counted, filled⟩ := passes_append.1 passes
    exact ⟨vs.length, c₁, ⟨fits, digits, length, denotes, counted⟩, vs, c₂,
      (readTimes_ok (items _ fits)).2 ⟨vs, text, rfl, rfl, filled, all⟩, (), c', blanks, rfl, rfl⟩

theorem readsSlots_optional {s : Schema} {inner : Mapper} (ho : s.node.optional = true)
    (reads : ReadsSlots codecs l s.required inner) :
    ReadsSlots codecs l s (.optional s inner) := by
  intro L header spells narrow c v c'
  obtain ⟨slot, _, spelled, rfl, _⟩ := (spells_optional ho).1 spells
  have small : slot.exactWidth < UInt64.size := Nat.lt_of_succ_lt narrow
  have content := reads slot _ spelled small
  simp only [read, bind_eq_ok, Prod.exists, next_ok, fills_optional ho, Layout.width_eq small]
  constructor
  · rintro ⟨flag, c₁, passes, h⟩
    split at h
    next one =>
      subst one
      simp only [bind_eq_ok, Prod.exists, content, Except.ok.injEq, Prod.mk.injEq] at h
      obtain ⟨w, c₂, ⟨text, filled, fills⟩, rfl, rfl⟩ := h
      exact ⟨_, passes.trans filled, slot, rfl, .inr ⟨w, text, fills, rfl, rfl⟩⟩
    · split at h
      next zero =>
        subst zero
        simp only [bind_eq_ok, Prod.exists, blank_ok, Except.ok.injEq, Prod.mk.injEq] at h
        obtain ⟨_, c₂, blanks, rfl, rfl⟩ := h
        exact ⟨_, passes.trans blanks, slot, rfl, .inl ⟨rfl, rfl⟩⟩
      · cases h
  · rintro ⟨_, passes, _, ⟨⟩, ⟨rfl, rfl⟩ | ⟨w, text, fills, rfl, rfl⟩⟩
    · obtain ⟨c₁, flag, blanks⟩ := passes_cons.1 passes
      refine ⟨'0', c₁, flag, ?_⟩
      simp only [Char.reduceEq, if_false, if_true, bind_eq_ok, Prod.exists, blank_ok]
      exact ⟨(), c', blanks, rfl⟩
    · obtain ⟨c₁, flag, filled⟩ := passes_cons.1 passes
      refine ⟨'1', c₁, flag, ?_⟩
      simp only [if_true, bind_eq_ok, Prod.exists, content]
      exact ⟨w, c', ⟨text, filled, fills⟩, rfl⟩

/-- Reading slots passes exactly the texts that fill them. -/
theorem read_ok (words : l.Words) {s : Schema} {m : Mapper}
    (assembled : codecs.assemble s = .ok m) : ReadsSlots codecs l s m :=
  CodecTable.byMapper readsSlots_leaf readsSlots_record (readsSlots_repeated words)
    readsSlots_optional assembled

end Slots

/-! ## Whole texts -/

section Decode

theorem checkWidth_ok {expected : Nat} {c : Cursor} {u : Unit} :
    checkWidth expected c = .ok u ↔ c.remaining = expected := by
  unfold checkWidth
  rw [ite_error_eq_ok, ite_error_eq_ok]
  constructor
  · rintro ⟨enough, exact, _⟩
    omega
  · rintro rfl
    exact ⟨Nat.lt_irrefl _, Nat.lt_irrefl _, rfl⟩

theorem finish_ok {c : Cursor} {u : Unit} : c.finish = .ok u ↔ c.rest = [] := by
  simp [Cursor.finish, Cursor.atEnd]

variable {codecs : CodecTable} {l : Limits} {s : Schema} {m : Mapper}

/-- Slots within the length limit are counted exactly. -/
theorem exactWidth_lt_of_short (words : l.Words) {L : Layout} {v : Value}
    {header slots : List Char} (fills : Fills codecs s L v slots)
    (short : (header ++ slots).length ≤ l.maxPayloadLen) : L.exactWidth < UInt64.size := by
  have length := fills.length
  have word := words.payloadLen
  have last : maxWord = UInt64.size - 1 := rfl
  have size : 0 < UInt64.size := by decide
  rw [List.length_append] at short
  omega

/-- A decoder accepts a header and slots that fill its layout, and nothing else. -/
theorem decode_ok (words : l.Words) (proper : s.WellFormed) (assembled : codecs.assemble s = .ok m)
    {t : List Char} {v : Value} :
    m.decode l t = .ok v ↔ t.length ≤ l.maxPayloadLen ∧ ∃ header slots L,
      t = header ++ slots ∧ Spells codecs l s L header ∧ Fills codecs s L v slots := by
  have headers := readHeader_ok words proper assembled
  simp only [decode, bind_eq_ok, Prod.exists, checkLimit_ok, checkWidth_ok, finish_ok,
    headers _ _ _, Except.ok.injEq]
  constructor
  · rintro ⟨_, within, L, c, ⟨header, passes, spells⟩, _, width, w, c', read, _, ends, rfl⟩
    have text : t = header ++ c.rest := passes.1
    have narrow : L.width < maxWord := by
      have some := List.length_pos_iff.2 spells.ne_nil
      have split := congrArg List.length text
      have short := words.payloadLen
      rw [List.length_append] at split
      have rest : c.rest.length = L.width := width
      omega
    have exact : L.exactWidth < UInt64.size :=
      Layout.exactWidth_eq narrow ▸ Nat.lt_of_lt_of_le narrow (Nat.sub_le _ _)
    obtain ⟨slots, filled, fills⟩ := (read_ok words assembled L header spells exact _ _ _).1 read
    refine ⟨within, header, slots, L, ?_, spells, fills⟩
    rw [text, filled.1, ends, List.append_nil]
  · rintro ⟨within, header, slots, L, rfl, spells, fills⟩
    have length := fills.length
    have narrow := exactWidth_lt_of_short words fills within
    have passes : (Cursor.ofText (header ++ slots)).Passes header ⟨slots, header.length⟩ :=
      ⟨rfl, (Nat.zero_add _).symm⟩
    have filled : (⟨slots, header.length⟩ : Cursor).Passes slots
        ⟨[], header.length + slots.length⟩ := ⟨(List.append_nil _).symm, rfl⟩
    refine ⟨(), within, L, _, ⟨header, passes, spells⟩, (), ?_, v, _,
      (read_ok words assembled L header spells narrow _ _ _).2 ⟨slots, filled, fills⟩, (), rfl, rfl⟩
    rw [Layout.width_eq narrow]
    exact length

end Decode

end Mapper

namespace Sample

/-- A value of the sample, and a payload of it whose header has superfluous zeros and room for one
more tag. -/
def ada : Value :=
  .record [("name", .atom (.string "Ada")), ("tags", .present (.list [.atom (.u8 7)]))]

def text : List Char := "\x7bname:string(5);tags:u8(03)[2]?\x7dAda  11  7   ".toList

end Sample

namespace Factory

/-- The mapper of a schema that a reader returns decodes exactly the texts of the schema's grammar,
within limits. -/
theorem decode_iff_grammar {past : List Schema} {s : Schema} (readable : s.Readable)
    (distinct : Fingerprint.Identifies (past ++ [s])) {kept : Kept Mapper}
    (accepted : ((after [] past).create s).1 = .ok kept) {l : Limits} (words : l.Words)
    (t : List Char) (v : Value) :
    kept.value.decode l t = .ok v ↔ t.length ≤ l.maxPayloadLen ∧ ∃ header slots L,
      t = header ++ slots ∧ Spells [] l s L header ∧ Fills [] s L v slots :=
  Mapper.decode_ok words readable.wellFormed (create_assembles distinct accepted)

theorem decode_iff_grammar_person : ∃ kept, ((after [] []).create Sample.person).1 = .ok kept ∧
    kept.value.decode .standard Sample.text = .ok Sample.ada ∧
    Sample.text.length ≤ Limits.standard.maxPayloadLen ∧ ∃ header slots L,
      Sample.text = header ++ slots ∧ Spells [] .standard Sample.person L header ∧
        Fills [] Sample.person L Sample.ada slots := by
  obtain ⟨kept, accepted, made⟩ := create_ok [] Sample.distinct_person Sample.assemble_person
  have decoded : kept.value.decode .standard Sample.text = .ok Sample.ada := by
    rw [made]
    cbv
  exact ⟨kept, accepted, decoded, (decode_iff_grammar Sample.readable_person
    Sample.distinct_person accepted Limits.words_standard _ _).1 decoded⟩

end Factory

end Slotform
