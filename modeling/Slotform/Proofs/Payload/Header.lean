import Slotform.Payload.Header
import Slotform.Proofs.Payload.Decoding
import Slotform.Proofs.Payload.HeaderView

/-!
# Headers read without their schema

A header that the grammar spells for a schema is read as the view of the schema, with the same
layout. Members end at a semicolon or a brace. The root ends where its payload begins, and of the
readings that the payload may suggest the right one is chosen, unless the root has no suffix of its
own and the payload reads as a list without slots (`ReadsAsEmpty`).
-/

namespace Slotform

namespace Schema

variable {s : Schema} {name : String}

@[simp] theorem item_item : s.item.item = s.item := by cases s <;> rfl

@[simp] theorem depth_item : s.item.depth = s.depth := depth_mapNode _

@[simp] theorem depth_required : s.required.depth = s.depth := depth_mapNode _

/-- A view forgets everything that items forget but the wrappers. -/
theorem headerView_item (bare : s.node.Bare) : s.item.headerView name = s.headerView name := by
  have single : s.node.cardinality = .single := by
    cases h : s.node.cardinality with
    | single => rfl
    | repeated => exact absurd (decide_eq_true h) bare.not_repeated
  have required := bare.1
  cases s with
  | leaf node kind =>
    have single : node.cardinality = .single := single
    have required : node.optional = false := required
    simp only [item, mapNode, headerView, Node.headerView, Node.item, single, required]
  | record node members =>
    have single : node.cardinality = .single := single
    have required : node.optional = false := required
    simp only [item, mapNode, headerView, Node.headerView, Node.item, single, required]

theorem headerView_repeated (ho : s.node.optional = false) (hr : s.node.isRepeated = true) :
    (s.item.headerView name).repeated = s.headerView name := by
  have many : s.node.cardinality = .repeated := of_decide_eq_true hr
  cases s with
  | leaf node kind =>
    have many : node.cardinality = .repeated := many
    have required : node.optional = false := ho
    simp only [item, mapNode, headerView, Node.headerView, Node.item, repeated, many, required]
  | record node members =>
    have many : node.cardinality = .repeated := many
    have required : node.optional = false := ho
    simp only [item, mapNode, headerView, Node.headerView, Node.item, repeated, many, required]

theorem headerView_optional (ho : s.node.optional = true) :
    (s.required.headerView name).optional = s.headerView name := by
  cases s with
  | leaf node kind =>
    have optional : node.optional = true := ho
    simp only [required, mapNode, headerView, Node.headerView, Node.required, Schema.optional,
      optional]
  | record node members =>
    have optional : node.optional = true := ho
    simp only [required, mapNode, headerView, Node.headerView, Node.required, Schema.optional,
      optional]

end Schema

/-! ## Suffixes -/

namespace Header

variable {codecs : CodecTable} {l : Limits} {s : Schema}

def markText (optional : Bool) : List Char := if optional then ['?'] else []

/-- The text of an occurrence number, if there is one. -/
inductive SpellsOccurs (l : Limits) : Option Nat → List Char → Prop where
  | none : SpellsOccurs l none []
  | some {n : Nat} {digits : List Char} : Decimal.Denotes digits n → n ≤ l.maxOccurs →
      SpellsOccurs l (some n) ('[' :: digits ++ [']'])

end Header

open Header

theorem Spells.item_of_bare {codecs : CodecTable} {l : Limits} {s : Schema} {L : Layout}
    {text : List Char} (bare : s.node.Bare) (h : Spells codecs l s L text) :
    Spells codecs l s.item L text := by
  cases s with
  | leaf node kind =>
    obtain ⟨codec, width, digits, found, denotes, within, fixed, rfl, rfl⟩ := (spells_leaf bare).1 h
    exact .leaf node.bare_item found denotes within fixed
  | record node members =>
    obtain ⟨slots, inside, all, rfl, rfl⟩ := (spells_record bare).1 h
    exact .record node.bare_item all

theorem Spells.split_required {codecs : CodecTable} {l : Limits} {s : Schema} {L : Layout}
    {text : List Char} (ho : s.node.optional = false) (h : Spells codecs l s L text) :
    ∃ slot inner occurs suffix, Spells codecs l s.item slot inner ∧
      SpellsOccurs l occurs suffix ∧ occurs.isSome = s.node.isRepeated ∧ text = inner ++ suffix ∧
      ∀ name, wrap (s.item.headerView name, slot) occurs false = (s.headerView name, L) := by
  cases hr : s.node.isRepeated with
  | false =>
    refine ⟨L, text, none, [], h.item_of_bare ⟨ho, hr⟩, .none, rfl, (List.append_nil _).symm, ?_⟩
    intro name
    rw [Schema.headerView_item ⟨ho, hr⟩]
    rfl
  | true =>
    obtain ⟨slot, occurs, inner, digits, spells, denotes, within, _, rfl, rfl⟩ :=
      (spells_repeated ho hr).1 h
    refine ⟨slot, inner, some occurs, _, spells, .some denotes within, rfl, rfl, fun name => ?_⟩
    rw [← Schema.headerView_repeated ho hr]
    rfl

/-- A header is that of an item with suffixes behind it. -/
theorem Spells.split {codecs : CodecTable} {l : Limits} {s : Schema} {L : Layout}
    {text : List Char} (h : Spells codecs l s L text) :
    ∃ slot inner occurs suffix, Spells codecs l s.item slot inner ∧
      SpellsOccurs l occurs suffix ∧ occurs.isSome = s.node.isRepeated ∧
      text = inner ++ (suffix ++ markText s.node.optional) ∧
      ∀ name, wrap (s.item.headerView name, slot) occurs s.node.optional =
        (s.headerView name, L) := by
  cases ho : s.node.optional with
  | false =>
    obtain ⟨slot, inner, occurs, suffix, spells, number, some, rfl, wrapped⟩ := h.split_required ho
    exact ⟨slot, inner, occurs, suffix, spells, number, some, by simp [markText], wrapped⟩
  | true =>
    obtain ⟨slot', text, required, rfl, rfl⟩ := (spells_optional ho).1 h
    obtain ⟨slot, inner, occurs, suffix, spells, number, some, rfl, wrapped⟩ :=
      required.split_required (by simp)
    rw [Schema.item_required] at spells wrapped
    refine ⟨slot, inner, occurs, suffix, spells, number, ?_, ?_, fun name => ?_⟩
    · rw [some, Schema.node_required]
      rfl
    · simp [markText]
    · have inside := wrapped name
      rw [← Schema.headerView_optional ho]
      unfold wrap at inside ⊢
      simp only [Bool.false_eq_true, if_false] at inside
      simp only [if_true, inside]

namespace Header

open Cursor

variable {codecs : CodecTable} {l : Limits} {s : Schema}

theorem readSuffix_ok (words : l.Words) {c c' : Cursor} {occurs : Option Nat}
    {suffix : List Char} (number : SpellsOccurs l occurs suffix) (passes : c.Passes suffix c')
    (ends : occurs = none → c'.peek? ≠ some '[') : readSuffix l c = .ok (occurs, c') := by
  cases number with
  | none =>
    cases passes_nil.1 passes
    exact if_neg (ends rfl)
  | @some n digits denotes within =>
    have read := Mapper.readOccurs_ok.2
      ⟨Nat.le_trans within words.occurs, digits, denotes, passes⟩
    have checked : Mapper.checkLimit .occurrences n l.maxOccurs = .ok () :=
      Mapper.checkLimit_ok.2 within
    rw [readSuffix, if_pos passes.peek?, read]
    simp only [bind, Except.bind, checked]

theorem readMark_eq {c c' : Cursor} {optional : Bool} (passes : c.Passes (markText optional) c')
    (ends : optional = false → c'.peek? ≠ some '?') : readMark c = (optional, c') := by
  cases optional with
  | false =>
    cases passes_nil.1 passes
    exact if_neg (ends rfl)
  | true =>
    obtain ⟨mark, rfl⟩ := passes_singleton.1 passes
    exact if_pos mark

/-! ## Items and members -/

/-- An item's header is read as the view of the item. -/
def ReadsItem (codecs : CodecTable) (l : Limits) (s : Schema) : Prop :=
  ∀ name allowance c c' slot text, s.depth < allowance → Spells codecs l s.item slot text →
    c.Passes text c' → readItem l allowance name c = .ok ((s.item.headerView name, slot), c')

def readWrapped (limits : Limits) (allowance : Nat) (name : String) (c : Cursor) :
    Except PayloadError (Item × Cursor) := do
  let (item, c) ← readItem limits allowance name c
  let (occurs, c) ← readSuffix limits c
  let (optional, c) := readMark c
  .ok (wrap item occurs optional, c)

theorem readWrapped_ok (words : l.Words) (reads : ReadsItem codecs l s) (name : String)
    {allowance : Nat} (deep : s.depth < allowance) {L : Layout} {text : List Char}
    (spells : Spells codecs l s L text) {c c' : Cursor} (passes : c.Passes text c')
    (ends : c'.peek? ≠ some '[' ∧ c'.peek? ≠ some '?') :
    readWrapped l allowance name c = .ok ((s.headerView name, L), c') := by
  obtain ⟨slot, inner, occurs, suffix, inside, number, _, rfl, wrapped⟩ := spells.split
  obtain ⟨c₁, passes, behind⟩ := passes_append.1 passes
  obtain ⟨c₂, before, mark⟩ := passes_append.1 behind
  have item := reads name allowance c c₁ slot inner deep inside passes
  have unmarked : c₂.peek? ≠ some '[' := by
    cases optional : s.node.optional with
    | false =>
      rw [optional] at mark
      cases passes_nil.1 mark
      exact ends.1
    | true =>
      rw [optional] at mark
      rw [Passes.peek? mark]
      decide
  have found := readSuffix_ok words number before fun _ => unmarked
  rw [readWrapped, item]
  simp only [bind, Except.bind, found, readMark_eq mark fun _ => ends.2, wrapped name]

theorem readLeaf_ok (words : l.Words) {node : Node} {kind : Kind} (bare : node.Bare)
    (proper : kind.Proper) {name : String} {L : Layout} {text : List Char}
    (spells : Spells codecs l (.leaf node kind) L text) {c c' : Cursor} (passes : c.Passes text c') :
    readLeaf l name c = .ok ((.ofKind name kind, L), c') := by
  obtain ⟨codec, width, digits, _, denotes, within, _, rfl, rfl⟩ := (spells_leaf bare).1 spells
  obtain ⟨named, passes⟩ := (passes_named proper.isNameChar (by decide)).1 passes
  have read := Mapper.readWidth_ok.2
    ⟨Nat.le_trans within words.width, digits, denotes, passes⟩
  have checked : Mapper.checkLimit .leafWidth width l.maxWidth = .ok () :=
    Mapper.checkLimit_ok.2 within
  rw [readLeaf]
  dsimp only
  rw [named, if_neg (by simpa using proper.name_ne_nil), read]
  simp only [bind, Except.bind, checked, String.ofList_toList, proper.ofName_name]

theorem SpellsMembers.length_le {members : List Schema} {slots : List Layout} {text : List Char}
    (h : SpellsMembers codecs l members slots text) : members.length ≤ text.length := by
  induction members generalizing slots text with
  | nil => exact Nat.zero_le _
  | cons m rest ih =>
    cases h with
    | last =>
      simp only [List.length_append, List.length_cons, List.length_nil]
      omega
    | more _ others =>
      have counted := ih others
      simp only [List.length_append, List.length_cons]
      omega

/-- Behind a new name and a colon stands what is read as the member. -/
theorem readMembers_named {m : Schema} (name : nameFault? m.name = none) {earlier : List String}
    (fresh : m.name ∉ earlier) {text : List Char} {c c' : Cursor}
    (passes : c.Passes (m.name.toList ++ ':' :: text) c') (bound : Nat) :
    ∃ c₁ : Cursor, c₁.Passes text c' ∧ ∀ read, readMembers read (bound + 1) earlier c = (do
      let (member, c) ← read m.name c₁
      if c.peek? = some ';' then
        let (rest, c) ← readMembers read bound (m.name :: earlier) (c.skip 1)
        .ok (member :: rest, c)
      else .ok ([member], c)) := by
  obtain ⟨nonempty, proper⟩ := name_of_nameFault? name
  obtain ⟨named, passes⟩ := (passes_named proper (by decide)).1 passes
  obtain ⟨c₁, colon, passes⟩ := passes_cons.1 passes
  refine ⟨c₁, passes, fun read => ?_⟩
  rw [readMembers]
  dsimp only
  rw [named, if_neg (by simpa using nonempty), String.ofList_toList, if_neg (by simpa using fresh),
    expect_ok (u := ()) |>.2 colon]
  rfl

/-- One member is read up to the semicolon or the brace behind it. -/
theorem readMembers_cons (words : l.Words) {m : Schema} (reads : ReadsItem codecs l m)
    {allowance : Nat} (deep : m.depth < allowance) (name : nameFault? m.name = none)
    {earlier : List String} (fresh : m.name ∉ earlier) {slot : Layout} {text : List Char}
    (spells : Spells codecs l m slot text) (bound : Nat) {c c' : Cursor}
    (passes : c.Passes (m.name.toList ++ ':' :: text) c')
    (ends : c'.peek? ≠ some '[' ∧ c'.peek? ≠ some '?') :
    readMembers (readWrapped l allowance) (bound + 1) earlier c =
      if c'.peek? = some ';' then do
        let (rest, c) ← readMembers (readWrapped l allowance) bound (m.name :: earlier) (c'.skip 1)
        .ok ((m.headerView m.name, slot) :: rest, c)
      else .ok ([(m.headerView m.name, slot)], c') := by
  obtain ⟨c₁, passes, behind⟩ := readMembers_named name fresh passes bound
  have read := readWrapped_ok words reads m.name deep spells passes ends
  rw [behind, read]
  rfl

/-- Members can be told apart by their names, also from earlier ones. -/
structure NewNames (earlier : List String) (members : List Schema) : Prop where
  valid : ∀ m ∈ members, nameFault? m.name = none
  nodup : (members.map Schema.name).Nodup
  fresh : ∀ m ∈ members, m.name ∉ earlier

theorem NewNames.start {members : List Schema} (valid : ∀ m ∈ members, nameFault? m.name = none)
    (nodup : (members.map Schema.name).Nodup) : NewNames [] members :=
  ⟨valid, nodup, fun _ _ => List.not_mem_nil⟩

theorem NewNames.tail {earlier : List String} {m : Schema} {rest : List Schema}
    (names : NewNames earlier (m :: rest)) : NewNames (m.name :: earlier) rest := by
  have distinct := names.nodup
  rw [List.map_cons, List.nodup_cons] at distinct
  refine ⟨fun n hn => names.valid n (List.mem_cons_of_mem _ hn), distinct.2, fun n hn => ?_⟩
  rw [List.mem_cons, not_or]
  refine ⟨?_, names.fresh n (List.mem_cons_of_mem _ hn)⟩
  intro same
  exact distinct.1 (List.mem_map.2 ⟨n, hn, same⟩)

/-- The text of several members is that of the first, a semicolon and that of the others. -/
theorem passes_member {name text texts : List Char} {c c' : Cursor}
    (passes : c.Passes (name ++ ':' :: (text ++ ';' :: texts)) c') :
    ∃ c₁, c.Passes (name ++ ':' :: text) c₁ ∧ c₁.peek? = some ';' ∧
      (c₁.skip 1).Passes texts c' := by
  rw [← List.cons_append, ← List.append_assoc] at passes
  obtain ⟨c₁, before, behind⟩ := passes_append.1 passes
  obtain ⟨c₂, semicolon, behind⟩ := passes_cons.1 behind
  obtain ⟨peek, rfl⟩ := passes_singleton.1 semicolon
  exact ⟨c₁, before, peek, behind⟩

theorem readMembers_ok (words : l.Words) {allowance : Nat} {members : List Schema}
    {slots : List Layout} {text : List Char} (spells : SpellsMembers codecs l members slots text)
    (reads : ∀ m ∈ members, ReadsItem codecs l m ∧ m.depth < allowance)
    {earlier : List String} (names : NewNames earlier members) {bound : Nat}
    (enough : members.length ≤ bound) {c c' : Cursor} (passes : c.Passes text c')
    (ends : c'.peek? = some '\x7d') :
    ∃ items, readMembers (readWrapped l allowance) bound earlier c = .ok (items, c') ∧
      items.map (·.1) = Schema.headerViews members ∧ items.map (·.2) = slots := by
  induction members generalizing slots text earlier bound c with
  | nil => cases spells
  | cons m rest ih =>
    cases bound with
    | zero => cases enough
    | succ bound =>
      obtain ⟨item, deep⟩ := reads m List.mem_cons_self
      have name := names.valid m List.mem_cons_self
      have new := names.fresh m List.mem_cons_self
      cases spells with
      | last spells =>
        have read := readMembers_cons words item deep name new spells bound passes
          (by rw [ends]; decide)
        rw [ends, if_neg (by decide)] at read
        exact ⟨_, read, rfl, rfl⟩
      | more spells others =>
        obtain ⟨c₁, passes, semicolon, behind⟩ := passes_member passes
        obtain ⟨items, read', views, slots⟩ := ih others
          (fun n hn => reads n (List.mem_cons_of_mem _ hn)) names.tail
          (Nat.le_of_succ_le_succ enough) behind
        have read := readMembers_cons words item deep name new spells bound passes
          (by rw [semicolon]; decide)
        rw [semicolon, if_pos rfl, read'] at read
        refine ⟨_, read, ?_, ?_⟩
        · rw [List.map_cons, views, Schema.headerViews]
        · rw [List.map_cons, slots]

theorem readItem_record {name : String} {allowance : Nat} {c : Cursor}
    (opened : c.peek? = some '\x7b') :
    readItem l (allowance + 1) name c = (do
      let (items, c) ← readMembers (readWrapped l allowance) c.remaining [] (c.skip 1)
      let ((), c) ← (c.expect '\x7d').require
      .ok ((.ofMembers name name (items.map (·.1)), .record (items.map (·.2))), c)) := by
  rw [readItem, if_pos opened]
  rfl

theorem readsItem_leaf (words : l.Words) {node : Node} {kind : Kind} (proper : kind.Proper) :
    ReadsItem codecs l (.leaf node kind) := by
  intro name allowance c c' slot text deep spells passes
  have unopened : c.peek? ≠ some '\x7b' := by
    obtain ⟨_, _, digits, _, _, _, _, _, rfl⟩ := (spells_leaf node.bare_item).1 spells
    obtain ⟨x, rest, spelled⟩ := List.exists_cons_of_ne_nil proper.name_ne_nil
    have hx : isNameChar x = true := proper.isNameChar x (spelled ▸ List.mem_cons_self)
    rw [spelled] at passes
    rw [Passes.peek? passes]
    rintro ⟨⟩
    exact absurd hx (by decide)
  cases allowance with
  | zero => cases deep
  | succ allowance =>
    rw [readItem, if_neg unopened]
    exact readLeaf_ok words node.bare_item proper spells passes

/-- The text of a record is that of its members between braces, which has characters for each of
them. -/
theorem passes_record {members : List Schema} {slots : List Layout} {inside : List Char}
    (all : SpellsMembers codecs l members slots inside) {c c' : Cursor}
    (passes : c.Passes ('\x7b' :: inside ++ ['\x7d']) c') :
    c.peek? = some '\x7b' ∧ members.length ≤ c.remaining ∧
      ∃ c₁, (c.skip 1).Passes inside c₁ ∧ c₁.Passes ['\x7d'] c' := by
  have short := SpellsMembers.length_le all
  have taken := Passes.remaining passes
  obtain ⟨c₁, opened, passes⟩ := passes_cons.1 passes
  obtain ⟨c₂, passes, closed⟩ := passes_append.1 passes
  obtain ⟨brace, rfl⟩ := passes_singleton.1 opened
  refine ⟨brace, ?_, c₂, passes, closed⟩
  rw [List.length_append, List.length_cons] at taken
  omega

theorem readsItem_record (words : l.Words) {node : Node} {members : List Schema}
    (names : NewNames [] members) (items : ∀ m ∈ members, ReadsItem codecs l m) :
    ReadsItem codecs l (.record node members) := by
  intro name allowance c c' slot text deep spells passes
  obtain ⟨slots, inside, all, rfl, rfl⟩ := (spells_record node.bare_item).1 spells
  obtain ⟨brace, enough, c₁, passes, closed⟩ := passes_record all passes
  cases allowance with
  | zero => cases deep
  | succ allowance =>
    have reads : ∀ m ∈ members, ReadsItem codecs l m ∧ m.depth < allowance := fun m hm =>
      ⟨items m hm, Schema.depth_record_lt.1 deep m hm⟩
    obtain ⟨found, read, views, layouts⟩ :=
      readMembers_ok words all reads names enough passes closed.peek?
    rw [readItem_record brace, read]
    simp only [bind, Except.bind, expect_ok (u := ()) |>.2 closed, views, layouts]
    rfl

/-- The header of an item is read as its view, within the limit on nesting. -/
theorem readItem_ok (words : l.Words) (proper : s.WellFormed) : ReadsItem codecs l s := by
  induction s using Schema.byViews with
  | leaf node kind bare =>
    cases proper with
    | leaf proper => exact readsItem_leaf words proper
  | record node members bare ih =>
    cases proper with
    | record some names nodup each =>
      exact readsItem_record words (.start names nodup) fun m hm => ih m hm (each m hm)
  | repeated s ho hr ih =>
    have reads := ih proper.item
    unfold ReadsItem at reads ⊢
    simpa using reads
  | optional s ho ih =>
    have reads := ih proper.required
    unfold ReadsItem at reads ⊢
    simpa [Schema.item_required] using reads

/-! ## The root -/

/-- Of the readings of a root, the last that fits is chosen. -/
theorem choose_eq {item : Item} {plain r : Reading} {suffixed after : List Reading}
    (before : List Reading) (all : plain :: suffixed = before ++ r :: after)
    (fits : r.fits item = true) (others : ∀ r' ∈ after, r'.fits item = false) :
    choose item plain suffixed = r := by
  have none : after.reverse.find? (·.fits item) = none := by
    rw [List.find?_eq_none]
    intro r' h
    simp [others r' (List.mem_reverse.1 h)]
  rw [choose, all, List.reverse_append, List.reverse_cons, List.append_assoc, List.find?_append,
    none, Option.none_or, List.cons_append, List.nil_append, List.find?_cons, fits]
  rfl

/-- The longest reading is chosen if it fits. -/
theorem choose_last {item : Item} {plain r : Reading} {suffixed : List Reading}
    (before : List Reading) (all : plain :: suffixed = before ++ [r])
    (fits : r.fits item = true) : choose item plain suffixed = r :=
  choose_eq before all fits fun _ h => absurd h List.not_mem_nil

theorem suffixedReadings_number {c after : Cursor} {n : Nat}
    (h : readSuffix l c = .ok (some n, after)) :
    suffixedReadings l c = ⟨some n, false, after⟩ :: markedReading (some n) after := by
  rw [suffixedReadings, h]

theorem suffixedReadings_plain {c after : Cursor} (h : readSuffix l c = .ok (none, after)) :
    suffixedReadings l c = markedReading none c := by
  rw [suffixedReadings, h]

theorem markedReading_mark {c c' : Cursor} {occurs : Option Nat} (mark : c.Passes ['?'] c') :
    markedReading occurs c = [⟨occurs, true, c'⟩] := by
  obtain ⟨peek, rfl⟩ := passes_singleton.1 mark
  rw [markedReading, readMark, if_pos peek]

theorem markedReading_plain {c : Cursor} {occurs : Option Nat} (unmarked : c.peek? ≠ some '?') :
    markedReading occurs c = [] := by
  rw [markedReading, readMark, if_neg unmarked]

/-- A payload that begins like the suffix of a list without slots, and whose rest is as long as the
payload of such a list, or of an option of one. -/
def ReadsAsEmpty (payload : List Char) : Prop :=
  ∃ zeros rest, Decimal.Denotes zeros 0 ∧ payload = '[' :: zeros ++ ']' :: rest ∧
    (rest.length = 1 ∨ ∃ option, rest = '?' :: option ∧ option.length = 2)

theorem readSuffix_some {c after : Cursor} {n : Nat} (h : readSuffix l c = .ok (some n, after)) :
    ∃ digits, Decimal.Denotes digits n ∧ c.Passes ('[' :: digits ++ [']']) after := by
  unfold readSuffix at h
  split at h
  · simp only [bind_eq_ok, Prod.exists, Except.ok.injEq, Prod.mk.injEq, Option.some.injEq] at h
    obtain ⟨_, _, read, _, _, rfl, rfl⟩ := h
    exact (Mapper.readOccurs_ok.1 read).2
  · cases h

theorem mem_markedReading {c : Cursor} {occurs : Option Nat} {r : Reading}
    (h : r ∈ markedReading occurs c) :
    c.Passes ['?'] r.after ∧ r.occurs = occurs ∧ r.optional = true := by
  unfold markedReading readMark at h
  split at h
  next marked =>
    split at marked
    next peek =>
      cases marked
      cases List.mem_singleton.1 h
      exact ⟨passes_singleton.2 ⟨peek, rfl⟩, rfl, rfl⟩
    · cases marked
  · cases h

theorem width_repeated_zero {L : Layout} : (Layout.repeated 0 L).width = 1 := by
  have one : Decimal.digitCount 0 = 1 := rfl
  simp [Layout.width, saturatingMul, saturatingAdd, one, maxWord, UInt64.size]

theorem le_width_repeated {L : Layout} (word : L.width ≤ maxWord) {n : Nat} (some : 0 < n) :
    L.width ≤ (Layout.repeated n L).width := by
  have many : L.width ≤ n * L.width := Nat.le_mul_of_pos_left _ some
  simp only [Layout.width, saturatingMul, saturatingAdd]
  omega

/-- Behind a root without suffixes no suffix fits. -/
theorem suffixed_unfit {item : Item} (word : item.2.width ≤ maxWord) {c : Cursor}
    (width : item.2.width = c.remaining) (clear : ¬ ReadsAsEmpty c.rest) :
    ∀ r ∈ suffixedReadings l c, r.fits item = false := by
  have marked {L : Layout} : L.optional.width = min (L.width + 1) maxWord := rfl
  intro r hr
  refine decide_eq_false fun fits => ?_
  unfold suffixedReadings at hr
  split at hr
  next n after found =>
    obtain ⟨digits, denotes, passes⟩ := readSuffix_some found
    have shorter := passes.remaining
    rw [List.length_append, List.length_cons, List.length_singleton] at shorter
    have wide := le_width_repeated (n := n) word
    have text : c.rest = '[' :: digits ++ ']' :: after.rest := by
      rw [passes.1, List.append_assoc]
      rfl
    rcases List.mem_cons.1 hr with rfl | hr
    · have fits : (Layout.repeated n item.2).width = after.remaining := fits
      rcases Nat.eq_zero_or_pos n with rfl | some
      · rw [width_repeated_zero] at fits
        exact clear ⟨digits, after.rest, denotes, text, .inl fits.symm⟩
      · have := wide some
        omega
    · obtain ⟨mark, occurs, optional⟩ := mem_markedReading hr
      have shorter' := mark.remaining
      rw [occurs, optional] at fits
      have fits : (Layout.repeated n item.2).optional.width = r.after.remaining := fits
      rw [marked] at fits
      rcases Nat.eq_zero_or_pos n with rfl | some
      · rw [width_repeated_zero] at fits
        refine clear ⟨digits, after.rest, denotes, text, .inr ⟨r.after.rest, mark.1, ?_⟩⟩
        exact fits.symm
      · have := wide some
        rw [List.length_singleton] at shorter'
        omega
  · obtain ⟨mark, occurs, optional⟩ := mem_markedReading hr
    have shorter := mark.remaining
    rw [List.length_singleton] at shorter
    rw [occurs, optional] at fits
    have fits : item.2.optional.width = r.after.remaining := fits
    rw [marked] at fits
    omega

/-- The slots of a required list start with a digit. -/
theorem unmarked_of_repeated {L : Layout} {v : Value} {payload : List Char}
    (ho : s.node.optional = false) (hr : s.node.isRepeated = true)
    (fills : Fills codecs s L v payload) : payload.head? ≠ some '?' := by
  obtain ⟨_, _, _, count, _, _, denotes, _, _, _, _, rfl⟩ := (fills_repeated ho hr).1 fills
  obtain ⟨x, rest, rfl⟩ := List.exists_cons_of_ne_nil denotes.nonempty
  rintro ⟨⟩
  exact absurd (denotes.digits '?' List.mem_cons_self) (by decide)

section Root

variable {slot : Layout} {view : Schema} {occurs : Option Nat} {optional : Bool}
  {suffix : List Char} {c₁ c₂ c₃ : Cursor}

/-- The suffixes of a root are the longest that fit, whatever the payload starts with. -/
theorem choose_suffixes (words : l.Words) (number : SpellsOccurs l occurs suffix)
    (before : c₁.Passes suffix c₂) (mark : c₂.Passes (markText optional) c₃)
    (fits : (wrap (view, slot) occurs optional).2.width = c₃.remaining)
    (word : occurs = none → optional = false → slot.width ≤ maxWord)
    (digit : occurs.isSome → optional = false → c₃.peek? ≠ some '?')
    (clear : occurs = none → optional = false → ¬ ReadsAsEmpty c₃.rest) :
    choose (view, slot) (plainReading c₁) (suffixedReadings l c₁) = ⟨occurs, optional, c₃⟩ := by
  have fits : Reading.fits (view, slot) ⟨occurs, optional, c₃⟩ = true := decide_eq_true fits
  cases number with
  | none =>
    cases passes_nil.1 before
    cases optional with
    | false =>
      cases passes_nil.1 mark
      refine choose_eq [] rfl fits (suffixed_unfit (word rfl rfl) ?_ (clear rfl rfl))
      exact of_decide_eq_true fits
    | true =>
      have unnumbered : readSuffix l c₁ = .ok (none, c₁) :=
        readSuffix_ok words .none (passes_nil.2 rfl) fun _ => by
          rw [Passes.peek? mark]
          decide
      rw [suffixedReadings_plain unnumbered, markedReading_mark mark]
      exact choose_last [plainReading c₁] rfl fits
  | some denotes within =>
    have numbered := readSuffix_ok words (.some denotes within) before fun none =>
      absurd none (Option.some_ne_none _)
    rw [suffixedReadings_number numbered]
    cases optional with
    | false =>
      cases passes_nil.1 mark
      rw [markedReading_plain (digit rfl rfl)]
      exact choose_last [plainReading c₁] rfl fits
    | true =>
      rw [markedReading_mark mark]
      exact choose_last [plainReading c₁, ⟨_, false, c₂⟩] rfl fits

end Root

/-- The header at the start of a payload is read as the view of its schema, unless the root has no
suffix and its payload reads as a list without slots. -/
theorem readSchema_ok (words : l.Words) (proper : s.WellFormed) (deep : s.depth ≤ l.maxDepth)
    {L : Layout} {v : Value} {header payload : List Char} (spells : Spells codecs l s L header)
    (fills : Fills codecs s L v payload)
    (short : (header ++ payload).length ≤ l.maxPayloadLen)
    (clear : s.node.Bare → ¬ ReadsAsEmpty payload) :
    readSchema l (header ++ payload) = .ok (s.headerView rootName) := by
  have length := fills.length
  have narrow : L.exactWidth < UInt64.size := by
    have word : maxWord = UInt64.size - 1 := rfl
    have size : 0 < UInt64.size := by decide
    have bound := words.payloadLen
    rw [List.length_append] at short
    omega
  obtain ⟨slot, inner, occurs, suffix, inside, number, some, text, wrapped⟩ := spells.split
  have whole : (Cursor.ofText (header ++ payload)).Passes header ⟨payload, header.length⟩ :=
    ⟨rfl, (Nat.zero_add _).symm⟩
  rw [text] at whole
  obtain ⟨c₁, passes, behind⟩ := passes_append.1 whole
  obtain ⟨c₂, before, mark⟩ := passes_append.1 behind
  have item := readItem_ok words proper rootName (l.maxDepth + 1) _ c₁ slot inner
    (Nat.lt_succ_of_le deep) inside passes
  have word : occurs = none → s.node.optional = false → slot.width ≤ maxWord := by
    intro single required
    have same := wrapped rootName
    rw [single, required] at same
    have same : slot = L := congrArg Prod.snd same
    rw [same, Layout.width_eq narrow]
    exact Nat.le_sub_one_of_lt narrow
  have fits : (wrap (s.item.headerView rootName, slot) occurs s.node.optional).2.width =
      payload.length := by
    rw [wrapped, Layout.width_eq narrow]
    exact length.symm
  have chosen := choose_suffixes words number before mark fits word
    (fun listed required => unmarked_of_repeated required (some ▸ listed) fills)
    (fun single required => clear ⟨required, some ▸ single ▸ rfl⟩)
  have checked : Mapper.checkLimit .payloadLength (header ++ payload).length l.maxPayloadLen =
      .ok () := Mapper.checkLimit_ok.2 short
  rw [← text] at item
  simp only [readSchema, readRoot, bind, Except.bind, checked, item, chosen, wrapped]

theorem width_optional_repeated_zero {L : Layout} : (Layout.repeated 0 L).optional.width = 2 := by
  rw [Layout.width, width_repeated_zero]
  rfl

/-- The schemas that the header of a schema may be read as: its view, and what becomes of the view
when the slots read as a list without slots. -/
def readings (s : Schema) : List Schema :=
  [s.headerView rootName, (s.headerView rootName).repeated,
    (s.headerView rootName).repeated.optional]

/-- Behind the suffix of a list without slots its slots fit, or those of an option of such a list. -/
theorem choose_empty (item : Item) {c c₁ : Cursor} (numbered : readSuffix l c = .ok (some 0, c₁))
    (slots : c₁.rest.length = 1 ∨ ∃ option, c₁.rest = '?' :: option ∧ option.length = 2) :
    ∃ optional after,
      choose item (plainReading c) (suffixedReadings l c) = ⟨some 0, optional, after⟩ := by
  rw [suffixedReadings_number numbered]
  rcases slots with one | ⟨option, text, two⟩
  · refine ⟨_, _, choose_eq [plainReading c] rfl ?_ fun r hr => ?_⟩
    · exact decide_eq_true (width_repeated_zero.trans one.symm)
    · obtain ⟨mark, occurs, optional⟩ := mem_markedReading hr
      have shorter := mark.remaining
      rw [Reading.fits, occurs, optional]
      refine decide_eq_false fun fits => ?_
      have fits : (Layout.repeated 0 item.2).optional.width = r.after.remaining := fits
      rw [width_optional_repeated_zero] at fits
      have one : c₁.remaining = 1 := one
      rw [List.length_singleton] at shorter
      omega
  · have mark : c₁.Passes ['?'] ⟨option, c₁.position + 1⟩ := ⟨text, rfl⟩
    rw [markedReading_mark mark]
    refine ⟨_, _, choose_last [plainReading c, ⟨some 0, false, c₁⟩] rfl ?_⟩
    exact decide_eq_true (width_optional_repeated_zero.trans two.symm)

/-- A list out of the view of a schema, or an option of it, is one of the readings. -/
theorem wrap_mem_readings (proper : s.WellFormed) (L : Layout) (occurs : Nat) (optional : Bool) :
    let view := (wrap (s.headerView rootName, L) (some occurs) optional).1
    view ∈ readings s ∧ view.WellFormed ∧ ¬ view.node.Bare := by
  have proper : (s.headerView rootName).repeated.WellFormed :=
    Schema.wellFormed_mapNode (proper.headerView rootName)
  cases optional with
  | false =>
    have listed : (s.headerView rootName).repeated.node.isRepeated = true := by
      simp [Schema.repeated, Node.isRepeated]
    exact ⟨by simp [readings, wrap], proper, fun bare => bare.not_repeated listed⟩
  | true =>
    have optional : (s.headerView rootName).repeated.optional.node.optional = true := by
      rw [Schema.optional, Schema.node_mapNode]
    exact ⟨by simp [readings, wrap], Schema.wellFormed_mapNode proper,
      fun bare => bare.not_optional optional⟩

/-- Slots that read as a list without slots make a list out of a root that has no suffix. -/
theorem readSchema_empty (words : l.Words) (proper : s.WellFormed) (deep : s.depth ≤ l.maxDepth)
    (bare : s.node.Bare) {L : Layout} {header payload : List Char}
    (spells : Spells codecs l s L header) (short : (header ++ payload).length ≤ l.maxPayloadLen)
    (empty : ReadsAsEmpty payload) :
    ∃ view ∈ readings s, readSchema l (header ++ payload) = .ok view ∧ view.WellFormed ∧
      ¬ view.node.Bare := by
  obtain ⟨zeros, rest, denotes, rfl, slots⟩ := empty
  have whole : (Cursor.ofText (header ++ ('[' :: zeros ++ ']' :: rest))).Passes
      (header ++ ('[' :: zeros ++ [']'])) ⟨rest, (header ++ ('[' :: zeros ++ [']'])).length⟩ :=
    ⟨by simp [Cursor.ofText], (Nat.zero_add _).symm⟩
  obtain ⟨c₁, passes, before⟩ := passes_append.1 whole
  have item := readItem_ok words proper rootName (l.maxDepth + 1) _ c₁ L header
    (Nat.lt_succ_of_le deep) (spells.item_of_bare bare) passes
  rw [Schema.headerView_item bare] at item
  have numbered := readSuffix_ok words (.some denotes (Nat.zero_le _)) before fun none =>
    absurd none (Option.some_ne_none _)
  obtain ⟨optional, after, chosen⟩ := choose_empty (s.headerView rootName, L) numbered slots
  have checked : Mapper.checkLimit .payloadLength
      (header ++ ('[' :: zeros ++ ']' :: rest)).length l.maxPayloadLen = .ok () :=
    Mapper.checkLimit_ok.2 short
  have described : readSchema l (header ++ ('[' :: zeros ++ ']' :: rest)) =
      .ok (wrap (s.headerView rootName, L) (some 0) optional).1 := by
    simp only [readSchema, readRoot, bind, Except.bind, checked, item, chosen]
  obtain ⟨reading, proper', wrapped⟩ := wrap_mem_readings proper L 0 optional
  exact ⟨_, reading, described, proper', wrapped⟩

end Header

end Slotform
