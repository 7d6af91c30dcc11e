import Slotform.Proofs.Introspection.Depth
import Slotform.Proofs.Payload.Encoding
import Slotform.Proofs.Payload.Factory
import Slotform.Proofs.Payload.Header

namespace Slotform

open Header

namespace Header

open Cursor

variable {codecs : CodecTable} {l : Limits} {s : Schema}

/-- What is said of the first level that is too deep. -/
def tooDeep (l : Limits) : PayloadError := .limitExceeded .nestingDepth (l.maxDepth + 1) l.maxDepth

/-- An item's header with more levels than may be entered is refused. -/
def RefusesItem (codecs : CodecTable) (l : Limits) (s : Schema) : Prop :=
  ∀ name allowance c c' slot text, allowance ≤ s.depth → Spells codecs l s.item slot text →
    c.Passes text c' → readItem l allowance name c = .error (tooDeep l)

theorem readWrapped_deep (refuses : RefusesItem codecs l s) (name : String) {allowance : Nat}
    (deep : allowance ≤ s.depth) {L : Layout} {text : List Char} (spells : Spells codecs l s L text)
    {c c' : Cursor} (passes : c.Passes text c') :
    readWrapped l allowance name c = .error (tooDeep l) := by
  obtain ⟨slot, inner, _, _, inside, _, _, rfl, _⟩ := spells.split
  obtain ⟨c₁, passes, _⟩ := passes_append.1 passes
  rw [readWrapped, refuses name allowance c c₁ slot inner deep inside passes]
  rfl

/-- A member that is too deep ends the reading of the members. -/
theorem readMembers_deep_cons {m : Schema} (refuses : RefusesItem codecs l m) {allowance : Nat}
    (deep : allowance ≤ m.depth) (name : nameFault? m.name = none) {earlier : List String}
    (fresh : m.name ∉ earlier) {slot : Layout} {text : List Char}
    (spells : Spells codecs l m slot text) (bound : Nat) {c c' : Cursor}
    (passes : c.Passes (m.name.toList ++ ':' :: text) c') :
    readMembers (readWrapped l allowance) (bound + 1) earlier c = .error (tooDeep l) := by
  obtain ⟨c₁, passes, behind⟩ := readMembers_named name fresh passes bound
  rw [behind, readWrapped_deep refuses m.name deep spells passes]
  rfl

theorem readMembers_deep (words : l.Words) {allowance : Nat} {members : List Schema}
    {slots : List Layout} {text : List Char} (spells : SpellsMembers codecs l members slots text)
    (items : ∀ m ∈ members, ReadsItem codecs l m ∧ RefusesItem codecs l m)
    {earlier : List String} (names : NewNames earlier members) {bound : Nat}
    (enough : members.length ≤ bound) {c c' : Cursor} (passes : c.Passes text c')
    (deep : ∃ m ∈ members, allowance ≤ m.depth) :
    readMembers (readWrapped l allowance) bound earlier c = .error (tooDeep l) := by
  induction members generalizing slots text earlier bound c with
  | nil => cases spells
  | cons m rest ih =>
    cases bound with
    | zero => cases enough
    | succ bound =>
      obtain ⟨reads, refuses⟩ := items m List.mem_cons_self
      have name := names.valid m List.mem_cons_self
      have new := names.fresh m List.mem_cons_self
      by_cases here : allowance ≤ m.depth
      · cases spells with
        | last spells => exact readMembers_deep_cons refuses here name new spells bound passes
        | more spells =>
          obtain ⟨c₁, passes, _⟩ := passes_member passes
          exact readMembers_deep_cons refuses here name new spells bound passes
      · obtain ⟨n, hn, later⟩ := deep
        rcases List.mem_cons.1 hn with rfl | hn
        · exact absurd later here
        · cases spells with
          | last => cases hn
          | more spells others =>
            obtain ⟨c₁, passes, semicolon, behind⟩ := passes_member passes
            have read := readMembers_cons words reads (Nat.lt_of_not_le here) name new spells bound
              passes (by rw [semicolon]; decide)
            have refused := ih others (fun n hn => items n (List.mem_cons_of_mem _ hn)) names.tail
              (Nat.le_of_succ_le_succ enough) behind ⟨n, hn, later⟩
            rw [read, semicolon, if_pos rfl, refused]
            rfl

theorem refusesItem_record (words : l.Words) {node : Node} {members : List Schema}
    (names : NewNames [] members)
    (items : ∀ m ∈ members, ReadsItem codecs l m ∧ RefusesItem codecs l m) :
    RefusesItem codecs l (.record node members) := by
  intro name allowance c c' slot text deep spells passes
  obtain ⟨slots, inside, all, rfl, rfl⟩ := (spells_record node.bare_item).1 spells
  obtain ⟨brace, enough, c₁, passes, _⟩ := passes_record all passes
  cases allowance with
  | zero => rfl
  | succ allowance =>
    have below : ∃ m ∈ members, allowance ≤ m.depth := by
      by_contra none
      push Not at none
      exact Nat.not_lt_of_le deep (Schema.depth_record_lt.2 none)
    rw [readItem_record brace, readMembers_deep words all items names enough passes below]
    rfl

/-- The header of an item with more levels than may be entered is refused. -/
theorem readItem_deep (words : l.Words) (proper : s.WellFormed) : RefusesItem codecs l s := by
  induction s using Schema.byViews with
  | leaf node kind bare =>
    intro name allowance c c' slot text deep spells passes
    cases Nat.le_zero.1 deep
    rfl
  | record node members bare ih =>
    cases proper with
    | record some names nodup each =>
      exact refusesItem_record words (.start names nodup) fun m hm =>
        ⟨readItem_ok words (each m hm), ih m hm (each m hm)⟩
  | repeated s ho hr ih =>
    have refuses := ih proper.item
    unfold RefusesItem at refuses ⊢
    simpa using refuses
  | optional s ho ih =>
    have refuses := ih proper.required
    unfold RefusesItem at refuses ⊢
    simpa [Schema.item_required] using refuses

@[simp] theorem depth_wrap (item : Item) (occurs : Option Nat) (optional : Bool) :
    (wrap item occurs optional).1.depth = item.1.depth := by
  cases occurs <;> cases optional <;> simp [wrap, Schema.repeated, Schema.optional]

/-- A header starts with that of its item. -/
theorem exists_item {L : Layout} {header : List Char} (spells : Spells codecs l s L header)
    (payload : List Char) : ∃ slot inner c, Spells codecs l s.item slot inner ∧
      (Cursor.ofText (header ++ payload)).Passes inner c := by
  obtain ⟨slot, inner, _, suffix, inside, _, _, rfl, _⟩ := spells.split
  rw [List.append_assoc]
  exact ⟨slot, inner, ⟨_, _⟩, inside, rfl, rfl⟩

section Root

variable (words : l.Words) (proper : s.WellFormed) {L : Layout} {header payload : List Char}
  (spells : Spells codecs l s L header) (short : (header ++ payload).length ≤ l.maxPayloadLen)

include words proper spells short

/-- A header with no more levels than allowed is read, whatever stands behind it. -/
theorem readSchema_shallow (shallow : s.depth ≤ l.maxDepth) :
    ∃ view, readSchema l (header ++ payload) = .ok view ∧ view.depth = s.depth := by
  obtain ⟨slot, inner, c, inside, passes⟩ := exists_item spells payload
  have read := readItem_ok words proper rootName _ _ c slot inner (Nat.lt_succ_of_le shallow)
    inside passes
  have checked : Mapper.checkLimit .payloadLength (header ++ payload).length l.maxPayloadLen =
      .ok () := Mapper.checkLimit_ok.2 short
  simp only [readSchema, checked, readRoot, read, bind, Except.bind]
  exact ⟨_, rfl, by simp⟩

/-- A header with more levels than allowed is refused, whatever stands behind it. -/
theorem readSchema_deep (deep : l.maxDepth < s.depth) :
    readSchema l (header ++ payload) = .error (tooDeep l) := by
  obtain ⟨slot, inner, c, inside, passes⟩ := exists_item spells payload
  have refused := readItem_deep words proper rootName (l.maxDepth + 1) _ c slot inner deep
    inside passes
  have checked : Mapper.checkLimit .payloadLength (header ++ payload).length l.maxPayloadLen =
      .ok () := Mapper.checkLimit_ok.2 short
  simp only [readSchema, checked, readRoot, refused, bind, Except.bind]

end Root

end Header

namespace Reader

/-- A type that one reader reads is read by every reader of the same definitions whose limit on
nesting is as large as the schema is deep, and is too deep for every other. Whatever the schema's
mapper encodes is read without the schema under the same limits on nesting, and under no other. -/
theorem depth_limits_agree {r : Reader} (reachable : r.Reachable) {ty : Ty} {element : Option Ty}
    {kept : Kept Schema} (answer : (r.request ty element).1 = .ok kept) :
    (∀ r' : Reader, r'.Reachable → r'.registry = r.registry → r'.skip = r.skip →
      (kept.value.depth ≤ r'.limits.maxDepth →
        (r'.request ty element).1.map Kept.value = .ok kept.value) ∧
      (r'.limits.maxDepth < kept.value.depth → (r'.request ty element).1.map Kept.value =
        .error (.introspection (.tooDeep r'.limits.maxDepth)))) ∧
    ∀ (codecs : CodecTable) (past : List Schema) (made : Kept Mapper) (v : Value) (t : List Char),
      Fingerprint.Identifies (past ++ [kept.value]) →
      ((Factory.after codecs past).create kept.value).1 = .ok made →
      made.value.encode v = .ok t →
      ∀ l : Limits, l.Words → t.length ≤ l.maxPayloadLen → (made.value.measured v).Within l →
        (kept.value.depth ≤ l.maxDepth →
          ∃ view, readSchema l t = .ok view ∧ view.depth = kept.value.depth) ∧
        (l.maxDepth < kept.value.depth →
          readSchema l t = .error (.limitExceeded .nestingDepth (l.maxDepth + 1) l.maxDepth)) := by
  constructor
  · intro r' reachable' registry skip
    have limited := request_limited reachable reachable' registry skip answer
    exact ⟨fun shallow => by rw [limited, if_pos shallow],
      fun deep => by rw [limited, if_neg (Nat.not_le_of_lt deep)]⟩
  · intro codecs past made v t distinct created encoded l words short within
    have proper := Schema.Readable.wellFormed ⟨r, ty, element, kept, reachable, answer, rfl⟩
    have assembled := Factory.create_assembles distinct created
    obtain ⟨_, header, slots, written, _, rfl⟩ := Mapper.encode_ok.1 encoded
    have spells := Mapper.writeHeader_spells proper assembled _ _
      (Mapper.measured_shapes assembled v) within written
    exact ⟨readSchema_shallow words proper spells short, readSchema_deep words proper spells short⟩

end Reader

namespace Sample

/-- The sample's record is one level, under limits that the sample's values just keep to. -/
theorem depth_limits_agree_person :
    let reader : Reader := .ofRegistry people
    let allowing (maxDepth : Nat) : Limits := ⟨maxDepth, 37, 3, 1⟩
    let text := "\x7bname:string(3);tags:u8(1)[1]?\x7dAda117".toList
    (((reader.withLimits (allowing 0)).request (.named "person") none).1.map Kept.value =
        .error (.introspection (.tooDeep 0)) ∧
      ((reader.withLimits (allowing 1)).request (.named "person") none).1.map Kept.value =
        .ok person) ∧
      readSchema (allowing 0) text = .error (.limitExceeded .nestingDepth 1 0) ∧
      ∃ view, readSchema (allowing 1) text = .ok view ∧ view.depth = 1 := by
  intro reader allowing text
  have reachable : reader.Reachable := .start people
  have answer : (reader.request (.named "person") none).1 = .ok ⟨0, person⟩ := by cbv
  have level : person.depth = 1 := by decide
  obtain ⟨types, headers⟩ := Reader.depth_limits_agree reachable answer
  obtain ⟨made, created, same⟩ := Factory.create_ok [] distinct_person assemble_person
  have encoded : made.value.encode ada = .ok text := by
    rw [same]
    cbv
  have measured : made.value.measured ada =
      .record [.leaf 3, .optional (.repeated 1 (.leaf 1))] := by
    rw [same]
    cbv
  have within (maxDepth : Nat) : (made.value.measured ada).Within (allowing maxDepth) := by
    rw [measured]
    simp [Layout.Within, Layout.AllWithin, allowing]
  have headers := headers [] [] made _ _ distinct_person created encoded
  have refused := (types (reader.withLimits (allowing 0)) reachable.withLimits rfl rfl).2
    (Nat.lt_of_lt_of_eq Nat.zero_lt_one level.symm)
  have read := (types (reader.withLimits (allowing 1)) reachable.withLimits rfl rfl).1
    (Nat.le_of_eq level)
  have refused' := (headers (allowing 0) ⟨by decide, by decide, by decide, by decide⟩ (by decide)
    (within 0)).2 (Nat.lt_of_lt_of_eq Nat.zero_lt_one level.symm)
  have read' := (headers (allowing 1) ⟨by decide, by decide, by decide, by decide⟩ (by decide)
    (within 1)).1 (Nat.le_of_eq level)
  exact ⟨⟨refused, read⟩, refused', level ▸ read'⟩

end Sample

end Slotform
