import Slotform.Proofs.Payload.Decoding
import Slotform.Proofs.Payload.Encoding

/-!
# The width check covers every read

The width of a layout is its exact width or the largest word. A text is shorter than the largest
word, so a layout that the rest of a text fits has an exact width. Reading its slots then spends
just those characters (`spends_read`): a move never runs past the end, nothing is left over, and
the blanks of unused slots, whose number is a product of words, are no more than the slots
themselves. `width_covers_read` puts this together for every mapper.
-/

namespace Slotform

/-- The loosest limits. -/
def Limits.widest : Limits := ⟨maxWord, maxWord, maxWord, maxWord⟩

namespace Layout

variable {L : Layout}

theorem widthsFrom_le {sum : Nat} (h : sum ≤ maxWord) (members : List Layout) :
    widthsFrom sum members ≤ maxWord := by
  induction members generalizing sum with
  | nil => exact h
  | cons member rest ih => exact ih (Nat.min_le_right _ _)

/-- The width of a layout of words is a word. -/
theorem width_le (words : L.Within .widest) : L.width ≤ maxWord := by
  cases L with
  | leaf width => exact words
  | record members => exact widthsFrom_le (Nat.zero_le _) members
  | repeated occurs element => exact Nat.min_le_right _ _
  | optional inner => exact Nat.min_le_right _ _

/-- The width of a layout of words is the exact one, as far as words go. -/
theorem width_eq_min (words : L.Within .widest) : L.width = min L.exactWidth maxWord := by
  obtain ⟨upper, lower⟩ := L.width_bounds
  exact Nat.le_antisymm (Nat.le_min.2 ⟨upper, width_le words⟩) lower

end Layout

/-- The error says that a text is too short or too long for a layout, or of another shape, or that
a product is no word. -/
def PayloadError.IsMisfit : PayloadError → Prop
  | .unexpectedEnd _ | .layoutMismatch _ | .trailingInput _ | .wordOverflow _ _ => True
  | _ => False

namespace Cursor

variable {α β : Type} {c c' : Cursor} {n k : Nat}

theorem Passes.shorter {x : Char} {text : List Char} (h : c.Passes (x :: text) c') :
    c'.remaining < c.remaining := by
  rw [h.remaining, List.length_cons]
  omega

theorem remaining_identifier (c : Cursor) : c.identifier.2.remaining ≤ c.remaining := by
  rw [(takeWhile_eq.1 (rfl : c.takeWhile isNameChar = _)).1.remaining]
  exact Nat.le_add_left _ _

/-- An outcome of reading from `c` where at least `n` characters are left: success passes exactly
so many, and failure has another reason than a misfit. -/
structure Spends (c : Cursor) (n : Nat) (outcome : Except PayloadError (α × Cursor)) : Prop where
  passes : ∀ a c', outcome = .ok (a, c') → ∃ text, text.length = n ∧ c.Passes text c'
  fits : ∀ e, outcome = .error e → ¬ e.IsMisfit

theorem spends_ok (a : α) : Spends c 0 (.ok (a, c)) := by
  refine ⟨?_, nofun⟩
  rintro _ _ ⟨⟩
  exact ⟨[], rfl, passes_nil.2 rfl⟩

theorem spends_error {e : PayloadError} (other : ¬ e.IsMisfit) :
    Spends c n (.error e : Except PayloadError (α × Cursor)) := by
  refine ⟨nofun, ?_⟩
  rintro _ ⟨⟩
  exact other

/-- What is read next spends what is left. -/
theorem Spends.bind {outcome : Except PayloadError (α × Cursor)}
    {next : α × Cursor → Except PayloadError (β × Cursor)} (first : Spends c n outcome)
    (others : ∀ a c', outcome = .ok (a, c') → c.remaining = n + c'.remaining →
      Spends c' k (next (a, c'))) : Spends c (n + k) (outcome >>= next) := by
  constructor
  · intro b c₂ done
    obtain ⟨⟨a, c₁⟩, h₁, h₂⟩ := bind_eq_ok.1 done
    obtain ⟨text₁, rfl, passes₁⟩ := first.passes a c₁ h₁
    obtain ⟨text₂, rfl, passes₂⟩ := (others a c₁ h₁ passes₁.remaining).passes b c₂ h₂
    exact ⟨text₁ ++ text₂, List.length_append, passes₁.trans passes₂⟩
  · intro e failed
    rcases bind_eq_error.1 failed with failed | ⟨⟨a, c₁⟩, h₁, failed⟩
    · exact first.fits e failed
    · obtain ⟨text, rfl, passes⟩ := first.passes a c₁ h₁
      exact (others a c₁ h₁ passes.remaining).fits e failed

theorem spends_take (enough : n ≤ c.remaining) : Spends c n (c.take n).require := by
  constructor
  · intro run c' done
    exact ⟨run, take_ok.1 done⟩
  · intro e failed
    have full : (c.rest.take n).length = n := List.length_take_of_le enough
    simp [take, full, Move.require, Except.map] at failed

theorem spends_next (some : 0 < c.remaining) : Spends c 1 c.next.require := by
  constructor
  · intro x c' done
    exact ⟨[x], rfl, next_ok.1 done⟩
  · intro e failed
    obtain ⟨first, rest, h⟩ := List.exists_cons_of_length_pos some
    simp [next, h, Move.require, Except.map] at failed

theorem spends_blank (enough : n ≤ c.remaining) : Spends c n (c.blank n).require := by
  constructor
  · intro _ c' done
    exact ⟨_, List.length_replicate, blank_ok.1 done⟩
  · intro e failed
    have full : (c.rest.take n).length = n := List.length_take_of_le enough
    simp only [blank, take, full, if_true] at failed
    split at failed
    · cases failed
      exact id
    · cases failed

end Cursor

namespace Mapper

open Cursor

variable {m : Mapper} {L : Layout} {c c' : Cursor}

/-! ## Layouts of headers -/

/-- The layout has the shape of the mapper. -/
inductive Suits : Mapper → Layout → Prop where
  | leaf {node : Node} {kind : Kind} {codec : Codec} {width : Nat} :
      Suits (.leaf node kind codec) (.leaf width)
  | record {node : Node} {declared : List Schema} {members : List Mapper} {slots : List Layout} :
      List.Forall₂ Suits members slots → Suits (.record node declared members) (.record slots)
  | repeated {view : Schema} {element : Mapper} {occurs : Nat} {slot : Layout} :
      Suits element slot → Suits (.repeated view element) (.repeated occurs slot)
  | optional {view : Schema} {inner : Mapper} {slot : Layout} :
      Suits inner slot → Suits (.optional view inner) (.optional slot)

mutual

/-- A header is not empty, and its layout has the shape of the mapper. -/
theorem suits_of_readHeader {l : Limits} : (m : Mapper) → {c : Cursor} → {L : Layout} →
    {c' : Cursor} → m.readHeader l c = .ok (L, c') → m.Suits L ∧ c'.remaining < c.remaining
  | .leaf node kind codec, c, L, c', read => by
    obtain ⟨width, digits, _, passes, _, _, _, _, rfl⟩ := readHeader_leaf_ok.1 read
    exact ⟨.leaf, Nat.lt_of_lt_of_le passes.shorter (remaining_identifier c)⟩
  | .record node declared members, c, L, c', read => by
    obtain ⟨slots, c₁, c₂, opened, inside, closed, rfl⟩ := readHeader_record_ok.1 read
    obtain ⟨suits, shorter⟩ := suits_of_readMemberHeaders members true inside
    have opening := opened.shorter
    have closing := closed.shorter
    exact ⟨.record suits, by omega⟩
  | .repeated view element, c, L, c', read => by
    obtain ⟨occurs, slot, digits, c₁, inside, number, _, _, _, _, rfl⟩ :=
      readHeader_repeated_ok.1 read
    obtain ⟨suits, shorter⟩ := suits_of_readHeader element inside
    exact ⟨.repeated suits, Nat.lt_trans number.shorter shorter⟩
  | .optional view inner, c, L, c', read => by
    obtain ⟨slot, c₁, inside, mark, rfl⟩ := readHeader_optional_ok.1 read
    obtain ⟨suits, shorter⟩ := suits_of_readHeader inner inside
    exact ⟨.optional suits, Nat.lt_trans mark.shorter shorter⟩

theorem suits_of_readMemberHeaders {l : Limits} : (members : List Mapper) → (first : Bool) →
    {c : Cursor} → {slots : List Layout} → {c' : Cursor} →
    readMemberHeaders l first members c = .ok (slots, c') →
      List.Forall₂ Suits members slots ∧ c'.remaining ≤ c.remaining
  | [], _, c, slots, c', read => by
    cases read
    exact ⟨.nil, Nat.le_refl _⟩
  | member :: members, first, c, slots, c', read => by
    have named {c : Cursor}
        (read : readMemberHeaders l true (member :: members) c = .ok (slots, c')) :
        List.Forall₂ Suits (member :: members) slots ∧ c'.remaining ≤ c.remaining := by
      obtain ⟨_, c₁, slot, c₂, slots', colon, inside, behind, rfl⟩ :=
        readMemberHeaders_cons_ok.1 read
      obtain ⟨suits, shorter⟩ := suits_of_readHeader member inside
      obtain ⟨others, shorter'⟩ := suits_of_readMemberHeaders members false behind
      have name := remaining_identifier c
      have separator := colon.shorter
      exact ⟨.cons suits others, by omega⟩
    cases first with
    | true => exact named read
    | false =>
      obtain ⟨c₁, semicolon, inside⟩ := readMemberHeaders_false_ok.1 read
      obtain ⟨suits, shorter⟩ := named inside
      exact ⟨suits, Nat.le_of_lt (Nat.lt_of_le_of_lt shorter semicolon.shorter)⟩

end

/-! ## Slots -/

theorem spends_readCount {occurs : Nat} (enough : Decimal.digitCount occurs ≤ c.remaining) :
    Spends c (Decimal.digitCount occurs) (readCount occurs c) := by
  rw [readCount_eq]
  refine (spends_take enough).bind (k := 0) fun text after _ _ => ?_
  dsimp only
  split
  · exact spends_error id
  · split
    · exact spends_error id
    · exact spends_ok _

theorem le_of_readCount {occurs count : Nat} (read : readCount occurs c = .ok (count, c')) :
    count ≤ occurs := by
  simp only [readCount_eq, bind_eq_ok, Prod.exists] at read
  obtain ⟨text, after, _, read⟩ := read
  split at read
  · cases read
  · obtain ⟨fits, counted⟩ := ite_error_eq_ok.1 read
    cases counted
    exact Nat.le_of_not_lt fits

theorem spends_readTimes {read : Cursor → Except PayloadError (Value × Cursor)} {width n : Nat}
    (each : 0 < n → ∀ c, width ≤ c.remaining → Spends c width (read c)) {done : List Value}
    (enough : n * width ≤ c.remaining) : Spends c (n * width) (readTimes read n done c) := by
  induction n generalizing done c with
  | zero =>
    rw [Nat.zero_mul]
    exact spends_ok _
  | succ n ih =>
    rw [Nat.succ_mul] at enough
    rw [Nat.succ_mul, Nat.add_comm]
    refine (each n.succ_pos c (by omega)).bind fun value c' _ left => ?_
    exact ih (fun _ => each n.succ_pos) (by omega)

mutual

/-- Reading slots that are there spends just their characters. -/
theorem spends_read : (m : Mapper) → {L : Layout} → {c : Cursor} → m.Suits L →
    L.exactWidth < UInt64.size → L.exactWidth ≤ c.remaining → Spends c L.exactWidth (m.read L c)
  | .leaf node kind codec, .leaf width, c, .leaf, _, enough => by
    refine (spends_take enough).bind (k := 0) fun slot after _ _ => ?_
    dsimp only
    cases codec.parse (if codec.fixedWidth.isSome then slot
        else Slot.unfill (leafAlign node codec) slot) with
    | ok value => exact spends_ok value
    | error e =>
      cases e with
      | unexpected => exact spends_error id
      | invalid => exact spends_error id
  | .record node declared members, .record slots, c, .record suits, narrow, enough => by
    have content := spends_readMembers members suits narrow enough
    simp only [read, suits.length_eq, if_true]
    exact content.bind (k := 0) fun entries c' _ _ => spends_ok _
  | .repeated view element, .repeated occurs slot, c, .repeated suits, narrow, enough => by
    rw [Layout.exactWidth] at narrow enough ⊢
    have inner : occurs * slot.exactWidth < UInt64.size :=
      Nat.lt_of_le_of_lt (Nat.le_add_left _ _) narrow
    refine (spends_readCount (by omega)).bind fun count c₁ counted left => ?_
    have fits := le_of_readCount counted
    have slots : occurs * slot.exactWidth =
        count * slot.exactWidth + ((occurs - count) * slot.exactWidth + 0) := by
      rw [Nat.add_zero, ← Nat.add_mul, Nat.add_sub_cancel' fits]
    rw [slots] at enough ⊢
    -- A list without slots does not bound the width of an item, but then no item is read.
    have item (some : 0 < count) (c : Cursor) (enough : slot.exactWidth ≤ c.remaining) :=
      spends_read element suits (Nat.lt_of_le_of_lt
        (Nat.le_mul_of_pos_left _ (Nat.lt_of_lt_of_le some fits)) inner) enough
    refine (spends_readTimes item (by omega)).bind fun items c₂ _ left₁ => ?_
    dsimp only
    rw [Layout.blankWidth_sub inner]
    change Spends c₂ _ ((c₂.blank ((occurs - count) * slot.exactWidth)).require >>= _)
    exact (spends_blank (by omega)).bind fun _ c₃ _ _ => spends_ok _
  | .optional view inner, .optional slot, c, .optional suits, narrow, enough => by
    rw [Layout.exactWidth] at narrow enough
    rw [Layout.exactWidth, Nat.add_comm]
    refine (spends_next (by omega)).bind fun flag c₁ _ left => ?_
    dsimp only
    split
    · exact (spends_read inner suits (by omega) (by omega)).bind (k := 0)
        fun value c₂ _ _ => spends_ok _
    · split
      · rw [Layout.width_eq (by omega)]
        exact (spends_blank (by omega)).bind (k := 0) fun _ c₂ _ _ => spends_ok _
      · exact spends_error id

theorem spends_readMembers : (members : List Mapper) → {slots : List Layout} → {c : Cursor} →
    List.Forall₂ Suits members slots → Layout.exactWidths slots < UInt64.size →
    Layout.exactWidths slots ≤ c.remaining →
    Spends c (Layout.exactWidths slots) (readMembers members slots c)
  | [], _, c, .nil, _, _ => spends_ok _
  | member :: members, _, c, .cons suits others, narrow, enough => by
    rw [Layout.exactWidths] at narrow enough ⊢
    refine (spends_read member suits (by omega) (by omega)).bind fun value c₁ _ left => ?_
    exact (spends_readMembers members others (by omega) (by omega)).bind (k := 0)
      fun entries c₂ _ _ => spends_ok _

end

/-! ## Products -/

/-- Reading slots from a cursor multiplies a number of unused slots by the width of an item. -/
inductive Multiplies : Mapper → Layout → Cursor → Nat → Nat → Prop where
  | unused {view : Schema} {element : Mapper} {occurs count : Nat} {slot : Layout}
      {c c₁ c₂ : Cursor} {items : List Value} : readCount occurs c = .ok (count, c₁) →
      readTimes (fun c => element.read slot c) count [] c₁ = .ok (items, c₂) →
      Multiplies (.repeated view element) (.repeated occurs slot) c (occurs - count) slot.width
  | item {view : Schema} {element : Mapper} {occurs count earlier : Nat} {slot : Layout}
      {c c₁ c₂ : Cursor} {items : List Value} {k w : Nat} : readCount occurs c = .ok (count, c₁) →
      readTimes (fun c => element.read slot c) earlier [] c₁ = .ok (items, c₂) → earlier < count →
      Multiplies element slot c₂ k w →
      Multiplies (.repeated view element) (.repeated occurs slot) c k w
  | present {view : Schema} {inner : Mapper} {slot : Layout} {c c₁ : Cursor} {k w : Nat} :
      c.next.require = .ok ('1', c₁) → Multiplies inner slot c₁ k w →
      Multiplies (.optional view inner) (.optional slot) c k w
  | member {node : Node} {declared : List Schema} {before behind : List Mapper} {member : Mapper}
      {slotsBefore slotsBehind : List Layout} {slot : Layout} {c c₁ : Cursor}
      {entries : List (String × Value)} {k w : Nat} : before.length = slotsBefore.length →
      behind.length = slotsBehind.length →
      readMembers before slotsBefore c = .ok (entries, c₁) → Multiplies member slot c₁ k w →
      Multiplies (.record node declared (before ++ member :: behind))
        (.record (slotsBefore ++ slot :: slotsBehind)) c k w

/-- The blanks of a list are no more than its slots, so no product leaves the words. -/
theorem Multiplies.lt {k w : Nat} (multiplies : m.Multiplies L c k w)
    (narrow : L.exactWidth < UInt64.size) : k * w < UInt64.size := by
  induction multiplies with
  | @unused view element occurs count slot c c₁ c₂ items counted done =>
    rw [Layout.exactWidth] at narrow
    have product : (occurs - count) * slot.width ≤ occurs * slot.exactWidth :=
      Nat.mul_le_mul (Nat.sub_le _ _) slot.width_bounds.1
    omega
  | @item view element occurs count earlier slot c c₁ c₂ items k w counted done more _ ih =>
    rw [Layout.exactWidth] at narrow
    have some : 0 < occurs := Nat.lt_of_lt_of_le (Nat.zero_lt_of_lt more) (le_of_readCount counted)
    have item : slot.exactWidth ≤ occurs * slot.exactWidth := Nat.le_mul_of_pos_left _ some
    exact ih (by omega)
  | present flag _ ih =>
    rw [Layout.exactWidth] at narrow
    exact ih (Nat.lt_of_succ_lt narrow)
  | member _ _ _ _ ih =>
    rw [Layout.exactWidth] at narrow
    exact ih (Nat.lt_of_le_of_lt (Layout.exactWidth_le_exactWidths
      (List.mem_append_right _ List.mem_cons_self)) narrow)

/-- A width stops at the largest word; and once what is left of a text has the width of the layout
that its header gives, reading spends all of it or fails for what it finds there, and every product
that it computes is a word. -/
theorem width_covers_read : (∀ L : Layout, L.Within .widest → L.width = min L.exactWidth maxWord) ∧
    ∀ (m : Mapper) (l : Limits) (t : List Char) (L : Layout) (c : Cursor), t.length ≤ maxWord →
      m.readHeader l (.ofText t) = .ok (L, c) → checkWidth L.width c = .ok () →
      (∀ v c', m.read L c = .ok (v, c') → c'.rest = [] ∧ c'.position = c.position + L.width) ∧
      (∀ e, m.read L c = .error e → ¬ e.IsMisfit) ∧
      ∀ k w, m.Multiplies L c k w → k * w < UInt64.size := by
  refine ⟨fun L words => L.width_eq_min words, ?_⟩
  intro m l t L c word header checked
  have exact := checkWidth_ok.1 checked
  obtain ⟨suits, shorter⟩ := suits_of_readHeader m header
  have narrow : L.width < maxWord := exact ▸ Nat.lt_of_lt_of_le shorter word
  have width := Layout.exactWidth_eq narrow
  have small : L.exactWidth < UInt64.size :=
    width ▸ Nat.lt_of_lt_of_le narrow (Nat.sub_le _ _)
  have spends := spends_read m suits small (by rw [exact, width])
  refine ⟨?_, spends.fits, fun k w multiplies => multiplies.lt small⟩
  intro v c' done
  obtain ⟨text, length, passes⟩ := spends.passes v c' done
  have left := passes.remaining
  rw [exact, length, width] at left
  exact ⟨List.eq_nil_of_length_eq_zero (Nat.left_eq_add.1 left),
    by rw [passes.2, length, width]⟩

/-- The sample's payload has room for five letters and two tags. There is one tag, so that a slot of
three characters is left. -/
theorem width_covers_read_person :
    let L : Layout := .record [.leaf 5, .optional (.repeated 2 (.leaf 3))]
    let c : Cursor := ⟨"Ada  11  7   ".toList, 32⟩
    Sample.text.length ≤ maxWord ∧ L.Within .widest ∧
      Sample.personMapper.readHeader .standard (.ofText Sample.text) = .ok (L, c) ∧
      checkWidth L.width c = .ok () ∧ L.width = min L.exactWidth maxWord ∧
      (∀ v c', Sample.personMapper.read L c = .ok (v, c') →
        c'.rest = [] ∧ c'.position = c.position + L.width) ∧
      (∀ e, Sample.personMapper.read L c = .error e → ¬ e.IsMisfit) ∧
      Sample.personMapper.Multiplies L c 1 3 ∧
      ∀ k w, Sample.personMapper.Multiplies L c k w → k * w < UInt64.size := by
  intro L c
  have short : Sample.text.length ≤ maxWord := by decide
  have words : L.Within .widest := by
    simp only [L, Layout.Within, Layout.AllWithin]
    decide
  have header : Sample.personMapper.readHeader .standard (.ofText Sample.text) = .ok (L, c) := by
    cbv
  have checked : checkWidth L.width c = .ok () := by cbv
  have multiplies : Sample.personMapper.Multiplies L c 1 3 := by
    let tags : Cursor := ⟨"11  7   ".toList, 37⟩
    let count : Cursor := ⟨"1  7   ".toList, 38⟩
    have list : (Mapper.repeated Sample.tag.repeated Sample.tagMapper).Multiplies
        (.repeated 2 (.leaf 3)) count 1 3 :=
      @Multiplies.unused _ _ 2 1 _ count ⟨"  7   ".toList, 39⟩ ⟨"   ".toList, 42⟩ [.atom (.u8 7)]
        (by cbv) (by cbv)
    have option : (Mapper.optional Sample.tag.repeated.optional
        (.repeated Sample.tag.repeated Sample.tagMapper)).Multiplies
          (.optional (.repeated 2 (.leaf 3))) tags 1 3 :=
      @Multiplies.present _ _ _ tags count _ _ (by cbv) list
    exact @Multiplies.member _ _ [Sample.nameMapper] [] _ [.leaf 5] [] _ c tags
      [("name", .atom (.string "Ada"))] _ _ rfl rfl (by cbv) option
  obtain ⟨width, reads⟩ := width_covers_read
  obtain ⟨exact, fits, small⟩ := reads _ _ _ L c short header checked
  exact ⟨short, words, header, checked, width L words, exact, fits, multiplies, small⟩

end Mapper

end Slotform
