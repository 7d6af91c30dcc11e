import Slotform.Proofs.Payload.Cuts
import Slotform.Proofs.Payload.Encoding
import Slotform.Proofs.Payload.Exactness

namespace Slotform

namespace Layout

variable {l : Limits}

mutual

/-- The widths of leaves, in the order of the header. -/
def leafWidths : Layout → List Nat
  | leaf width => [width]
  | record members => allLeafWidths members
  | repeated _ element => element.leafWidths
  | optional inner => inner.leafWidths

def allLeafWidths : List Layout → List Nat
  | [] => []
  | member :: rest => member.leafWidths ++ allLeafWidths rest

end

mutual

/-- The numbers of slots of lists, in the order of the header. -/
def occurrences : Layout → List Nat
  | leaf _ => []
  | record members => allOccurrences members
  | repeated occurs element => element.occurrences ++ [occurs]
  | optional inner => inner.occurrences

def allOccurrences : List Layout → List Nat
  | [] => []
  | member :: rest => member.occurrences ++ allOccurrences rest

end

mutual

theorem within_iff : (L : Layout) → (L.Within l ↔
    (∀ width ∈ L.leafWidths, width ≤ l.maxWidth) ∧ ∀ occurs ∈ L.occurrences, occurs ≤ l.maxOccurs)
  | leaf width => by simp [Within, leafWidths, occurrences]
  | record members => allWithin_iff members
  | repeated occurs element => by
    simp only [Within, within_iff element, leafWidths, occurrences, List.forall_mem_append,
      List.forall_mem_singleton]
    exact ⟨fun ⟨n, ws, ns⟩ => ⟨ws, ns, n⟩, fun ⟨ws, ns, n⟩ => ⟨n, ws, ns⟩⟩
  | optional inner => within_iff inner

theorem allWithin_iff : (members : List Layout) → (AllWithin l members ↔
    (∀ width ∈ allLeafWidths members, width ≤ l.maxWidth) ∧
      ∀ occurs ∈ allOccurrences members, occurs ≤ l.maxOccurs)
  | [] => by simp [AllWithin, allLeafWidths, allOccurrences]
  | member :: rest => by
    simp only [AllWithin, within_iff member, allWithin_iff rest, allLeafWidths, allOccurrences,
      List.forall_mem_append]
    exact and_and_and_comm

end

end Layout

/-! ## Numbers in a header -/

/-- The numbers that stand directly behind an opening bracket, in their order. -/
def numbersBehind (opening : Char) : List Char → List Nat
  | [] => []
  | x :: rest =>
    if x = opening then Decimal.value (rest.takeWhile Char.isDigit) :: numbersBehind opening rest
    else numbersBehind opening rest

section Numbers

variable {opening a b : Char} {text digits rest : List Char} {n : Nat}

theorem numbersBehind_skip (none : ∀ x ∈ text, x ≠ opening) :
    numbersBehind opening (text ++ rest) = numbersBehind opening rest := by
  induction text with
  | nil => rfl
  | cons x text ih =>
    obtain ⟨other, others⟩ := List.forall_mem_cons.1 none
    rw [List.cons_append, numbersBehind, if_neg other, ih others]

theorem ne_of_mem_digits (denotes : Decimal.Denotes digits n) (ho : opening.isDigit = false)
    (hb : b ≠ opening) : ∀ x ∈ digits ++ [b], x ≠ opening := by
  intro x hx
  rcases List.mem_append.1 hx with hx | hx
  · rintro rfl
    cases ho.symm.trans (denotes.digits x hx)
  · cases List.mem_singleton.1 hx
    exact hb

theorem numbersBehind_bracketed (denotes : Decimal.Denotes digits n) (ha : a.isDigit = false)
    (hb : b.isDigit = false) (hab : b ≠ a) :
    numbersBehind a (a :: digits ++ [b] ++ rest) = n :: numbersBehind a rest := by
  have number : (digits ++ [b] ++ rest).takeWhile Char.isDigit = digits := by
    rw [List.append_assoc, List.takeWhile_append_of_pos denotes.digits, List.singleton_append,
      List.takeWhile_cons_of_neg (by simp [hb]), List.append_nil]
  rw [List.cons_append, List.cons_append, numbersBehind, if_pos rfl, number, denotes.value,
    numbersBehind_skip (ne_of_mem_digits denotes ha hab)]

end Numbers

/-- The text has just these widths and numbers of slots in it, whatever follows. -/
structure Announces (text : List Char) (widths occurs : List Nat) : Prop where
  widths : ∀ rest, numbersBehind '(' (text ++ rest) = widths ++ numbersBehind '(' rest
  occurs : ∀ rest, numbersBehind '[' (text ++ rest) = occurs ++ numbersBehind '[' rest

namespace Announces

variable {text text' digits : List Char} {ws ws' ns ns' : List Nat} {n : Nat}

theorem append (h : Announces text ws ns) (h' : Announces text' ws' ns') :
    Announces (text ++ text') (ws ++ ws') (ns ++ ns') where
  widths rest := by rw [List.append_assoc, h.widths, h'.widths, List.append_assoc]
  occurs rest := by rw [List.append_assoc, h.occurs, h'.occurs, List.append_assoc]

theorem widths_eq (h : Announces text ws ns) : numbersBehind '(' text = ws := by
  simpa [numbersBehind] using h.widths []

theorem occurs_eq (h : Announces text ws ns) : numbersBehind '[' text = ns := by
  simpa [numbersBehind] using h.occurs []

theorem plain (none : ∀ x ∈ text, x ≠ '(' ∧ x ≠ '[') : Announces text [] [] where
  widths _ := numbersBehind_skip fun x hx => (none x hx).1
  occurs _ := numbersBehind_skip fun x hx => (none x hx).2

theorem one {x : Char} (other : x ≠ '(' ∧ x ≠ '[') : Announces [x] [] [] :=
  plain (List.forall_mem_singleton.2 other)

theorem name (all : ∀ x ∈ text, isNameChar x = true) : Announces text [] [] := by
  refine plain fun x hx => ⟨?_, ?_⟩
  · rintro rfl
    exact absurd (all _ hx) (by decide)
  · rintro rfl
    exact absurd (all _ hx) (by decide)

theorem width (denotes : Decimal.Denotes digits n) :
    Announces ('(' :: digits ++ [')']) [n] [] where
  widths _ := numbersBehind_bracketed denotes rfl rfl (by decide)
  occurs _ := numbersBehind_skip (List.forall_mem_cons.2
    ⟨by decide, ne_of_mem_digits denotes rfl (by decide)⟩)

theorem number (denotes : Decimal.Denotes digits n) :
    Announces ('[' :: digits ++ [']']) [] [n] where
  widths _ := numbersBehind_skip (List.forall_mem_cons.2
    ⟨by decide, ne_of_mem_digits denotes rfl (by decide)⟩)
  occurs _ := numbersBehind_bracketed denotes rfl rfl (by decide)

end Announces

namespace Mapper

open Cursor

variable {l : Limits}

mutual

/-- Within limits a header is read as it is within the widest ones, if its layout is within them. -/
theorem readHeader_within : (m : Mapper) → ∀ {c c' : Cursor} {L : Layout},
    m.readHeader l c = .ok (L, c') ↔ m.readHeader .widest c = .ok (L, c') ∧ L.Within l
  | leaf node kind codec, c, c', L => by
    simp only [readHeader_leaf_ok]
    constructor
    · rintro ⟨width, digits, named, passes, word, denotes, within, fixed, rfl⟩
      exact ⟨⟨width, digits, named, passes, word, denotes, word, fixed, rfl⟩, within⟩
    · rintro ⟨⟨width, digits, named, passes, word, denotes, _, fixed, rfl⟩, within⟩
      exact ⟨width, digits, named, passes, word, denotes, within, fixed, rfl⟩
  | record node declared members, c, c', L => by
    simp only [readHeader_record_ok, readMemberHeaders_within members true]
    constructor
    · rintro ⟨slots, c₁, c₂, opened, ⟨inside, within⟩, closed, rfl⟩
      exact ⟨⟨slots, c₁, c₂, opened, inside, closed, rfl⟩, within⟩
    · rintro ⟨⟨slots, c₁, c₂, opened, inside, closed, rfl⟩, within⟩
      exact ⟨slots, c₁, c₂, opened, ⟨inside, within⟩, closed, rfl⟩
  | repeated view element, c, c', L => by
    simp only [readHeader_repeated_ok, readHeader_within element]
    constructor
    · rintro ⟨occurs, slot, digits, c₁, ⟨inside, inner⟩, number, word, denotes, within, fixed, rfl⟩
      exact ⟨⟨occurs, slot, digits, c₁, inside, number, word, denotes, word, fixed, rfl⟩,
        within, inner⟩
    · rintro ⟨⟨occurs, slot, digits, c₁, inside, number, word, denotes, _, fixed, rfl⟩,
        within, inner⟩
      exact ⟨occurs, slot, digits, c₁, ⟨inside, inner⟩, number, word, denotes, within, fixed, rfl⟩
  | optional view inner, c, c', L => by
    simp only [readHeader_optional_ok, readHeader_within inner]
    constructor
    · rintro ⟨slot, c₁, ⟨inside, within⟩, mark, rfl⟩
      exact ⟨⟨slot, c₁, inside, mark, rfl⟩, within⟩
    · rintro ⟨⟨slot, c₁, inside, mark, rfl⟩, within⟩
      exact ⟨slot, c₁, ⟨inside, within⟩, mark, rfl⟩

theorem readMemberHeaders_within : (members : List Mapper) → (first : Bool) →
    ∀ {c c' : Cursor} {slots : List Layout},
      readMemberHeaders l first members c = .ok (slots, c') ↔
        readMemberHeaders .widest first members c = .ok (slots, c') ∧ Layout.AllWithin l slots
  | [], first, c, c', slots => by
    have same (l : Limits) : readMemberHeaders l first [] c = .ok (slots, c') ↔
        [] = slots ∧ c = c' := by simp [readMemberHeaders]
    rw [same, same]
    constructor
    · rintro ⟨rfl, rfl⟩
      exact ⟨⟨rfl, rfl⟩, trivial⟩
    · exact And.left
  | member :: rest, first, c, c', slots => by
    have named {c : Cursor} :
        readMemberHeaders l true (member :: rest) c = .ok (slots, c') ↔
          readMemberHeaders .widest true (member :: rest) c = .ok (slots, c') ∧
            Layout.AllWithin l slots := by
      simp only [readMemberHeaders_cons_ok, readHeader_within member,
        readMemberHeaders_within rest false]
      constructor
      · rintro ⟨found, c₁, slot, c₂, slots', colon, ⟨inside, one⟩, ⟨behind, others⟩, rfl⟩
        exact ⟨⟨found, c₁, slot, c₂, slots', colon, inside, behind, rfl⟩, one, others⟩
      · rintro ⟨⟨found, c₁, slot, c₂, slots', colon, inside, behind, rfl⟩, one, others⟩
        exact ⟨found, c₁, slot, c₂, slots', colon, ⟨inside, one⟩, ⟨behind, others⟩, rfl⟩
    cases first with
    | true => exact named
    | false =>
      simp only [readMemberHeaders_false_ok, named]
      constructor
      · rintro ⟨c₁, semicolon, inside, within⟩
        exact ⟨⟨c₁, semicolon, inside⟩, within⟩
      · rintro ⟨⟨c₁, semicolon, inside⟩, within⟩
        exact ⟨c₁, semicolon, inside, within⟩

end

theorem passes_identifier {c : Cursor} {name : List Char} (found : c.identifier.1 = name) :
    c.Passes name c.identifier.2 :=
  found ▸ (takeWhile_eq.1 (rfl : c.takeWhile isNameChar = _)).1

mutual

/-- The sizes of the layout are the numbers in the header. -/
theorem announces_readHeader : (m : Mapper) → ∀ {c c' : Cursor} {L : Layout},
    m.readHeader l c = .ok (L, c') →
      ∃ header, c.Passes header c' ∧ Announces header L.leafWidths L.occurrences
  | leaf node kind codec, c, c', L, read => by
    obtain ⟨width, digits, named, passes, _, denotes, _, _, rfl⟩ := readHeader_leaf_ok.1 read
    exact ⟨_, (passes_identifier named).trans passes,
      (Announces.name (isNameChar_of_identifier named)).append (.width denotes)⟩
  | record node declared members, c, c', L, read => by
    obtain ⟨slots, c₁, c₂, opened, inside, closed, rfl⟩ := readHeader_record_ok.1 read
    obtain ⟨text, passes, announces⟩ := announces_readMemberHeaders members true inside
    have opening : Announces ['\x7b'] [] [] := .one (by decide)
    have closing : Announces ['\x7d'] [] [] := .one (by decide)
    refine ⟨_, opened.trans (passes.trans closed), ?_⟩
    simpa [Layout.leafWidths, Layout.occurrences] using
      opening.append (announces.append closing)
  | repeated view element, c, c', L, read => by
    obtain ⟨occurs, slot, digits, c₁, inside, number, _, denotes, _, _, rfl⟩ :=
      readHeader_repeated_ok.1 read
    obtain ⟨text, passes, announces⟩ := announces_readHeader element inside
    refine ⟨_, passes.trans number, ?_⟩
    simpa [Layout.leafWidths, Layout.occurrences] using announces.append (.number denotes)
  | optional view inner, c, c', L, read => by
    obtain ⟨slot, c₁, inside, mark, rfl⟩ := readHeader_optional_ok.1 read
    obtain ⟨text, passes, announces⟩ := announces_readHeader inner inside
    have marked : Announces ['?'] [] [] := .one (by decide)
    refine ⟨_, passes.trans mark, ?_⟩
    simpa [Layout.leafWidths, Layout.occurrences] using announces.append marked

theorem announces_readMemberHeaders : (members : List Mapper) → (first : Bool) →
    ∀ {c c' : Cursor} {slots : List Layout},
      readMemberHeaders l first members c = .ok (slots, c') →
        ∃ text, c.Passes text c' ∧
          Announces text (Layout.allLeafWidths slots) (Layout.allOccurrences slots)
  | [], first, c, c', slots, read => by
    cases read
    exact ⟨[], passes_nil.2 rfl, .plain nofun⟩
  | member :: rest, first, c, c', slots, read => by
    have named {c : Cursor} (read : readMemberHeaders l true (member :: rest) c = .ok (slots, c')) :
        ∃ text, c.Passes text c' ∧
          Announces text (Layout.allLeafWidths slots) (Layout.allOccurrences slots) := by
      obtain ⟨found, c₁, slot, c₂, slots', colon, inside, behind, rfl⟩ :=
        readMemberHeaders_cons_ok.1 read
      obtain ⟨text, passes, one⟩ := announces_readHeader member inside
      obtain ⟨texts, passes', others⟩ := announces_readMemberHeaders rest false behind
      have label := (Announces.name (isNameChar_of_identifier found)).append
        (.one (x := ':') (by decide))
      exact ⟨_, ((passes_identifier found).trans colon).trans (passes.trans passes'),
        label.append (one.append others)⟩
    cases first with
    | true => exact named read
    | false =>
      obtain ⟨c₁, semicolon, inside⟩ := readMemberHeaders_false_ok.1 read
      obtain ⟨text, passes, announces⟩ := named inside
      have separator : Announces [';'] [] [] := .one (by decide)
      exact ⟨_, semicolon.trans passes, separator.append announces⟩

end

variable {m : Mapper} {t : List Char} {v : Value}

theorem decode_eq_ok : m.decode l t = .ok v ↔ t.length ≤ l.maxPayloadLen ∧
    ∃ L c c', m.readHeader .widest (.ofText t) = .ok (L, c) ∧ L.Within l ∧
      c.remaining = L.width ∧ m.read L c = .ok (v, c') ∧ c'.rest = [] := by
  simp only [decode, bind_eq_ok, Prod.exists, checkLimit_ok, checkWidth_ok, finish_ok,
    readHeader_within m (l := l), Except.ok.injEq]
  constructor
  · rintro ⟨_, short, L, c, ⟨read, within⟩, _, width, w, c', filled, _, ends, rfl⟩
    exact ⟨short, L, c, c', read, within, width, filled, ends⟩
  · rintro ⟨short, L, c, c', read, within, width, filled, ends⟩
    exact ⟨(), short, L, c, ⟨read, within⟩, (), width, v, c', filled, (), ends, rfl⟩

/-- Wider limits accept what narrower ones do. -/
theorem decode_wider {l' : Limits} (payloadLen : l.maxPayloadLen ≤ l'.maxPayloadLen)
    (width : l.maxWidth ≤ l'.maxWidth) (occurs : l.maxOccurs ≤ l'.maxOccurs)
    (accepted : m.decode l t = .ok v) : m.decode l' t = .ok v := by
  obtain ⟨short, L, c, c', read, within, fits⟩ := decode_eq_ok.1 accepted
  obtain ⟨widths, numbers⟩ := L.within_iff.1 within
  have within' : L.Within l' := L.within_iff.2
    ⟨fun w hw => Nat.le_trans (widths w hw) width, fun n hn => Nat.le_trans (numbers n hn) occurs⟩
  exact decode_eq_ok.2 ⟨Nat.le_trans short payloadLen, L, c, c', read, within', fits⟩

/-- A layout is within limits if the numbers in its header are. -/
theorem within_header {c : Cursor} {L : Layout}
    (read : m.readHeader .widest (.ofText t) = .ok (L, c)) :
    ∃ header, t = header ++ c.rest ∧ c = ⟨c.rest, header.length⟩ ∧ ∀ l : Limits, L.Within l ↔
      (∀ width ∈ numbersBehind '(' header, width ≤ l.maxWidth) ∧
        ∀ occurs ∈ numbersBehind '[' header, occurs ≤ l.maxOccurs := by
  obtain ⟨header, passes, announces⟩ := announces_readHeader m read
  have behind : c = ⟨c.rest, header.length⟩ := by
    have start := passes.2
    rw [ofText, Nat.zero_add] at start
    rw [← start]
  refine ⟨header, passes.1, behind, fun l => ?_⟩
  rw [announces.widths_eq, announces.occurs_eq, L.within_iff]

/-- A text is decoded within limits exactly if it is decoded within the widest ones, is not too
long itself, and has no width and no number of slots in its header that is too large. -/
theorem decode_filter (m : Mapper) (t : List Char) (v : Value) :
    (∀ l : Limits, l.Words → (m.decode l t = .ok v ↔
      m.decode .widest t = .ok v ∧ t.length ≤ l.maxPayloadLen ∧
        ∃ header slots L, t = header ++ slots ∧
          m.readHeader .widest (.ofText t) = .ok (L, ⟨slots, header.length⟩) ∧
          (∀ width ∈ numbersBehind '(' header, width ≤ l.maxWidth) ∧
          ∀ occurs ∈ numbersBehind '[' header, occurs ≤ l.maxOccurs)) ∧
    ∀ l l' : Limits, l.maxPayloadLen ≤ l'.maxPayloadLen → l.maxWidth ≤ l'.maxWidth →
      l.maxOccurs ≤ l'.maxOccurs → m.decode l t = .ok v → m.decode l' t = .ok v := by
  refine ⟨fun l words => ⟨fun accepted => ?_, ?_⟩, fun l l' => decode_wider⟩
  · obtain ⟨short, L, c, c', read, within, fits⟩ := decode_eq_ok.1 accepted
    obtain ⟨header, text, behind, numbers⟩ := within_header read
    have loose : m.decode .widest t = .ok v :=
      decode_wider words.payloadLen words.width words.occurs accepted
    exact ⟨loose, short, header, c.rest, L, text, behind ▸ read, (numbers l).1 within⟩
  · rintro ⟨loose, short, header, slots, L, text, read, small⟩
    obtain ⟨_, L', c, c', read', _, fits⟩ := decode_eq_ok.1 loose
    cases read.symm.trans read'
    obtain ⟨header', text', _, numbers⟩ := within_header read
    cases List.append_cancel_right (text.symm.trans text')
    exact decode_eq_ok.2 ⟨short, L, _, c', read, (numbers l).2 small, fits⟩

/-- The tightest limits for the sample's payload, and a width that is one too small. -/
theorem decode_filter_person :
    let tight : Limits := ⟨0, 45, 5, 2⟩
    tight.Words ∧ Sample.personMapper.decode tight Sample.text = .ok Sample.ada ∧
      Sample.personMapper.decode .widest Sample.text = .ok Sample.ada ∧
      Sample.personMapper.decode .standard Sample.text = .ok Sample.ada ∧
      Sample.personMapper.decode { tight with maxWidth := 4 } Sample.text =
        .error (.limitExceeded .leafWidth 5 4) := by
  intro tight
  have words : tight.Words := ⟨by decide, by decide, by decide, by decide⟩
  have accepted : Sample.personMapper.decode tight Sample.text = .ok Sample.ada := by cbv
  obtain ⟨filter, wider⟩ := decode_filter Sample.personMapper Sample.text Sample.ada
  obtain ⟨loose, _⟩ := (filter tight words).1 accepted
  exact ⟨words, accepted, loose,
    wider tight .standard (by decide) (by decide) (by decide) accepted, by cbv⟩

end Mapper

end Slotform
