import Slotform.Proofs.Payload.Decoding

/-!
# Cut and extended payloads

A header tells where it ends, so a text that goes on behind one is read with the same layout, and
the layout says how much must follow. Hence a text that is decoded is never the beginning of
another one: `decode_cut_extended` says how each of its proper prefixes and each of its extensions
is refused, for every mapper.
-/

namespace Slotform

namespace Cursor

/-- A reader that looks at nothing behind the text it passes: it reads that text alike wherever it
stands. -/
def Settles {α : Type} (read : Cursor → Except PayloadError (α × Cursor)) : Prop :=
  ∀ c a c', read c = .ok (a, c') →
    ∃ text, c.Passes text c' ∧ ∀ d d', d.Passes text d' → read d = .ok (a, d')

theorem isNameChar_of_identifier {c : Cursor} {name : List Char} (found : c.identifier.1 = name) :
    ∀ x ∈ name, isNameChar x = true :=
  found ▸ (takeWhile_eq.1 (rfl : c.takeWhile isNameChar = _)).2.1

theorem passes_ofText (text rest : List Char) :
    (ofText (text ++ rest)).Passes text ⟨rest, text.length⟩ :=
  ⟨rfl, (Nat.zero_add _).symm⟩

end Cursor

namespace Mapper

open Cursor

variable {l : Limits} {m : Mapper} {L : Layout} {header rest t : List Char} {v : Value}

/-! ## Headers end by themselves -/

theorem settles_readHeader_leaf {node : Node} {kind : Kind} {codec : Codec} :
    Settles ((leaf node kind codec).readHeader l) := by
  intro c L c' read
  simp only [readHeader_leaf_ok] at read ⊢
  obtain ⟨width, digits, named, passes, spelled⟩ := read
  -- The kind is a name, or it would not have been found; so the parenthesis ends it.
  have ended (d d' : Cursor) : d.Passes (kind.name.toList ++ '(' :: (digits ++ [')'])) d' ↔
      d.identifier.1 = kind.name.toList ∧ d.identifier.2.Passes ('(' :: (digits ++ [')'])) d' :=
    passes_named (isNameChar_of_identifier named) (by decide)
  refine ⟨_, (ended _ _).2 ⟨named, passes⟩, fun d d' again => ?_⟩
  obtain ⟨named', passes'⟩ := (ended _ _).1 again
  exact ⟨width, digits, named', passes', spelled⟩

theorem settles_readHeader_record {node : Node} {declared : List Schema} {members : List Mapper}
    (each : Settles (readMemberHeaders l true members)) :
    Settles ((record node declared members).readHeader l) := by
  intro c L c' read
  simp only [readHeader_record_ok] at read ⊢
  obtain ⟨slots, c₁, c₂, opened, inside, closed, rfl⟩ := read
  obtain ⟨text, passes, settled⟩ := each _ _ _ inside
  refine ⟨_, opened.trans (passes.trans closed), fun d d' again => ?_⟩
  obtain ⟨d₁, opened', again⟩ := passes_append.1 again
  obtain ⟨d₂, passes', closed'⟩ := passes_append.1 again
  exact ⟨slots, d₁, d₂, opened', settled _ _ passes', closed', rfl⟩

theorem settles_readHeader_repeated {view : Schema} {element : Mapper}
    (inner : Settles (element.readHeader l)) :
    Settles ((repeated view element).readHeader l) := by
  intro c L c' read
  simp only [readHeader_repeated_ok] at read ⊢
  obtain ⟨occurs, slot, digits, c₁, inside, number, counted⟩ := read
  obtain ⟨text, passes, settled⟩ := inner _ _ _ inside
  refine ⟨_, passes.trans number, fun d d' again => ?_⟩
  obtain ⟨d₁, passes', number'⟩ := passes_append.1 again
  exact ⟨occurs, slot, digits, d₁, settled _ _ passes', number', counted⟩

theorem settles_readHeader_optional {view : Schema} {content : Mapper}
    (inner : Settles (content.readHeader l)) :
    Settles ((optional view content).readHeader l) := by
  intro c L c' read
  simp only [readHeader_optional_ok] at read ⊢
  obtain ⟨slot, c₁, inside, mark, rfl⟩ := read
  obtain ⟨text, passes, settled⟩ := inner _ _ _ inside
  refine ⟨_, passes.trans mark, fun d d' again => ?_⟩
  obtain ⟨d₁, passes', mark'⟩ := passes_append.1 again
  exact ⟨slot, d₁, settled _ _ passes', mark', rfl⟩

theorem settles_readMemberHeaders_cons {member : Mapper} {members : List Mapper}
    (first : Settles (member.readHeader l)) (others : Settles (readMemberHeaders l false members)) :
    Settles (readMemberHeaders l true (member :: members)) := by
  intro c L c' read
  have name := isNameChar_of_identifier (readMemberHeaders_cons_ok.1 read).1
  obtain ⟨c₁, slot, c₂, slots, named, inside, behind, rfl⟩ :=
    (readMemberHeaders_true_ok name).1 read
  obtain ⟨text, passes, settled⟩ := first _ _ _ inside
  obtain ⟨texts, passes₂, settled₂⟩ := others _ _ _ behind
  refine ⟨_, named.trans (passes.trans passes₂), fun d d' again => ?_⟩
  obtain ⟨d₁, named', again⟩ := passes_append.1 again
  obtain ⟨d₂, passes', passes₂'⟩ := passes_append.1 again
  exact (readMemberHeaders_true_ok name).2
    ⟨d₁, slot, d₂, slots, named', settled _ _ passes', settled₂ _ _ passes₂', rfl⟩

theorem settles_readMemberHeaders_false {member : Mapper} {members : List Mapper}
    (all : Settles (readMemberHeaders l true (member :: members))) :
    Settles (readMemberHeaders l false (member :: members)) := by
  intro c L c' read
  simp only [readMemberHeaders_false_ok] at read ⊢
  obtain ⟨c₁, semicolon, inside⟩ := read
  obtain ⟨text, passes, settled⟩ := all _ _ _ inside
  refine ⟨_, semicolon.trans passes, fun d d' again => ?_⟩
  obtain ⟨d₁, semicolon', passes'⟩ := passes_cons.1 again
  exact ⟨d₁, semicolon', settled _ _ passes'⟩

mutual

/-- A header is read alike whatever follows it. -/
theorem settles_readHeader (l : Limits) : (m : Mapper) → Settles (m.readHeader l)
  | .leaf _ _ _ => settles_readHeader_leaf
  | .record _ _ members => settles_readHeader_record (settles_readMemberHeaders l members true)
  | .repeated _ element => settles_readHeader_repeated (settles_readHeader l element)
  | .optional _ content => settles_readHeader_optional (settles_readHeader l content)

theorem settles_readMemberHeaders (l : Limits) :
    (members : List Mapper) → (first : Bool) → Settles (readMemberHeaders l first members)
  | [], _ => by
    intro c L c' read
    cases read
    refine ⟨[], passes_nil.2 rfl, fun d d' again => ?_⟩
    rw [passes_nil.1 again]
    rfl
  | member :: members, first => by
    have all := settles_readMemberHeaders_cons (settles_readHeader l member)
      (settles_readMemberHeaders l members false)
    cases first with
    | true => exact all
    | false => exact settles_readMemberHeaders_false all

end

/-- The text is a header with the layout, whatever follows it. -/
def Heads (m : Mapper) (l : Limits) (header : List Char) (L : Layout) : Prop :=
  ∀ rest, m.readHeader l (.ofText (header ++ rest)) = .ok (L, ⟨rest, header.length⟩)

theorem heads_of_readHeader {c : Cursor} (read : m.readHeader l (.ofText t) = .ok (L, c)) :
    ∃ header, t = header ++ c.rest ∧ m.Heads l header L := by
  obtain ⟨header, passes, settled⟩ := settles_readHeader l m _ _ _ read
  exact ⟨header, passes.1, fun rest => settled _ _ (passes_ofText header rest)⟩

/-- No text starts with two headers of one mapper. -/
theorem Heads.unique {header' rest' : List Char} {L' : Layout} (h : m.Heads l header L)
    (h' : m.Heads l header' L') (same : header ++ rest = header' ++ rest') : header = header' := by
  have read := h rest
  rw [same, h' rest'] at read
  simp only [Except.ok.injEq, Prod.mk.injEq, Cursor.mk.injEq] at read
  exact List.append_inj_left same read.2.2.symm

/-! ## Whole texts -/

theorem decode_eq_of_heads (h : m.Heads l header L)
    (fits : (header ++ rest).length ≤ l.maxPayloadLen) :
    m.decode l (header ++ rest) = (do
      checkWidth L.width ⟨rest, header.length⟩
      let (v, c) ← m.read L ⟨rest, header.length⟩
      c.finish
      .ok v) := by
  rw [decode, (checkLimit_ok (u := ())).2 fits, h rest]
  rfl

/-- What is decoded is a header and as many characters as its layout is wide. -/
theorem heads_of_decode (accepted : m.decode l t = .ok v) : ∃ header slots L,
    t = header ++ slots ∧ m.Heads l header L ∧ slots.length = L.width ∧
      t.length ≤ l.maxPayloadLen := by
  simp only [decode, bind_eq_ok, Prod.exists, checkLimit_ok, checkWidth_ok] at accepted
  obtain ⟨_, fits, L, c, read, _, width, _⟩ := accepted
  obtain ⟨header, text, heads⟩ := heads_of_readHeader read
  exact ⟨header, c.rest, L, text, heads, width, fits⟩

theorem decode_short (h : m.Heads l header L) (fits : (header ++ rest).length ≤ l.maxPayloadLen)
    (short : rest.length < L.width) :
    m.decode l (header ++ rest) = .error (.unexpectedEnd (header ++ rest).length) := by
  rw [decode_eq_of_heads h fits, checkWidth, if_pos (by exact short), List.length_append]
  rfl

theorem decode_long (h : m.Heads l header L) (fits : (header ++ rest).length ≤ l.maxPayloadLen)
    (long : L.width < rest.length) :
    m.decode l (header ++ rest) = .error (.trailingInput (rest.length - L.width)) := by
  rw [decode_eq_of_heads h fits, checkWidth, if_neg (by exact Nat.not_lt.2 (Nat.le_of_lt long)),
    if_pos (by exact long)]
  rfl

theorem decode_exceeding (exceeds : l.maxPayloadLen < t.length) :
    m.decode l t = .error (.limitExceeded .payloadLength t.length l.maxPayloadLen) := by
  rw [decode, checkLimit, if_pos exceeds]
  rfl

/-- A part of a header is no text: a header in it would be one of the whole text too. -/
theorem decode_cut_header (h : m.Heads l header L) {p q : List Char} (cut : header = p ++ q)
    (some : q ≠ []) : ∃ e, m.decode l p = .error e := by
  cases decoded : m.decode l p with
  | error e => exact ⟨e, rfl⟩
  | ok v =>
    obtain ⟨header', slots, L', rfl, heads, _⟩ := heads_of_decode decoded
    have same : header ++ [] = header' ++ (slots ++ q) := by
      rw [List.append_nil, cut, List.append_assoc]
    have whole : header' ++ (slots ++ q) = header' ++ [] := by
      rw [← same, h.unique heads same]
    exact absurd (List.append_eq_nil_iff.1 (List.append_cancel_left whole)).2 some

/-- Every proper prefix of a text that is decoded is refused, for its missing end if the header is
whole; and so is every extension, for what is superfluous if the text is not too long. -/
theorem decode_cut_extended (accepted : m.decode l t = .ok v) : ∃ header slots L,
    t = header ++ slots ∧ m.readHeader l (.ofText t) = .ok (L, ⟨slots, header.length⟩) ∧
    (∀ p, p <+: t → p ≠ t → (∃ e, m.decode l p = .error e) ∧
      (header <+: p → m.decode l p = .error (.unexpectedEnd p.length))) ∧
    ∀ s, s ≠ [] → m.decode l (t ++ s) = .error (
      if (t ++ s).length ≤ l.maxPayloadLen then .trailingInput s.length
      else .limitExceeded .payloadLength (t ++ s).length l.maxPayloadLen) := by
  obtain ⟨header, slots, L, rfl, heads, width, fits⟩ := heads_of_decode accepted
  refine ⟨header, slots, L, rfl, heads slots, ?cut, ?extended⟩
  case cut =>
    intro p cut proper
    have shorter : p.length < (header ++ slots).length :=
      Nat.lt_of_le_of_ne cut.length_le fun same => proper (cut.eq_of_length same)
    have missing : header <+: p → m.decode l p = .error (.unexpectedEnd p.length) := by
      rintro ⟨rest, rfl⟩
      rw [List.length_append, List.length_append] at shorter
      exact decode_short heads (by rw [List.length_append] at fits ⊢; omega) (by omega)
    refine ⟨?_, missing⟩
    rcases List.prefix_or_prefix_of_prefix cut (List.prefix_append header slots) with
      ⟨q, within⟩ | whole
    · cases q with
      | nil => exact ⟨_, missing (within ▸ by rw [List.append_nil])⟩
      | cons x q => exact decode_cut_header heads within.symm (List.cons_ne_nil x q)
    · exact ⟨_, missing whole⟩
  case extended =>
    intro s some
    have added := List.length_pos_iff.2 some
    split
    next room =>
      rw [List.append_assoc] at room ⊢
      rw [decode_long heads room (by rw [List.length_append]; omega), List.length_append, width,
        Nat.add_sub_cancel_left]
    next exceeds => exact decode_exceeding (Nat.lt_of_not_le exceeds)

theorem decode_cut_extended_person :
    ∃ m, CodecTable.assemble [] Sample.person = .ok m ∧
      m.decode .standard Sample.text = .ok Sample.ada ∧ ∃ header slots L,
      Sample.text = header ++ slots ∧
      m.readHeader .standard (.ofText Sample.text) = .ok (L, ⟨slots, header.length⟩) ∧
      (∀ p, p <+: Sample.text → p ≠ Sample.text → (∃ e, m.decode .standard p = .error e) ∧
        (header <+: p → m.decode .standard p = .error (.unexpectedEnd p.length))) ∧
      ∀ s, s ≠ [] → m.decode .standard (Sample.text ++ s) = .error (
        if (Sample.text ++ s).length ≤ Limits.standard.maxPayloadLen then .trailingInput s.length
        else .limitExceeded .payloadLength (Sample.text ++ s).length
          Limits.standard.maxPayloadLen) := by
  have decoded : Sample.personMapper.decode .standard Sample.text = .ok Sample.ada := by
    cbv
  exact ⟨_, Sample.assemble_person, decoded, decode_cut_extended decoded⟩

end Mapper

end Slotform
