import Slotform.Proofs.Payload.Header
import Slotform.Proofs.Payload.Padding
import Slotform.Proofs.Payload.RoundTrip
import Slotform.Session

namespace Slotform

open Header

namespace Header

variable {codecs : CodecTable} {l : Limits} {s : Schema}

/-- A header with slots behind it describes the view of its schema, and the mapper of the view
reads what fills the slots. -/
theorem decode_view (words : l.Words) (proper : s.WellFormed) (unaligned : s.Unaligned)
    (deep : s.depth ≤ l.maxDepth) {view : Mapper}
    (viewed : codecs.assemble (s.headerView rootName) = .ok view) {header payload : List Char}
    {L : Layout} {v : Value} (spells : Spells codecs l s L header)
    (fills : Fills codecs s L v payload) (short : (header ++ payload).length ≤ l.maxPayloadLen)
    (clear : s.node.Bare → ¬ ReadsAsEmpty payload) :
    readSchema l (header ++ payload) = .ok (s.headerView rootName) ∧
      view.decode l (header ++ payload) = .ok v := by
  refine ⟨readSchema_ok words proper deep spells fills short clear, ?_⟩
  exact (Mapper.decode_ok words (proper.headerView rootName) viewed).2
    ⟨short, header, payload, L, rfl, spells.headerView rootName,
      fills.headerView unaligned rootName⟩

end Header

namespace Factory

/-- A root with a suffix needs no schema: whatever text its mapper accepts describes the view of
the schema, and the mapper of the view reads the same value out of it. -/
theorem decode_headerView {codecs : CodecTable} {past : List Schema} {s : Schema}
    (readable : s.Readable) (suffixed : s.node.isRepeated = true ∨ s.node.optional = true)
    (unaligned : s.Unaligned)
    (distinct : Fingerprint.Identifies (past ++ [s] ++ [s.headerView rootName]))
    {kept : Kept Mapper} (accepted : ((after codecs past).create s).1 = .ok kept) {l : Limits}
    (words : l.Words) (deep : s.depth ≤ l.maxDepth) {t : List Char} {v : Value}
    (decoded : kept.value.decode l t = .ok v) :
    readSchema l t = .ok (s.headerView rootName) ∧
      ∃ view, ((after codecs (past ++ [s])).create (s.headerView rootName)).1 = .ok view ∧
        view.value.decode l t = .ok v := by
  have assembled := create_assembles (distinct.mono fun _ h => List.mem_append_left _ h) accepted
  obtain ⟨m, viewed⟩ := CodecTable.assemble_headerView assembled rootName
  obtain ⟨short, header, payload, L, rfl, spells, fills⟩ :=
    (Mapper.decode_ok words readable.wellFormed assembled).1 decoded
  obtain ⟨described, same⟩ := decode_view words readable.wellFormed unaligned deep viewed spells
    fills short fun bare => absurd bare (Node.not_bare suffixed)
  obtain ⟨view, created, rfl⟩ := create_ok _ distinct viewed
  exact ⟨described, view, created, same⟩

end Factory

namespace Sample

def numbers : Schema := (Schema.ofKind "u8" (.primitive .u8)).repeated

def numbersMapper : Mapper :=
  .repeated numbers (.leaf numbers.item.node (.primitive .u8) (.ofPrimitive .u8))

theorem readable_numbers : numbers.Readable :=
  ⟨.ofRegistry .empty, .list (.primitive .u8), none, ⟨0, numbers⟩, .start .empty, by cbv, rfl⟩

theorem assemble_numbers : CodecTable.assemble [] numbers = .ok numbersMapper := rfl

theorem distinct_numbers :
    Fingerprint.Identifies ([] ++ [numbers] ++ [numbers.headerView rootName]) := by decide +kernel

/-- Leading zeros in the header and an unused slot. -/
def numbersText : List Char := "u8(02)[3]2 7 9  ".toList

end Sample

namespace Factory

theorem decode_headerView_numbers :
    readSchema .standard Sample.numbersText = .ok (Sample.numbers.headerView rootName) ∧
      ∃ view, ((after [] ([] ++ [Sample.numbers])).create
          (Sample.numbers.headerView rootName)).1 = .ok view ∧
        view.value.decode .standard Sample.numbersText =
          .ok (.list [.atom (.u8 7), .atom (.u8 9)]) := by
  obtain ⟨kept, accepted, made⟩ := create_ok []
    (Sample.distinct_numbers.mono fun _ h => List.mem_append_left _ h) Sample.assemble_numbers
  have decoded : kept.value.decode .standard Sample.numbersText =
      .ok (.list [.atom (.u8 7), .atom (.u8 9)]) := by
    rw [made]
    cbv
  exact decode_headerView Sample.readable_numbers (.inl rfl) (.leaf rfl) Sample.distinct_numbers
    accepted Limits.words_standard (by decide) decoded

end Factory

namespace Session

variable {α β : Type}

theorem run_mk (σ : Session) (step : Session → Except SessionError α × Session) :
    (ExceptT.mk step : Action α).run.run σ = step σ := rfl

theorem run_mapper (σ : Session) (s : Schema) : (mapper s).run.run σ =
    (((σ.factory.create s).1.map Kept.value).mapError .mapping,
      { σ with factory := (σ.factory.create s).2 }) := by
  unfold mapper
  rw [run_bind, run_mk]
  rcases σ.factory.create s with ⟨_ | _, _⟩ <;> rfl

theorem run_payloadSchema (σ : Session) (t : List Char) :
    (payloadSchema t).run.run σ = ((Header.readSchema σ.limits t).mapError .payload, σ) := rfl

theorem run_decodeValue (σ : Session) (s : Schema) (t : List Char) :
    (decodeValue s t).run.run σ = match (σ.factory.create s).1 with
      | .ok kept => ((kept.value.decode σ.limits t).mapError .payload,
          { σ with factory := (σ.factory.create s).2 })
      | .error e => (.error (.mapping e), { σ with factory := (σ.factory.create s).2 }) := by
  unfold decodeValue
  rw [run_bind, run_mapper]
  cases (σ.factory.create s).1 <;> rfl

theorem run_encodeValue (σ : Session) (s : Schema) (v : Value) :
    (encodeValue s v).run.run σ = match (σ.factory.create s).1 with
      | .ok kept => ((kept.value.encode v).mapError .payload,
          { σ with factory := (σ.factory.create s).2 })
      | .error e => (.error (.mapping e), { σ with factory := (σ.factory.create s).2 }) := by
  unfold encodeValue
  rw [run_bind, run_mapper]
  cases (σ.factory.create s).1 <;> rfl

theorem run_decodeDynamic (σ : Session) (t : List Char) :
    (decodeDynamic t).run.run σ = match Header.readSchema σ.limits t with
      | .ok view => (decodeValue view t).run.run σ
      | .error e => (.error (.payload e), σ) := by
  unfold decodeDynamic
  rw [run_bind, run_payloadSchema]
  cases Header.readSchema σ.limits t <;> rfl

def answer (σ : Session) (action : Action α) : Except SessionError α := (action.run.run σ).1

/-- A session writes a value as a text that its own limits admit. -/
structure Writes (σ : Session) (s : Schema) (kept : Kept Mapper) (v : Value) (t : List Char) :
    Prop where
  accepted : (σ.factory.create s).1 = .ok kept
  encoded : kept.value.encode v = .ok t
  deep : s.depth ≤ σ.limits.maxDepth
  short : t.length ≤ σ.limits.maxPayloadLen
  within : (kept.value.measured v).Within σ.limits

section Decode

variable {σ : Session} {past : List Schema} {s : Schema} {t : List Char} {v : Value}

/-- A session writes what the mapper of a schema encodes, whatever it was asked before. -/
theorem writes_of_assemble (history : σ.factory = .after [] past)
    (distinct : Fingerprint.Identifies (past ++ [s])) {m : Mapper}
    (assembled : CodecTable.assemble [] s = .ok m) (encoded : m.encode v = .ok t)
    (deep : s.depth ≤ σ.limits.maxDepth) (short : t.length ≤ σ.limits.maxPayloadLen)
    (within : (m.measured v).Within σ.limits) : ∃ kept, kept.value = m ∧ σ.Writes s kept v t := by
  obtain ⟨kept, accepted, rfl⟩ := Factory.create_ok past distinct assembled
  rw [← history] at accepted
  exact ⟨kept, rfl, accepted, encoded, deep, short, within⟩

theorem answer_decodeValue (history : σ.factory = .after [] past)
    (distinct : Fingerprint.Identifies (past ++ [s])) :
    σ.answer (decodeValue s t) = match CodecTable.assemble [] s with
      | .ok m => (m.decode σ.limits t).mapError .payload
      | .error e => .error (.mapping e) := by
  rw [← Factory.create_value distinct, answer, run_decodeValue, history]
  cases ((Factory.after [] past).create s).1 <;> rfl

theorem answer_decodeDynamic_eq {view : Schema}
    (described : readSchema σ.limits t = .ok view) :
    σ.answer (decodeDynamic t) = σ.answer (decodeValue view t) := by
  rw [answer, run_decodeDynamic, described]
  rfl

theorem answer_decodeValue_ok (history : σ.factory = .after [] past)
    (distinct : Fingerprint.Identifies (past ++ [s])) :
    σ.answer (decodeValue s t) = .ok v ↔
      ∃ m, CodecTable.assemble [] s = .ok m ∧ m.decode σ.limits t = .ok v := by
  rw [answer_decodeValue history distinct]
  cases CodecTable.assemble [] s <;> simp

end Decode

/-- What a session writes it reads back the same with the schema and without it, unless the root
has no suffix and the slots read as a list without slots. Then the two answers differ. -/
theorem answer_decodeDynamic {σ : Session} {past : List Schema}
    (history : σ.factory = .after [] past) (words : σ.limits.Words) {s : Schema}
    (readable : s.Readable) (unaligned : s.Unaligned)
    (distinct : Fingerprint.Identifies (past ++ s :: readings s)) {kept : Kept Mapper}
    {v : Value} {t : List Char} (writes : σ.Writes s kept v t) {slots : List Char}
    (filled : kept.value.write v (kept.value.measured v) = .ok slots) :
    σ.answer (decodeDynamic t) = σ.answer (decodeValue s t) ↔
      ¬ (s.node.Bare ∧ ReadsAsEmpty slots) := by
  have told : ∀ r ∈ s :: readings s, Fingerprint.Identifies (past ++ [r]) := fun r hr =>
    distinct.mono fun _ h =>
      (List.Sublist.append_left (List.singleton_sublist.2 hr) past).subset h
  have proper := readable.wellFormed
  have created := writes.accepted
  rw [history] at created
  have assembled := Factory.create_assembles (told s List.mem_cons_self) created
  obtain ⟨view, viewed⟩ := CodecTable.assemble_headerView assembled rootName
  have narrow := Mapper.encode_narrow writes.encoded (Nat.le_trans writes.short words.payloadLen)
  obtain ⟨header, slots', rfl, filled', spells, fills⟩ :=
    Mapper.encode_fills proper assembled writes.encoded narrow writes.within
  cases filled.symm.trans filled'
  have decoded : σ.answer (decodeValue s (header ++ slots)) = .ok (s.normal v) := by
    refine (answer_decodeValue_ok history (told s List.mem_cons_self)).2 ⟨_, assembled, ?_⟩
    exact (Mapper.decode_ok words proper assembled).2
      ⟨writes.short, header, slots, _, rfl, spells, fills⟩
  rw [decoded]
  constructor
  · rintro same ⟨bare, empty⟩
    obtain ⟨other, reading, described, proper', wrapped⟩ :=
      readSchema_empty words proper writes.deep bare spells writes.short empty
    have distinct' := told other (List.mem_cons_of_mem _ reading)
    rw [answer_decodeDynamic_eq described, answer_decodeValue_ok history distinct'] at same
    obtain ⟨m, assembled', decoded'⟩ := same
    obtain ⟨_, _, _, _, _, _, fills'⟩ := (Mapper.decode_ok words proper' assembled').1 decoded'
    exact fills.wrapped_iff.1 (fills'.wrapped_iff.2 wrapped) bare
  · intro clear
    obtain ⟨described, same⟩ := decode_view words proper unaligned writes.deep viewed spells fills
      writes.short fun bare empty => clear ⟨bare, empty⟩
    rw [answer_decodeDynamic_eq described]
    refine (answer_decodeValue_ok history (told _ ?_)).2 ⟨view, viewed, same⟩
    exact List.mem_cons_of_mem _ List.mem_cons_self

end Session

namespace Sample

/-- A session that has not been used yet. -/
def session : Session := .start [] .standard .flagged []

theorem history_session : session.factory = .after [] [] := rfl

theorem words_session : session.limits.Words := Limits.words_standard

def word : Schema := .ofKind "string" (.primitive .string)

def wordMapper : Mapper := .leaf word.node (.primitive .string) (.ofPrimitive .string)

theorem readable_word : word.Readable :=
  ⟨.ofRegistry .empty, .primitive .string, none, ⟨0, word⟩, .start .empty, by cbv, rfl⟩

theorem assemble_word : CodecTable.assemble [] word = .ok wordMapper := rfl

theorem distinct_word : Fingerprint.Identifies ([] ++ word :: readings word) := by decide +kernel

end Sample

namespace Session

theorem answer_decodeDynamic_word : ∃ kept,
    Sample.session.Writes Sample.word kept (.atom (.string "Ada")) "string(3)Ada".toList ∧
      (Sample.session.answer (decodeDynamic "string(3)Ada".toList) =
          Sample.session.answer (decodeValue Sample.word "string(3)Ada".toList) ↔
        ¬ (Sample.word.node.Bare ∧ ReadsAsEmpty "Ada".toList)) := by
  have measured : Sample.wordMapper.measured (.atom (.string "Ada")) = .leaf 3 := by cbv
  have encoded : Sample.wordMapper.encode (.atom (.string "Ada")) =
      .ok "string(3)Ada".toList := by cbv
  obtain ⟨kept, made, writes⟩ := writes_of_assemble Sample.history_session
    (Sample.distinct_word.mono (by simp)) Sample.assemble_word encoded (by decide) (by decide)
    (by rw [measured]; simp only [Layout.Within]; decide)
  refine ⟨kept, writes, answer_decodeDynamic Sample.history_session Sample.words_session
    Sample.readable_word (.leaf rfl) Sample.distinct_word writes ?_⟩
  rw [made]
  cbv

end Session

namespace Session

open Sample

/-- A text that reads as a list without slots is read as one without its schema. -/
theorem decodeDynamic_ambiguous :
    ∃ kept, session.Writes word kept (.atom (.string "[0]0")) "string(4)[0]0".toList ∧
      word.Readable ∧ word.Unaligned ∧
      session.answer (decodeValue word "string(4)[0]0".toList) = .ok (.atom (.string "[0]0")) ∧
      session.answer (decodeDynamic "string(4)[0]0".toList) = .ok (.list []) := by
  have distinct : Fingerprint.Identifies ([] ++ [word]) := distinct_word.mono (by simp)
  have measured : wordMapper.measured (.atom (.string "[0]0")) = .leaf 4 := by cbv
  have encoded : wordMapper.encode (.atom (.string "[0]0")) = .ok "string(4)[0]0".toList := by cbv
  obtain ⟨kept, _, writes⟩ := writes_of_assemble history_session distinct assemble_word encoded
    (by decide) (by decide) (by rw [measured]; simp only [Layout.Within]; decide)
  refine ⟨kept, writes, readable_word, .leaf rfl, ?_, ?_⟩
  · rw [answer_decodeValue history_session distinct]
    cbv
  · have described : readSchema session.limits "string(4)[0]0".toList =
        .ok (word.headerView rootName).repeated := by cbv
    rw [answer_decodeDynamic_eq described,
      answer_decodeValue history_session (distinct_word.mono (by simp [readings]))]
    cbv

end Session

end Slotform
