import Slotform.Proofs.Payload.ViewEncoding
import Slotform.Proofs.Session

namespace Slotform

open Header

namespace Session

/-- Reads a payload without its schema, and writes what was read under the schema that the header
describes. -/
def reencode (t : List Char) : Action (List Char) := do
  let view ← payloadSchema t
  let v ← decodeDynamic t
  encodeValue view v

/-- A payload that is read without its schema is written again by the mapper of its view. -/
theorem answer_reencode_eq {σ : Session} {past : List Schema} (history : σ.factory = .after [] past)
    {t : List Char} {view : Schema} (described : readSchema σ.limits t = .ok view)
    (distinct : Fingerprint.Identifies (past ++ [view])) {m : Mapper}
    (assembled : CodecTable.assemble [] view = .ok m) {v : Value}
    (decoded : m.decode σ.limits t = .ok v) :
    σ.answer (reencode t) = (m.encode v).mapError .payload := by
  obtain ⟨kept, created, made⟩ := Factory.create_ok past distinct assembled
  have again : Fingerprint.Identifies (past ++ [view] ++ [view]) := distinct.mono (by simp)
  obtain ⟨kept', created', made'⟩ := Factory.create_ok (past ++ [view]) again assembled
  have after : ((Factory.after [] past).create view).2 = .after [] (past ++ [view]) := by
    rw [Factory.after, Factory.after, List.foldl_append]
    rfl
  have read : (decodeDynamic t).run.run σ =
      (.ok v, { σ with factory := .after [] (past ++ [view]) }) := by
    rw [run_decodeDynamic, described]
    dsimp only
    rw [run_decodeValue, history, created, after]
    dsimp only
    rw [made, decoded]
    rfl
  have known : (payloadSchema t).run.run σ = (.ok view, σ) := by
    rw [run_payloadSchema, described]
    rfl
  rw [answer, reencode, run_bind, known]
  dsimp only
  rw [run_bind, read]
  dsimp only
  rw [run_encodeValue, created', ← made']

/-- What a session wrote without hints is written again from what it reads without the schema, if
the root has a suffix, and no text ends in a space. -/
theorem answer_reencode {σ : Session} {past : List Schema} (history : σ.factory = .after [] past)
    (words : σ.limits.Words) {s : Schema} (readable : s.Readable)
    (suffixed : s.node.isRepeated = true ∨ s.node.optional = true) (unhinted : s.Unhinted)
    (distinct : Fingerprint.Identifies (past ++ [s] ++ [s.headerView rootName]))
    {kept : Kept Mapper} {v : Value} (tight : v.Tight) {t : List Char}
    (writes : σ.Writes s kept v t) : σ.answer (reencode t) = .ok t := by
  have proper := readable.wellFormed
  have created := writes.accepted
  rw [history] at created
  have assembled := Factory.create_assembles
    (distinct.mono fun _ h => List.mem_append_left _ h) created
  have viewed := CodecTable.assemble_headerView_eq assembled rootName
  have narrow := Mapper.encode_narrow writes.encoded (Nat.le_trans writes.short words.payloadLen)
  have again := Mapper.encode_headerView assembled proper unhinted tight writes.encoded rootName
  obtain ⟨header, slots, rfl, -, spells, fills⟩ :=
    Mapper.encode_fills proper assembled writes.encoded narrow writes.within
  obtain ⟨described, decoded⟩ := decode_view words proper unhinted.unaligned writes.deep viewed
    spells fills writes.short fun bare => absurd bare (Node.not_bare suffixed)
  have told : Fingerprint.Identifies (past ++ [s.headerView rootName]) := by
    refine distinct.mono fun r hr => ?_
    simp only [List.mem_append, List.mem_singleton] at hr ⊢
    exact hr.imp_left .inl
  rw [answer_reencode_eq history described told viewed decoded, again]
  rfl

end Session

namespace Sample

/-- Guests with a password that is not shown. -/
def guests : Registry where
  definitions := [.record "guest" [
    ⟨"name", .primitive .string, .unset, false⟩,
    ⟨"password", .primitive .string, .unset, true⟩]]

def guestList : Schema :=
  ((Schema.ofMembers "guest" "guest" [name]).withSkipped ["password"]).repeated

def guestListMapper : Mapper :=
  .repeated guestList (.record guestList.item.node [name] [nameMapper])

theorem readable_guestList : guestList.Readable :=
  ⟨.ofRegistry guests, .list (.named "guest"), none, ⟨0, guestList⟩, .start guests, by cbv, rfl⟩

theorem assemble_guestList : CodecTable.assemble [] guestList = .ok guestListMapper := rfl

theorem distinct_guestList :
    Fingerprint.Identifies ([] ++ [guestList] ++ [guestList.headerView rootName]) := by
  decide +kernel

theorem unhinted_guestList : guestList.Unhinted := by
  refine .record rfl fun m hm => ?_
  cases List.mem_singleton.1 hm
  exact .leaf rfl

/-- Two guests, one of whom has told the password. -/
def guestListValue : Value := .list [
  .record [("password", .atom (.string "swordfish")), ("name", .atom (.string "Ada"))],
  .record [("name", .atom (.string "Grace"))]]

theorem tight_guestList : guestListValue.Tight := by
  have text {s : String} (ends : s.toList.getLast? ≠ some ' ') :
      Value.Tight (.atom (.string s)) := .atom ends
  refine .list fun v hv => ?_
  simp only [List.mem_cons, List.not_mem_nil, or_false] at hv
  rcases hv with rfl | rfl
  · refine .record fun e he => ?_
    simp only [List.mem_cons, List.not_mem_nil, or_false] at he
    rcases he with rfl | rfl <;> exact text (by decide)
  · refine .record fun e he => ?_
    cases List.mem_singleton.1 he
    exact text (by decide)

end Sample

/-- Neither the password nor the name of the type is in the payload. -/
theorem Session.answer_reencode_guestList : ∃ kept,
    Sample.session.Writes Sample.guestList kept Sample.guestListValue
        "\x7bname:string(5)\x7d[2]2Ada  Grace".toList ∧
      Sample.session.answer (reencode "\x7bname:string(5)\x7d[2]2Ada  Grace".toList) =
        .ok "\x7bname:string(5)\x7d[2]2Ada  Grace".toList := by
  have measured : Sample.guestListMapper.measured Sample.guestListValue =
      .repeated 2 (.record [.leaf 5]) := by cbv
  have encoded : Sample.guestListMapper.encode Sample.guestListValue =
      .ok "\x7bname:string(5)\x7d[2]2Ada  Grace".toList := by cbv
  have told : Fingerprint.Identifies ([] ++ [Sample.guestList]) :=
    Sample.distinct_guestList.mono fun _ h => List.mem_append_left _ h
  obtain ⟨kept, -, writes⟩ := writes_of_assemble Sample.history_session told
    Sample.assemble_guestList encoded (by decide) (by decide)
    (by rw [measured]; simp only [Layout.Within, Layout.AllWithin]; decide)
  exact ⟨kept, writes, answer_reencode Sample.history_session Sample.words_session
    Sample.readable_guestList (.inl rfl) Sample.unhinted_guestList Sample.distinct_guestList
    Sample.tight_guestList writes⟩

end Slotform
