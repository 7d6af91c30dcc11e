import Slotform.Proofs.Session.History
import Slotform.Proofs.Typed.Schema

/-!
# Data that a session writes it reads back

Where a session can describe a model, read its schema and make the schema's mapper, it writes every
datum of the model for which there is room; and whatever it writes it reads back at any later time,
with skipped members at their defaults (`Session.fromPayload_toPayload`). It is different where the
slots together are wider than a word can count: then a datum may be neither written nor refused
(`Session.toPayload_error_vast`).
-/

namespace Slotform

open Typed

namespace Session

variable {σ τ τ' : Session} {asked : List Schema} {model : Model} {s : Schema} {m : Mapper}

/-! ## Answers about data -/

theorem answer_bind_ok {α β : Type} {step : Action α} {next : α → Action β} {b : β}
    (h : τ.answer (step >>= next) = .ok b) : ∃ a, τ.answer step = .ok a := by
  rw [answer, run_bind] at h
  rw [answer]
  rcases ran : step.run.run τ with ⟨e | a, τ'⟩
  · rw [ran] at h
    cases h
  · exact ⟨a, rfl⟩

theorem answer_ask_toPayload (τ : Session) (model : Model) (x : Datum) :
    τ.answer (ask model (.toPayload x)) = (τ.answer (toPayload model x)).map .text := by
  rw [answer, answer, ask, run_bind]
  rcases (toPayload model x).run.run τ with ⟨_ | _, _⟩ <;> rfl

theorem answer_ask_fromPayload (τ : Session) (model : Model) (t : List Char) :
    τ.answer (ask model (.fromPayload t)) = (τ.answer (fromPayload model t)).map .datum := by
  rw [answer, answer, ask, run_bind]
  rcases (fromPayload model t).run.run τ with ⟨_ | _, _⟩ <;> rfl

theorem schemaFor_false (model : Model) : schemaFor false model = schemaOf model := by
  simp [schemaFor, schemaOf]

/-! ## Models with a schema -/

/-- A reader that has taken over the model's definitions finds the schema. -/
def Finds (τ : Session) (model : Model) (s : Schema) : Prop :=
  ∃ τ₁, τ.Later τ₁ ∧ Described τ.catalog τ₁.reader.registry model (τ.catalog.ty model) ∧
    τ₁.reader.compute (τ.catalog.ty model) none = .ok s

theorem Remembers.finds (h : τ.Remembers asked) (read : τ.answer (schemaOf model) = .ok s) :
    τ.Finds model s := by
  rw [← schemaFor_false, answer] at read
  obtain ⟨τ', _, _, ⟨τ₁, later, _, described, run⟩ | ⟨e, run, _⟩⟩ := h.schemaFor false model
  · rw [run] at read
    exact ⟨τ₁, later, described, mapError_eq_ok.1 read⟩
  · rw [run] at read
    cases read

/-- The mapper of a model with a schema is the one that can be assembled for the schema. -/
theorem Remembers.answer_mapper (h : τ.Remembers asked)
    (read : τ.answer (schemaOf model) = .ok s) (distinct : Fingerprint.Identifies (asked ++ [s])) :
    τ.answer (schemaOf model >>= mapper) = (τ.factory.codecs.assemble s).mapError .mapping := by
  rw [← schemaFor_false, answer] at read
  rw [← schemaFor_false, answer, run_bind]
  obtain ⟨τ', later, remembers, ⟨τ₁, _, _, _, run⟩ | ⟨e, run, _⟩⟩ := h.schemaFor false model
  · rw [run] at read ⊢
    rw [mapError_eq_ok.1 read]
    show ((mapper s).run.run τ').1 = _
    rw [run_mapper, ← later.codecs, ← Factory.create_value distinct, ← remembers.factory]
  · rw [run] at read
    cases read

/-- Whoever has no more definitions than a reader that finds the schema admits the model's. -/
theorem Finds.defines (h : τ.Finds model s) :
    ∃ reader, τ.reader.define (definitionsOf τ.catalog model) = .ok reader := by
  obtain ⟨τ₁, later, described, _⟩ := h
  exact described.define later.grows

/-- After an operation on a model that has a schema, the model's definitions are known. -/
theorem Remembers.next_described (h : τ.Remembers asked)
    (defined : ∃ reader, τ.reader.define (definitionsOf τ.catalog model) = .ok reader)
    (query : Query) :
    Described τ.catalog (τ.next (.use model query)).reader.registry model (τ.catalog.ty model) := by
  obtain ⟨reader, defined⟩ := defined
  rw [Session.next, perform, run_ask]
  obtain ⟨τ', _, _, ⟨τ₁, _, later, described, run⟩ | ⟨e, _, refused⟩⟩ :=
    h.schemaFor query.isListed model
  · rw [run]
    have known := described.mono later.grows
    cases schemaNow τ₁.reader query.isListed (τ.catalog.ty model) with
    | error e => exact known
    | ok schema =>
      cases query <;> exact known
  · cases defined.symm.trans refused

/-- A session whose definitions admit a model answers out of the schema that it finds. -/
theorem Remembers.reply_eq (h : τ.Remembers asked) (closed : τ.catalog.Closed)
    (declares : τ.catalog.Declares model) (finds : τ.Finds model s) {query : Query}
    (single : query.isListed = false) :
    τ.asks (.use model query) = query.task.asks s ∧
      (Fingerprint.Identifies (asked ++ query.task.asks s) → τ.answer (ask model query) =
        τ.reply model s (τ.factory.codecs.assemble s) query.task) := by
  have subject : query.subject model = model := by rw [Query.subject, single]; rfl
  obtain ⟨_, defined⟩ := finds.defines
  obtain ⟨τ₁, later, described, computed⟩ := finds
  rcases h.answers model query with ⟨τ₂, later₂, known, answers⟩ | ⟨e, _, refused⟩
  · have found : schemaNow τ₂.reader query.isListed (τ.catalog.ty model) = .ok s := by
      rw [schemaNow_eq closed declares later₂ later query.isListed known described, single]
      exact computed
    refine ⟨by rw [answers.asks, found], fun distinct => ?_⟩
    obtain ⟨_, _, assembles⟩ := answers.made s found
    rw [assembles distinct, subject]
  · cases defined.symm.trans refused

/-- Once the model's definitions are known, a session finds the schema that was found before. -/
theorem Finds.later (finds : τ.Finds model s) (closed : τ.catalog.Closed)
    (declares : τ.catalog.Declares model) (later : τ.Later τ')
    (known : Described τ.catalog τ'.reader.registry model (τ.catalog.ty model)) :
    τ'.Finds model s := by
  obtain ⟨τ₁, later₁, described, computed⟩ := finds
  have same : τ'.reader.compute (τ.catalog.ty model) none =
      τ₁.reader.compute (τ.catalog.ty model) none :=
    schemaNow_eq closed declares later later₁ false known described
  exact ⟨τ', .refl τ', later.catalog ▸ known, by rw [later.catalog, same, computed]⟩

/-! ## Writing and reading back -/

section Answers

variable (h : τ.Remembers asked) (closed : τ.catalog.Closed) (declares : τ.catalog.Declares model)
  (finds : τ.Finds model s) (distinct : Fingerprint.Identifies (asked ++ [s]))
  (assembled : τ.factory.codecs.assemble s = .ok m)

include h closed declares finds distinct assembled

theorem Remembers.answer_toPayload (x : Datum) : τ.answer (toPayload model x) =
    (m.encode (τ.catalog.toValue model x)).mapError .payload := by
  have single : (Query.toPayload x).isListed = false := rfl
  have replied := (h.reply_eq closed declares finds single).2 distinct
  rw [answer_ask_toPayload, assembled] at replied
  refine map_injective (fun _ _ => Outcome.text.inj) (replied.trans ?_)
  show ((m.encode (τ.catalog.toValue model x)).mapError SessionError.payload >>= fun text =>
    .ok (Outcome.text text)) = _
  exact bind_ok _ _

theorem Remembers.answer_fromPayload (t : List Char) : τ.answer (fromPayload model t) =
    (do
      let value ← (m.decode τ.limits t).mapError .payload
      (τ.catalog.ofValue model value).mapError .conversion) := by
  have single : (Query.fromPayload t).isListed = false := rfl
  have replied := (h.reply_eq closed declares finds single).2 distinct
  rw [answer_ask_fromPayload, assembled] at replied
  refine map_injective (fun _ _ => Outcome.datum.inj) (replied.trans ?_)
  show ((m.decode τ.limits t).mapError SessionError.payload >>= fun value =>
    (τ.catalog.ofValue model value).mapError SessionError.conversion >>= fun datum =>
      .ok (Outcome.datum datum)) = _
  simp only [bind_ok, ← map_bind]

end Answers

/-- The schema of a described model takes it apart, and is well-formed. -/
theorem Finds.fits (finds : τ.Finds model s) (closed : τ.catalog.Closed)
    (declares : τ.catalog.Declares model) (flagged : τ.reader.skip = SkipRule.flagged.skips)
    (assembled : CodecTable.assemble [] s = .ok m) :
    τ.catalog.Fits model s ∧ s.WellFormed ∧ s.node.format = .unset := by
  obtain ⟨τ₁, later, described, computed⟩ := finds
  obtain ⟨done, held⟩ := Catalog.describe_completes τ.catalog model .empty
  have read : τ₁.reader.walk.member (τ₁.reader.limits.maxDepth + 1) []
      (τ.catalog.ty model).itemName (τ.catalog.ty model) .unset = .ok s := computed
  obtain ⟨proper, _, format⟩ := Walk.member_wellFormed read
  have fits := Catalog.fits_of_member closed done described.quiet described.known.growsTo
    (later.skip.trans flagged) declares (held described.quiet) read assembled
  exact ⟨fits, proper, format⟩

/-- A history without collisions has none up to an operation that asks for a mapper. -/
theorem distinct_asked {past later : List Operation} {op : Operation}
    (distinct : Fingerprint.Identifies (σ.met (past ++ op :: later)))
    (asked : (σ.after past).asks op = [s]) : Fingerprint.Identifies (σ.met past ++ [s]) := by
  rw [met_append, met, asked, ← List.append_assoc] at distinct
  exact distinct.mono fun _ h => List.mem_append_left _ h

theorem read_of_asks {x : Datum} (asked : τ.asks (.use model (.toPayload x)) = [s]) :
    τ.answer (schemaOf model) = .ok s := by
  rw [← schemaFor_false]
  simp only [asks, Query.isListed] at asked
  cases read : τ.answer (schemaFor false model) with
  | error e =>
    rw [read] at asked
    cases asked
  | ok schema =>
    rw [read] at asked
    exact congrArg Except.ok (List.singleton_inj.1 asked)

section Uses

variable (fresh : σ.Fresh) (closed : σ.catalog.Closed) (declares : σ.catalog.Declares model)
  {past : List Operation} {x : Datum}
  (needs : (σ.after past).asks (.use model (.toPayload x)) = [s])
  (assembled : σ.factory.codecs.assemble s = .ok m)

include fresh assembled

theorem mapper_after (read : (σ.after past).answer (schemaOf model) = .ok s)
    (distinct : Fingerprint.Identifies (σ.met past ++ [s])) :
    (σ.after past).answer (schemaOf model >>= mapper) = .ok m := by
  obtain ⟨since, remembers⟩ := fresh.remembers.after past
  rw [remembers.answer_mapper read distinct, since.codecs, assembled]
  rfl

include closed declares needs

theorem toPayload_after (distinct : Fingerprint.Identifies (σ.met past ++ [s])) :
    (σ.after past).answer (toPayload model x) =
      (m.encode (σ.catalog.toValue model x)).mapError .payload := by
  obtain ⟨since, remembers⟩ := fresh.remembers.after past
  rw [remembers.answer_toPayload (since.catalog ▸ closed) (since.catalog ▸ declares)
    (remembers.finds (read_of_asks needs)) distinct (since.codecs ▸ assembled), since.catalog]

/-- Once a datum was written, the same mapper reads at any later time. -/
theorem fromPayload_after {later : List Operation}
    (distinct : Fingerprint.Identifies (σ.met (past ++ .use model (.toPayload x) :: later)))
    (t : List Char) :
    (σ.after (past ++ .use model (.toPayload x) :: later)).answer (fromPayload model t) = (do
      let value ← (m.decode σ.limits t).mapError .payload
      (σ.catalog.ofValue model value).mapError .conversion) := by
  obtain ⟨since, remembers⟩ := fresh.remembers.after past
  have closedThen : (σ.after past).catalog.Closed := since.catalog ▸ closed
  have declaresThen : (σ.after past).catalog.Declares model := since.catalog ▸ declares
  have finds := remembers.finds (read_of_asks needs)
  obtain ⟨sinceUse, remembersUse⟩ := remembers.next (.use model (.toPayload x))
  rw [needs] at remembersUse
  obtain ⟨sinceLater, remembersLater⟩ := remembersUse.after later
  have whole := sinceUse.trans sinceLater
  have known := (remembers.next_described finds.defines (.toPayload x)).mono sinceLater.grows
  have findsLater := finds.later closedThen declaresThen whole known
  have again : Fingerprint.Identifies (σ.met past ++ [s] ++
      ((σ.after past).next (.use model (.toPayload x))).met later ++ [s]) := by
    rw [met_append, met, needs, ← List.append_assoc] at distinct
    refine distinct.mono fun r hr => ?_
    rcases List.mem_append.1 hr with hr | hr
    · exact hr
    · exact List.mem_append_left _ (List.mem_append_right _ hr)
  rw [after_append]
  have reads := remembersLater.answer_fromPayload (whole.catalog ▸ closedThen)
    (whole.catalog ▸ declaresThen) findsLater again ((since.trans whole).codecs ▸ assembled) t
  rwa [(since.trans whole).limits, (since.trans whole).catalog] at reads

end Uses

/-- A session before its first use that skips flagged fields only, with the built-in codecs. -/
structure Plain (σ : Session) : Prop where
  fresh : σ.Fresh
  builtin : σ.factory.codecs = []
  flagged : σ.reader.skip = SkipRule.flagged.skips

/-- The mapper that a session has for a model when it is to write a datum: it was assembled for the
schema that the session then asks for, and that takes the model apart. -/
structure Maps (σ : Session) (past : List Operation) (model : Model) (x : Datum) (s : Schema)
    (m : Mapper) : Prop where
  asks : (σ.after past).asks (.use model (.toPayload x)) = [s]
  once : Fingerprint.Identifies (σ.met past ++ [s])
  assembled : CodecTable.assemble [] s = .ok m
  fits : σ.catalog.Fits model s
  proper : s.WellFormed
  side : Align.left = s.node.format.align.getD .left

theorem Plain.maps (plain : σ.Plain) (closed : σ.catalog.Closed)
    (declares : σ.catalog.Declares model) {past later : List Operation}
    (accepted : (σ.after past).answer (schemaOf model >>= mapper) = .ok m) {x : Datum}
    (distinct : Fingerprint.Identifies (σ.met (past ++ .use model (.toPayload x) :: later))) :
    ∃ s, σ.Maps past model x s m := by
  obtain ⟨since, remembers⟩ := plain.fresh.remembers.after past
  obtain ⟨s, read⟩ := answer_bind_ok accepted
  have finds := remembers.finds read
  have closedThen : (σ.after past).catalog.Closed := since.catalog ▸ closed
  have declaresThen : (σ.after past).catalog.Declares model := since.catalog ▸ declares
  have single : (Query.toPayload x).isListed = false := rfl
  have asks : (σ.after past).asks (.use model (.toPayload x)) = [s] :=
    (remembers.reply_eq closedThen declaresThen finds single).1
  have once := distinct_asked distinct asks
  have made : σ.factory.codecs.assemble s = .ok m :=
    since.codecs ▸ mapError_eq_ok.1 ((remembers.answer_mapper read once).symm.trans accepted)
  have assembled : CodecTable.assemble [] s = .ok m := plain.builtin ▸ made
  obtain ⟨fits, proper, format⟩ :=
    finds.fits closedThen declaresThen (since.skip.trans plain.flagged) assembled
  exact ⟨s, asks, once, assembled, since.catalog ▸ fits, proper, by rw [format]; rfl⟩

/-- A session that can describe a model and has a mapper for its schema writes each datum of the
model, or reports that there is too little room; it stops without an answer only where the layout is
too wide for a word. What it writes it reads back whatever it did in the meantime, unless the text
or its layout exceeds the limits. Skipped members are then at their defaults. -/
theorem fromPayload_toPayload (plain : σ.Plain) (words : σ.limits.Words)
    (closed : σ.catalog.Closed) (declares : σ.catalog.Declares model)
    (variants : ∀ owner kind variants, σ.catalog.shape? owner = some (.enumeration kind variants) →
      variants.Nodup)
    (past later : List Operation)
    (accepted : (σ.after past).answer (schemaOf model >>= mapper) = .ok m)
    {x : Datum} (has : σ.catalog.Has model x)
    (distinct : Fingerprint.Identifies (σ.met (past ++ .use model (.toPayload x) :: later))) :
    ((∃ t, (σ.after past).answer (toPayload model x) = .ok t) ∨
      (∃ member needed available, (σ.after past).answer (toPayload model x) =
        .error (.payload (.overflow member needed available))) ∨
      (UInt64.size ≤ (m.measured (σ.catalog.toValue model x)).exactWidth ∧
        ∃ a b, (σ.after past).answer (toPayload model x) =
          .error (.payload (.wordOverflow a b)))) ∧
    ∀ t, (σ.after past).answer (toPayload model x) = .ok t →
      σ.catalog.Inhabits Atom.Tight .left model x → t.length ≤ σ.limits.maxPayloadLen →
      (m.measured (σ.catalog.toValue model x)).Within σ.limits →
      (σ.after (past ++ .use model (.toPayload x) :: later)).answer (fromPayload model t) =
        .ok (σ.catalog.restored model x) := by
  obtain ⟨s, asks, once, assembled, fits, proper, side⟩ :=
    plain.maps closed declares accepted distinct
  have made : σ.factory.codecs.assemble s = .ok m := plain.builtin ▸ assembled
  have answered := toPayload_after plain.fresh closed declares asks made once
  constructor
  · rw [answered]
    cases encoded : m.encode (σ.catalog.toValue model x) with
    | ok t => exact .inl ⟨t, rfl⟩
    | error e =>
      have matched := fits.matches_toValue has proper side
      rcases Mapper.encode_matches proper assembled matched encoded with
        ⟨member, needed, available, rfl⟩ | ⟨wide, a, b, rfl⟩
      · exact .inr (.inl ⟨member, needed, available, rfl⟩)
      · exact .inr (.inr ⟨wide, a, b, rfl⟩)
  · intro t written tight short within
    rw [answered] at written
    have encoded : m.encode (σ.catalog.toValue model x) = .ok t := mapError_eq_ok.1 written
    have narrow := Mapper.encode_narrow encoded (Nat.le_trans short words.payloadLen)
    have decoded := Mapper.decode_encoded proper assembled encoded narrow words short within
    rw [(fits.matches_toValue tight proper side).normal proper] at decoded
    have back := Catalog.ofValue_toValue has fun owner reached =>
      fits.unambiguous proper variants reached
    rw [fromPayload_after plain.fresh closed declares asks made distinct t, decoded]
    exact mapError_eq_ok.2 back

end Session

namespace Sample

open Typed

/-- Patients have visits, and a mark that is never written. -/
def clinic : Catalog := [
  (⟨"Gender"⟩, .enumeration none ["F", "M"]),
  (⟨"Visit"⟩, .record "Visit" [
    ⟨"ward", .primitive .string, .unset, none, .required⟩,
    ⟨"cost", .primitive .u16, .unset, none, .required⟩]),
  (⟨"Patient"⟩, .record "Patient" [
    ⟨"name", .primitive .string, .unset, none, .required⟩,
    ⟨"gender", .option (.declared ⟨"Gender"⟩), .unset, none, .required⟩,
    ⟨"visits", .list (.declared ⟨"Visit"⟩), .unset, none, .required⟩,
    ⟨"dirty", .primitive .bool, .unset, none, .skipped (.atom (.bool false))⟩])]

def clinicSession : Session := .start clinic .standard .flagged []

def visit : Datum := .record [.atom (.string "North"), .atom (.u16 12)]

def patient : Datum := .record [.atom (.string "Ada"), .present (.variant 0), .list [visit],
  .atom (.bool true)]

def clinicPast : List Session.Operation := [.use (.declared ⟨"Visit"⟩) .schemaOf]

def clinicLater : List Session.Operation := [.define people]

def visitMembers : List Schema :=
  [.ofKind "ward" (.primitive .string), .ofKind "cost" (.primitive .u16)]

def patientSchema : Schema :=
  (Schema.ofMembers "Patient" "Patient" [
    .ofKind "name" (.primitive .string),
    (Schema.ofKind "gender" (.primitive .string)).optional,
    (Schema.ofMembers "visits" "Visit" visitMembers).repeated]).withSkipped ["dirty"]

def patientText : List Char :=
  ("\x7bname:string(3);gender:string(1)?;visits:\x7bward:string(5);cost:u16(2)\x7d[1]\x7d" ++
    "Ada1F1North12").toList

theorem asks_patient : (clinicSession.after clinicPast).asks
    (.use (.declared ⟨"Patient"⟩) (.toPayload patient)) = [patientSchema] := by
  decide +kernel

theorem met_clinic : clinicSession.met
    (clinicPast ++ .use (.declared ⟨"Patient"⟩) (.toPayload patient) :: clinicLater) =
      [patientSchema] := by
  decide +kernel

theorem distinct_patient : Fingerprint.Identifies [patientSchema] := by decide +kernel

theorem plain_clinic : clinicSession.Plain := ⟨Session.fresh_start .., rfl, rfl⟩

theorem closed_clinic : clinic.Closed := by
  intro owner typeName members declared m hm _ inner refers
  have listed := Catalog.mem_of_shape? declared
  simp only [clinic, List.mem_cons, Prod.mk.injEq, Shape.record.injEq, reduceCtorEq, and_false,
    false_or, List.not_mem_nil, or_false] at listed
  rcases listed with ⟨_, _, rfl⟩ | ⟨_, _, rfl⟩
  · simp only [List.mem_cons, List.not_mem_nil, or_false] at hm
    rcases hm with rfl | rfl <;> cases refers
  · simp only [List.mem_cons, List.not_mem_nil, or_false] at hm
    rcases hm with rfl | rfl | rfl | rfl <;> cases refers <;> rfl

theorem variants_clinic (owner : Owner) (kind : Option String) (variants : List String)
    (declared : clinic.shape? owner = some (.enumeration kind variants)) : variants.Nodup := by
  have listed := Catalog.mem_of_shape? declared
  simp only [clinic, List.mem_cons, Prod.mk.injEq, Shape.enumeration.injEq, reduceCtorEq, and_false,
    List.not_mem_nil, or_false] at listed
  obtain ⟨_, _, rfl⟩ := listed
  decide

theorem tight_visit : clinic.Inhabits Atom.Tight .left (.declared ⟨"Visit"⟩) visit := by
  refine .of_fields rfl (.cons (fun _ => ?ward) (.cons (fun _ => ?cost) .nil))
  case ward => exact .atom (a := .string "North") (by decide)
  case cost => exact .atom (a := .u16 12) (by decide)

theorem tight_patient : clinic.Inhabits Atom.Tight .left (.declared ⟨"Patient"⟩) patient := by
  -- The last member is skipped.
  refine .of_fields rfl
    (.cons (fun _ => ?name) (.cons (fun _ => ?gender) (.cons (fun _ => ?visits) (.cons nofun .nil))))
  case name => exact .atom (a := .string "Ada") (by decide)
  case gender => exact .present (.variant rfl (by decide) (by decide))
  case visits => exact .list fun d hd => List.mem_singleton.1 hd ▸ tight_visit

def patientMapper : Mapper :=
  let gender := (Schema.ofKind "gender" (.primitive .string)).optional
  let visits := (Schema.ofMembers "visits" "Visit" visitMembers).repeated
  .record patientSchema.node patientSchema.members [
    .leaf (Schema.ofKind "name" (.primitive .string)).node (.primitive .string)
      (.ofPrimitive .string),
    .optional gender (.leaf gender.required.node (.primitive .string) (.ofPrimitive .string)),
    .repeated visits (.record visits.item.node visitMembers [
      .leaf (Schema.ofKind "ward" (.primitive .string)).node (.primitive .string)
        (.ofPrimitive .string),
      .leaf (Schema.ofKind "cost" (.primitive .u16)).node (.primitive .u16) (.ofPrimitive .u16)])]

theorem assemble_patient : CodecTable.assemble [] patientSchema = .ok patientMapper := rfl

end Sample

namespace Session

open Sample

theorem fromPayload_toPayload_patient :
    clinicSession.Plain ∧ clinicSession.limits.Words ∧ clinic.Closed ∧
      clinic.Declares (.declared ⟨"Patient"⟩) ∧
      (∀ owner kind variants, clinic.shape? owner = some (.enumeration kind variants) →
        variants.Nodup) ∧
      (clinicSession.after clinicPast).answer (schemaOf (.declared ⟨"Patient"⟩) >>= mapper) =
        .ok patientMapper ∧
      clinic.Has (.declared ⟨"Patient"⟩) patient ∧
      Fingerprint.Identifies (clinicSession.met
        (clinicPast ++ .use (.declared ⟨"Patient"⟩) (.toPayload patient) :: clinicLater)) ∧
      (clinicSession.after clinicPast).answer (toPayload (.declared ⟨"Patient"⟩) patient) =
        .ok patientText ∧
      clinic.Inhabits Atom.Tight .left (.declared ⟨"Patient"⟩) patient ∧
      (patientMapper.measured (clinic.toValue (.declared ⟨"Patient"⟩) patient)).Within .standard ∧
      (clinicSession.after (clinicPast ++ .use (.declared ⟨"Patient"⟩) (.toPayload patient) ::
        clinicLater)).answer (fromPayload (.declared ⟨"Patient"⟩) patientText) =
          .ok (.record [.atom (.string "Ada"), .present (.variant 0), .list [visit],
            .atom (.bool false)]) := by
  have distinct : Fingerprint.Identifies (clinicSession.met
      (clinicPast ++ .use (.declared ⟨"Patient"⟩) (.toPayload patient) :: clinicLater)) :=
    met_clinic ▸ distinct_patient
  have declares : clinic.Declares (.declared ⟨"Patient"⟩) := by
    rintro _ ⟨⟩
    rfl
  have has : clinic.Has (.declared ⟨"Patient"⟩) patient := tight_patient.mono fun _ _ _ => trivial
  have once := distinct_asked distinct asks_patient
  have accepted := mapper_after plain_clinic.fresh assemble_patient (read_of_asks asks_patient) once
  have encoded : patientMapper.encode (clinic.toValue (.declared ⟨"Patient"⟩) patient) =
      .ok patientText := by cbv
  have measured : patientMapper.measured (clinic.toValue (.declared ⟨"Patient"⟩) patient) =
      .record [.leaf 3, .optional (.leaf 1), .repeated 1 (.record [.leaf 5, .leaf 2])] := by cbv
  have written : (clinicSession.after clinicPast).answer
      (toPayload (.declared ⟨"Patient"⟩) patient) = .ok patientText :=
    (toPayload_after plain_clinic.fresh closed_clinic declares asks_patient assemble_patient
      once).trans (congrArg (Except.mapError SessionError.payload) encoded)
  have within : (patientMapper.measured
      (clinic.toValue (.declared ⟨"Patient"⟩) patient)).Within .standard := by
    rw [measured]
    simp only [Layout.Within, Layout.AllWithin]
    decide
  refine ⟨plain_clinic, Limits.words_standard, closed_clinic, declares, variants_clinic, accepted,
    has, distinct, written, tight_patient, within, ?_⟩
  refine (fromPayload_toPayload plain_clinic Limits.words_standard closed_clinic declares
    variants_clinic clinicPast clinicLater accepted has distinct).2 _ written tight_patient ?_
    within
  decide

end Session

namespace Sample

/-- Three lists inside each other. The blanks of the unused rows are more than a word counts. -/
def vast : Catalog := [
  (⟨"Column"⟩, .record "Column" [
    ⟨"pad", .primitive .string, { size := some 524281 }, none, .required⟩,
    ⟨"cells", .list (.primitive .string), { size := some 1048575, maxOccurs := some 524288 },
      none, .required⟩]),
  (⟨"Row"⟩, .record "Row" [
    ⟨"pad", .primitive .string, { size := some 524282 }, none, .required⟩,
    ⟨"columns", .list (.declared ⟨"Column"⟩), { maxOccurs := some 524288 }, none, .required⟩]),
  (⟨"Table"⟩, .record "Table" [
    ⟨"title", .primitive .string, .unset, none, .required⟩,
    ⟨"rows", .list (.declared ⟨"Row"⟩), { maxOccurs := some 64 }, none, .required⟩])]

def vastSession : Session := .start vast .standard .flagged []

def table : Datum := .record [.atom (.string "t"), .list []]

def columnMembers : List Schema := [
  (Schema.ofKind "pad" (.primitive .string)).withFormat { size := some 524281 },
  ((Schema.ofKind "cells" (.primitive .string)).withFormat
    { size := some 1048575, maxOccurs := some 524288 }).repeated]

def rowMembers : List Schema := [
  (Schema.ofKind "pad" (.primitive .string)).withFormat { size := some 524282 },
  ((Schema.ofMembers "columns" "Column" columnMembers).withFormat
    { maxOccurs := some 524288 }).repeated]

def tableSchema : Schema := .ofMembers "Table" "Table" [
  .ofKind "title" (.primitive .string),
  ((Schema.ofMembers "rows" "Row" rowMembers).withFormat { maxOccurs := some 64 }).repeated]

def textMapper (s : Schema) : Mapper :=
  .leaf s.node (.primitive .string) (.ofPrimitive .string)

def tableMapper : Mapper :=
  let cells := columnMembers[1]
  let columns := rowMembers[1]
  let rows := tableSchema.members[1]
  .record tableSchema.node tableSchema.members [
    textMapper tableSchema.members[0],
    .repeated rows (.record rows.item.node rowMembers [
      textMapper rowMembers[0],
      .repeated columns (.record columns.item.node columnMembers [
        textMapper columnMembers[0],
        .repeated cells (textMapper cells.item)])])]

theorem assemble_table : CodecTable.assemble [] tableSchema = .ok tableMapper := rfl

theorem asks_table : (vastSession.after []).asks
    (.use (.declared ⟨"Table"⟩) (.toPayload table)) = [tableSchema] := by
  decide +kernel

theorem met_vast : vastSession.met ([] ++ [.use (.declared ⟨"Table"⟩) (.toPayload table)]) =
    [tableSchema] := by
  decide +kernel

theorem distinct_table : Fingerprint.Identifies [tableSchema] := by decide +kernel

theorem plain_vast : vastSession.Plain := ⟨Session.fresh_start .., rfl, rfl⟩

theorem closed_vast : vast.Closed := by
  intro owner typeName members declared m hm _ inner refers
  have listed := Catalog.mem_of_shape? declared
  simp only [vast, List.mem_cons, Prod.mk.injEq, Shape.record.injEq, List.not_mem_nil,
    or_false] at listed
  rcases listed with ⟨_, _, rfl⟩ | ⟨_, _, rfl⟩ | ⟨_, _, rfl⟩ <;>
    simp only [List.mem_cons, List.not_mem_nil, or_false] at hm <;>
    rcases hm with rfl | rfl <;> cases refers <;> rfl

theorem variants_vast (owner : Owner) (kind : Option String) (variants : List String)
    (declared : vast.shape? owner = some (.enumeration kind variants)) : variants.Nodup := by
  have listed := Catalog.mem_of_shape? declared
  simp only [vast, List.mem_cons, Prod.mk.injEq, reduceCtorEq, and_false, List.not_mem_nil,
    or_false] at listed

theorem tight_table : vast.Inhabits Atom.Tight .left (.declared ⟨"Table"⟩) table := by
  refine .of_fields rfl (.cons (fun _ => ?title) (.cons (fun _ => ?rows) .nil))
  case title => exact .atom (a := .string "t") (by decide)
  case rows => exact .list fun d hd => by cases hd

end Sample

namespace Session

open Sample

/-- A table that is neither written nor refused: the blanks of its rows are too many for a word. -/
theorem toPayload_error_vast :
    vastSession.Plain ∧ vastSession.limits.Words ∧ vast.Closed ∧
      vast.Declares (.declared ⟨"Table"⟩) ∧
      (∀ owner kind variants, vast.shape? owner = some (.enumeration kind variants) →
        variants.Nodup) ∧
      (vastSession.after []).answer (schemaOf (.declared ⟨"Table"⟩) >>= mapper) =
        .ok tableMapper ∧
      vast.Has (.declared ⟨"Table"⟩) table ∧
      Fingerprint.Identifies (vastSession.met
        ([] ++ [.use (.declared ⟨"Table"⟩) (.toPayload table)])) ∧
      vast.Inhabits Atom.Tight .left (.declared ⟨"Table"⟩) table ∧
      (tableMapper.measured (vast.toValue (.declared ⟨"Table"⟩) table)).Within .standard ∧
      (vastSession.after []).answer (toPayload (.declared ⟨"Table"⟩) table) =
        .error (.payload (.wordOverflow 64 288230376151711744)) := by
  have distinct : Fingerprint.Identifies (vastSession.met
      ([] ++ [.use (.declared ⟨"Table"⟩) (.toPayload table)])) := met_vast ▸ distinct_table
  have once := distinct_asked distinct asks_table
  have declares : vast.Declares (.declared ⟨"Table"⟩) := by
    rintro _ ⟨⟩
    rfl
  have accepted := mapper_after plain_vast.fresh assemble_table (read_of_asks asks_table) once
  have failed : tableMapper.encode (vast.toValue (.declared ⟨"Table"⟩) table) =
      .error (.wordOverflow 64 288230376151711744) := by cbv
  have measured : tableMapper.measured (vast.toValue (.declared ⟨"Table"⟩) table) =
      .record [.leaf 1, .repeated 64 (.record [.leaf 524282, .repeated 524288 (.record [
        .leaf 524281, .repeated 524288 (.leaf 1048575)])])] := by cbv
  have within : (tableMapper.measured
      (vast.toValue (.declared ⟨"Table"⟩) table)).Within .standard := by
    rw [measured]
    simp only [Layout.Within, Layout.AllWithin]
    decide
  have answered := toPayload_after plain_vast.fresh closed_vast declares asks_table assemble_table
    once
  exact ⟨plain_vast, Limits.words_standard, closed_vast, declares, variants_vast, accepted,
    tight_table.mono fun _ _ _ => trivial, distinct, tight_table, within,
    answered.trans (congrArg (Except.mapError SessionError.payload) failed)⟩

end Session

end Slotform
