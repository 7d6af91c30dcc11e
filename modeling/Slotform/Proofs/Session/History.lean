import Slotform.Proofs.Introspection.Closed
import Slotform.Proofs.Introspection.Runs
import Slotform.Proofs.Session
import Slotform.Proofs.Typed.Describe

/-!
# Sessions with a history

A session remembers models, schemas and mappers, and its reader gathers definitions. Whatever it
went through, it answers about a model what a session without history answers, or it reports that
the model's definitions conflict with others; and from such a report on it never answers anything
else about the model (`Session.answer_after`).
-/

namespace Slotform

open Typed

namespace Session

/-- What a session can be asked about a model. -/
inductive Query where
  | schemaOf
  | listSchemaOf
  | toPayload (datum : Datum)
  | fromPayload (text : List Char)
  | toPayloadList (data : List Datum)
  | fromPayloadList (text : List Char)

/-- What a session does for its user. -/
inductive Operation where
  | define (incoming : Registry)
  | use (model : Model) (query : Query)
  | decodeDynamic (text : List Char)

inductive Outcome where
  | done
  | schema (s : Schema)
  | text (t : List Char)
  | value (v : Value)
  | datum (d : Datum)

def ask (model : Model) : Query → Action Outcome
  | .schemaOf => do return .schema (← Session.schemaOf model)
  | .listSchemaOf => do return .schema (← Session.listSchemaOf model)
  | .toPayload datum => do return .text (← Session.toPayload model datum)
  | .fromPayload text => do return .datum (← Session.fromPayload model text)
  | .toPayloadList data => do return .text (← Session.toPayloadList model data)
  | .fromPayloadList text => do return .datum (← Session.fromPayloadList model text)

def perform : Operation → Action Outcome
  | .define incoming => do
    Session.define incoming
    return .done
  | .use model query => ask model query
  | .decodeDynamic text => do return .value (← Session.decodeDynamic text)

/-- The session after an operation, successful or not. -/
def next (σ : Session) (op : Operation) : Session := ((perform op).run.run σ).2

def after (σ : Session) (ops : List Operation) : Session := ops.foldl next σ

/-- A session that has not been used. -/
structure Fresh (σ : Session) : Prop where
  reader : σ.reader.memo.slots = []
  factory : σ.factory = .ofCodecs σ.factory.codecs
  registered : σ.registered.slots = []

theorem fresh_start (catalog : Catalog) (limits : Limits) (skip : SkipRule) (codecs : CodecTable) :
    (start catalog limits skip codecs).Fresh :=
  ⟨rfl, rfl, rfl⟩

/-- A report of conflicting definitions. -/
def Conflicted {α : Type} (answer : Except SessionError α) : Prop :=
  ∃ c, answer = .error (.read (.introspection (.conflictingDefinition c)))

/-! ## Queries in three steps

Every query describes the model, then reads the schema of the model or of lists of it, and goes on
from the schema. -/

/-- What remains to be done once the schema is known. -/
inductive Task where
  | look
  | write (datum : Datum)
  | read (text : List Char)

def Query.isListed : Query → Bool
  | listSchemaOf | toPayloadList _ | fromPayloadList _ => true
  | _ => false

/-- The model of the data that the query is about. -/
def Query.subject (model : Model) (query : Query) : Model :=
  if query.isListed then .list model else model

def Query.task : Query → Task
  | schemaOf | listSchemaOf => .look
  | toPayload datum => .write datum
  | toPayloadList data => .write (.list data)
  | fromPayload text | fromPayloadList text => .read text

def schemaFor (listed : Bool) (model : Model) : Action Schema := do
  let ty ← describe model
  if listed then schemaOfTy .rawList (some ty) else schemaOfTy ty none

def proceed (subject : Model) (schema : Schema) : Task → Action Outcome
  | .look => return .schema schema
  | .write datum => do
    return .text (← encodeValue schema ((← get).catalog.toValue subject datum))
  | .read text => do
    let value ← decodeValue schema text
    return .datum (← lift .conversion ((← get).catalog.ofValue subject value))

theorem ask_eq (model : Model) (query : Query) : ask model query =
    schemaFor query.isListed model >>= fun schema =>
      proceed (query.subject model) schema query.task := by
  cases query <;>
    simp [ask, schemaFor, proceed, Query.isListed, Query.subject, Query.task, schemaOf,
      listSchemaOf, toPayload, fromPayload, toPayloadList, fromPayloadList]

/-- The schemas whose mappers a task asks for. -/
def Task.asks (schema : Schema) : Task → List Schema
  | look => []
  | _ => [schema]

/-- The schemas whose mappers an operation asks for. -/
def asks (σ : Session) : Operation → List Schema
  | .define _ => []
  | .use model query =>
    match σ.answer (schemaFor query.isListed model) with
    | .ok schema => query.task.asks schema
    | .error _ => []
  | .decodeDynamic text =>
    match Header.readSchema σ.limits text with
    | .ok view => [view]
    | .error _ => []

/-- The schemas whose mappers operations in order ask for. -/
def met (σ : Session) : List Operation → List Schema
  | [] => []
  | op :: rest => σ.asks op ++ (σ.next op).met rest

/-! ## What a history leaves behind -/

/-- The definitions of the records that a model refers to. -/
abbrev definitionsOf (catalog : Catalog) (model : Model) : Registry :=
  (catalog.describe model .empty).2

/-- The type describes the model, and the model's definitions are known without conflict. -/
structure Described (catalog : Catalog) (r : Registry) (model : Model) (ty : Ty) : Prop where
  ty_eq : ty = catalog.ty model
  quiet : (definitionsOf catalog model).conflicts = []
  named : Reader.checkNames (definitionsOf catalog model).definitions = .ok ()
  known : r.Knows (definitionsOf catalog model)

/-- The second session has the settings of the first and at least its definitions. -/
structure Later (σ τ : Session) : Prop where
  catalog : τ.catalog = σ.catalog
  limits : τ.limits = σ.limits
  codecs : τ.factory.codecs = σ.factory.codecs
  skip : τ.reader.skip = σ.reader.skip
  readerLimits : τ.reader.limits = σ.reader.limits
  grows : σ.reader.registry.GrowsTo τ.reader.registry

/-- A session that has asked for the mappers of some schemas. Everything that it remembers is what
it would find out now. -/
structure Remembers (τ : Session) (asked : List Schema) : Prop where
  factory : τ.factory = .after τ.factory.codecs asked
  schemas : τ.reader.memo.Sound τ.reader.Computes
  models : τ.registered.Sound (Described τ.catalog τ.reader.registry)

theorem Later.refl (σ : Session) : σ.Later σ := ⟨rfl, rfl, rfl, rfl, rfl, .refl _⟩

theorem Later.trans {ρ σ τ : Session} (first : ρ.Later σ) (second : σ.Later τ) : ρ.Later τ :=
  ⟨second.catalog.trans first.catalog, second.limits.trans first.limits,
    second.codecs.trans first.codecs, second.skip.trans first.skip,
    second.readerLimits.trans first.readerLimits, first.grows.trans second.grows⟩

theorem Fresh.remembers {σ : Session} (fresh : σ.Fresh) : σ.Remembers [] where
  factory := fresh.factory
  schemas := by
    refine ⟨?_, ?_, ?_⟩ <;> rw [fresh.reader] <;> nofun
  models := by
    refine ⟨?_, ?_, ?_⟩ <;> rw [fresh.registered] <;> nofun

section Definitions

variable {catalog : Catalog} {r r' : Registry} {model : Model} {ty : Ty}
  {reader reader' : Reader} {incoming : Registry}

theorem Described.mono (h : Described catalog r model ty) (grows : r.GrowsTo r') :
    Described catalog r' model ty :=
  ⟨h.ty_eq, h.quiet, h.named, h.known.mono grows⟩

theorem growsTo_of_define (defined : reader.define incoming = .ok reader') :
    reader.registry.GrowsTo reader'.registry := by
  obtain ⟨registry, merged, rfl⟩ := Reader.define_ok defined
  exact Registry.merge_growsTo merged

/-- A model is described once its definitions have been accepted. -/
theorem described_of_define (defined : reader.define (definitionsOf catalog model) = .ok reader') :
    Described catalog reader'.registry model (catalog.ty model) := by
  obtain ⟨registry, merged, rfl⟩ := Reader.define_ok defined
  simp only [Reader.define, bind_eq_ok] at defined
  obtain ⟨_, named, _⟩ := defined
  exact ⟨rfl, (Registry.merge_ok_iff.1 ⟨_, merged⟩).1, named,
    Registry.merge_knows (Catalog.describe_distinct catalog model) merged⟩

/-- Whoever has fewer definitions accepts those of a described model. -/
theorem Described.define (h : Described catalog r model ty) (grows : reader.registry.GrowsTo r) :
    ∃ reader', reader.define (definitionsOf catalog model) = .ok reader' := by
  obtain ⟨registry, merged⟩ := Registry.merge_ok_iff.2 ⟨h.quiet, h.known.admits grows⟩
  exact ⟨_, by simp only [Reader.define, h.named, merged]; rfl⟩

end Definitions

section Steps

variable {τ : Session} {asked : List Schema} {model : Model}

/-- More definitions leave the settings alone, and every memory right. -/
theorem Remembers.grow (h : τ.Remembers asked) {incoming : Registry} {reader : Reader}
    (defined : τ.reader.define incoming = .ok reader) {registered : Memo Model Ty}
    (models : registered.Sound (Described τ.catalog reader.registry)) :
    τ.Later { τ with reader, registered } ∧
      ({ τ with reader, registered } : Session).Remembers asked := by
  have schemas := Reader.extend_sound h.schemas incoming
  simp only [Reader.extend, defined] at schemas
  have grows := growsTo_of_define defined
  obtain ⟨registry, _, rfl⟩ := Reader.define_ok defined
  exact ⟨⟨rfl, rfl, rfl, rfl, rfl, grows⟩, ⟨h.factory, schemas, models⟩⟩

theorem run_define (τ : Session) (incoming : Registry) :
    (Session.define incoming).run.run τ = match τ.reader.define incoming with
      | .ok reader => (.ok (), { τ with reader })
      | .error e => (.error (.read (.introspection e)), τ) := by
  unfold Session.define onReader
  rw [run_mk]
  dsimp only
  cases τ.reader.define incoming <;> rfl

theorem Remembers.define (h : τ.Remembers asked) (incoming : Registry) :
    τ.Later ((Session.define incoming).run.run τ).2 ∧
      ((Session.define incoming).run.run τ).2.Remembers asked := by
  rw [run_define]
  cases defined : τ.reader.define incoming with
  | error e => exact ⟨.refl τ, h⟩
  | ok reader =>
    exact h.grow defined (h.models.mono fun _ _ known => known.mono (growsTo_of_define defined))

theorem run_describe (τ : Session) (model : Model) :
    (describe model).run.run τ = match τ.registered.request model with
      | (.known kept, _) => (.ok kept.value, τ)
      | (.missing ticket, registered) => match τ.reader.define (definitionsOf τ.catalog model) with
        | .ok reader => (.ok (τ.catalog.ty model), { τ with
            reader
            registered := registered.settle ticket
              (.ok (τ.catalog.ty model) : Except IntrospectionError Ty) })
        | .error e => (.error (.read (.introspection e)), { τ with
            registered := registered.settle ticket (.error e : Except IntrospectionError Ty) }) := by
  have described : τ.catalog.describe model .empty =
      (τ.catalog.ty model, definitionsOf τ.catalog model) :=
    Prod.ext (Catalog.describe_fst _ _ _) rfl
  unfold describe
  simp only [ExceptT.run_bind, StateT.run_bind]
  show StateT.run (ExceptT.run (match τ.registered.request model with
    | (.known kept, _) => _
    | (.missing ticket, registered) => _)) τ = _
  rcases τ.registered.request model with ⟨kept | ticket, registered⟩
  · rfl
  · simp only [described]
    cases τ.reader.define (definitionsOf τ.catalog model) <;> rfl

/-- A model is described, or its definitions are refused as they would be at first use. -/
theorem Remembers.describe (h : τ.Remembers asked) (model : Model) :
    ∃ τ', τ.Later τ' ∧ τ'.Remembers asked ∧
      ((Session.describe model).run.run τ = (.ok (τ.catalog.ty model), τ') ∧
        Described τ.catalog τ'.reader.registry model (τ.catalog.ty model) ∨
      ∃ e, (Session.describe model).run.run τ = (.error (.read (.introspection e)), τ') ∧
        τ.reader.define (definitionsOf τ.catalog model) = .error e) := by
  rw [run_describe]
  rcases requested : τ.registered.request model with ⟨⟨ticket, ty⟩ | ticket, registered⟩
  · obtain ⟨_, known⟩ := Memo.request_known h.models requested
    obtain rfl : ty = τ.catalog.ty model := known.ty_eq
    exact ⟨τ, .refl τ, h, .inl ⟨rfl, known⟩⟩
  · obtain ⟨sound, _, _, own⟩ := Memo.request_missing h.models requested
    cases defined : τ.reader.define (definitionsOf τ.catalog model) with
    | ok reader =>
      have known := described_of_define defined
      have models : (registered.settle ticket
          (.ok (τ.catalog.ty model) : Except IntrospectionError Ty)).Sound
          (Described τ.catalog reader.registry) :=
        Memo.settle_sound (sound.mono fun _ _ before => before.mono (growsTo_of_define defined)) own
          (fun ty same => by cases same; exact known)
      obtain ⟨later, remembers⟩ := h.grow defined models
      exact ⟨_, later, remembers, .inl ⟨rfl, known⟩⟩
    | error e =>
      have models : (registered.settle ticket (.error e : Except IntrospectionError Ty)).Sound
          (Described τ.catalog τ.reader.registry) :=
        Memo.settle_sound sound own (fun _ wrong => nomatch wrong)
      refine ⟨_, ?_, ?_, .inr ⟨e, rfl, rfl⟩⟩
      · exact ⟨rfl, rfl, rfl, rfl, rfl, .refl _⟩
      · exact ⟨h.factory, h.schemas, models⟩

theorem run_schemaOfTy (τ : Session) (ty : Ty) (element : Option Ty) :
    (schemaOfTy ty element).run.run τ = ((Reader.remembering τ.reader ty element).1.mapError .read,
      { τ with reader := (Reader.remembering τ.reader ty element).2 }) := by
  unfold schemaOfTy onReader Reader.remembering
  rw [run_bind, run_mk]
  dsimp only
  rcases τ.reader.request ty element with ⟨_ | _, _⟩ <;> rfl

theorem Remembers.schemaOfTy (h : τ.Remembers asked) (ty : Ty) (element : Option Ty) :
    ∃ τ', τ.Later τ' ∧ τ'.Remembers asked ∧ (Session.schemaOfTy ty element).run.run τ =
      ((τ.reader.compute ty element).mapError .read, τ') := by
  obtain ⟨computed, same, sound⟩ := Reader.remembering_sound h.schemas ty element
  have registry := congrArg Reader.registry same
  have skip := congrArg Reader.skip same
  have limits := congrArg Reader.limits same
  have grows : τ.reader.registry.GrowsTo (Reader.remembering τ.reader ty element).2.registry :=
    fun _ _ found => registry ▸ found
  rw [run_schemaOfTy, computed]
  refine ⟨_, ?_, ?_, rfl⟩
  · exact ⟨rfl, rfl, rfl, skip, limits, grows⟩
  · exact ⟨h.factory, sound, h.models.mono fun _ _ known => known.mono grows⟩

/-- What a reader finds out about a type or about lists of its items. -/
def schemaNow (r : Reader) (listed : Bool) (ty : Ty) : Except ReadError Schema :=
  if listed then r.compute .rawList (some ty) else r.compute ty none

/-- The schema is read off a reader that knows the model's definitions, or they are refused. -/
theorem Remembers.schemaFor (h : τ.Remembers asked) (listed : Bool) (model : Model) :
    ∃ τ', τ.Later τ' ∧ τ'.Remembers asked ∧
      ((∃ τ₁, τ.Later τ₁ ∧ τ₁.Later τ' ∧
        Described τ.catalog τ₁.reader.registry model (τ.catalog.ty model) ∧
        (Session.schemaFor listed model).run.run τ =
          ((schemaNow τ₁.reader listed (τ.catalog.ty model)).mapError .read, τ')) ∨
      ∃ e, (Session.schemaFor listed model).run.run τ = (.error (.read (.introspection e)), τ') ∧
        τ.reader.define (definitionsOf τ.catalog model) = .error e) := by
  unfold Session.schemaFor
  rw [run_bind]
  obtain ⟨τ₁, later, remembers, ⟨run, described⟩ | ⟨e, run, refused⟩⟩ := h.describe model
  · obtain ⟨τ', later', remembers', requested⟩ : ∃ τ', τ₁.Later τ' ∧ τ'.Remembers asked ∧
        (if listed then Session.schemaOfTy .rawList (some (τ.catalog.ty model))
          else Session.schemaOfTy (τ.catalog.ty model) none).run.run τ₁ =
          ((schemaNow τ₁.reader listed (τ.catalog.ty model)).mapError .read, τ') := by
      cases listed
      · exact remembers.schemaOfTy _ _
      · exact remembers.schemaOfTy _ _
    refine ⟨τ', later.trans later', remembers', .inl ⟨τ₁, later, later', described, ?_⟩⟩
    rw [run]
    exact requested
  · exact ⟨τ₁, later, remembers, .inr ⟨e, by rw [run], refused⟩⟩

/-- What a session finds out about a schema with its mapper. -/
def reply (σ : Session) (subject : Model) (schema : Schema) (made : Except MappingError Mapper) :
    Task → Except SessionError Outcome
  | .look => .ok (.schema schema)
  | .write datum => do
    let m ← made.mapError .mapping
    let text ← (m.encode (σ.catalog.toValue subject datum)).mapError .payload
    .ok (.text text)
  | .read text => do
    let m ← made.mapError .mapping
    let value ← (m.decode σ.limits text).mapError .payload
    let datum ← (σ.catalog.ofValue subject value).mapError .conversion
    .ok (.datum datum)

/-- The session after a task has asked for the mapper of a schema. -/
def asking (τ : Session) (schema : Schema) : Task → Session
  | .look => τ
  | _ => { τ with factory := (τ.factory.create schema).2 }

theorem run_proceed (τ : Session) (subject : Model) (schema : Schema) (task : Task) :
    (proceed subject schema task).run.run τ =
      (τ.reply subject schema ((τ.factory.create schema).1.map Kept.value) task,
        τ.asking schema task) := by
  cases task with
  | look => rfl
  | write datum =>
    show (encodeValue schema (τ.catalog.toValue subject datum) >>= fun text =>
      (pure (.text text) : Action Outcome)).run.run τ = _
    rw [run_bind, run_encodeValue, reply]
    cases (τ.factory.create schema).1 with
    | error e => rfl
    | ok kept =>
      simp only [Except.map, Except.mapError, bind, Except.bind]
      cases kept.value.encode (τ.catalog.toValue subject datum) <;> rfl
  | read text =>
    rw [proceed, run_bind, run_decodeValue, reply]
    cases (τ.factory.create schema).1 with
    | error e => rfl
    | ok kept =>
      simp only [Except.map, Except.mapError, bind, Except.bind]
      cases kept.value.decode τ.limits text with
      | error e => rfl
      | ok value =>
        show (lift SessionError.conversion (τ.catalog.ofValue subject value) >>= fun datum =>
          (pure (.datum datum) : Action Outcome)).run.run (τ.asking schema (.read text)) = _
        rw [run_bind, lift, run_mk]
        dsimp only
        cases τ.catalog.ofValue subject value <;> rfl

theorem Remembers.create (h : τ.Remembers asked) (schema : Schema) :
    τ.Later { τ with factory := (τ.factory.create schema).2 } ∧
      ({ τ with factory := (τ.factory.create schema).2 } : Session).Remembers
        (asked ++ [schema]) := by
  refine ⟨⟨rfl, rfl, rfl, rfl, rfl, .refl _⟩, ⟨?_, h.schemas, h.models⟩⟩
  show (τ.factory.create schema).2 = .after τ.factory.codecs (asked ++ [schema])
  rw [Factory.after, List.foldl_append, ← Factory.after, ← h.factory]
  rfl

theorem Remembers.proceed (h : τ.Remembers asked) (schema : Schema) (task : Task) :
    τ.Later (τ.asking schema task) ∧
      (τ.asking schema task).Remembers (asked ++ task.asks schema) := by
  cases task with
  | look => exact ⟨.refl τ, by rwa [Task.asks, List.append_nil]⟩
  | write => exact h.create schema
  | read => exact h.create schema

/-- Where fingerprints tell schemas apart, a session that has asked for mappers makes the one that
can be assembled, or fails for the same reason. -/
theorem Remembers.reply (h : τ.Remembers asked) (subject : Model) (schema : Schema) (task : Task)
    (distinct : Fingerprint.Identifies (asked ++ task.asks schema)) :
    τ.reply subject schema ((τ.factory.create schema).1.map Kept.value) task =
      τ.reply subject schema (τ.factory.codecs.assemble schema) task := by
  have made (distinct : Fingerprint.Identifies (asked ++ [schema])) :
      (τ.factory.create schema).1.map Kept.value = τ.factory.codecs.assemble schema := by
    rw [← Factory.create_value distinct, ← h.factory]
  cases task with
  | look => rfl
  | write datum => rw [made distinct]
  | read text => rw [made distinct]

/-! ## Operations -/

theorem run_ask (τ : Session) (model : Model) (query : Query) :
    (ask model query).run.run τ = match (schemaFor query.isListed model).run.run τ with
      | (.ok schema, τ') => (τ'.reply (query.subject model) schema
          ((τ'.factory.create schema).1.map Kept.value) query.task, τ'.asking schema query.task)
      | (.error e, τ') => (.error e, τ') := by
  rw [ask_eq, run_bind]
  rcases (schemaFor query.isListed model).run.run τ with ⟨e | schema, τ'⟩
  · rfl
  · exact run_proceed τ' (query.subject model) schema query.task

/-- One operation: the session is a later one, and everything that it remembers is right. -/
theorem Remembers.next (h : τ.Remembers asked) (op : Operation) :
    τ.Later (τ.next op) ∧ (τ.next op).Remembers (asked ++ τ.asks op) := by
  cases op with
  | define incoming =>
    have state : τ.next (.define incoming) = ((Session.define incoming).run.run τ).2 := by
      rw [Session.next, perform, run_bind]
      rcases (Session.define incoming).run.run τ with ⟨_ | _, _⟩ <;> rfl
    rw [state, asks, List.append_nil]
    exact h.define incoming
  | use model query =>
    rw [Session.next, perform, run_ask, asks, answer]
    obtain ⟨τ', later, remembers, ⟨_, _, _, _, run⟩ | ⟨e, run, _⟩⟩ :=
      h.schemaFor query.isListed model
    · rw [run]
      cases schemaNow _ query.isListed (τ.catalog.ty model) with
      | error e => exact ⟨later, by rwa [Except.mapError, List.append_nil]⟩
      | ok schema =>
        obtain ⟨later', remembers'⟩ := remembers.proceed schema query.task
        exact ⟨later.trans later', remembers'⟩
    · rw [run]
      exact ⟨later, by rwa [List.append_nil]⟩
  | decodeDynamic text =>
    have state : τ.next (.decodeDynamic text) = ((Session.decodeDynamic text).run.run τ).2 := by
      rw [Session.next, perform, run_bind]
      rcases (Session.decodeDynamic text).run.run τ with ⟨_ | _, _⟩ <;> rfl
    rw [state, asks, run_decodeDynamic]
    cases Header.readSchema τ.limits text with
    | error e => exact ⟨.refl τ, by rwa [List.append_nil]⟩
    | ok view =>
      have made : ((decodeValue view text).run.run τ).2 =
          { τ with factory := (τ.factory.create view).2 } := by
        rw [run_decodeValue]
        cases (τ.factory.create view).1 <;> rfl
      dsimp only
      rw [made]
      exact h.create view

/-- A whole run. -/
theorem Remembers.after (h : τ.Remembers asked) (ops : List Operation) :
    τ.Later (τ.after ops) ∧ (τ.after ops).Remembers (asked ++ τ.met ops) := by
  induction ops generalizing τ asked with
  | nil => exact ⟨.refl τ, by rwa [met, List.append_nil]⟩
  | cons op rest ih =>
    obtain ⟨later, remembers⟩ := h.next op
    obtain ⟨later', remembers'⟩ := ih remembers
    exact ⟨later.trans later', by rwa [met, ← List.append_assoc]⟩

theorem after_append (τ : Session) (earlier later : List Operation) :
    τ.after (earlier ++ later) = (τ.after earlier).after later := List.foldl_append

theorem met_append (τ : Session) (earlier later : List Operation) :
    τ.met (earlier ++ later) = τ.met earlier ++ (τ.after earlier).met later := by
  induction earlier generalizing τ with
  | nil => rfl
  | cons op rest ih => rw [List.cons_append, met, met, ih, List.append_assoc]; rfl

end Steps

/-! ## Answers -/

section Answers

variable {σ τ τ' : Session} {asked asked' : List Schema} {model : Model}

theorem Later.reply_eq (h : σ.Later τ) (subject : Model) (schema : Schema)
    (made : Except MappingError Mapper) (task : Task) :
    τ.reply subject schema made task = σ.reply subject schema made task := by
  cases task <;> simp only [reply, h.catalog, h.limits]

/-- What is answered when a reader that knows a model's definitions has found out its schema. -/
structure Answers (τ : Session) (asked : List Schema) (model : Model) (query : Query)
    (found : Except ReadError Schema) : Prop where
  asks : τ.asks (.use model query) = match found with
    | .ok schema => query.task.asks schema
    | .error _ => []
  refused : ∀ e, found = .error e → τ.answer (ask model query) = .error (.read e)
  made : ∀ schema, found = .ok schema → ∃ made, τ.answer (ask model query) =
    τ.reply (query.subject model) schema made query.task ∧
      (Fingerprint.Identifies (asked ++ query.task.asks schema) → τ.answer (ask model query) =
        τ.reply (query.subject model) schema (τ.factory.codecs.assemble schema) query.task)

/-- A query about a model is answered out of the model's definitions, or they are refused as they
would be at first use. -/
theorem Remembers.answers (h : τ.Remembers asked) (model : Model) (query : Query) :
    (∃ τ₁, τ.Later τ₁ ∧ Described τ.catalog τ₁.reader.registry model (τ.catalog.ty model) ∧
      τ.Answers asked model query
        (schemaNow τ₁.reader query.isListed (τ.catalog.ty model))) ∨
    ∃ e, τ.answer (ask model query) = .error (.read (.introspection e)) ∧
      τ.reader.define (definitionsOf τ.catalog model) = .error e := by
  obtain ⟨τ', later, remembers, ⟨τ₁, later₁, _, described, run⟩ | ⟨e, run, refused⟩⟩ :=
    h.schemaFor query.isListed model
  · refine .inl ⟨τ₁, later₁, described, ⟨?_, fun e found => ?_, fun schema found => ?_⟩⟩
    · rw [asks, answer, run]
      cases schemaNow τ₁.reader query.isListed (τ.catalog.ty model) <;> rfl
    · rw [answer, run_ask, run, found]
      rfl
    · have made : τ.answer (ask model query) = τ'.reply (query.subject model) schema
          ((τ'.factory.create schema).1.map Kept.value) query.task := by
        rw [answer, run_ask, run, found]
        rfl
      refine ⟨_, made.trans (later.reply_eq ..), fun distinct => made.trans ?_⟩
      rw [remembers.reply _ _ _ distinct, later.codecs]
      exact later.reply_eq ..
  · exact .inr ⟨e, by rw [answer, run_ask, run], refused⟩

/-- Readers that know a model's definitions find out the same about it. -/
theorem schemaNow_eq (closed : σ.catalog.Closed) (declares : σ.catalog.Declares model)
    (first : σ.Later τ) (second : σ.Later τ') (listed : Bool)
    (h : Described σ.catalog τ.reader.registry model (σ.catalog.ty model))
    (h' : Described σ.catalog τ'.reader.registry model (σ.catalog.ty model)) :
    schemaNow τ.reader listed (σ.catalog.ty model) =
      schemaNow τ'.reader listed (σ.catalog.ty model) := by
  obtain ⟨inside, defines⟩ := Catalog.describe_defines closed declares h.quiet
  obtain ⟨single, many⟩ := Reader.compute_closed inside defines h.known.growsTo h'.known.growsTo
    (first.skip.trans second.skip.symm) (first.readerLimits.trans second.readerLimits.symm)
  cases listed
  · exact single
  · exact many

/-- A refusal is about a name, whatever is known, or about conflicting definitions. -/
theorem define_refused {reader : Reader} {incoming : Registry} {e : IntrospectionError}
    (refused : reader.define incoming = .error e) :
    Reader.checkNames incoming.definitions = .error e ∨
      Reader.checkNames incoming.definitions = .ok () ∧
        ∃ c, e = .conflictingDefinition c := by
  simp only [Reader.define] at refused
  cases named : Reader.checkNames incoming.definitions with
  | error e' =>
    rw [named] at refused
    exact .inl (congrArg Except.error (Except.error.inj refused))
  | ok =>
    rw [named] at refused
    refine .inr ⟨rfl, ?_⟩
    cases merged : reader.registry.merge incoming with
    | error c =>
      rw [merged] at refused
      exact ⟨c, (Except.error.inj refused).symm⟩
    | ok registry =>
      rw [merged] at refused
      cases refused

theorem checkNames_ne_conflict (definitions : List Definition) (c : NameConflict) :
    Reader.checkNames definitions ≠ .error (.conflictingDefinition c) := by
  induction definitions with
  | nil =>
    intro h
    cases h
  | cons d rest ih =>
    rw [Reader.checkNames, checkName]
    cases nameFault? d.name with
    | none => exact ih
    | some fault =>
      intro h
      cases h

theorem reply_not_conflicted (τ : Session) (subject : Model) (schema : Schema)
    (made : Except MappingError Mapper) (task : Task) :
    ¬ Conflicted (τ.reply subject schema made task) := by
  rintro ⟨c, conflict⟩
  cases task with
  | look => cases conflict
  | write datum =>
    cases made with
    | error e => cases conflict
    | ok m =>
      cases encoded : m.encode (τ.catalog.toValue subject datum) <;>
        simp [reply, encoded, Except.mapError, bind, Except.bind] at conflict
  | read text =>
    cases made with
    | error e => cases conflict
    | ok m =>
      cases decoded : m.decode τ.limits text with
      | error e => simp [reply, decoded, Except.mapError, bind, Except.bind] at conflict
      | ok value =>
        cases converted : τ.catalog.ofValue subject value <;>
          simp [reply, decoded, converted, Except.mapError, bind, Except.bind] at conflict

/-- What is found out about a model whose definitions are known is never a conflict. -/
theorem Answers.not_conflicted {query : Query} {reader : Reader} {ty : Ty}
    (h : τ.Answers asked model query (schemaNow reader query.isListed ty)) :
    ¬ Conflicted (τ.answer (ask model query)) := by
  have unconflicting : Unconflicting (schemaNow reader query.isListed ty) := by
    unfold schemaNow
    split
    · exact (reader.compute_unconflicting ty).2
    · exact (reader.compute_unconflicting ty).1
  cases found : schemaNow reader query.isListed ty with
  | error e =>
    rw [h.refused e found]
    rintro ⟨c, conflict⟩
    cases conflict
    exact unconflicting c found
  | ok schema =>
    obtain ⟨made, same, _⟩ := h.made schema found
    rw [same]
    exact reply_not_conflicted τ _ schema made _

/-- Two sessions with the same settings that have found out the same answer the same. -/
theorem Answers.eq {query : Query} {found : Except ReadError Schema}
    (h : σ.Answers asked model query found) (h' : τ.Answers asked' model query found)
    (later : σ.Later τ)
    (distinct : Fingerprint.Identifies (asked ++ σ.asks (.use model query)))
    (distinct' : Fingerprint.Identifies (asked' ++ τ.asks (.use model query))) :
    τ.answer (ask model query) = σ.answer (ask model query) := by
  rw [h.asks] at distinct
  rw [h'.asks] at distinct'
  cases found with
  | error e => rw [h.refused e rfl, h'.refused e rfl]
  | ok schema =>
    obtain ⟨_, _, assembles⟩ := h.made schema rfl
    obtain ⟨_, _, assembles'⟩ := h'.made schema rfl
    rw [assembles distinct, assembles' distinct', later.codecs, later.reply_eq]

/-- Conflicting definitions are all that a model can be refused for once its names have been
accepted. -/
theorem conflicted_of_refused {query : Query} {e : IntrospectionError}
    (answered : τ.answer (ask model query) = .error (.read (.introspection e)))
    (refused : τ.reader.define (definitionsOf τ.catalog model) = .error e)
    (named : Reader.checkNames (definitionsOf τ.catalog model).definitions = .ok ()) :
    Conflicted (τ.answer (ask model query)) := by
  rcases define_refused refused with wrong | ⟨_, c, rfl⟩
  · cases named.symm.trans wrong
  · exact ⟨c, answered⟩

/-- Once a conflict was reported for a model it is reported from then on. -/
theorem Remembers.conflicted_later (h : τ.Remembers asked) (later : τ.Later τ')
    (h' : τ'.Remembers asked') {query query' : Query}
    (conflict : Conflicted (τ.answer (ask model query))) :
    Conflicted (τ'.answer (ask model query')) := by
  rcases h.answers model query with ⟨τ₁, _, _, answers⟩ | ⟨e, answered, refused⟩
  · exact absurd conflict answers.not_conflicted
  · obtain ⟨c, conflict⟩ := conflict
    cases answered.symm.trans conflict
    rcases define_refused refused with wrong | ⟨named, _⟩
    · exact absurd wrong (checkNames_ne_conflict _ c)
    · rcases h'.answers model query' with ⟨τ₁, later₁, described, _⟩ | ⟨e, answered, refused'⟩
      · obtain ⟨_, accepted⟩ := described.define (later.trans later₁).grows
        rw [later.catalog, refused] at accepted
        cases accepted
      · exact conflicted_of_refused answered refused' (later.catalog ▸ named)

/-- Whatever a session went through, it answers a query about a model as it would have answered it
before, or it reports a conflict. Once it has reported a conflict for a model it does so from then
on, whatever it is asked about the model. -/
theorem answer_after (fresh : σ.Fresh) (closed : σ.catalog.Closed)
    (declares : σ.catalog.Declares model) (past : List Operation) (query : Query)
    (distinct : Fingerprint.Identifies (σ.met (past ++ [.use model query]))) :
    ((σ.after past).answer (ask model query) = σ.answer (ask model query) ∨
        Conflicted ((σ.after past).answer (ask model query))) ∧
      (Conflicted ((σ.after past).answer (ask model query)) → ∀ later query',
        Conflicted ((σ.after (past ++ [.use model query] ++ later)).answer
          (ask model query'))) := by
  have remembers := fresh.remembers
  obtain ⟨later, remembers'⟩ := remembers.after past
  rw [List.nil_append] at remembers'
  constructor
  · rw [met_append, met, met, List.append_nil] at distinct
    rcases remembers'.answers model query with ⟨τ₁, later₁, known, answers⟩ | ⟨e, answered, refused⟩
    · rcases remembers.answers model query with ⟨σ₁, laterσ, knownσ, answersσ⟩ | ⟨e, _, refused⟩
      · left
        rw [later.catalog] at known answers
        rw [schemaNow_eq closed declares (later.trans later₁) laterσ query.isListed known knownσ]
          at answers
        refine answersσ.eq answers later (distinct.mono fun s hs => ?_) distinct
        rw [List.nil_append, answersσ.asks, ← answers.asks] at hs
        exact List.mem_append_right _ hs
      · obtain ⟨_, accepted⟩ := known.define (later.trans later₁).grows
        rw [later.catalog, refused] at accepted
        cases accepted
    · rcases define_refused refused with wrong | ⟨named, c, rfl⟩
      · left
        rw [later.catalog] at wrong
        rcases remembers.answers model query with ⟨σ₁, _, knownσ, _⟩ | ⟨e', answered', refused'⟩
        · cases knownσ.named.symm.trans wrong
        · rcases define_refused refused' with wrong' | ⟨named, _⟩
          · cases wrong.symm.trans wrong'
            rw [answered, answered']
          · cases named.symm.trans wrong
      · exact .inr ⟨c, answered⟩
  · intro conflict more query'
    rw [List.append_assoc, after_append]
    obtain ⟨later', remembers''⟩ := remembers'.after ([.use model query] ++ more)
    exact remembers'.conflicted_later later' remembers'' conflict

end Answers

end Session

namespace Sample

open Typed

/-- A shop's customers refer to phones; another record goes by the name of a phone, too. -/
def shop : Catalog := [
  (⟨"Phone"⟩, .record "Phone" [⟨"number", .primitive .string, .unset, none, .required⟩]),
  (⟨"desk::Phone"⟩, .record "Phone" [⟨"digits", .primitive .u8, .unset, none, .required⟩]),
  (⟨"Customer"⟩, .record "Customer" [
    ⟨"phone", .declared ⟨"Phone"⟩, .unset, none, .required⟩])]

def shopSession : Session := .start shop .standard .flagged []

/-- Definitions by hand, a payload without a type, and two records of one name. -/
def shopHistory : List Session.Operation := [
  .define people,
  .decodeDynamic "u8(1)7".toList,
  .use (.declared ⟨"Phone"⟩) (.toPayload (.record [.atom (.string "12")])),
  .use (.declared ⟨"desk::Phone"⟩) .listSchemaOf]

def customerQuery : Session.Query := .toPayload (.record [.record [.atom (.string "12")]])

/-- The schemas of the payload without a type, of the first record, and of customers. -/
def shopSchemas : List Schema :=
  let members : List Schema := [.ofKind "number" (.primitive .string)]
  [.ofKind "root" (.primitive .u8), .ofMembers "Phone" "Phone" members,
    .ofMembers "Customer" "Customer" [.ofMembers "phone" "Phone" members]]

theorem closed_shop : shop.Closed := by
  intro owner typeName members declared m hm _ inner refers
  have listed := Catalog.mem_of_shape? declared
  simp only [shop, List.mem_cons, Prod.mk.injEq, Shape.record.injEq, List.not_mem_nil,
    or_false] at listed
  rcases listed with ⟨_, _, rfl⟩ | ⟨_, _, rfl⟩ | ⟨_, _, rfl⟩ <;>
    obtain rfl := List.mem_singleton.1 hm
  · cases refers
  · cases refers
  · cases refers
    rfl

theorem met_shop : shopSession.met
    (shopHistory ++ [.use (.declared ⟨"Customer"⟩) customerQuery]) = shopSchemas := by
  decide +kernel

theorem distinct_shop : Fingerprint.Identifies shopSchemas := by decide +kernel

end Sample

namespace Session

open Sample

theorem answer_after_shop :
    shopSession.Fresh ∧ shop.Closed ∧ shop.Declares (.declared ⟨"Customer"⟩) ∧
      Fingerprint.Identifies (shopSession.met
        (shopHistory ++ [.use (.declared ⟨"Customer"⟩) customerQuery])) ∧
      ((shopSession.after shopHistory).answer (ask (.declared ⟨"Customer"⟩) customerQuery) =
          shopSession.answer (ask (.declared ⟨"Customer"⟩) customerQuery) ∨
        Conflicted ((shopSession.after shopHistory).answer
          (ask (.declared ⟨"Customer"⟩) customerQuery))) := by
  have distinct : Fingerprint.Identifies (shopSession.met
      (shopHistory ++ [.use (.declared ⟨"Customer"⟩) customerQuery])) :=
    met_shop ▸ distinct_shop
  have fresh : shopSession.Fresh := fresh_start shop .standard .flagged []
  have declares : shop.Declares (.declared ⟨"Customer"⟩) := by
    rintro _ ⟨⟩
    rfl
  exact ⟨fresh, closed_shop, declares, distinct,
    (answer_after fresh closed_shop declares shopHistory customerQuery distinct).1⟩

end Session

end Slotform
