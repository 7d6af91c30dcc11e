import Slotform.Proofs.Introspection.Definitions
import Slotform.Proofs.Introspection.ListRoots
import Slotform.Proofs.Session.History

/-!
# Lists of a model

A list of data is read and written either through the model of its items, which then is an explicit
element type of a list of unknown items, or through the model of the list itself. Both describe the
same records, so they find the same definitions in the session's reader, and the same schema; from
there on they do the same. Whatever a session went through, if either of them is answered the other
gives the same answer (`Session.answer_listed`).
-/

namespace Slotform

open Typed

namespace Session

/-- The query that asks about the model of lists what the query asks about lists of the model. -/
def Query.ofList : Query → Query
  | listSchemaOf => schemaOf
  | toPayloadList data => toPayload (.list data)
  | fromPayloadList text => fromPayload text
  | query => query

/-- The second session is the first with more definitions, up to what is known of models. -/
structure Adds (τ : Session) (incoming : Registry) (τ' : Session) : Prop where
  lookups : ∀ name,
    τ'.reader.registry.get? name = (τ.reader.registry.get? name).or (incoming.get? name)
  skip : τ'.reader.skip = τ.reader.skip
  readerLimits : τ'.reader.limits = τ.reader.limits
  memo : τ'.reader.memo = τ.reader.memo
  catalog : τ'.catalog = τ.catalog
  limits : τ'.limits = τ.limits
  factory : τ'.factory = τ.factory

variable {τ τ' τ₁ τ₂ : Session} {asked : List Schema} {model : Model} {ty : Ty}

/-- Sessions with the same definitions added have readers that answer alike. -/
theorem Adds.alike {incoming : Registry} (h₁ : τ.Adds incoming τ₁) (h₂ : τ.Adds incoming τ₂) :
    τ₁.reader.Alike τ₂.reader where
  lookups := funext fun name => (h₁.lookups name).trans (h₂.lookups name).symm
  skip := h₁.skip.trans h₂.skip.symm
  limits := h₁.readerLimits.trans h₂.readerLimits.symm
  memo := h₁.memo.trans h₂.memo.symm

/-- Describing a model adds its definitions, or finds them there. -/
theorem Remembers.describe_adds (h : τ.Remembers asked)
    (run : (Session.describe model).run.run τ = (.ok ty, τ')) :
    τ.Adds (definitionsOf τ.catalog model) τ' := by
  rw [run_describe] at run
  rcases requested : τ.registered.request model with ⟨⟨ticket, known⟩ | ticket, registered⟩
  · rw [requested] at run
    cases run
    obtain ⟨_, described⟩ := Memo.request_known h.models requested
    refine ⟨fun name => ?_, rfl, rfl, rfl, rfl, rfl, rfl⟩
    cases present : τ.reader.registry.get? name with
    | some d => rfl
    | none =>
      cases brought : (definitionsOf τ.catalog model).get? name with
      | none => rfl
      | some d => cases present.symm.trans (described.known.growsTo name d brought)
  · rw [requested] at run
    cases defined : τ.reader.define (definitionsOf τ.catalog model) with
    | error e =>
      simp only [defined] at run
      cases run
    | ok reader =>
      simp only [defined] at run
      cases run
      obtain ⟨registry, merged, rfl⟩ := Reader.define_ok defined
      exact ⟨Registry.get?_merge merged, rfl, rfl, rfl, rfl, rfl, rfl⟩

/-- A model and the model of its lists refer to the same records. -/
theorem definitionsOf_list (catalog : Catalog) (model : Model) :
    definitionsOf catalog (.list model) = definitionsOf catalog model := by
  unfold definitionsOf Catalog.describe
  rw [Model.declared?]
  cases model.declared? <;> rfl

/-- Either both a model and the model of its lists are described, in sessions with the same
definitions, or neither is. -/
theorem Remembers.describe_list (h : τ.Remembers asked) (model : Model) :
    (∃ τ₁ τ₂, (Session.describe model).run.run τ = (.ok (τ.catalog.ty model), τ₁) ∧
      (Session.describe (.list model)).run.run τ = (.ok (.list (τ.catalog.ty model)), τ₂) ∧
      τ₁.Remembers asked ∧ τ₂.Remembers asked ∧
      τ.Adds (definitionsOf τ.catalog model) τ₁ ∧ τ.Adds (definitionsOf τ.catalog model) τ₂) ∨
    ∃ e₁ e₂ τ₁ τ₂, (Session.describe model).run.run τ = (.error e₁, τ₁) ∧
      (Session.describe (.list model)).run.run τ = (.error e₂, τ₂) := by
  obtain ⟨τ₁, later₁, remembers₁, single⟩ := h.describe model
  obtain ⟨τ₂, later₂, remembers₂, many⟩ := h.describe (.list model)
  rcases single with ⟨run₁, described₁⟩ | ⟨e₁, run₁, refused₁⟩ <;>
    rcases many with ⟨run₂, described₂⟩ | ⟨e₂, run₂, refused₂⟩
  · have added := h.describe_adds run₂
    rw [definitionsOf_list] at added
    exact .inl ⟨τ₁, τ₂, run₁, run₂, remembers₁, remembers₂, h.describe_adds run₁, added⟩
  · obtain ⟨_, accepted⟩ := described₁.define later₁.grows
    rw [definitionsOf_list] at refused₂
    cases accepted.symm.trans refused₂
  · obtain ⟨_, accepted⟩ := described₂.define later₂.grows
    rw [definitionsOf_list] at accepted
    cases accepted.symm.trans refused₁
  · exact .inr ⟨_, _, τ₁, τ₂, run₁, run₂⟩

/-- Once the model is described, a query reads a schema and goes on from it. -/
theorem answer_ask_described (run : (describe model).run.run τ = (.ok ty, τ₁))
    (remembers : τ₁.Remembers asked) (query : Query) :
    τ.answer (ask model query) =
      (schemaNow τ₁.reader query.isListed ty).mapError .read >>= fun schema =>
        τ₁.reply (query.subject model) schema ((τ₁.factory.create schema).1.map Kept.value)
          query.task := by
  have read : (schemaFor query.isListed model).run.run τ =
      ((schemaNow τ₁.reader query.isListed ty).mapError .read, { τ₁ with
        reader := (Reader.remembering τ₁.reader (if query.isListed then .rawList else ty)
          (if query.isListed then some ty else none)).2 }) := by
    unfold schemaFor schemaNow
    rw [run_bind, run]
    cases query.isListed <;>
      simp only [Bool.false_eq_true, if_false, if_true, run_schemaOfTy,
        (Reader.remembering_sound remembers.schemas _ _).1]
  rw [answer, run_ask, read]
  cases schemaNow τ₁.reader query.isListed ty with
  | error e => rfl
  | ok schema => cases query.task <;> rfl

/-- What is answered about lists of a model is answered about the model of the lists. -/
theorem Remembers.answer_ofList (h : τ.Remembers asked) (model : Model) (query : Query)
    (listed : query.isListed = true) (outcome : Outcome) :
    τ.answer (ask model query) = .ok outcome ↔
      τ.answer (ask (.list model) query.ofList) = .ok outcome := by
  have single : query.ofList.isListed = false := by cases query <;> rfl
  have task : query.ofList.task = query.task := by cases query <;> rfl
  have subject : query.subject model = .list model := by rw [Query.subject, listed]; rfl
  have subject' : query.ofList.subject (.list model) = .list model := by
    rw [Query.subject, single]
    rfl
  rcases h.describe_list model with ⟨τ₁, τ₂, run₁, run₂, remembers₁, remembers₂, adds₁, adds₂⟩ |
    ⟨e₁, e₂, τ₁, τ₂, run₁, run₂⟩
  · have schemas (s : Schema) : schemaNow τ₁.reader true (τ.catalog.ty model) = .ok s ↔
        schemaNow τ₂.reader false (.list (τ.catalog.ty model)) = .ok s := by
      show τ₁.reader.compute .rawList (some _) = .ok s ↔ τ₂.reader.compute (.list _) none = .ok s
      rw [← (adds₁.alike adds₂).compute]
      have raw : τ₁.reader.registry.resolve .rawList = .ok (.list .value) :=
        Registry.resolveFrom_unnamed (by simp [Ty.rawList])
      exact Reader.compute_list raw ⟨.value, Registry.resolveFrom_unnamed (by simp)⟩
    have replies (s : Schema) : τ₁.reply (.list model) s
        ((τ₁.factory.create s).1.map Kept.value) query.task = τ₂.reply (.list model) s
        ((τ₂.factory.create s).1.map Kept.value) query.task := by
      rw [adds₁.factory, adds₂.factory]
      cases query.task <;>
        simp only [Session.reply, adds₁.catalog, adds₂.catalog, adds₁.limits, adds₂.limits]
    rw [answer_ask_described run₁ remembers₁, answer_ask_described run₂ remembers₂, listed, single,
      task, subject, subject']
    simp only [bind_eq_ok, mapError_eq_ok, schemas, replies]
  · have refused (listed : Bool) (model : Model) {e : SessionError} {τ' : Session}
        (run : (Session.describe model).run.run τ = (.error e, τ')) :
        (Session.schemaFor listed model).run.run τ = (.error e, τ') := by
      rw [Session.schemaFor, run_bind, run]
    rw [answer, answer, run_ask, run_ask, refused _ _ run₁, refused _ _ run₂]
    simp

/-- Answers that are passed on under different constructors are the same if these are. -/
theorem answer_iff {α β : Type} {step step' : Action α} (wrap : α → β)
    (injective : ∀ a b, wrap a = wrap b → a = b)
    (same : ∀ b, τ.answer (step >>= fun a => pure (wrap a)) = .ok b ↔
      τ.answer (step' >>= fun a => pure (wrap a)) = .ok b) (a : α) :
    τ.answer step = .ok a ↔ τ.answer step' = .ok a := by
  have passed (step : Action α) :
      τ.answer (step >>= fun a => pure (wrap a)) = .ok (wrap a) ↔ τ.answer step = .ok a := by
    rw [answer, answer, run_bind]
    rcases step.run.run τ with ⟨e | a', τ'⟩
    · simp
    · constructor
      · intro h
        exact congrArg Except.ok (injective _ _ (Except.ok.inj h))
      · rintro ⟨⟩
        rfl
  rw [← passed step, ← passed step']
  exact same (wrap a)

/-- An explicit element type of a list, of an optional list or of a dynamic root is as good as one
that is declared. So a session answers about lists of a model, after any history, exactly if it
answers about the model of the lists, and it answers the same. -/
theorem answer_listed :
    (∀ (registry : Registry) (skip : SkipStrategy) (limits : Limits) (root element : Ty),
      let explicit := ((Reader.start registry skip limits).readWithElement root element).1.map
        Kept.value
      let plain (ty : Ty) := ((Reader.start registry skip limits).read ty).1.map Kept.value
      (∀ item, registry.resolve root = .ok (.list item) → (∃ t, registry.resolve item = .ok t) →
        ∀ s, explicit = .ok s ↔ plain (.list element) = .ok s) ∧
      (∀ inner item, registry.resolve root = .ok (.option inner) →
        registry.resolve inner = .ok (.list item) → (∃ t, registry.resolve item = .ok t) →
        ∀ s, explicit = .ok s ↔ plain (.option (.list element)) = .ok s) ∧
      (registry.resolve root = .ok .value → ∀ s, explicit = .ok s ↔
        (∀ item, registry.resolve element ≠ .ok (.list item)) ∧ plain element = .ok s)) ∧
    ∀ (σ : Session), σ.Fresh → ∀ (past : List Operation) (model : Model),
      (∀ s, (σ.after past).answer (listSchemaOf model) = .ok s ↔
        (σ.after past).answer (schemaOf (.list model)) = .ok s) ∧
      (∀ data t, (σ.after past).answer (toPayloadList model data) = .ok t ↔
        (σ.after past).answer (toPayload (.list model) (.list data)) = .ok t) ∧
      ∀ t datum, (σ.after past).answer (fromPayloadList model t) = .ok datum ↔
        (σ.after past).answer (fromPayload (.list model) t) = .ok datum := by
  refine ⟨Reader.readWithElement_placed, fun σ fresh past model => ?_⟩
  obtain ⟨_, remembers⟩ := fresh.remembers.after past
  refine ⟨fun s => ?_, fun data t => ?_, fun t datum => ?_⟩
  · exact answer_iff Outcome.schema (fun _ _ h => Outcome.schema.inj h)
      (remembers.answer_ofList model .listSchemaOf rfl) s
  · exact answer_iff Outcome.text (fun _ _ h => Outcome.text.inj h)
      (remembers.answer_ofList model (.toPayloadList data) rfl) t
  · exact answer_iff Outcome.datum (fun _ _ h => Outcome.datum.inj h)
      (remembers.answer_ofList model (.fromPayloadList t) rfl) datum

end Session

namespace Sample

/-- A name for optional lists of labels, by way of a name for the lists. -/
def labels : Registry where
  definitions := [.typeAlias "labels" (.option (.named "row")),
    .typeAlias "row" (.list (.named "label")), .typeAlias "label" (.primitive .string)]

end Sample

namespace Session

open Sample

/-- Numbers in the place of labels, and a list of one customer after the shop's history. -/
theorem answer_listed_shop :
    labels.resolve (.named "labels") = .ok (.option (.named "row")) ∧
    labels.resolve (.named "row") = .ok (.list (.named "label")) ∧
    labels.resolve (.named "label") = .ok (.primitive .string) ∧
    ((Reader.start labels SkipRule.flagged.skips .standard).readWithElement (.named "labels")
      (.primitive .u8)).1.map Kept.value =
        .ok (Schema.ofKind "u8" (.primitive .u8)).repeated.optional ∧
    shopSession.Fresh ∧
    (shopSession.after shopHistory).answer (toPayloadList (.declared ⟨"Customer"⟩)
      [.record [.record [.atom (.string "12")]]]) =
        .ok "\x7bphone:\x7bnumber:string(2)\x7d\x7d[1]112".toList := by
  obtain ⟨readers, sessions⟩ := answer_listed
  have optional : labels.resolve (.named "labels") = .ok (.option (.named "row")) := by cbv
  have list : labels.resolve (.named "row") = .ok (.list (.named "label")) := by cbv
  have known : labels.resolve (.named "label") = .ok (.primitive .string) := by cbv
  have plain : ((Reader.start labels SkipRule.flagged.skips .standard).read
      (.option (.list (.primitive .u8)))).1.map Kept.value =
        .ok (Schema.ofKind "u8" (.primitive .u8)).repeated.optional := by cbv
  have fresh : shopSession.Fresh := fresh_start shop .standard .flagged []
  have written : (shopSession.after shopHistory).answer (toPayload (.list (.declared ⟨"Customer"⟩))
      (.list [.record [.record [.atom (.string "12")]]])) =
        .ok "\x7bphone:\x7bnumber:string(2)\x7d\x7d[1]112".toList := by
    rw [← toOption_eq_some]
    decide +kernel
  exact ⟨optional, list, known,
    ((readers labels SkipRule.flagged.skips .standard (.named "labels") (.primitive .u8)).2.1
      _ _ optional list ⟨_, known⟩ _).2 plain,
    fresh, ((sessions shopSession fresh shopHistory _).2.1 _ _).2 written⟩

end Session

end Slotform
