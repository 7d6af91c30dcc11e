import Slotform.Proofs.Derive.Names
import Slotform.Proofs.Payload.Acceptance
import Slotform.Proofs.Session.Data
import Slotform.Proofs.Typed.Variants

namespace Slotform

open Derive Typed

namespace Session

variable {σ : Session} {model : Model} {m : Mapper}

/-- Variants that a session writes come back, alone or in a larger datum, exactly if the payload is
within the limits and no slot takes a space from a variant's name. -/
theorem fromPayload_sameVariants_iff (plain : σ.Plain) (words : σ.limits.Words)
    (closed : σ.catalog.Closed) (declares : σ.catalog.Declares model)
    (derived : ∀ owner kind variants, σ.catalog.shape? owner = some (.enumeration kind variants) →
      Derived (.enumeration kind variants))
    (past later : List Operation)
    (accepted : (σ.after past).answer (schemaOf model >>= mapper) = .ok m)
    {x : Datum} (has : σ.catalog.Has model x)
    (distinct : Fingerprint.Identifies (σ.met (past ++ .use model (.toPayload x) :: later)))
    {t : List Char} (written : (σ.after past).answer (toPayload model x) = .ok t) :
    (∃ y, (σ.after (past ++ .use model (.toPayload x) :: later)).answer (fromPayload model t) =
        .ok y ∧ σ.catalog.SameVariants model x y) ↔
      t.length ≤ σ.limits.maxPayloadLen ∧
      (m.measured (σ.catalog.toValue model x)).Within σ.limits ∧
      σ.catalog.VariantsTight .left model x := by
  obtain ⟨s, asks, once, assembled, fits, proper, side⟩ :=
    plain.maps closed declares accepted distinct
  have made : σ.factory.codecs.assemble s = .ok m := plain.builtin ▸ assembled
  rw [toPayload_after plain.fresh closed declares asks made once] at written
  have encoded : m.encode (σ.catalog.toValue model x) = .ok t := mapError_eq_ok.1 written
  have same := fits.keepsVariants_iff proper has side
    fun owner kind variants declared => (derived owner kind variants declared).variants_nodup
  simp only [fromPayload_after plain.fresh closed declares asks made distinct t, bind_eq_ok,
    mapError_eq_ok, Mapper.decode_encoded_iff proper assembled encoded words, ← same]
  constructor
  · rintro ⟨y, ⟨_, ⟨short, within, rfl⟩, converted⟩, variants⟩
    exact ⟨short, within, y, converted, variants⟩
  · rintro ⟨short, within, y, converted, variants⟩
    exact ⟨y, ⟨_, ⟨short, within, rfl⟩, converted⟩, variants⟩

end Session

/-! ## A sample

An exam with marks whose names differ in a space at the end. -/

namespace Sample

/-- The second variant is renamed. -/
def markItem : Item :=
  ⟨[], "Mark", false, .enumeration [
    ⟨[], "A", true⟩,
    ⟨[.listed [.ident "rename", .punct '=' false, .literal (Literal.ofString "A ")]], "B", true⟩]⟩

def mark : Shape := .enumeration none ["A", "A "]

def marks : Catalog := [
  (⟨"Mark"⟩, mark),
  (⟨"Exam"⟩, .record "Exam" [
    { name := "first", model := .declared ⟨"Mark"⟩,
      format := { size := some 3, align := some .right } },
    { name := "others", model := .option (.list (.declared ⟨"Mark"⟩)) }])]

def marksSession (limits : Limits) : Session := .start marks limits .flagged []

/-- The first mark ends with a space, which is at the filled end of its slot. -/
def exam : Datum := .record [.variant 1, .present (.list [.variant 0])]

def examText : List Char :=
  "\x7bfirst:string(3);others:string(1)[1]?\x7d A 11A".toList

theorem derived_mark : Derived mark :=
  ⟨markItem, .leaf "Mark" none [⟨"A", "A"⟩, ⟨"B", "A "⟩], rfl, .leaf⟩

theorem plain_marks (limits : Limits) : (marksSession limits).Plain :=
  ⟨Session.fresh_start .., rfl, rfl⟩

theorem marks_cases {owner : Owner} {shape : Shape} (h : marks.shape? owner = some shape) :
    shape = mark ∨ ∃ members, shape = .record "Exam" members ∧
      ∀ m ∈ members, m.model.declared? = some ⟨"Mark"⟩ := by
  have listed := mem_of_lookup h
  simp only [marks, List.mem_cons, Prod.mk.injEq, List.not_mem_nil, or_false] at listed
  rcases listed with ⟨_, rfl⟩ | ⟨_, rfl⟩
  · exact .inl rfl
  · refine .inr ⟨_, rfl, fun m hm => ?_⟩
    simp only [List.mem_cons, List.not_mem_nil, or_false] at hm
    rcases hm with rfl | rfl <;> rfl

theorem shape?_mark : marks.shape? ⟨"Mark"⟩ = some (.enumeration none ["A", "A "]) := rfl

theorem closed_marks : marks.Closed := by
  intro owner typeName members declared m hm _ inner refers
  rcases marks_cases declared with ⟨⟨⟩⟩ | ⟨_, ⟨⟩, each⟩
  obtain rfl := Option.some.inj ((each m hm).symm.trans refers)
  rfl

theorem derived_marks (owner : Owner) (kind : Option String) (variants : List String)
    (declared : marks.shape? owner = some (.enumeration kind variants)) :
    Derived (.enumeration kind variants) := by
  rcases marks_cases declared with same | ⟨_, ⟨⟩, _⟩
  exact same ▸ derived_mark

def examSchema : Schema := .ofMembers "Exam" "Exam" [
  (Schema.ofKind "first" (.primitive .string)).withFormat { size := some 3, align := some .right },
  (Schema.ofKind "others" (.primitive .string)).repeated.optional]

theorem asks_exam : ((marksSession .standard).after []).asks
    (.use (.declared ⟨"Exam"⟩) (.toPayload exam)) = [examSchema] := by
  decide +kernel

theorem met_marks : (marksSession .standard).met
    ([] ++ [.use (.declared ⟨"Exam"⟩) (.toPayload exam)]) = [examSchema] := by
  decide +kernel

theorem distinct_exam : Fingerprint.Identifies [examSchema] := by decide +kernel

def examMapper : Mapper :=
  let others := examSchema.members[1]
  .record examSchema.node examSchema.members [
    .leaf examSchema.members[0].node (.primitive .string) (.ofPrimitive .string),
    .optional others (.repeated others.required
      (.leaf others.required.item.node (.primitive .string) (.ofPrimitive .string)))]

theorem assemble_exam : CodecTable.assemble [] examSchema = .ok examMapper := rfl

/-- No mark begins with a space, and the first one does not end with one. -/
theorem tight_exam : marks.Inhabits Atom.Tight .left (.declared ⟨"Exam"⟩) exam := by
  refine .of_fields rfl (.cons (fun _ => ?first) (.cons (fun _ => ?others) .nil))
  case first => exact .variant shape?_mark (by decide) (by decide)
  case others =>
    refine .present (.list fun d hd => ?_)
    obtain rfl := List.mem_singleton.1 hd
    exact .variant shape?_mark (by decide) (by decide)

end Sample

namespace Session

open Sample

theorem fromPayload_sameVariants_iff_exam :
    ((marksSession .standard).after []).answer (toPayload (.declared ⟨"Exam"⟩) exam) =
        .ok examText ∧
      ∃ y, ((marksSession .standard).after
        ([] ++ [.use (.declared ⟨"Exam"⟩) (.toPayload exam)])).answer
          (fromPayload (.declared ⟨"Exam"⟩) examText) = .ok y ∧
        marks.SameVariants (.declared ⟨"Exam"⟩) exam y := by
  have plain := plain_marks .standard
  have distinct : Fingerprint.Identifies ((marksSession .standard).met
      ([] ++ [.use (.declared ⟨"Exam"⟩) (.toPayload exam)])) := met_marks ▸ distinct_exam
  have once := distinct_asked distinct asks_exam
  have declares : marks.Declares (.declared ⟨"Exam"⟩) := by
    rintro _ ⟨⟩
    rfl
  have has : marks.Has (.declared ⟨"Exam"⟩) exam := tight_exam.mono fun _ _ _ => trivial
  have accepted := mapper_after plain.fresh assemble_exam (read_of_asks asks_exam) once
  have encoded : examMapper.encode (marks.toValue (.declared ⟨"Exam"⟩) exam) =
      .ok examText := by cbv
  have measured : examMapper.measured (marks.toValue (.declared ⟨"Exam"⟩) exam) =
      .record [.leaf 3, .optional (.repeated 1 (.leaf 1))] := by cbv
  have written : ((marksSession .standard).after []).answer
      (toPayload (.declared ⟨"Exam"⟩) exam) = .ok examText :=
    (toPayload_after plain.fresh closed_marks declares asks_exam assemble_exam once).trans
      (congrArg (Except.mapError SessionError.payload) encoded)
  refine ⟨written, (fromPayload_sameVariants_iff plain Limits.words_standard closed_marks declares
    derived_marks [] [] accepted has distinct written).2 ⟨?_, ?_, tight_exam.variantsTight⟩⟩
  · decide
  · rw [show (marksSession .standard).catalog = marks from rfl, measured]
    simp only [Layout.Within, Layout.AllWithin]
    decide

/-- A variant alone that comes back as another one, since its slot takes the space from its name;
and one that does not come back, since no leaf may be as wide as its name. -/
theorem fromPayload_variant_changed :
    Derived mark ∧ (marksSession .standard).Plain ∧ (marksSession { maxWidth := 0 }).Plain ∧
      marks.shape? ⟨"Mark"⟩ = some mark ∧
      ((marksSession .standard).after []).answer (toPayload (.declared ⟨"Mark"⟩) (.variant 1)) =
        .ok "string(2)A ".toList ∧
      ((marksSession .standard).after [.use (.declared ⟨"Mark"⟩) (.toPayload (.variant 1))]).answer
        (fromPayload (.declared ⟨"Mark"⟩) "string(2)A ".toList) = .ok (.variant 0) ∧
      ((marksSession { maxWidth := 0 }).after []).answer
        (toPayload (.declared ⟨"Mark"⟩) (.variant 0)) = .ok "string(1)A".toList ∧
      ((marksSession { maxWidth := 0 }).after
        [.use (.declared ⟨"Mark"⟩) (.toPayload (.variant 0))]).answer
          (fromPayload (.declared ⟨"Mark"⟩) "string(1)A".toList) =
            .error (.payload (.limitExceeded .leafWidth 1 0)) := by
  refine ⟨derived_mark, plain_marks _, plain_marks _, rfl, ?_, ?_, ?_, ?_⟩ <;> cbv

end Session

end Slotform
