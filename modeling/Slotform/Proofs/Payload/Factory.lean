import Slotform.Proofs.Payload.Answers
import Slotform.Proofs.Schema.Fingerprint

namespace Slotform

/-- A fingerprint tells schemas apart that were met. -/
def Fingerprint.Separates (met : Schema → Prop) : Prop :=
  ∀ a, met a → ∀ b, met b → a.fingerprint = b.fingerprint → a = b

/-- No two of the schemas, with all their parts, share a fingerprint: what a table of mappers
relies on when it takes schemas of one fingerprint for one schema. -/
def Fingerprint.Identifies (schemas : List Schema) : Prop :=
  ∀ a ∈ schemas.flatMap Schema.parts, ∀ b ∈ schemas.flatMap Schema.parts,
    a.fingerprint = b.fingerprint → a = b

instance (schemas : List Schema) : Decidable (Fingerprint.Identifies schemas) :=
  inferInstanceAs (Decidable (∀ a ∈ schemas.flatMap Schema.parts,
    ∀ b ∈ schemas.flatMap Schema.parts, a.fingerprint = b.fingerprint → a = b))

theorem Fingerprint.Identifies.mono {few many : List Schema} (h : Identifies many)
    (sub : ∀ s ∈ few, s ∈ many) : Identifies few :=
  fun a ha b hb =>
    h a (Schema.mem_flatMap_parts_mono sub ha) b (Schema.mem_flatMap_parts_mono sub hb)

/-- Fingerprints identify schemas that come out of readers, where nothing collides. -/
theorem Fingerprint.identifies_of_free {schemas : List Schema}
    (faithful : ∀ s ∈ schemas, s.Faithful) (small : ∀ s ∈ schemas, s.Small)
    (free : ¬ Sha256.Collision (messages schemas)) : Identifies schemas := by
  have faithfulPart : ∀ p ∈ schemas.flatMap Schema.parts, p.Faithful := by
    intro p hp
    obtain ⟨s, hs, hp⟩ := List.mem_flatMap.1 hp
    exact (faithful s hs).of_mem_parts p hp
  intro a ha b hb same
  exact (faithfulPart a ha).eq_of_rendered_eq (faithfulPart b hb)
    (discerns_of_free small free a ha b hb same)

theorem Fingerprint.Identifies.discerns {schemas : List Schema} (h : Identifies schemas) :
    Discerns schemas :=
  fun a ha b hb same => congrArg Schema.rendered (h a ha b hb same)

namespace CodecTable

variable {codecs : CodecTable} {met : Schema → Prop}

mutual

/-- Where fingerprints tell schemas apart, sharing changes no answer. -/
theorem Answers.eq_assemble (distinct : Fingerprint.Separates met) :
    {s : Schema} → {answer : Except MappingError Mapper} → codecs.Answers met s answer →
    answer = codecs.assemble s
  | _, _, .leaf bare => (assemble_leaf bare).symm
  | .record _ members, _, .record bare checked all => by
    rw [all.eq_assembleAll distinct, assemble_record bare, checked]
    cases codecs.assembleAll members <;> rfl
  | _, _, .recordRefused bare refused => by
    rw [assemble_record bare, refused]
    rfl
  | s, _, .repeated ho hr checked inner => by
    rw [inner.eq_assemble distinct, assemble_repeated ho hr, checked]
    cases codecs.assemble s.item <;> rfl
  | _, _, .repeatedRefused ho hr refused => by
    rw [assemble_repeated ho hr, refused]
    rfl
  | s, _, .optional ho inner => by
    rw [inner.eq_assemble distinct, assemble_optional ho]
    cases codecs.assemble s.required <;> rfl
  | _, _, .shared hs ht same other =>
    distinct _ hs _ ht same ▸ other.eq_assemble distinct

theorem AnswersAll.eq_assembleAll (distinct : Fingerprint.Separates met) :
    {members : List Schema} → {answers : Except MappingError (List Mapper)} →
    codecs.AnswersAll met members answers → answers = codecs.assembleAll members
  | _, _, .nil => rfl
  | _, _, .refused first => by
    rw [assembleAll, ← first.eq_assemble distinct]
    rfl
  | _ :: rest, _, .cons first others => by
    rw [assembleAll, ← first.eq_assemble distinct, others.eq_assembleAll distinct]
    cases codecs.assembleAll rest <;> rfl

end

end CodecTable

namespace Factory

variable {codecs : CodecTable}

/-- After any history a factory makes the assembled mapper, or fails for the same reason. -/
theorem create_value {past : List Schema} {s : Schema}
    (distinct : Fingerprint.Identifies (past ++ [s])) :
    ((after codecs past).create s).1.map Kept.value = codecs.assemble s :=
  (create_answers codecs past s).eq_assemble distinct

theorem create_assembles {past : List Schema} {s : Schema} {kept : Kept Mapper}
    (distinct : Fingerprint.Identifies (past ++ [s]))
    (h : ((after codecs past).create s).1 = .ok kept) : codecs.assemble s = .ok kept.value := by
  rw [← create_value distinct, h]
  rfl

/-- The factory answers a request for a schema whose mapper can be assembled. -/
theorem create_ok (past : List Schema) {s : Schema} {m : Mapper}
    (distinct : Fingerprint.Identifies (past ++ [s])) (h : codecs.assemble s = .ok m) :
    ∃ kept, ((after codecs past).create s).1 = .ok kept ∧ kept.value = m := by
  have answered : ((after codecs past).create s).1.map Kept.value = codecs.assemble s :=
    create_value distinct
  rw [h] at answered
  exact map_eq_ok.1 answered

end Factory

/-! ## A sample

The mappers of the sample record and of its members. -/

namespace Sample

def nameMapper : Mapper := .leaf name.node (.primitive .string) (.ofPrimitive .string)

def tagMapper : Mapper := .leaf tag.node (.primitive .u8) (.ofPrimitive .u8)

def personMapper : Mapper :=
  .record person.node person.members
    [nameMapper, .optional tag.repeated.optional (.repeated tag.repeated tagMapper)]

theorem assemble_person : CodecTable.assemble [] person = .ok personMapper := rfl

theorem distinct_person : Fingerprint.Identifies ([] ++ [person]) := by decide +kernel

end Sample

end Slotform
