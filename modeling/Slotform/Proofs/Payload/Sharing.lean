import Slotform.Proofs.Payload.Answers
import Slotform.Proofs.Payload.Rendered
import Slotform.Proofs.Schema.Fingerprint

/-!
# Mappers shared by name

Schemas that are written alike have one fingerprint, so a factory takes them for one schema. What
it makes is therefore told by written forms alone: after any history a mapper is, as it is written,
the one assembled for the written form of the schema out of codecs that are looked up by name
(`Factory.create_rendered`).
-/

namespace Slotform

namespace CodecTable

variable {codecs : CodecTable}

/-! ## Codecs by name -/

/-- The codecs with the built-in ones under the names of their kinds. -/
def byName (codecs : CodecTable) : CodecTable :=
  codecs ++ Primitive.all.map fun p => (p.name, .ofPrimitive p)

/-- Every leaf has the codec of its kind's name: no extension kind goes by the name of a primitive,
unless a codec is registered for the name. -/
inductive Plain (codecs : CodecTable) : Schema → Prop where
  | leaf {node : Node} {kind : Kind} : codecs.codec? kind = codecs.codec? (.ofName kind.name) →
      Plain codecs (.leaf node kind)
  | record {node : Node} {members : List Schema} : (∀ m ∈ members, Plain codecs m) →
      Plain codecs (.record node members)

theorem lookup_builtin (name : String) :
    (Primitive.all.map fun p => (p.name, Codec.ofPrimitive p)).lookup name =
      (Primitive.ofName? name).map .ofPrimitive := by
  unfold Primitive.ofName?
  induction Primitive.all with
  | nil => rfl
  | cons p rest ih =>
    rw [List.map_cons, List.lookup_cons, List.find?_cons, ih, BEq.comm]
    cases p.name == name <;> rfl

theorem builtin?_ofName (name : String) :
    Codec.builtin? (.ofName name) = (Primitive.ofName? name).map .ofPrimitive := by
  unfold Kind.ofName
  cases Primitive.ofName? name <;> rfl

theorem codec?_byName (name : String) :
    codecs.byName.codec? (.custom name) = codecs.codec? (.ofName name) := by
  have named : codecs.byName.lookup name =
      (codecs.lookup name).or ((Primitive.ofName? name).map .ofPrimitive) := by
    rw [byName, List.lookup_append, lookup_builtin]
  rw [codec?, codec?, Kind.name, Kind.name_ofName, builtin?_ofName, named]
  cases codecs.lookup name <;> cases Primitive.ofName? name <;> rfl

/-- A kind that has a codec shares it with the kind of its name. -/
theorem codec?_ofName {kind : Kind} {codec : Codec} (h : codecs.codec? kind = some codec) :
    codecs.codec? (.ofName kind.name) = some codec := by
  cases kind with
  | primitive p => rwa [Kind.name, Kind.ofName, Primitive.ofName?_name]
  | custom name =>
    have found : codecs.lookup name = some codec := by simpa [codec?, Codec.builtin?] using h
    rw [codec?, Kind.name_ofName, Kind.name_custom, found]
    rfl

theorem plain_mapNode {s : Schema} {change : Node → Node} (h : codecs.Plain s) :
    codecs.Plain (s.mapNode change) := by
  cases h with
  | leaf same => exact .leaf same
  | record all => exact .record all

theorem plain_of_faithful {s : Schema} (h : s.Faithful) : codecs.Plain s := by
  induction h with
  | leaf _ _ plain => exact .leaf (by rw [plain])
  | record _ _ ih => exact .record ih

/-! ## Answers as they are written -/

/-- An answer is the one that is wanted, as far as a view shows: a value in any case, a refusal
under a condition. -/
def Agrees {α β : Type} (view : α → β) (certain : Prop) (answer : Except MappingError α)
    (wanted : Except MappingError β) : Prop :=
  match answer with
  | .ok a => wanted = .ok (view a)
  | .error e => certain → wanted = .error e

section Agrees

variable {α β γ δ : Type} {view : α → β} {certain certain' : Prop}
  {answer : Except MappingError α} {wanted : Except MappingError β}

theorem Agrees.map {view' : γ → δ} {f : α → γ} {g : β → δ}
    (h : Agrees view certain answer wanted) (enough : certain' → certain)
    (commutes : ∀ a, view' (f a) = g (view a)) :
    Agrees view' certain' (answer.map f) (wanted >>= fun b => .ok (g b)) := by
  cases answer with
  | ok a =>
    have value : wanted = .ok (view a) := h
    rw [value]
    exact congrArg Except.ok (commutes a).symm
  | error e =>
    intro sure
    have refusal : wanted = .error e := h (enough sure)
    rw [refusal]
    rfl

theorem Agrees.map_eq (h : Agrees view certain answer wanted) (sure : certain) :
    answer.map view = wanted := by
  cases answer with
  | ok a => exact (show wanted = .ok (view a) from h).symm
  | error e => exact (h sure).symm

end Agrees

theorem makeLeaf_agrees {node : Node} {kind : Kind} (bare : node.Bare) :
    Agrees Mapper.rendered (codecs.Plain (.leaf node kind)) (codecs.makeLeaf node kind)
      (codecs.byName.assemble (Schema.leaf node kind).rendered) := by
  rw [Schema.rendered, assemble_leaf bare.rendered, makeLeaf, makeLeaf, codec?_byName]
  by_cases occurs : node.format.maxOccurs.isSome = true
  · simp [Agrees, occurs]
  cases found : codecs.codec? kind with
  | none =>
    rw [if_neg occurs]
    rintro ⟨same⟩
    simp [occurs, ← same, found]
  | some codec =>
    simp only [occurs, codec?_ofName found, Node.name_rendered, Node.format_rendered]
    cases node.format.size with
    | none => rfl
    | some size =>
      by_cases zero : size = 0
      · simp [Agrees, zero]
      by_cases fits : codec.fixedWidth.getD size.toNat = size.toNat
      · simp [Agrees, zero, fits, Mapper.rendered]
      · simp [Agrees, zero, fits]

theorem checkRecord_rendered (node : Node) (skipped : List String) :
    checkRecord (node.rendered skipped) = checkRecord node := rfl

theorem checkRepeated_rendered (s : Schema) : checkRepeated s.rendered = checkRepeated s := by
  simp [checkRepeated]

variable {schemas : List Schema}

mutual

/-- A mapper is told by the written form of its schema, as it is written itself. So is a refusal,
where no leaf is taken for another one that is written alike. -/
theorem Answers.agrees (discerns : Fingerprint.Discerns schemas) :
    {s : Schema} → {answer : Except MappingError Mapper} →
    codecs.Answers (· ∈ schemas.flatMap Schema.parts) s answer →
    Agrees Mapper.rendered (codecs.Plain s) answer (codecs.byName.assemble s.rendered)
  | _, _, .leaf bare => makeLeaf_agrees bare
  | .record node members, _, .record bare checked all => by
    have inside := all.agrees discerns
    rw [Schema.rendered, assemble_record bare.rendered, checkRecord_rendered, checked]
    exact inside.map (fun | .record plain => plain) fun _ => rfl
  | .record node members, _, .recordRefused bare refused => by
    rw [Schema.rendered, assemble_record bare.rendered, checkRecord_rendered, refused]
    exact fun _ => rfl
  | s, _, .repeated ho hr checked inner => by
    have inside := inner.agrees discerns
    rw [assemble_repeated (by simpa using ho) (by simpa using hr), checkRepeated_rendered, checked,
      ← s.item_rendered]
    exact inside.map plain_mapNode fun _ => rfl
  | s, _, .repeatedRefused ho hr refused => by
    rw [assemble_repeated (by simpa using ho) (by simpa using hr), checkRepeated_rendered, refused]
    exact fun _ => rfl
  | s, _, .optional ho inner => by
    have inside := inner.agrees discerns
    rw [assemble_optional (by simpa using ho), ← s.required_rendered]
    exact inside.map plain_mapNode fun _ => rfl
  | _, _, .shared hs ht same other => by
    have written := discerns _ hs _ ht same
    exact written ▸ other.agrees discerns

theorem AnswersAll.agrees (discerns : Fingerprint.Discerns schemas) :
    {members : List Schema} → {answers : Except MappingError (List Mapper)} →
    codecs.AnswersAll (· ∈ schemas.flatMap Schema.parts) members answers →
    Agrees Mapper.renderedAll (∀ m ∈ members, codecs.Plain m) answers
      (codecs.byName.assembleAll (Schema.renderedAll members))
  | _, _, .nil => rfl
  | member :: rest, _, .refused first => by
    have refused := first.agrees discerns
    intro plain
    rw [Schema.renderedAll, assembleAll, refused (plain member List.mem_cons_self)]
    rfl
  | member :: rest, _, .cons first others => by
    have made := first.agrees discerns
    have inside := others.agrees discerns
    rw [Schema.renderedAll, assembleAll, show codecs.byName.assemble _ = .ok _ from made]
    exact inside.map (fun plain m hm => plain m (List.mem_cons_of_mem _ hm)) fun _ => rfl

end

/-- A mapper was built for a schema that was met. -/
theorem Answers.schema_met {met : Schema → Prop} : {s : Schema} →
    {answer : Except MappingError Mapper} → codecs.Answers met s answer → met s →
    ∀ m, answer = .ok m → met m.schema
  | _, _, .leaf bare, hs, _, made => by
    rwa [assemble_schema ((assemble_leaf bare).trans made)]
  | _, _, .record .., hs, _, made => by
    obtain ⟨_, _, rfl⟩ := map_eq_ok.1 made
    exact hs
  | _, _, .recordRefused .., _, _, refused => by cases refused
  | _, _, .repeated .., hs, _, made => by
    obtain ⟨_, _, rfl⟩ := map_eq_ok.1 made
    exact hs
  | _, _, .repeatedRefused .., _, _, refused => by cases refused
  | _, _, .optional .., hs, _, made => by
    obtain ⟨_, _, rfl⟩ := map_eq_ok.1 made
    exact hs
  | _, _, .shared hs _ _ other, _, _, made => other.schema_met hs _ made

end CodecTable

namespace Factory

variable {codecs : CodecTable} {past : List Schema} {s : Schema}

/-- What a factory makes is, as it is written, assembled out of codecs by name. -/
theorem create_agrees (codecs : CodecTable) (discerns : Fingerprint.Discerns (past ++ [s])) :
    CodecTable.Agrees Mapper.rendered (codecs.Plain s)
      (((after codecs past).create s).1.map Kept.value) (codecs.byName.assemble s.rendered) :=
  (create_answers codecs past s).agrees discerns

theorem create_rendered {kept : Kept Mapper} (discerns : Fingerprint.Discerns (past ++ [s]))
    (accepted : ((after codecs past).create s).1 = .ok kept) :
    codecs.byName.assemble s.rendered = .ok kept.value.rendered := by
  have agrees := create_agrees codecs discerns
  rw [accepted] at agrees
  exact agrees

theorem create_schema {kept : Kept Mapper} (discerns : Fingerprint.Discerns (past ++ [s]))
    (accepted : ((after codecs past).create s).1 = .ok kept) :
    kept.value.schema ∈ (past ++ [s]).flatMap Schema.parts ∧
      kept.value.schema.rendered = s.rendered := by
  have answered := create_answers codecs past s
  have asked : s ∈ (past ++ [s]).flatMap Schema.parts :=
    List.mem_flatMap.2 ⟨s, List.mem_append_right _ List.mem_cons_self, s.mem_parts_self⟩
  refine ⟨answered.schema_met asked _ (by rw [accepted]; rfl), ?_⟩
  rw [← Mapper.schema_rendered]
  exact CodecTable.assemble_schema (create_rendered discerns accepted)

/-- A factory with a history answers as a new one does, as far as its answers are written, where
no leaf of the schema is taken for another one that is written alike. A mapper that it gives was
built for a schema that it met and that is written like the one asked for. All this fails only if
the digest collides on two of the byte strings that went into fingerprints. -/
theorem create_eq_new (small : ∀ t ∈ past ++ [s], t.Small) (plain : codecs.Plain s) :
    (((after codecs past).create s).1.map (fun kept => kept.value.rendered) =
        ((ofCodecs codecs).create s).1.map (fun kept => kept.value.rendered) ∧
      ∀ kept, ((after codecs past).create s).1 = .ok kept →
        kept.value.schema ∈ (past ++ [s]).flatMap Schema.parts ∧
          kept.value.schema.rendered = s.rendered) ∨
    Sha256.Collision (Fingerprint.messages (past ++ [s])) := by
  by_cases free : Sha256.Collision (Fingerprint.messages (past ++ [s]))
  · exact .inr free
  have discerns := Fingerprint.discerns_of_free small free
  have discerns' : Fingerprint.Discerns ([] ++ [s]) :=
    discerns.mono fun t ht => List.mem_append_right past ht
  have written {past : List Schema} (discerns : Fingerprint.Discerns (past ++ [s])) :
      ((after codecs past).create s).1.map (fun kept => kept.value.rendered) =
        codecs.byName.assemble s.rendered := by
    rw [← (create_agrees codecs discerns).map_eq plain]
    cases ((after codecs past).create s).1 <;> rfl
  refine .inl ⟨?_, fun _ => create_schema discerns⟩
  exact (written discerns).trans (written discerns').symm

/-- A list of the sample's texts was asked for before. -/
theorem create_eq_new_person :
    (((after [] [Sample.name.repeated]).create Sample.person).1.map
        (fun kept => kept.value.rendered) =
        ((ofCodecs []).create Sample.person).1.map (fun kept => kept.value.rendered) ∧
      ∀ kept, ((after [] [Sample.name.repeated]).create Sample.person).1 = .ok kept →
        kept.value.schema ∈ ([Sample.name.repeated] ++ [Sample.person]).flatMap Schema.parts ∧
          kept.value.schema.rendered = Sample.person.rendered) ∨
    Sha256.Collision (Fingerprint.messages ([Sample.name.repeated] ++ [Sample.person])) := by
  have plain : CodecTable.Plain [] Sample.person :=
    CodecTable.plain_of_faithful Sample.readable_person.faithful
  refine create_eq_new (fun t ht => ?_) plain
  simp only [List.cons_append, List.nil_append, List.mem_cons, List.not_mem_nil, or_false] at ht
  rcases ht with rfl | rfl
  · exact .leaf ⟨by decide, by decide⟩ (by decide)
  · exact Sample.small_person

/-- An extension kind by the name of a primitive has no codec, but after a leaf of the primitive it
gets that leaf's mapper: the bytes that are digested are the same. -/
theorem create_ne_new : ∃ past s : Schema, past.digested = s.digested ∧
    ((ofCodecs []).create s).1 = .error (.unregisteredKind "a" "string") ∧
    ∃ kept, ((after [] [past]).create s).1 = .ok kept ∧ kept.value.schema ≠ s := by
  let past : Schema := .ofKind "a" (.primitive .string)
  let s : Schema := .ofKind "a" (.custom "string")
  let m : Mapper := .leaf past.node (.primitive .string) (.ofPrimitive .string)
  have digested : past.digested = s.digested := by cbv
  have same : past.fingerprint = s.fingerprint :=
    congrArg (fun bytes => Fingerprint.mk (Sha256.digest bytes)) digested
  have made : (after [] [past]).mappers = ⟨[⟨past.fingerprint, 0, some m⟩], 1⟩ := rfl
  have known : (after [] [past]).mappers.request s.fingerprint =
      (.known ⟨0, m⟩, (after [] [past]).mappers) := by
    simp [made, Memo.request, Memo.slot?, same]
  have looked : ((after [] [past]).create s).1 =
      ((after [] [past]).mappers.getOrCompute s.fingerprint fun mappers =>
        (CodecTable.makeLeaf [] s.node (.custom "string"), mappers)).1 := rfl
  refine ⟨past, s, digested, rfl, ⟨0, m⟩, ?_, by decide⟩
  rw [looked, Memo.getOrCompute, known]

end Factory

end Slotform
