import Slotform.Proofs.Memo
import Slotform.Proofs.Payload.Assembly

/-!
# What factories answer

A factory answers a request with a mapper that it makes out of the mappers of views and members, or
with one that it has given for a schema of the same fingerprint. `CodecTable.Answers` has a rule
for each of these ways; after any history a factory answers by the rules
(`Factory.create_answers`).
-/

namespace Slotform

namespace CodecTable

mutual

/-- What a factory may answer to a request for a schema, if it was met with schemas before. -/
inductive Answers (codecs : CodecTable) (met : Schema → Prop) :
    Schema → Except MappingError Mapper → Prop where
  | leaf {node : Node} {kind : Kind} : node.Bare →
      Answers codecs met (.leaf node kind) (codecs.makeLeaf node kind)
  | record {node : Node} {members : List Schema} {answers : Except MappingError (List Mapper)} :
      node.Bare → checkRecord node = .ok () → AnswersAll codecs met members answers →
      Answers codecs met (.record node members) (answers.map (.record node members))
  | recordRefused {node : Node} {members : List Schema} {e : MappingError} :
      node.Bare → checkRecord node = .error e →
      Answers codecs met (.record node members) (.error e)
  | repeated {s : Schema} {answer : Except MappingError Mapper} :
      s.node.optional = false → s.node.isRepeated = true → checkRepeated s = .ok () →
      Answers codecs met s.item answer → Answers codecs met s (answer.map (.repeated s))
  | repeatedRefused {s : Schema} {e : MappingError} :
      s.node.optional = false → s.node.isRepeated = true → checkRepeated s = .error e →
      Answers codecs met s (.error e)
  | optional {s : Schema} {answer : Except MappingError Mapper} : s.node.optional = true →
      Answers codecs met s.required answer → Answers codecs met s (answer.map (.optional s))
  | shared {s t : Schema} {m : Mapper} : met s → met t → s.fingerprint = t.fingerprint →
      Answers codecs met s (.ok m) → Answers codecs met t (.ok m)

/-- The answers for members in order, up to the first refusal. -/
inductive AnswersAll (codecs : CodecTable) (met : Schema → Prop) :
    List Schema → Except MappingError (List Mapper) → Prop where
  | nil : AnswersAll codecs met [] (.ok [])
  | refused {s : Schema} {rest : List Schema} {e : MappingError} :
      Answers codecs met s (.error e) → AnswersAll codecs met (s :: rest) (.error e)
  | cons {s : Schema} {rest : List Schema} {m : Mapper}
      {answers : Except MappingError (List Mapper)} : Answers codecs met s (.ok m) →
      AnswersAll codecs met rest answers → AnswersAll codecs met (s :: rest) (answers.map (m :: ·))

end

/-- A mapper in the table was answered for a schema of the fingerprint. -/
def Answered (codecs : CodecTable) (met : Schema → Prop) (key : Fingerprint) (m : Mapper) : Prop :=
  ∃ s, met s ∧ s.fingerprint = key ∧ codecs.Answers met s (.ok m)

/-- On every sound table a step ends in the given way, and leaves a sound table. -/
def Ensures {α : Type} (codecs : CodecTable) (met : Schema → Prop) (step : Making α)
    (post : Except MappingError α → Prop) : Prop :=
  ∀ table : Mappers, table.Sound (codecs.Answered met) →
    post (step.run.run table).1 ∧ (step.run.run table).2.Sound (codecs.Answered met) ∧
      table.Later (step.run.run table).2

/-- A step makes a mapper by the rules. -/
def Makes (codecs : CodecTable) (met : Schema → Prop) (s : Schema) (step : Making Mapper) : Prop :=
  codecs.Ensures met step (codecs.Answers met s)

/-- A step hands out a mapper by the rules, with the ticket under which it is kept. -/
def Serves (codecs : CodecTable) (met : Schema → Prop) (s : Schema)
    (step : Making (Kept Mapper)) : Prop :=
  codecs.Ensures met step fun answer => codecs.Answers met s (answer.map Kept.value)

section Steps

variable {α β : Type} {codecs : CodecTable} {met : Schema → Prop}

theorem ensures_pure {a : α} {post : Except MappingError α → Prop} (h : post (.ok a)) :
    codecs.Ensures met (pure a) post :=
  fun table sound => ⟨h, sound, .refl table⟩

/-- A step that needs no table. -/
theorem ensures_lift {answer : Except MappingError α} {post : Except MappingError α → Prop}
    (h : post answer) : codecs.Ensures met (liftM answer : Making α) post := by
  intro table sound
  cases answer <;> exact ⟨h, sound, .refl table⟩

theorem ensures_bind {step : Making α} {next : α → Making β}
    {mid : Except MappingError α → Prop} {post : Except MappingError β → Prop}
    (first : codecs.Ensures met step mid) (refused : ∀ e, mid (.error e) → post (.error e))
    (second : ∀ a, mid (.ok a) → codecs.Ensures met (next a) post) :
    codecs.Ensures met (step >>= next) post := by
  intro table sound
  obtain ⟨ended, sound₁, later₁⟩ := first table sound
  rw [run_bind]
  cases ran : step.run.run table with
  | mk result table' =>
    rw [ran] at ended sound₁ later₁
    cases result with
    | error e => exact ⟨refused e ended, sound₁, later₁⟩
    | ok a =>
      obtain ⟨ended', sound₂, later₂⟩ := second a ended table' sound₁
      exact ⟨ended', sound₂, later₁.trans later₂⟩

/-- A check before the next step. -/
theorem ensures_check {check : Except MappingError α} {next : α → Making β}
    {post : Except MappingError β → Prop} (refused : ∀ e, check = .error e → post (.error e))
    (passed : ∀ a, check = .ok a → codecs.Ensures met (next a) post) :
    codecs.Ensures met (liftM check >>= next) post := by
  have itself : codecs.Ensures met (liftM check : Making α) (· = check) := ensures_lift rfl
  exact ensures_bind itself (fun e h => refused e h.symm) fun a h => passed a h.symm

/-- A schema that is looked up is served with what was made for it, or for one like it. -/
theorem serves_keep {s : Schema} (hs : met s) {make : Making Mapper}
    (makes : codecs.Makes met s make) : codecs.Serves met s (keep s make) := by
  intro table sound
  have computes : ∀ n : Mappers, n.Sound (codecs.Answered met) →
      (make.run.run n).2.Sound (codecs.Answered met) ∧ n.Later (make.run.run n).2 ∧
        ∀ m, (make.run.run n).1 = .ok m → codecs.Answered met s.fingerprint m := by
    intro n hn
    obtain ⟨made, sound', later⟩ := makes n hn
    exact ⟨sound', later, fun m hm => ⟨s, hs, rfl, hm ▸ made⟩⟩
  obtain ⟨after, later, found | ⟨n, hn, computed⟩⟩ :=
    Memo.getOrCompute_cases sound s.fingerprint (fun n => make.run.run n) computes
  · obtain ⟨kept, answer, s', hs', same, made⟩ := found
    have answer' : (StateT.run (keep s make).run table).1 = .ok kept := answer
    refine ⟨?_, after, later⟩
    rw [answer']
    exact .shared hs' hs same made
  · have answer' : (StateT.run (keep s make).run table).1.map Kept.value =
        (make.run.run n).1 := computed
    refine ⟨?_, after, later⟩
    beta_reduce
    rw [answer']
    exact (makes n hn).1

section Create

variable {s : Schema} {makeItem : Schema → Making Mapper}

theorem serves_makeRequired (ho : s.node.optional = false) (hs : ∀ v ∈ s.views, met v)
    (items : ∀ change, (change s.node).Bare →
      codecs.Makes met (s.mapNode change) (makeItem (s.mapNode change))) :
    codecs.Serves met s (makeRequired makeItem s) := by
  unfold makeRequired
  split
  next hr =>
    apply serves_keep (hs s s.mem_views_self)
    refine ensures_check (fun _ refused => .repeatedRefused ho hr refused) fun _ checked => ?_
    have element : codecs.Serves met s.item (keep s.item (makeItem s.item)) :=
      serves_keep (hs _ (Schema.item_mem_views hr)) (items _ (Node.bare_item _))
    exact ensures_bind element (fun _ refused => .repeated ho hr checked refused)
      fun _ made => ensures_pure (.repeated ho hr checked made)
  next hr =>
    have bare : s.node.Bare := ⟨ho, by simpa using hr⟩
    have itself := items id bare
    rw [Schema.mapNode_id] at itself
    exact serves_keep (hs s s.mem_views_self) itself

theorem serves_makeWrapped (hs : ∀ v ∈ s.views, met v)
    (items : ∀ change, (change s.node).Bare →
      codecs.Makes met (s.mapNode change) (makeItem (s.mapNode change))) :
    codecs.Serves met s (makeWrapped makeItem s) := by
  unfold makeWrapped
  split
  next ho =>
    apply serves_keep (hs s s.mem_views_self)
    have inner : codecs.Serves met s.required (makeRequired makeItem s.required) := by
      apply serves_makeRequired (by simp)
      · exact fun v hv => hs v (Schema.views_required_subset ho v hv)
      · intro change bare
        rw [Schema.required, Schema.mapNode_mapNode]
        exact items _ (by simpa using bare)
    exact ensures_bind inner (fun _ refused => .optional ho refused)
      fun _ made => ensures_pure (.optional ho made)
  next ho => exact serves_makeRequired (by simpa using ho) hs items

end Create

mutual

theorem serves_create : (s : Schema) → (∀ p ∈ s.parts, met p) →
    codecs.Serves met s (create codecs s)
  | .leaf node kind, hs =>
    serves_makeWrapped hs fun _ bare => ensures_lift (.leaf bare)
  | .record node members, hs => by
    have all := ensures_createAll members fun p hp => hs p (List.mem_append_right _ hp)
    refine serves_makeWrapped (fun v hv => hs v (List.mem_append_left _ hv)) ?_
    intro change bare
    refine ensures_check (fun _ refused => .recordRefused bare refused) fun _ checked => ?_
    exact ensures_bind all (fun _ refused => .record bare checked refused)
      fun _ made => ensures_pure (.record bare checked made)

theorem ensures_createAll : (members : List Schema) → (∀ p ∈ Schema.partsOfAll members, met p) →
    codecs.Ensures met (createAll codecs members) (codecs.AnswersAll met members)
  | [], _ => ensures_pure .nil
  | member :: rest, hs => by
    have first := serves_create member fun p hp => hs p (List.mem_append_left _ hp)
    have others := ensures_createAll rest fun p hp => hs p (List.mem_append_right _ hp)
    exact ensures_bind first (fun _ refused => .refused refused) fun _ made =>
      ensures_bind others (fun _ refused => .cons made refused)
        fun _ mades => ensures_pure (.cons made mades)

end

end Steps

end CodecTable

namespace Factory

/-- The factory after requests for schemas in order, answered or refused. -/
def after (codecs : CodecTable) (past : List Schema) : Factory :=
  past.foldl (fun f s => (f.create s).2) (.ofCodecs codecs)

variable {codecs : CodecTable} {met : Schema → Prop}

theorem create_sound {f : Factory} (sound : f.mappers.Sound (f.codecs.Answered met)) {s : Schema}
    (hs : ∀ p ∈ s.parts, met p) :
    f.codecs.Answers met s ((f.create s).1.map Kept.value) ∧ (f.create s).2.codecs = f.codecs ∧
      (f.create s).2.mappers.Sound (f.codecs.Answered met) := by
  obtain ⟨answered, after, _⟩ := CodecTable.serves_create s hs f.mappers sound
  exact ⟨answered, rfl, after⟩

theorem after_sound (codecs : CodecTable) (past : List Schema)
    (hp : ∀ s ∈ past, ∀ p ∈ s.parts, met p) :
    (after codecs past).codecs = codecs ∧
      (after codecs past).mappers.Sound (codecs.Answered met) := by
  have run : ∀ (rest : List Schema) (f : Factory), (∀ s ∈ rest, ∀ p ∈ s.parts, met p) →
      f.codecs = codecs → f.mappers.Sound (codecs.Answered met) →
      (rest.foldl (fun f s => (f.create s).2) f).codecs = codecs ∧
        (rest.foldl (fun f s => (f.create s).2) f).mappers.Sound (codecs.Answered met) := by
    intro rest
    induction rest with
    | nil => exact fun f _ hc hs => ⟨hc, hs⟩
    | cons s rest ih =>
      intro f hr hc hs
      subst hc
      obtain ⟨_, hc', hs'⟩ := create_sound hs (hr s List.mem_cons_self)
      exact ih (f.create s).2 (fun t ht => hr t (List.mem_cons_of_mem _ ht)) hc' hs'
  exact run past (.ofCodecs codecs) hp rfl Memo.sound_empty

/-- After any history a request is answered by the rules, out of the parts of what was asked for. -/
theorem create_answers (codecs : CodecTable) (past : List Schema) (s : Schema) :
    codecs.Answers (· ∈ (past ++ [s]).flatMap Schema.parts) s
      (((after codecs past).create s).1.map Kept.value) := by
  have known : ∀ t ∈ past ++ [s], ∀ p ∈ t.parts, p ∈ (past ++ [s]).flatMap Schema.parts :=
    fun t ht p hp => List.mem_flatMap.2 ⟨t, ht, hp⟩
  obtain ⟨hc, sound⟩ := after_sound codecs past fun t ht => known t (List.mem_append_left _ ht)
  obtain ⟨answered, _⟩ := create_sound (f := after codecs past) (by rw [hc]; exact sound)
    (known s (List.mem_append_right _ List.mem_cons_self))
  rw [hc] at answered
  exact answered

end Factory

end Slotform
