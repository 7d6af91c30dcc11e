import Slotform.Proofs.Payload.Construction

/-!
# Plans for mappers

A mapper is made by asking for others, one after the other, until nothing is left to do. A `Plan`
holds what is left, and goes on with each mapper that was asked for. Carried out, the plan of a
schema is how its mapper is made (`CodecTable.run_plan`). It asks for nothing but what the schema
needs, and all that is asked for on the way, at any depth, is no more than the parts of the schema
(`CodecTable.plan_keeps`). What it amounts to for a caller of a factory is taken apart request by
request (`Plan.outcome_find`, `Plan.outcome_start`).
-/

namespace Slotform

/-- What is left to do for a mapper: nothing, or to ask for another one and to go on with that. -/
inductive Plan where
  | done (answer : Except MappingError Mapper)
  | ask (s : Schema) (next : Mapper → Plan)

namespace Plan

variable {α : Type} {request : Schema → Making (Kept Mapper)} {P : Schema → Prop} {n : Nat}

/-- The plan carried out, given how a mapper is come by. -/
def run (request : Schema → Making (Kept Mapper)) : Plan → Making Mapper
  | done answer => liftM answer
  | ask s next => do
    let mapper ← request s
    (next mapper.value).run request

/-- Goes on with an outcome, unless it is a refusal. -/
def after (outcome : Except MappingError α) (next : α → Plan) : Plan :=
  match outcome with
  | .ok a => next a
  | .error e => done (.error e)

/-- Asks for the mappers of members in order, and goes on with all of them. -/
def askAll : List Schema → (List Mapper → Plan) → Plan
  | [], next => next []
  | member :: rest, next =>
    ask member fun mapper => askAll rest fun mappers => next (mapper :: mappers)

theorem run_after (outcome : Except MappingError α) (next : α → Plan) :
    (after outcome next).run request =
      (liftM outcome : Making α) >>= fun a => (next a).run request := by
  cases outcome <;> rfl

theorem run_askAll (members : List Schema) (next : List Mapper → Plan) :
    (askAll members next).run request =
      CodecTable.requestAll request members >>= fun mappers => (next mappers).run request := by
  induction members generalizing next with
  | nil => rw [askAll, CodecTable.requestAll, pure_bind]
  | cons member rest ih =>
    simp only [askAll, run, CodecTable.requestAll, ih, bind_assoc, pure_bind]

/-! ## What a plan asks for -/

/-- Whatever mappers the plan gets, it asks for schemas of one kind only, and these have no more
parts, all together, than the given number. -/
def Keeps (P : Schema → Prop) : Nat → Plan → Prop
  | _, done _ => True
  | n, ask s next => P s ∧ ∃ k, s.parts.length + k ≤ n ∧ ∀ mapper, Keeps P k (next mapper)

theorem keeps_after {outcome : Except MappingError α} {next : α → Plan}
    (h : ∀ a, (next a).Keeps P n) : (after outcome next).Keeps P n := by
  cases outcome with
  | ok a => exact h a
  | error e => trivial

theorem keeps_askAll {members : List Schema} {next : List Mapper → Plan}
    (each : ∀ m ∈ members, P m) (enough : (Schema.partsOfAll members).length ≤ n)
    (last : ∀ mappers k, (next mappers).Keeps P k) : (askAll members next).Keeps P n := by
  induction members generalizing next n with
  | nil => exact last [] n
  | cons member rest ih =>
    rw [Schema.partsOfAll, List.length_append] at enough
    refine ⟨each member List.mem_cons_self, _, enough, fun mapper => ?_⟩
    exact ih (fun m hm => each m (List.mem_cons_of_mem _ hm)) (Nat.le_refl _)
      fun mappers => last (mapper :: mappers)

end Plan

/-! ## The plan of a schema -/

namespace Schema

variable {s : Schema}

theorem length_parts (s : Schema) : s.parts.length =
    s.node.optional.toNat + s.node.isRepeated.toNat + (partsOfAll s.members).length + 1 := by
  rw [parts_eq, views]
  cases s.node.optional <;> cases s.node.isRepeated <;> simp <;> omega

theorem length_parts_pos (s : Schema) : 0 < s.parts.length :=
  List.length_pos_of_mem s.mem_parts_self

theorem length_parts_optional (ho : s.node.optional = true) :
    s.parts.length = s.required.parts.length + 1 := by
  rw [length_parts, length_parts, node_required, Schema.required, members_mapNode, ho]
  simp
  omega

theorem length_parts_repeated (ho : s.node.optional = false) (hr : s.node.isRepeated = true) :
    s.parts.length = s.item.parts.length + 1 := by
  have bare := s.bare_item
  rw [length_parts, length_parts, ho, hr, bare.1, bare.2, Schema.item, members_mapNode]
  simp
  omega

theorem length_parts_bare (bare : s.node.Bare) :
    s.parts.length = (partsOfAll s.members).length + 1 := by
  rw [length_parts, bare.1, bare.2]
  simp

end Schema

namespace CodecTable

variable {codecs : CodecTable} {request : Schema → Making (Kept Mapper)} {s : Schema}

/-- How the mapper of a schema is made, out of those of its views or members. -/
def plan (codecs : CodecTable) (s : Schema) : Plan :=
  if s.node.optional then .ask s.required fun inner => .done (.ok (.optional s inner))
  else if s.node.isRepeated then
    .after (checkRepeated s) fun _ =>
      .ask s.item fun element => .done (.ok (.repeated s element))
  else
    match s with
    | .leaf node kind => .done (codecs.makeLeaf node kind)
    | .record node members =>
      .after (checkRecord node) fun _ =>
        .askAll members fun mappers => .done (.ok (.record node members mappers))

theorem run_plan (s : Schema) : (codecs.plan s).run request = codecs.make request s := by
  unfold plan make
  split
  next => rfl
  next =>
    split
    next => exact Plan.run_after _ _
    next =>
      cases s with
      | leaf node kind => rfl
      | record node members =>
        simp only [Plan.run_after, Plan.run_askAll]
        rfl

/-- The plan of a schema asks for what the schema needs, which has one part less than the schema. -/
theorem plan_keeps {n : Nat} (h : s.parts.length = n + 1) : (codecs.plan s).Keeps s.Needs n := by
  unfold plan
  split
  next ho =>
    rw [Schema.length_parts_optional ho] at h
    exact ⟨.required ho, 0, by omega, fun _ => trivial⟩
  next ho =>
    have ho : s.node.optional = false := by simpa using ho
    split
    next hr =>
      rw [Schema.length_parts_repeated ho hr] at h
      apply Plan.keeps_after
      intro _
      exact ⟨.item ho hr, 0, by omega, fun _ => trivial⟩
    next hr =>
      have bare : s.node.Bare := ⟨ho, by simpa using hr⟩
      rw [Schema.length_parts_bare bare] at h
      cases s with
      | leaf node kind => trivial
      | record node members =>
        apply Plan.keeps_after
        intro _
        apply Plan.keeps_askAll
        · exact fun m hm => .member bare hm
        · exact Nat.le_of_eq (Nat.succ.inj h)
        · exact fun _ _ => trivial

end CodecTable

/-! ## What a plan amounts to -/

namespace Plan

variable {codecs : CodecTable} {table table' : Mappers} {s : Schema} {next : Mapper → Plan}

/-- The answer of the plan for a caller of a factory with the table, and the table that is left. -/
def outcome (codecs : CodecTable) (table : Mappers) (plan : Plan) :
    Except MappingError Mapper × Mappers :=
  (plan.run codecs.create).run.run table

theorem outcome_done (answer : Except MappingError Mapper) :
    (done answer).outcome codecs table = (answer, table) := by
  cases answer <;> rfl

/-- A plan goes on with what `create` answers. -/
theorem outcome_ask {answer : Except MappingError (Kept Mapper)}
    (created : (codecs.create s).run.run table = (answer, table')) :
    (ask s next).outcome codecs table =
      (after (answer.map Kept.value) next).outcome codecs table' := by
  rw [outcome, run, run_bind, created]
  cases answer <;> rfl

theorem create_run (s : Schema) (table : Mappers) : (codecs.create s).run.run table =
    table.getOrCompute s.fingerprint fun table => (codecs.plan s).outcome codecs table := by
  rw [CodecTable.create_eq, ← CodecTable.run_plan]
  rfl

/-- A mapper that is in the table. -/
theorem outcome_find {kept : Kept Mapper}
    (found : table.request s.fingerprint = (.known kept, table')) :
    (ask s next).outcome codecs table = (next kept.value).outcome codecs table' :=
  outcome_ask ((create_run s table).trans (Memo.getOrCompute_known found))

/-- A mapper that has to be made first, by its own plan. -/
theorem outcome_start {ticket : Nat} {answer : Except MappingError Mapper} {left : Mappers}
    (missing : table.request s.fingerprint = (.missing ticket, table'))
    (made : (codecs.plan s).outcome codecs table' = (answer, left)) :
    (ask s next).outcome codecs table =
      (after answer next).outcome codecs (left.settle ticket answer) := by
  have created : (codecs.create s).run.run table =
      (answer.map (Kept.mk ticket), left.settle ticket answer) := by
    rw [create_run, Memo.getOrCompute_missing missing, made]
  rw [outcome_ask created]
  cases answer <;> rfl

end Plan

end Slotform
