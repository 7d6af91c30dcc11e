import Slotform.Proofs.Payload.Construction

/-!
# Formats that have a mapper

Hints are checked on views, by the mappers of options, of lists and of items in turn. Together
these checks are one check of every node, the parent before its members: a factory gives a mapper
exactly if every node of the schema has hints that can be met and a codec, and its refusal names
the first node that has not (`Factory.create_admits`). The mappers that it needs on the way have
other fingerprints than those that wait for them. All of this takes fingerprints to identify
schemas, as those of readers' schemas do where nothing collides
(`Fingerprint.identifies_of_free`).
-/

namespace Slotform

def MappingError.member : MappingError → String
  | unregisteredKind member _ => member
  | invalidFormat member _ => member

namespace Schema

mutual

/-- The nodes of a schema, each with what is below it: the parent before its members. -/
def nodes : Schema → List Schema
  | leaf node kind => [leaf node kind]
  | record node members => record node members :: nodesOfAll members

def nodesOfAll : List Schema → List Schema
  | [] => []
  | member :: rest => nodes member ++ nodesOfAll rest

end

variable {s : Schema}

@[simp] theorem kind?_mapNode (change : Node → Node) : (s.mapNode change).kind? = s.kind? := by
  cases s <;> rfl

/-- A view has its own root and the nodes below it in common with the schema. -/
theorem nodes_eq (s : Schema) : s.nodes = s :: nodesOfAll s.members := by
  cases s <;> rfl

end Schema

namespace CodecTable

variable {codecs : CodecTable} {α β : Type}

/-! ## Hints that can be met -/

/-- The root of a schema has hints that can be met, and a codec if it is a leaf. -/
structure Admits (codecs : CodecTable) (s : Schema) : Prop where
  occurs : ∀ occurs ∈ s.node.format.maxOccurs, s.node.isRepeated = true ∧ occurs ≠ 0
  size : ∀ size ∈ s.node.format.size, size ≠ 0 ∧ ∃ kind, s.kind? = some kind ∧
    ∀ codec ∈ codecs.codec? kind, ∀ fixed ∈ codec.fixedWidth, fixed = size.toNat
  codec : ∀ kind ∈ s.kind?, ∃ codec, codecs.codec? kind = some codec

/-- The outcome of looking at nodes in order: success if all of them are admitted, or else a
refusal that names the first that is not. -/
def Judges (codecs : CodecTable) (nodes : List Schema) : Except MappingError α → Prop
  | .ok _ => ∀ s ∈ nodes, codecs.Admits s
  | .error e => ∃ before s behind, nodes = before ++ s :: behind ∧
      (∀ t ∈ before, codecs.Admits t) ∧ ¬ codecs.Admits s ∧ e.member = s.name

theorem judges_nil (a : α) : codecs.Judges [] (.ok a) := List.forall_mem_nil _

theorem Judges.bind {nodes nodes' : List Schema} {outcome : Except MappingError α}
    {next : α → Except MappingError β} (first : codecs.Judges nodes outcome)
    (others : ∀ a, outcome = .ok a → codecs.Judges nodes' (next a)) :
    codecs.Judges (nodes ++ nodes') (outcome >>= next) := by
  cases outcome with
  | error e =>
    obtain ⟨before, s, behind, rfl, admitted, refused, named⟩ := first
    exact ⟨before, s, behind ++ nodes', by simp, admitted, refused, named⟩
  | ok a =>
    have admitted : ∀ t ∈ nodes, codecs.Admits t := first
    have rest := others a rfl
    change codecs.Judges _ (next a)
    cases ended : next a with
    | ok b =>
      rw [ended] at rest
      intro t ht
      rcases List.mem_append.1 ht with ht | ht
      · exact admitted t ht
      · exact rest t ht
    | error e =>
      rw [ended] at rest
      obtain ⟨before, s, behind, rfl, admitted', refused, named⟩ := rest
      refine ⟨nodes ++ before, s, behind, by simp, fun t ht => ?_, refused, named⟩
      rcases List.mem_append.1 ht with ht | ht
      · exact admitted t ht
      · exact admitted' t ht

/-- A check of one node. -/
theorem judges_singleton {s : Schema} {outcome : Except MappingError α}
    (admitted : ∀ a, outcome = .ok a → codecs.Admits s)
    (refused : ∀ e, outcome = .error e → ¬ codecs.Admits s ∧ e.member = s.name) :
    codecs.Judges [s] outcome := by
  cases outcome with
  | ok a =>
    intro t ht
    cases List.mem_singleton.1 ht
    exact admitted a rfl
  | error e => exact ⟨[], s, [], rfl, List.forall_mem_nil _, refused e rfl⟩

/-- What is judged of a view holds of the schema, if the root is admitted with that of the view. -/
theorem Judges.of_view {s : Schema} {change : Node → Node} {outcome : Except MappingError α}
    (judged : codecs.Judges (s.mapNode change).nodes outcome) (name : (change s.node).name = s.name)
    (same : codecs.Admits (s.mapNode change) ↔ codecs.Admits s) (f : α → β) :
    codecs.Judges s.nodes (outcome >>= fun a => .ok (f a)) := by
  rw [Schema.nodes_eq, Schema.members_mapNode] at judged
  rw [Schema.nodes_eq]
  cases outcome with
  | ok a =>
    intro t ht
    rcases List.mem_cons.1 ht with rfl | ht
    · exact same.1 (judged _ List.mem_cons_self)
    · exact judged t (List.mem_cons_of_mem _ ht)
  | error e =>
    obtain ⟨before, t, behind, nodes, admitted, refused, named⟩ := judged
    cases before with
    | nil =>
      obtain ⟨rfl, rfl⟩ := List.cons.inj nodes
      refine ⟨[], s, _, rfl, List.forall_mem_nil _, fun h => refused (same.2 h), ?_⟩
      rw [named, Schema.name, Schema.node_mapNode, name]
    | cons first before =>
      obtain ⟨rfl, rest⟩ := List.cons.inj nodes
      refine ⟨s :: before, t, behind, congrArg (s :: ·) rest, fun u hu => ?_, refused, named⟩
      rcases List.mem_cons.1 hu with rfl | hu
      · exact same.1 (admitted _ List.mem_cons_self)
      · exact admitted u (List.mem_cons_of_mem _ hu)

theorem admits_leaf {node : Node} {kind : Kind} (bare : node.Bare) :
    codecs.Admits (.leaf node kind) ↔ ∃ m, codecs.makeLeaf node kind = .ok m := by
  simp only [← assemble_leaf bare, assemble_leaf_ok bare]
  constructor
  · intro h
    obtain ⟨codec, found⟩ := h.codec kind rfl
    refine ⟨_, ?_, codec, found, rfl, fun size hinted => ?_⟩
    · rw [Option.eq_none_iff_forall_not_mem]
      exact fun occurs hinted => bare.not_repeated (h.occurs occurs hinted).1
    · obtain ⟨some, kind', ⟨⟩, agrees⟩ := h.size size hinted
      refine ⟨some, ?_⟩
      cases fixed : codec.fixedWidth with
      | none => rfl
      | some width => exact agrees codec found width fixed
  · rintro ⟨_, absent, codec, found, rfl, sized⟩
    refine ⟨fun occurs hinted => ?_, fun size hinted => ?_, fun kind' h => ?_⟩
    · cases absent.symm.trans hinted
    · obtain ⟨some, agrees⟩ := sized size hinted
      refine ⟨some, kind, rfl, fun codec' found' width fixed => ?_⟩
      cases found.symm.trans found'
      rwa [fixed] at agrees
    · cases h
      exact ⟨codec, found⟩

theorem admits_record {node : Node} {members : List Schema} (bare : node.Bare) :
    codecs.Admits (.record node members) ↔ checkRecord node = .ok () := by
  simp only [checkRecord, ite_error_eq_ok, Bool.not_eq_true, Option.isSome_eq_false_iff,
    Option.isNone_iff_eq_none, and_true]
  constructor
  · intro h
    constructor <;> rw [Option.eq_none_iff_forall_not_mem]
    · exact fun occurs hinted => bare.not_repeated (h.occurs occurs hinted).1
    · intro size hinted
      obtain ⟨_, _, ⟨⟩, _⟩ := h.size size hinted
  · rintro ⟨occurs, size⟩
    refine ⟨fun _ hinted => ?_, fun _ hinted => ?_, nofun⟩
    · cases occurs.symm.trans hinted
    · cases size.symm.trans hinted

theorem admits_required {s : Schema} : codecs.Admits s.required ↔ codecs.Admits s := by
  constructor
  · rintro ⟨occurs, size, codec⟩
    simp only [Schema.required, Schema.node_mapNode, Schema.kind?_mapNode] at occurs size codec
    exact ⟨occurs, size, codec⟩
  · rintro ⟨occurs, size, codec⟩
    constructor <;> simp only [Schema.required, Schema.node_mapNode, Schema.kind?_mapNode]
    · exact occurs
    · exact size
    · exact codec

/-- An item has no occurrence hint any more; that of a list must not be zero. -/
theorem admits_item {s : Schema} (hr : s.node.isRepeated = true)
    (some : s.node.format.maxOccurs ≠ some 0) : codecs.Admits s.item ↔ codecs.Admits s := by
  constructor
  · rintro ⟨_, size, codec⟩
    simp only [Schema.item, Schema.node_mapNode, Schema.kind?_mapNode] at size codec
    refine ⟨fun occurs hinted => ⟨hr, ?_⟩, size, codec⟩
    rintro rfl
    exact some hinted
  · rintro ⟨_, size, codec⟩
    constructor <;> simp only [Schema.item, Schema.node_mapNode, Schema.kind?_mapNode]
    · intro occurs hinted
      cases hinted
    · exact size
    · exact codec

theorem member_of_makeLeaf {node : Node} {kind : Kind} {e : MappingError}
    (refused : codecs.makeLeaf node kind = .error e) : e.member = node.name := by
  unfold makeLeaf at refused
  repeat' split at refused
  all_goals cases refused
  all_goals rfl

theorem member_of_checkRecord {node : Node} {e : MappingError}
    (refused : checkRecord node = .error e) : e.member = node.name := by
  unfold checkRecord at refused
  repeat' split at refused
  all_goals cases refused
  all_goals rfl

/-! ## Whole schemas -/

theorem judges_assembleAll {members : List Schema}
    (each : ∀ m ∈ members, codecs.Judges m.nodes (codecs.assemble m)) :
    codecs.Judges (Schema.nodesOfAll members) (codecs.assembleAll members) := by
  induction members with
  | nil => exact judges_nil _
  | cons member rest ih =>
    refine (each member List.mem_cons_self).bind fun m _ => ?_
    have others := ih fun m hm => each m (List.mem_cons_of_mem _ hm)
    rw [← List.append_nil (Schema.nodesOfAll rest)]
    exact others.bind fun ms _ => judges_nil _

/-- Assembling a mapper looks at the nodes in order. -/
theorem judges_assemble (s : Schema) : codecs.Judges s.nodes (codecs.assemble s) := by
  induction s using Schema.byViews with
  | leaf node kind bare =>
    rw [assemble_leaf bare]
    refine judges_singleton (fun m made => (admits_leaf bare).2 ⟨m, made⟩) fun e refused => ?_
    refine ⟨fun admitted => ?_, member_of_makeLeaf refused⟩
    obtain ⟨m, made⟩ := (admits_leaf bare).1 admitted
    cases refused.symm.trans made
  | record node members bare ih =>
    rw [assemble_record bare]
    have root : codecs.Judges [.record node members] (checkRecord node) := by
      refine judges_singleton (fun _ passed => (admits_record bare).2 passed) fun e refused => ?_
      refine ⟨fun admitted => ?_, member_of_checkRecord refused⟩
      cases refused.symm.trans ((admits_record bare).1 admitted)
    change codecs.Judges ([.record node members] ++ Schema.nodesOfAll members) _
    refine root.bind fun _ _ => ?_
    rw [← List.append_nil (Schema.nodesOfAll members)]
    exact (judges_assembleAll ih).bind fun _ _ => judges_nil _
  | repeated s ho hr ih =>
    rw [assemble_repeated ho hr, checkRepeated]
    by_cases none : s.node.format.maxOccurs = some 0
    · rw [if_pos none]
      refine ⟨[], s, _, s.nodes_eq, List.forall_mem_nil _, fun admitted => ?_, rfl⟩
      exact (admitted.occurs 0 none).2 rfl
    · rw [if_neg none]
      exact ih.of_view rfl (admits_item hr none) _
  | optional s ho ih =>
    rw [assemble_optional ho]
    exact ih.of_view rfl admits_required _

end CodecTable

namespace Factory

variable {codecs : CodecTable} {past : List Schema} {s : Schema}

/-- A factory with any history gives a mapper for a schema exactly if all of its nodes are
admitted. A refusal names the first node that is not. What is asked for on the way is never what
waits for it, so that no request waits for itself. -/
theorem create_admits (distinct : Fingerprint.Identifies (past ++ [s])) :
    ((∃ kept, ((after codecs past).create s).1 = .ok kept) ↔ ∀ t ∈ s.nodes, codecs.Admits t) ∧
    (∀ e, ((after codecs past).create s).1 = .error e → ∃ before t behind,
      s.nodes = before ++ t :: behind ∧ (∀ u ∈ before, codecs.Admits u) ∧ ¬ codecs.Admits t ∧
        e.member = t.name) ∧
    ∀ a b, Relation.ReflTransGen Schema.Needs s a → Relation.TransGen Schema.Needs a b →
      b.fingerprint ≠ a.fingerprint := by
  have judged : codecs.Judges s.nodes ((after codecs past).create s).1 := by
    have assembled := codecs.judges_assemble s
    rw [← create_value distinct] at assembled
    cases answer : ((after codecs past).create s).1 with
    | ok kept =>
      rw [answer] at assembled
      exact assembled
    | error e =>
      rw [answer] at assembled
      exact assembled
  refine ⟨?_, ?_, fun a b waits asks => Schema.fingerprint_ne_of_needs distinct waits asks⟩
  · constructor
    · rintro ⟨kept, answer⟩
      rw [answer] at judged
      exact judged
    · intro admitted
      cases answer : ((after codecs past).create s).1 with
      | ok kept => exact ⟨kept, rfl⟩
      | error e =>
        rw [answer] at judged
        obtain ⟨before, t, behind, nodes, _, refused, _⟩ := judged
        exact absurd (admitted t (by simp [nodes])) refused
  · intro e answer
    rw [answer] at judged
    exact judged

end Factory

namespace Sample

/-- The sample record with hints that cannot be met: no tag has room, and an age has no width. -/
def crowd : Schema :=
  .ofMembers "crowd" "crowd" [name,
    (tag.repeated.withFormat { maxOccurs := some 0 }).optional,
    (Schema.ofKind "age" (.primitive .u8)).withFormat { size := some 0 }]

end Sample

namespace Factory

theorem create_admits_crowd :
    Fingerprint.Identifies ([Sample.person] ++ [Sample.crowd]) ∧
    ((after [] [Sample.person]).create Sample.crowd).1.map Kept.value =
      .error (.invalidFormat "tags" .zeroOccurs) ∧
    ((∃ kept, ((after [] [Sample.person]).create Sample.crowd).1 = .ok kept) ↔
      ∀ t ∈ Sample.crowd.nodes, CodecTable.Admits [] t) ∧
    (∀ e, ((after [] [Sample.person]).create Sample.crowd).1 = .error e → ∃ before t behind,
      Sample.crowd.nodes = before ++ t :: behind ∧ (∀ u ∈ before, CodecTable.Admits [] u) ∧
        ¬ CodecTable.Admits [] t ∧ e.member = t.name) ∧
    ∀ a b, Relation.ReflTransGen Schema.Needs Sample.crowd a → Relation.TransGen Schema.Needs a b →
      b.fingerprint ≠ a.fingerprint := by
  have distinct : Fingerprint.Identifies ([Sample.person] ++ [Sample.crowd]) := by decide +kernel
  have refused : ((after [] [Sample.person]).create Sample.crowd).1.map Kept.value =
      .error (.invalidFormat "tags" .zeroOccurs) :=
    create_value distinct
  exact ⟨distinct, refused, create_admits distinct⟩

end Factory

end Slotform
