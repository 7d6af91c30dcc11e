import Mathlib.Logic.Relation
import Slotform.Proofs.Payload.Factory
import Slotform.Proofs.Payload.Header

namespace Slotform

namespace Schema

/-- Making the mapper of the first schema asks for that of the second. -/
inductive Needs : Schema → Schema → Prop where
  | required {s : Schema} : s.node.optional = true → Needs s s.required
  | item {s : Schema} : s.node.optional = false → s.node.isRepeated = true → Needs s s.item
  | member {s m : Schema} : s.node.Bare → m ∈ s.members → Needs s m

end Schema

namespace CodecTable

variable {codecs : CodecTable} {request request' : Schema → Making (Kept Mapper)} {s : Schema}

/-! ## Requests -/

/-- The mappers of members, each of them asked for. -/
def requestAll (request : Schema → Making (Kept Mapper)) : List Schema → Making (List Mapper)
  | [] => pure []
  | member :: rest => do
    let mapper ← request member
    let mappers ← requestAll request rest
    pure (mapper.value :: mappers)

/-- How a single item is made, whose shape is the schema's and whose node is the view's. -/
def makeItem (codecs : CodecTable) (request : Schema → Making (Kept Mapper)) (s view : Schema) :
    Making Mapper :=
  match s with
  | .leaf _ kind => codecs.makeLeaf view.node kind
  | .record _ members => do
    checkRecord view.node
    let mappers ← requestAll request members
    pure (.record view.node members mappers)

/-- How a mapper is made, out of others that are asked for. -/
def make (codecs : CodecTable) (request : Schema → Making (Kept Mapper)) (s : Schema) :
    Making Mapper :=
  if s.node.optional then do
    let inner ← request s.required
    pure (.optional s inner.value)
  else if s.node.isRepeated then do
    checkRepeated s
    let element ← request s.item
    pure (.repeated s element.value)
  else codecs.makeItem request s s

theorem createAll_eq (members : List Schema) :
    codecs.createAll members = requestAll codecs.create members := by
  induction members with
  | nil => rfl
  | cons member rest ih => rw [createAll, ih, requestAll]

theorem create_eq_makeWrapped :
    codecs.create s = makeWrapped (codecs.makeItem codecs.create s) s := by
  cases s with
  | leaf node kind => rw [create]; rfl
  | record node members => rw [create, createAll_eq]; rfl

theorem makeItem_mapNode (change : Node → Node) :
    codecs.makeItem request (s.mapNode change) = codecs.makeItem request s := by
  cases s <;> rfl

theorem create_required :
    codecs.create s.required = makeRequired (codecs.makeItem codecs.create s) s.required := by
  rw [create_eq_makeWrapped, Schema.required, makeItem_mapNode, makeWrapped, if_neg]
  simp

theorem create_item :
    codecs.create s.item = keep s.item (codecs.makeItem codecs.create s s.item) := by
  have bare := s.bare_item
  rw [create_eq_makeWrapped, makeWrapped, if_neg bare.not_optional, makeRequired,
    if_neg bare.not_repeated, Schema.item, makeItem_mapNode]

/-- A mapper is looked up, or made and kept. -/
theorem create_eq (s : Schema) : codecs.create s = keep s (codecs.make codecs.create s) := by
  rw [create_eq_makeWrapped, makeWrapped, make, create_required, create_item]
  by_cases ho : s.node.optional = true
  · rw [if_pos ho, if_pos ho]
  · rw [if_neg ho, if_neg ho, makeRequired]
    by_cases hr : s.node.isRepeated = true
    · rw [if_pos hr, if_pos hr]
    · rw [if_neg hr, if_neg hr]

end CodecTable

namespace Schema

variable {a b s : Schema}

/-! ## What is needed is smaller -/

/-- How many mappers lie one inside the other at most: two wrappers and an item on every level. -/
def rank (s : Schema) : Nat :=
  3 * s.depth + s.node.optional.toNat + s.node.isRepeated.toNat

theorem Needs.rank_lt (h : Needs a b) : b.rank < a.rank := by
  cases h with
  | required ho =>
    rw [rank, rank, depth_required, node_required, ho]
    simp
  | item ho hr =>
    rw [rank, rank, depth_item, a.bare_item.1, a.bare_item.2, ho, hr]
    simp
  | member bare hm =>
    have below : b.depth < a.depth := by
      cases a with
      | leaf node kind => cases hm
      | record node members => exact depth_lt_of_mem hm
    have optional := Bool.toNat_le b.node.optional
    have repeated := Bool.toNat_le b.node.isRepeated
    unfold rank
    omega

theorem rank_lt_of_needs (h : Relation.TransGen Needs a b) : b.rank < a.rank := by
  induction h with
  | single h => exact h.rank_lt
  | tail _ h ih => exact Nat.lt_trans h.rank_lt ih

theorem Needs.ne (h : Relation.TransGen Needs a b) : a ≠ b := by
  rintro rfl
  exact Nat.lt_irrefl _ (rank_lt_of_needs h)

theorem rank_rendered (s : Schema) : s.rendered.rank = s.rank := by
  rw [rank, rank, depth_rendered, optional_rendered, isRepeated_rendered]

/-! ## What is needed is a part -/

theorem Needs.parts_subset (h : Needs a b) : b.parts ⊆ a.parts := by
  rw [parts_eq a]
  cases h with
  | required ho =>
    rw [parts_eq, Schema.required, members_mapNode]
    exact List.append_subset.2 ⟨fun v hv => List.mem_append_left _ (views_required_subset ho v hv),
      List.subset_append_right _ _⟩
  | item ho hr =>
    rw [parts_eq, views_item, Schema.item, members_mapNode]
    exact List.append_subset.2 ⟨by simpa using .inl (item_mem_views hr),
      List.subset_append_right _ _⟩
  | member bare hm =>
    exact fun p hp => List.mem_append_right _ (mem_partsOfAll.2 ⟨b, hm, hp⟩)

theorem mem_parts_of_needs (h : Relation.ReflTransGen Needs s a) : a ∈ s.parts := by
  have within : a.parts ⊆ s.parts := by
    induction h with
    | refl => exact List.Subset.refl _
    | tail _ h ih => exact List.Subset.trans h.parts_subset ih
  exact within a.mem_parts_self

/-- What is asked for, at any depth, has another fingerprint than what waits for it. -/
theorem fingerprint_ne_of_needs {past : List Schema}
    (distinct : Fingerprint.Identifies (past ++ [s])) (waits : Relation.ReflTransGen Needs s a)
    (asks : Relation.TransGen Needs a b) : b.fingerprint ≠ a.fingerprint := by
  have known {p : Schema} (needed : Relation.ReflTransGen Needs s p) :
      p ∈ (past ++ [s]).flatMap parts :=
    List.mem_flatMap.2
      ⟨s, List.mem_append_right _ List.mem_cons_self, mem_parts_of_needs needed⟩
  have asked := known (waits.trans asks.to_reflTransGen)
  intro same
  exact Needs.ne asks (distinct b asked a (known waits) same).symm

end Schema

/-- Where fingerprints discern schemas, they tell the rank. -/
theorem Fingerprint.Discerns.rank_eq {schemas : List Schema} (discerns : Discerns schemas)
    {a b : Schema} (ha : a ∈ schemas.flatMap Schema.parts) (hb : b ∈ schemas.flatMap Schema.parts)
    (same : a.fingerprint = b.fingerprint) : a.rank = b.rank := by
  rw [← a.rank_rendered, ← b.rank_rendered, discerns a ha b hb same]

end Slotform
