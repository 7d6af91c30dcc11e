import Slotform.Schema.Basic
import Slotform.Proofs.Introspection.Walk

/-!
# Views of a schema

An optional schema is an option of its required view, a repeated one a list of its item view, and
every other schema is a leaf or a record of members. `Schema.byViews` is the induction that follows
these four cases; factories, mappers and headers all take schemas apart in this way.
-/

namespace Slotform

/-- Neither a list nor an option stands around the item. -/
def Node.Bare (n : Node) : Prop := n.optional = false ∧ n.isRepeated = false

theorem Node.Bare.not_optional {n : Node} (bare : n.Bare) : ¬ n.optional = true := by
  simp [bare.1]

theorem Node.Bare.not_repeated {n : Node} (bare : n.Bare) : ¬ n.isRepeated = true := by
  simp [bare.2]

theorem Node.not_bare {n : Node} (wrapped : n.isRepeated = true ∨ n.optional = true) :
    ¬ n.Bare := by
  intro bare
  rcases wrapped with repeated | optional
  · exact bare.not_repeated repeated
  · exact bare.not_optional optional

theorem Node.bare_item (n : Node) : n.item.Bare := ⟨rfl, rfl⟩

@[simp] theorem Node.optional_required (n : Node) : n.required.optional = false := rfl

@[simp] theorem Node.isRepeated_required (n : Node) : n.required.isRepeated = n.isRepeated := rfl

namespace Schema

variable {s : Schema}

@[simp] theorem node_mapNode (change : Node → Node) : (s.mapNode change).node = change s.node := by
  cases s <;> rfl

@[simp] theorem mapNode_id : s.mapNode id = s := by cases s <;> rfl

@[simp] theorem mapNode_mapNode (f g : Node → Node) :
    (s.mapNode f).mapNode g = s.mapNode (g ∘ f) := by
  cases s <;> rfl

@[simp] theorem node_required : s.required.node = s.node.required := node_mapNode _

@[simp] theorem node_item : s.item.node = s.node.item := node_mapNode _

theorem bare_item (s : Schema) : s.item.node.Bare := by
  rw [node_item]
  exact s.node.bare_item

theorem item_required : s.required.item = s.item := by cases s <;> rfl

@[simp] theorem depth_mapNode (change : Node → Node) : (s.mapNode change).depth = s.depth := by
  cases s <;> rfl

theorem depthBelow_le_iff {members : List Schema} {n : Nat} :
    depthBelow members ≤ n ↔ ∀ m ∈ members, m.depth < n := by
  induction members with
  | nil => simp [depthBelow]
  | cons m rest ih =>
    rw [depthBelow, Nat.max_le, ih, Nat.succ_le_iff, List.forall_mem_cons]

theorem depth_leaf_lt {node : Node} {kind : Kind} {n : Nat} : (leaf node kind).depth < n + 1 :=
  Nat.succ_pos n

theorem depth_record_lt {node : Node} {members : List Schema} {n : Nat} :
    (record node members).depth < n + 1 ↔ ∀ m ∈ members, m.depth < n := by
  rw [Nat.lt_succ_iff, depth, depthBelow_le_iff]

theorem depth_lt_of_mem {node : Node} {members : List Schema} {m : Schema} (h : m ∈ members) :
    m.depth < (record node members).depth :=
  depth_record_lt.1 (Nat.lt_succ_self _) m h

theorem wellFormed_mapNode {change : Node → Node} (h : s.WellFormed) :
    (s.mapNode change).WellFormed := by
  cases h with
  | leaf proper => exact .leaf proper
  | record some names nodup all => exact .record some names nodup all

theorem WellFormed.required (h : s.WellFormed) : s.required.WellFormed := wellFormed_mapNode h

theorem WellFormed.item (h : s.WellFormed) : s.item.WellFormed := wellFormed_mapNode h

section Induction

variable {P : Schema → Prop}

/-- Wrappers add two layers at most to a leaf or a record. -/
theorem of_bare (make : Node → Schema) (node : ∀ n, (make n).node = n)
    (mapNode : ∀ n change, (make n).mapNode change = make (change n))
    (bare : ∀ n : Node, n.Bare → P (make n))
    (repeated : ∀ s : Schema, s.node.optional = false → s.node.isRepeated = true → P s.item → P s)
    (optional : ∀ s : Schema, s.node.optional = true → P s.required → P s) (n : Node) :
    P (make n) := by
  have required : ∀ n : Node, n.optional = false → P (make n) := by
    intro n hn
    cases hr : n.isRepeated with
    | false => exact bare n ⟨hn, hr⟩
    | true =>
      apply repeated _ (by rw [node, hn]) (by rw [node, hr])
      rw [Schema.item, mapNode]
      exact bare _ ⟨rfl, rfl⟩
  cases hn : n.optional with
  | false => exact required n hn
  | true =>
    apply optional _ (by rw [node, hn])
    rw [Schema.required, mapNode]
    exact required _ rfl

/-- Induction over a schema by its views. -/
theorem byViews (leaf : ∀ (node : Node) (kind : Kind), node.Bare → P (.leaf node kind))
    (record : ∀ (node : Node) (members : List Schema), node.Bare → (∀ m ∈ members, P m) →
      P (.record node members))
    (repeated : ∀ s : Schema, s.node.optional = false → s.node.isRepeated = true → P s.item → P s)
    (optional : ∀ s : Schema, s.node.optional = true → P s.required → P s) (s : Schema) : P s := by
  apply @Schema.rec P (fun members => ∀ m ∈ members, P m)
  · intro node kind
    exact of_bare (.leaf · kind) (fun _ => rfl) (fun _ _ => rfl)
      (fun n hn => leaf n kind hn) repeated optional node
  · intro node members ih
    exact of_bare (.record · members) (fun _ => rfl) (fun _ _ => rfl)
      (fun n hn => record n members hn ih) repeated optional node
  · exact nofun
  · intro member rest ih ihRest m hm
    rcases List.mem_cons.1 hm with rfl | hm
    · exact ih
    · exact ihRest m hm

end Induction

/-! ## Views and members -/

/-- A schema with its required view and its item view, where it has them. -/
def views (s : Schema) : List Schema :=
  s :: ((if s.node.optional then [s.required] else []) ++
    if s.node.isRepeated then [s.item] else [])

mutual

/-- The schemas whose mappers go into the mapper of a schema, itself included. -/
def parts : Schema → List Schema
  | .leaf node kind => views (.leaf node kind)
  | .record node members => views (.record node members) ++ partsOfAll members

def partsOfAll : List Schema → List Schema
  | [] => []
  | member :: rest => parts member ++ partsOfAll rest

end

theorem mem_views_self (s : Schema) : s ∈ s.views := List.mem_cons_self

theorem required_mem_views {s : Schema} (h : s.node.optional = true) : s.required ∈ s.views := by
  simp [views, h]

theorem item_mem_views {s : Schema} (h : s.node.isRepeated = true) : s.item ∈ s.views := by
  simp [views, h]

@[simp] theorem members_mapNode (change : Node → Node) :
    (s.mapNode change).members = s.members := by
  cases s <;> rfl

theorem parts_eq (s : Schema) : s.parts = s.views ++ partsOfAll s.members := by
  cases s with
  | leaf node kind => exact (List.append_nil _).symm
  | record node members => rfl

theorem mem_parts_self (s : Schema) : s ∈ s.parts := by
  rw [parts_eq]
  exact List.mem_append_left _ (mem_views_self s)

theorem mem_views_iff {v : Schema} : v ∈ s.views ↔ v = s ∨
    s.node.optional = true ∧ v = s.required ∨ s.node.isRepeated = true ∧ v = s.item := by
  simp only [views, List.mem_cons, List.mem_append]
  split <;> split <;> simp_all

theorem mem_partsOfAll {members : List Schema} {p : Schema} :
    p ∈ partsOfAll members ↔ ∃ m ∈ members, p ∈ m.parts := by
  induction members with
  | nil => simp [partsOfAll]
  | cons m rest ih => simp [partsOfAll, ih]

/-- What views and members inherit holds of all parts. -/
theorem of_mem_parts {P : Schema → Prop} (view : ∀ s, P s → ∀ v ∈ s.views, P v)
    (member : ∀ s, P s → ∀ m ∈ s.members, P m) (s : Schema) : P s → ∀ p ∈ s.parts, P p := by
  apply @Schema.rec (fun s => P s → ∀ p ∈ s.parts, P p)
    (fun members => (∀ m ∈ members, P m) → ∀ p ∈ partsOfAll members, P p)
  · intro node kind h p hp
    exact view _ h p hp
  · intro node members ih h p hp
    rcases List.mem_append.1 hp with hp | hp
    · exact view _ h p hp
    · exact ih (member _ h) p hp
  · exact nofun
  · intro m rest ih ihRest h p hp
    rcases List.mem_append.1 hp with hp | hp
    · exact ih (h m List.mem_cons_self) p hp
    · exact ihRest (fun n hn => h n (List.mem_cons_of_mem _ hn)) p hp

theorem mem_flatMap_parts_mono {few many : List Schema} (sub : ∀ s ∈ few, s ∈ many) {p : Schema}
    (hp : p ∈ few.flatMap parts) : p ∈ many.flatMap parts := by
  obtain ⟨s, hs, hp⟩ := List.mem_flatMap.1 hp
  exact List.mem_flatMap.2 ⟨s, sub s hs, hp⟩

theorem views_item (s : Schema) : s.item.views = [s.item] := by
  rw [views, node_item]
  rfl

theorem views_required_subset {s : Schema} (h : s.node.optional = true) :
    ∀ v ∈ s.required.views, v ∈ s.views := by
  intro v hv
  simp only [views, node_required, Node.required, Node.isRepeated, item_required,
    Bool.false_eq_true, ↓reduceIte, List.nil_append, List.mem_cons] at hv
  rcases hv with rfl | hv
  · exact required_mem_views h
  · exact List.mem_cons_of_mem _ (List.mem_append_right _ hv)

end Schema

end Slotform
