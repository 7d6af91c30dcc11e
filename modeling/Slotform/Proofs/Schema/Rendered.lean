import Slotform.Proofs.Introspection.Readable
import Slotform.Proofs.Schema.Views

/-!
# How schemas are written

A written schema shows types and kinds by their names alone, and skipped names only of records. So
two schemas may be written alike: an extension kind may go by the name of a primitive, a declared
type by that of another type. Where a leaf has the type of its kind, no extension kind takes the
name of a primitive, and only records skip fields, the written form tells the schema
(`Schema.Faithful.eq_of_rendered_eq`); schemas that readers return are of that form.
-/

namespace Slotform

attribute [ext] Node

/-! ## Written forms -/

/-- The node as it is written, with the given skipped names: the type of an item is a name. -/
def Node.rendered (n : Node) (skipped : List String) : Node :=
  { n with element := .named n.element.display, skipped }

@[simp] theorem Node.name_rendered (n : Node) (skipped : List String) :
    (n.rendered skipped).name = n.name := rfl

@[simp] theorem Node.format_rendered (n : Node) (skipped : List String) :
    (n.rendered skipped).format = n.format := rfl

@[simp] theorem Kind.name_custom (name : String) : (custom name).name = name := rfl

theorem Node.Bare.rendered {n : Node} {skipped : List String} (bare : n.Bare) :
    (n.rendered skipped).Bare := bare

namespace Schema

mutual

/-- The schema as it is written: every type is a name, and so is every kind. -/
def rendered : Schema → Schema
  | leaf node kind => leaf (node.rendered []) (.custom kind.name)
  | record node members => record (node.rendered node.skipped) (renderedAll members)

def renderedAll : List Schema → List Schema
  | [] => []
  | member :: rest => member.rendered :: renderedAll rest

end

variable {s t : Schema}

theorem renderedAll_eq_map (members : List Schema) :
    renderedAll members = members.map rendered := by
  induction members with
  | nil => rfl
  | cons member rest ih => rw [renderedAll, ih, List.map_cons]

@[simp] theorem name_rendered (s : Schema) : s.rendered.name = s.name := by cases s <;> rfl

@[simp] theorem optional_rendered (s : Schema) :
    s.rendered.node.optional = s.node.optional := by cases s <;> rfl

@[simp] theorem isRepeated_rendered (s : Schema) :
    s.rendered.node.isRepeated = s.node.isRepeated := by cases s <;> rfl

@[simp] theorem format_rendered (s : Schema) : s.rendered.node.format = s.node.format := by
  cases s <;> rfl

theorem required_rendered (s : Schema) : s.required.rendered = s.rendered.required := by
  cases s <;> rfl

theorem item_rendered (s : Schema) : s.item.rendered = s.rendered.item := by cases s <;> rfl

mutual

theorem depth_rendered : (s : Schema) → s.rendered.depth = s.depth
  | .leaf .. => rfl
  | .record _ members => depthBelow_renderedAll members

theorem depthBelow_renderedAll :
    (members : List Schema) → depthBelow (renderedAll members) = depthBelow members
  | [] => rfl
  | member :: rest => by
    rw [renderedAll, depthBelow, depthBelow, depth_rendered, depthBelow_renderedAll]

end

/-! ## Schemas told by their written form -/

/-- Nothing in the schema is hidden by its written form. -/
inductive Faithful : Schema → Prop where
  | leaf {node : Node} {kind : Kind} : node.element = kind.toTy → node.skipped = [] →
      Kind.ofName kind.name = kind → Faithful (.leaf node kind)
  | record {node : Node} {members : List Schema} {typeName : String} :
      node.element = .named typeName → (∀ m ∈ members, m.Faithful) →
      Faithful (.record node members)

mutual

/-- What is written alike is the same, where nothing is hidden. -/
theorem Faithful.eq_of_rendered_eq : {s t : Schema} → s.Faithful → t.Faithful →
    s.rendered = t.rendered → s = t
  | .leaf m j, .leaf n k, hs, ht, same => by
    cases hs with
    | leaf element none plain =>
      cases ht with
      | leaf element' none' plain' =>
        simp only [rendered, Node.rendered, leaf.injEq, Node.mk.injEq, Kind.custom.injEq] at same
        obtain ⟨⟨name, _, cardinality, optional, format, _⟩, kinds⟩ := same
        have kind : j = k := by rw [← plain, ← plain', kinds]
        subst kind
        have node : m = n := Node.ext name (element.trans element'.symm) cardinality optional
          format (none.trans none'.symm)
        rw [node]
  | .record m xs, .record n ys, hs, ht, same => by
    cases hs with
    | record element all =>
      cases ht with
      | record element' all' =>
        simp only [rendered, Node.rendered, record.injEq, Node.mk.injEq, Ty.named.injEq] at same
        obtain ⟨⟨name, written, cardinality, optional, format, skipped⟩, members⟩ := same
        have types : m.element = n.element := by
          rw [element, element'] at written ⊢
          exact congrArg Ty.named written
        have node : m = n := Node.ext name types cardinality optional format skipped
        rw [node, Faithful.all_eq_of_rendered_eq all all' members]
  | .leaf .., .record .., _, _, same => by cases same
  | .record .., .leaf .., _, _, same => by cases same

theorem Faithful.all_eq_of_rendered_eq : {xs ys : List Schema} → (∀ x ∈ xs, x.Faithful) →
    (∀ y ∈ ys, y.Faithful) → renderedAll xs = renderedAll ys → xs = ys
  | [], [], _, _, _ => rfl
  | x :: xs, y :: ys, hxs, hys, same => by
    simp only [renderedAll, List.cons.injEq] at same
    rw [Faithful.eq_of_rendered_eq (hxs x List.mem_cons_self) (hys y List.mem_cons_self) same.1,
      Faithful.all_eq_of_rendered_eq (fun z hz => hxs z (List.mem_cons_of_mem _ hz))
        (fun z hz => hys z (List.mem_cons_of_mem _ hz)) same.2]
  | [], _ :: _, _, _, same => by cases same
  | _ :: _, [], _, _, same => by cases same

end

end Schema

/-- A walk hides nothing: a leaf has the type of its kind, and no kind the name of a primitive that
it is not. -/
theorem Walk.member_faithful {w : Walk} {allowance : Nat} {path : List String} {name : String}
    {ty : Ty} {format : Format} {s : Schema}
    (h : w.member allowance path name ty format = .ok s) : s.Faithful := by
  induction allowance generalizing path name ty format s with
  | zero => exact absurd h member_zero_ne_ok
  | succ allowance ih =>
    obtain ⟨_, _, _, _, _, _, _, expands⟩ := member_ok h
    cases expands with
    | @primitive p element none =>
      have proper : (Kind.primitive p).Proper := trivial
      exact .leaf element none proper.ofName_name
    | @custom kind element none word =>
      have proper : (Kind.custom kind).Proper := word
      exact .leaf element none proper.ofName_name
    | record element _ _ hmembers =>
      refine .record element fun m hm => ?_
      obtain ⟨_, _, found⟩ := forall₂_exists_left (readFields_ok hmembers).1 hm
      exact ih found

theorem Schema.Readable.faithful {s : Schema} (h : s.Readable) : s.Faithful := by
  obtain ⟨_, _, walked⟩ := h.walked
  exact Walk.member_faithful walked

end Slotform
