import Slotform.Proofs.Introspection.Growth
import Slotform.Proofs.Schema.Views

namespace Slotform

/-- Neither a list nor an option. -/
def Ty.isPlain : Ty → Bool
  | list _ | option _ => false
  | _ => true

namespace Walk

variable {w : Walk} {allowance : Nat} {path : List String} {name owner : String} {ty inner item : Ty}
  {format : Format} {node : Node} {s : Schema}

theorem Expands.node_eq (h : w.Expands allowance path node s) : s.node = node := by
  cases h <;> rfl

/-- Wrappers and hints have no part in how an item is expanded. -/
theorem Expands.mapNode (h : w.Expands allowance path node s) (change : Node → Node)
    (element : (change node).element = node.element)
    (skipped : (change node).skipped = node.skipped) :
    w.Expands allowance path (change node) (s.mapNode change) := by
  cases h with
  | primitive same none => exact .primitive (element.trans same) (skipped.trans none)
  | custom same none proper => exact .custom (element.trans same) (skipped.trans none) proper
  | record same fresh split read =>
    exact .record (element.trans same) fresh (skipped ▸ split) read

theorem splitOption_option {optional : Bool} :
    w.splitOption name (.option inner) = .ok (optional, item) ↔
      optional = true ∧ w.splitOption name inner = .ok (false, item) := by
  have whole : w.registry.resolve (.option inner) = .ok (.option inner) :=
    Registry.resolveFrom_unnamed nofun
  simp only [splitOption, whole, bind_eq_ok, Except.ok.injEq, exists_eq_left']
  constructor
  · rintro ⟨t, resolved, h⟩
    cases t with
    | option => exact absurd h fail_ne_ok
    | _ =>
      cases h
      exact ⟨rfl, _, resolved, rfl⟩
  · rintro ⟨rfl, t, resolved, h⟩
    cases t with
    | option under =>
      simp only [bind_eq_ok] at h
      obtain ⟨u, _, h⟩ := h
      cases u with
      | option => exact absurd h fail_ne_ok
      | _ => cases h
    | _ =>
      cases h
      exact ⟨_, resolved, rfl⟩

theorem splitOption_list : w.splitOption name (.list inner) = .ok (false, .list inner) := by
  have whole : w.registry.resolve (.list inner) = .ok (.list inner) :=
    Registry.resolveFrom_unnamed nofun
  rw [splitOption, whole]
  rfl

/-- Items of a list are read as single and required. -/
theorem splitList_list {cardinality : Cardinality}
    (h : w.splitList name ty (.list inner) = .ok (cardinality, item)) :
    cardinality = .repeated ∧ w.splitOption name inner = .ok (false, item) ∧
      w.splitList name inner item = .ok (.single, item) := by
  simp only [splitList, bind_eq_ok] at h
  obtain ⟨t, resolved, h⟩ := h
  cases t with
  | value => exact absurd h fail_ne_ok
  | list => exact absurd h fail_ne_ok
  | option => exact absurd h fail_ne_ok
  | _ =>
    cases h
    refine ⟨rfl, ?_, rfl⟩
    rw [splitOption, resolved]
    rfl

theorem member_option (h : w.member (allowance + 1) path name (.option inner) format = .ok s) :
    s.node.optional = true ∧ w.member (allowance + 1) path name inner format = .ok s.required := by
  obtain ⟨optional, under, cardinality, item, skipped, hoption, hlist, expands⟩ := member_ok h
  obtain ⟨rfl, first⟩ := splitOption_option.1 hoption
  have second : w.splitList name inner under = .ok (cardinality, item) := by
    cases under with
    | list element =>
      simp only [splitList, bind_eq_ok] at hlist ⊢
      obtain ⟨t, resolved, h⟩ := hlist
      refine ⟨t, resolved, ?_⟩
      cases t with
      | list => exact absurd h fail_ne_ok
      | option => exact absurd h fail_ne_ok
      | _ => exact h
    | _ => exact hlist
  have inside : w.Expands allowance path ⟨name, item, cardinality, false, format, skipped⟩
      s.required := expands.mapNode Node.required rfl rfl
  exact ⟨by rw [expands.node_eq], member_of_expands first second inside⟩

theorem member_list (h : w.member (allowance + 1) path name (.list inner) format = .ok s) :
    s.node.optional = false ∧ s.node.isRepeated = true ∧
      w.member (allowance + 1) path name inner { format with maxOccurs := none } =
        .ok s.item := by
  obtain ⟨optional, under, cardinality, item, skipped, hoption, hlist, expands⟩ := member_ok h
  cases splitOption_list.symm.trans hoption
  obtain ⟨rfl, first, second⟩ := splitList_list hlist
  have inside : w.Expands allowance path
      ⟨name, item, .single, false, { format with maxOccurs := none }, skipped⟩ s.item :=
    expands.mapNode Node.item rfl rfl
  refine ⟨by rw [expands.node_eq], ?_, member_of_expands first second inside⟩
  rw [expands.node_eq]
  rfl

/-! ## Types without wrappers -/

/-- A type without wrappers is expanded as it stands. -/
theorem member_plain (plain : ty.isPlain = true) (resolved : w.registry.resolve ty = .ok ty)
    (h : w.member (allowance + 1) path name ty format = .ok s) :
    ∃ skipped, w.Expands allowance path ⟨name, ty, .single, false, format, skipped⟩ s := by
  obtain ⟨optional, under, cardinality, item, skipped, hoption, hlist, expands⟩ := member_ok h
  have first : w.splitOption name ty = .ok (false, ty) := by
    rw [splitOption, resolved]
    cases ty with
    | option => cases plain
    | _ => rfl
  have second : w.splitList name ty ty = .ok (.single, ty) := by
    cases ty with
    | list => cases plain
    | _ => rfl
  cases first.symm.trans hoption
  cases second.symm.trans hlist
  exact ⟨skipped, expands⟩

theorem member_primitive {p : Primitive}
    (h : w.member (allowance + 1) path name (.primitive p) format = .ok s) :
    ∃ node : Node, node.Bare ∧ s = .leaf node (.primitive p) := by
  obtain ⟨_, expands⟩ := member_plain rfl (Registry.resolveFrom_unnamed fun _ h => by cases h) h
  cases expands with
  | primitive element =>
    cases element
    exact ⟨_, ⟨rfl, rfl⟩, rfl⟩
  | custom element => cases element
  | record element => cases element

theorem member_custom {kind : String}
    (h : w.member (allowance + 1) path name (.custom kind) format = .ok s) :
    ∃ node : Node, node.Bare ∧ s = .leaf node (.custom kind) := by
  obtain ⟨_, expands⟩ := member_plain rfl (Registry.resolveFrom_unnamed fun _ h => by cases h) h
  cases expands with
  | primitive element => cases element
  | custom element =>
    cases element
    exact ⟨_, ⟨rfl, rfl⟩, rfl⟩
  | record element => cases element

/-- The members of a record are read in the order of the fields that are kept. -/
theorem member_record {typeName : String} {fields : List Field}
    (found : w.registry.get? owner = some (.record typeName fields))
    (h : w.member (allowance + 1) path name (.named owner) format = .ok s) :
    ∃ node : Node, ∃ members, node.Bare ∧ s = .record node members ∧
      ((fields.filter fun field => !w.skip owner field).map (·.name)).Nodup ∧
      List.Forall₂ (fun field member => w.member allowance (owner :: path) field.name field.ty
        field.format = .ok member) (fields.filter fun field => !w.skip owner field) members := by
  have resolved : w.registry.resolve (.named owner) = .ok (.named owner) :=
    Registry.resolveFrom_record List.not_mem_nil found
  obtain ⟨_, expands⟩ := member_plain rfl resolved h
  cases expands with
  | primitive element => cases element
  | custom element => cases element
  | @record _ kept members element fresh split read =>
    cases element
    obtain ⟨_, _, again, rfl, _⟩ := splitFields_ok split
    cases found.symm.trans again
    obtain ⟨each, _, distinct⟩ := readFields_ok read
    exact ⟨_, members, ⟨rfl, rfl⟩, rfl, distinct, each⟩

end Walk

end Slotform
