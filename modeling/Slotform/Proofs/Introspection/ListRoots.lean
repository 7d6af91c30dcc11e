import Slotform.Proofs.Introspection.Expansion
import Slotform.Proofs.Introspection.Runs

/-!
# Roots that wait for an element type

An element type is placed into what a root resolves to, whatever aliases lead there. Only the root's
own wrappers are resolved for that, and its items no further than to see that they can be, so that
much less needs to be defined than for reading the root itself. A list or an option of a list then
has the element type for its items, and a dynamic root is the element type. Since an element type
that is a list is refused in either case, an explicit element type is as good as one that is
declared: `Reader.compute_list`, `Reader.compute_optionalList` and `Reader.compute_value`.
-/

namespace Slotform

namespace Registry

variable {r : Registry} {visited other : List String} {root ty t item inner element resolved : Ty}

/-! ## Names that were visited -/

/-- Fewer visited names are no hindrance. -/
theorem resolveFrom_subset (sub : ∀ a ∈ other, a ∈ visited) (h : r.resolveFrom visited ty = .ok t) :
    r.resolveFrom other ty = .ok t := by
  fun_induction r.resolveFrom visited ty generalizing other with
  | case1 => cases h
  | case2 visited name fresh n target found ih =>
    rw [resolveFrom_alias (fun seen => fresh (sub name seen)) found]
    refine ih (fun a ha => ?_) h
    rcases List.mem_cons.1 ha with rfl | ha
    · exact List.mem_cons_self
    · exact List.mem_cons_of_mem _ (sub a ha)
  | case3 visited name fresh n fields found =>
    rw [resolveFrom_record (fun seen => fresh (sub name seen)) found]
    exact h
  | case4 => cases h
  | case5 visited ty unnamed =>
    rw [resolveFrom_unnamed unnamed]
    exact h

theorem resolve_of_resolveFrom (h : r.resolveFrom visited ty = .ok t) : r.resolve ty = .ok t :=
  resolveFrom_subset (fun _ ha => absurd ha List.not_mem_nil) h

/-- Names that resolve to something else are not met. -/
theorem resolveFrom_apart (h : r.resolveFrom visited ty = .ok t)
    (apart : ∀ a ∈ other, a ∈ visited ∨ r.resolve (.named a) ≠ .ok t) :
    r.resolveFrom other ty = .ok t := by
  fun_induction r.resolveFrom visited ty generalizing other with
  | case1 => cases h
  | case2 visited name fresh n target found ih =>
    have itself : r.resolve (.named name) = .ok t :=
      resolve_of_resolveFrom ((resolveFrom_alias fresh found).trans h)
    have fresh' : name ∉ other := fun seen =>
      (apart name seen).elim fresh fun unlike => unlike itself
    rw [resolveFrom_alias fresh' found]
    refine ih h fun a ha => ?_
    rcases List.mem_cons.1 ha with rfl | ha
    · exact .inl List.mem_cons_self
    · exact (apart a ha).imp_left (List.mem_cons_of_mem _)
  | case3 visited name fresh n fields found =>
    have itself : r.resolve (.named name) = .ok t :=
      resolve_of_resolveFrom ((resolveFrom_record fresh found).trans h)
    have fresh' : name ∉ other := fun seen =>
      (apart name seen).elim fresh fun unlike => unlike itself
    rw [resolveFrom_record fresh' found]
    exact h
  | case4 => cases h
  | case5 visited ty unnamed =>
    rw [resolveFrom_unnamed unnamed]
    exact h

/-! ## Placing an element type -/

/-- An element type is placed into what the root resolves to. The names that were visited on the
way resolve to the same. -/
theorem placeElement_resolved (h : r.resolveFrom visited root = .ok t) :
    ∃ behind, (∀ a ∈ behind, a ∈ visited ∨ r.resolve (.named a) = .ok t) ∧
      r.placeElement element resolved visited root = r.placeElement element resolved behind t := by
  fun_induction r.resolveFrom visited root with
  | case1 => cases h
  | case2 visited name fresh n target found ih =>
    have itself : r.resolve (.named name) = .ok t :=
      resolve_of_resolveFrom ((resolveFrom_alias fresh found).trans h)
    obtain ⟨behind, reached, placed⟩ := ih h
    refine ⟨behind, fun a ha => ?_, by rw [placeElement_alias fresh found, placed]⟩
    rcases reached a ha with seen | same
    · rcases List.mem_cons.1 seen with rfl | seen
      · exact .inr itself
      · exact .inl seen
    · exact .inr same
  | case3 visited =>
    cases h
    exact ⟨visited, fun a ha => .inl ha, rfl⟩
  | case4 => cases h
  | case5 visited =>
    cases h
    exact ⟨visited, fun a ha => .inl ha, rfl⟩

theorem placeElement_list (h : r.resolveFrom visited root = .ok (.list item))
    (known : ∃ t, r.resolve item = .ok t) :
    r.placeElement element resolved visited root = .ok (.list element) := by
  obtain ⟨behind, _, placed⟩ := placeElement_resolved h
  obtain ⟨t, found⟩ := known
  rw [placed, placeElement, found]
  cases item.isDynamic <;> rfl

/-- The aliases of the option and those of the list in it do not meet. -/
theorem placeElement_optionalList (optional : r.resolve root = .ok (.option inner))
    (list : r.resolve inner = .ok (.list item)) (known : ∃ t, r.resolve item = .ok t) :
    r.placeElement element resolved [] root = .ok (.option (.list element)) := by
  obtain ⟨behind, reached, placed⟩ := placeElement_resolved optional
  have apart : r.resolveFrom behind inner = .ok (.list item) := by
    refine resolveFrom_apart list fun a ha => ?_
    rcases reached a ha with seen | option
    · exact absurd seen List.not_mem_nil
    · exact .inr fun same => by cases option.symm.trans same
  rw [placed, placeElement, placeElement_list apart known]
  rfl

theorem placeElement_value (h : r.resolve root = .ok .value) :
    r.placeElement element resolved [] root = .ok element := by
  obtain ⟨behind, _, placed⟩ := placeElement_resolved h
  rw [placed, placeElement]

end Registry

/-- The type resolves to something that is no list. -/
def Registry.Single (r : Registry) (ty : Ty) : Prop :=
  ∃ t, r.resolve ty = .ok t ∧ t.isList = false

namespace Walk

variable {w : Walk} {allowance : Nat} {path : List String} {name : String} {ty inner item t : Ty}
  {format : Format} {s : Schema} {optional : Bool} {cardinality : Cardinality}

theorem single_of_splitList (h : w.splitList name ty (.list item) = .ok (cardinality, t)) :
    w.registry.Single item := by
  simp only [splitList, bind_eq_ok] at h
  obtain ⟨t, resolved, h⟩ := h
  cases t with
  | list => exact absurd h fail_ne_ok
  | _ => exact ⟨_, resolved, rfl⟩

/-- The items of a list that is read are no lists, with an option around the list or without. -/
theorem single_of_member (h : w.member allowance path name ty format = .ok s)
    (split : w.splitOption name ty = .ok (optional, .list item)) : w.registry.Single item := by
  cases allowance with
  | zero => exact absurd h member_zero_ne_ok
  | succ allowance =>
    obtain ⟨_, inner, cardinality, t, skipped, first, second, _⟩ := member_ok h
    cases split.symm.trans first
    exact single_of_splitList second

/-- A type that is read resolves to something. -/
theorem resolve_of_member (h : w.member allowance path name ty format = .ok s) :
    ∃ t, w.registry.resolve ty = .ok t := by
  cases allowance with
  | zero => exact absurd h member_zero_ne_ok
  | succ allowance =>
    obtain ⟨_, inner, _, _, _, first, _⟩ := member_ok h
    rcases splitOption_ok first with ⟨_, resolved⟩ | ⟨_, under, resolved, _⟩
    · exact ⟨inner, resolved⟩
    · exact ⟨.option under, resolved⟩

end Walk

namespace Reader

variable {r : Reader} {root element ty item inner : Ty} {s : Schema}

/-- A root takes an element type that is no list, and is read as what comes of it. -/
theorem compute_placed (placed : ∀ resolved,
      r.registry.placeElement element resolved [] root = .ok ty) :
    r.compute root (some element) = .ok s ↔
      r.registry.Single element ∧ r.compute ty none = .ok s := by
  simp only [compute, bind_eq_ok, Registry.applyElement, ite_error_eq_ok, placed,
    Bool.not_eq_true, Except.ok.injEq, exists_eq_left']
  constructor
  · rintro ⟨_, ⟨resolved, known, single, rfl⟩, read⟩
    exact ⟨⟨resolved, known, single⟩, read⟩
  · rintro ⟨⟨resolved, known, single⟩, read⟩
    exact ⟨ty, ⟨resolved, known, single, rfl⟩, read⟩

theorem compute_list (list : r.registry.resolve root = .ok (.list item))
    (known : ∃ t, r.registry.resolve item = .ok t) :
    r.compute root (some element) = .ok s ↔ r.compute (.list element) none = .ok s := by
  rw [compute_placed fun _ => Registry.placeElement_list list known]
  exact and_iff_right_of_imp fun read => Walk.single_of_member read Walk.splitOption_list

theorem compute_optionalList (optional : r.registry.resolve root = .ok (.option inner))
    (list : r.registry.resolve inner = .ok (.list item))
    (known : ∃ t, r.registry.resolve item = .ok t) :
    r.compute root (some element) = .ok s ↔ r.compute (.option (.list element)) none = .ok s := by
  rw [compute_placed fun _ => Registry.placeElement_optionalList optional list known]
  exact and_iff_right_of_imp fun read =>
    Walk.single_of_member read (Walk.splitOption_option.2 ⟨rfl, Walk.splitOption_list⟩)

theorem compute_value (dynamic : r.registry.resolve root = .ok .value) :
    r.compute root (some element) = .ok s ↔
      (∀ item, r.registry.resolve element ≠ .ok (.list item)) ∧
        r.compute element none = .ok s := by
  rw [compute_placed fun _ => Registry.placeElement_value dynamic]
  refine and_congr_left fun read => ?_
  constructor
  · rintro ⟨t, resolved, single⟩ item list
    cases resolved.symm.trans list
    cases single
  · intro single
    obtain ⟨t, resolved⟩ := Walk.resolve_of_member read
    refine ⟨t, resolved, ?_⟩
    cases t with
    | list item => exact absurd resolved (single item)
    | _ => rfl

/-- What a reader without history reads. -/
theorem readWithElement_placed (registry : Registry) (skip : SkipStrategy) (limits : Limits)
    (root element : Ty) :
    let explicit := ((start registry skip limits).readWithElement root element).1.map Kept.value
    let plain (ty : Ty) := ((start registry skip limits).read ty).1.map Kept.value
    (∀ item, registry.resolve root = .ok (.list item) → (∃ t, registry.resolve item = .ok t) →
      ∀ s, explicit = .ok s ↔ plain (.list element) = .ok s) ∧
    (∀ inner item, registry.resolve root = .ok (.option inner) →
      registry.resolve inner = .ok (.list item) → (∃ t, registry.resolve item = .ok t) →
      ∀ s, explicit = .ok s ↔ plain (.option (.list element)) = .ok s) ∧
    (registry.resolve root = .ok .value → ∀ s, explicit = .ok s ↔
      (∀ item, registry.resolve element ≠ .ok (.list item)) ∧ plain element = .ok s) := by
  intro explicit plain
  have named : explicit = (start registry skip limits).compute root (some element) :=
    request_start registry skip limits root (some element)
  have alone (ty : Ty) : plain ty = (start registry skip limits).compute ty none :=
    request_start registry skip limits ty none
  simp only [named, alone]
  refine ⟨?_, ?_, ?_⟩
  · exact fun item list known s => compute_list list known
  · exact fun inner item optional list known s => compute_optionalList optional list known
  · exact fun dynamic s => compute_value dynamic

end Reader

end Slotform
