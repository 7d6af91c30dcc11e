import Mathlib.Logic.Relation
import Slotform.Proofs.Introspection.Wrapped

/-!
# What references stand for

A reference stands for the type that is left when every alias in it is followed, also under lists
and options. There is at most one (`Registry.StandsFor.unique`) and none where aliases run in
circles (`Registry.StandsFor.not_circular`). Resolving, which stops at the first type that is no
alias, finds it layer by layer. A walk therefore reads a member exactly if the type that its schema
declares is the one that the member's reference stands for, and the item expands
(`Walk.member_iff`).
-/

namespace Slotform

open Relation

theorem Ty.innermost_of_isPlain {ty : Ty} (plain : ty.isPlain = true) : ty.innermost = ty := by
  cases ty with
  | list | option => cases plain
  | _ => rfl

theorem Node.innermost_declared (n : Node) : n.declared.innermost = n.element.innermost := by
  unfold declared
  cases n.isRepeated <;> cases n.optional <;> rfl

/-- The type that an alias is for. -/
def Definition.target? : Definition → Option Ty
  | typeAlias _ target => some target
  | record .. => none

/-! ## Chains that end -/

section Chains

variable {α : Type} {R : α → α → Prop} {a b : α}

/-- From where every chain ends, no circle can be reached. -/
theorem not_circular_of_acc (ends : Acc (fun b a => R a b) a) (reached : ReflTransGen R a b) :
    ¬ TransGen R b b := by
  have ends' : Acc (fun b a => R a b) b := by
    induction reached with
    | refl => exact ends
    | tail _ step ih => exact ih.inv step
  induction ends' with
  | intro b _ ih =>
    intro circle
    obtain ⟨c, step, back⟩ := TransGen.head'_iff.1 circle
    exact ih c step (reached.tail step) (.tail' back step)

end Chains

namespace Registry

/-! ## Following every alias -/

/-- The type that is left when every alias in a reference is followed. Names of records are left as
they are, and there is none for a name without a definition. -/
inductive StandsFor (r : Registry) : Ty → Ty → Prop where
  | primitive (p : Primitive) : StandsFor r (.primitive p) (.primitive p)
  | custom (kind : String) : StandsFor r (.custom kind) (.custom kind)
  | value : StandsFor r .value .value
  | list {item t : Ty} : StandsFor r item t → StandsFor r (.list item) (.list t)
  | option {inner t : Ty} : StandsFor r inner t → StandsFor r (.option inner) (.option t)
  | record {name n : String} {fields : List Field} :
      r.get? name = some (.record n fields) → StandsFor r (.named name) (.named name)
  | typeAlias {name n : String} {target t : Ty} :
      r.get? name = some (.typeAlias n target) → StandsFor r target t → StandsFor r (.named name) t

/-- The first name is an alias, and the second stands in its target, under whatever wrappers. -/
def Forwards (r : Registry) (a b : String) : Prop :=
  ∃ n target, r.get? a = some (.typeAlias n target) ∧ target.innermost = .named b

variable {r : Registry} {visited : List String} {name n : String} {ty t u target inner item : Ty}
  {fields : List Field}

namespace StandsFor

theorem of_alias (found : r.get? name = some (.typeAlias n target)) :
    r.StandsFor (.named name) t ↔ r.StandsFor target t := by
  constructor
  · intro h
    cases h with
    | record other => cases found.symm.trans other
    | typeAlias again h =>
      cases found.symm.trans again
      exact h
  · exact .typeAlias found

theorem of_record (found : r.get? name = some (.record n fields)) :
    r.StandsFor (.named name) t ↔ t = .named name := by
  constructor
  · intro h
    cases h with
    | record => rfl
    | typeAlias other => cases found.symm.trans other
  · rintro rfl
    exact .record found

theorem of_list : r.StandsFor (.list item) t ↔ ∃ u, t = .list u ∧ r.StandsFor item u := by
  constructor
  · intro h
    cases h with
    | list h => exact ⟨_, rfl, h⟩
  · rintro ⟨u, rfl, h⟩
    exact .list h

theorem of_option : r.StandsFor (.option inner) t ↔ ∃ u, t = .option u ∧ r.StandsFor inner u := by
  constructor
  · intro h
    cases h with
    | option h => exact ⟨_, rfl, h⟩
  · rintro ⟨u, rfl, h⟩
    exact .option h

/-- A reference stands for one type at most. -/
theorem unique (h : r.StandsFor ty t) (h' : r.StandsFor ty u) : t = u := by
  induction h generalizing u with
  | primitive | custom | value => cases h'; rfl
  | list _ ih =>
    obtain ⟨v, rfl, inside⟩ := of_list.1 h'
    rw [ih inside]
  | option _ ih =>
    obtain ⟨v, rfl, inside⟩ := of_option.1 h'
    rw [ih inside]
  | record found => exact ((of_record found).1 h').symm
  | typeAlias found _ ih => exact ih ((of_alias found).1 h')

/-- Wherever a reference stands for a type, following its aliases ends. -/
theorem forwards_acc (h : r.StandsFor ty t) (named : ty.innermost = .named name) :
    Acc (fun b a => r.Forwards a b) name := by
  induction h generalizing name with
  | primitive | custom | value => cases named
  | list _ ih => exact ih named
  | option _ ih => exact ih named
  | record found =>
    cases named
    apply Acc.intro
    rintro b ⟨n, target, other, _⟩
    cases found.symm.trans other
  | typeAlias found _ ih =>
    cases named
    apply Acc.intro
    rintro b ⟨n, target, again, inside⟩
    cases found.symm.trans again
    exact ih inside

/-- A reference that leads into a circle of aliases stands for nothing. -/
theorem not_circular {a b : String} (circle : TransGen r.Forwards b b)
    (reached : ReflTransGen r.Forwards a b) (named : ty.innermost = .named a) :
    ¬ r.StandsFor ty t :=
  fun h => not_circular_of_acc (h.forwards_acc named) reached circle

/-- Behind an alias that stands for something, neither the alias is met again nor a name that was
out of its reach. -/
theorem apart_behind {a : String} (h : r.StandsFor (.named name) t) (step : r.Forwards name a)
    (apart : ∀ b ∈ visited, ¬ ReflTransGen r.Forwards name b) :
    ∀ b ∈ name :: visited, ¬ ReflTransGen r.Forwards a b := by
  intro b seen reached
  rcases List.mem_cons.1 seen with rfl | seen
  · have circle : TransGen r.Forwards b b := .head' step reached
    exact not_circular circle .refl rfl h
  · exact apart b seen (.head step reached)

end StandsFor

/-! ## Resolving -/

/-- Resolving does not change what a reference stands for. -/
theorem resolveFrom_standsFor (h : r.resolveFrom visited ty = .ok t) :
    r.StandsFor ty u ↔ r.StandsFor t u := by
  fun_induction r.resolveFrom visited ty with
  | case1 => cases h
  | case2 visited name fresh n target found ih => exact (StandsFor.of_alias found).trans (ih h)
  | case3 | case5 =>
    cases h
    exact Iff.rfl
  | case4 => cases h

theorem resolve_standsFor (h : r.resolve ty = .ok t) : r.StandsFor ty u ↔ r.StandsFor t u :=
  resolveFrom_standsFor h

/-- A name that a reference resolves to is the name of a record. -/
theorem resolveFrom_named (h : r.resolveFrom visited ty = .ok (.named name)) :
    ∃ n fields, r.get? name = some (.record n fields) := by
  fun_induction r.resolveFrom visited ty with
  | case1 => cases h
  | case2 _ _ _ _ _ _ ih => exact ih h
  | case3 visited name fresh n fields found =>
    cases h
    exact ⟨n, fields, found⟩
  | case4 => cases h
  | case5 visited ty unnamed =>
    cases h
    exact absurd rfl (unnamed name)

/-- Resolving a reference that stands for something ends at a type: the names visited so far are
not met again, for that would close a circle. -/
theorem StandsFor.resolveFrom (h : r.StandsFor ty u)
    (apart : ∀ a, ty = .named a → ∀ b ∈ visited, ¬ ReflTransGen r.Forwards a b) :
    ∃ t, r.resolveFrom visited ty = .ok t := by
  induction h generalizing visited with
  | primitive | custom | value | list | option =>
    refine ⟨_, resolveFrom_unnamed ?_⟩
    intro name named
    cases named
  | @record name n fields found =>
    have fresh : name ∉ visited := fun seen => apart name rfl name seen .refl
    exact ⟨_, resolveFrom_record fresh found⟩
  | @typeAlias name n target t found stands ih =>
    have fresh : name ∉ visited := fun seen => apart name rfl name seen .refl
    rw [resolveFrom_alias fresh found]
    apply ih
    rintro a rfl
    exact apart_behind (.typeAlias found stands) ⟨n, .named a, found, rfl⟩ (apart name rfl)

theorem StandsFor.resolve (h : r.StandsFor ty u) :
    ∃ t, r.resolve ty = .ok t ∧ r.StandsFor t u := by
  have apart : ∀ a, ty = .named a → ∀ b ∈ ([] : List String), ¬ ReflTransGen r.Forwards a b :=
    fun _ _ _ seen => absurd seen List.not_mem_nil
  obtain ⟨t, resolved⟩ := h.resolveFrom apart
  exact ⟨t, resolved, (resolve_standsFor resolved).1 h⟩

/-- A name that is resolved stands for itself. -/
theorem resolved_named (resolved : r.resolve ty = .ok (.named name))
    (h : r.StandsFor (.named name) u) : u = .named name := by
  obtain ⟨n, fields, found⟩ := resolveFrom_named resolved
  exact (StandsFor.of_record found).1 h

/-- Resolving a reference to an option uncovers the option. -/
theorem resolve_of_option (h : r.StandsFor ty (.option u)) :
    ∃ inner, r.resolve ty = .ok (.option inner) ∧ r.StandsFor inner u := by
  obtain ⟨t, resolved, stands⟩ := h.resolve
  cases t with
  | option inner =>
    cases stands with
    | option stands => exact ⟨inner, resolved, stands⟩
  | named name => cases resolved_named resolved stands
  | _ => cases stands

theorem resolve_of_list (h : r.StandsFor ty (.list u)) :
    ∃ item, r.resolve ty = .ok (.list item) ∧ r.StandsFor item u := by
  obtain ⟨t, resolved, stands⟩ := h.resolve
  cases t with
  | list item =>
    cases stands with
    | list stands => exact ⟨item, resolved, stands⟩
  | named name => cases resolved_named resolved stands
  | _ => cases stands

/-- Without wrappers, resolving goes all the way. -/
theorem resolve_of_plain (plain : u.isPlain = true) (h : r.StandsFor ty u) :
    r.resolve ty = .ok u := by
  obtain ⟨t, resolved, stands⟩ := h.resolve
  cases t with
  | named name =>
    cases resolved_named resolved stands
    exact resolved
  | list =>
    cases stands
    cases plain
  | option =>
    cases stands
    cases plain
  | _ =>
    cases stands
    exact resolved

/-! ## The same aliases -/

/-- The registries define the same names, and those that are aliases alike. Their records may
differ. -/
def SameAliases (r r' : Registry) : Prop :=
  ∀ name, (r.get? name).map Definition.target? = (r'.get? name).map Definition.target?

namespace SameAliases

variable {r' : Registry}

theorem symm (same : r.SameAliases r') : r'.SameAliases r := fun name => (same name).symm

theorem typeAlias (same : r.SameAliases r') (found : r.get? name = some (.typeAlias n target)) :
    ∃ n', r'.get? name = some (.typeAlias n' target) := by
  have there := same name
  rw [found] at there
  cases found' : r'.get? name with
  | none => simp [found'] at there
  | some d =>
    cases d with
    | typeAlias n' target' =>
      simp only [found', Option.map_some, Definition.target?, Option.some.injEq] at there
      exact ⟨n', by rw [there]⟩
    | record => simp [found', Definition.target?] at there

theorem record (same : r.SameAliases r') (found : r.get? name = some (.record n fields)) :
    ∃ n' fields', r'.get? name = some (.record n' fields') := by
  have there := same name
  rw [found] at there
  cases found' : r'.get? name with
  | none => simp [found'] at there
  | some d =>
    cases d with
    | typeAlias => simp [found', Definition.target?] at there
    | record n' fields' => exact ⟨n', fields', rfl⟩

theorem undefined (same : r.SameAliases r') (missing : r.get? name = none) :
    r'.get? name = none := by
  have there := same name
  rw [missing] at there
  exact Option.map_eq_none_iff.1 there.symm

/-- A reference stands for the same. -/
theorem standsFor (same : r.SameAliases r') (h : r.StandsFor ty t) : r'.StandsFor ty t := by
  induction h with
  | primitive | custom | value => constructor
  | list _ ih => exact .list ih
  | option _ ih => exact .option ih
  | record found =>
    obtain ⟨_, _, found'⟩ := same.record found
    exact .record found'
  | typeAlias found _ ih =>
    obtain ⟨_, found'⟩ := same.typeAlias found
    exact .typeAlias found' ih

/-- Resolving ends the same way. -/
theorem resolveFrom (same : r.SameAliases r') :
    r'.resolveFrom visited ty = r.resolveFrom visited ty := by
  fun_induction r.resolveFrom visited ty with
  | case1 visited name seen => rw [Registry.resolveFrom, dif_pos seen]
  | case2 visited name fresh n target found ih =>
    obtain ⟨_, found'⟩ := same.typeAlias found
    rw [resolveFrom_alias fresh found', ih]
  | case3 visited name fresh n fields found =>
    obtain ⟨_, _, found'⟩ := same.record found
    rw [resolveFrom_record fresh found']
  | case4 visited name fresh missing =>
    rw [resolveFrom_undefined fresh (same.undefined missing)]
  | case5 visited ty unnamed => rw [resolveFrom_unnamed unnamed]

theorem resolve (same : r.SameAliases r') : r'.resolve ty = r.resolve ty := same.resolveFrom

theorem placeElement {element resolved : Ty} (same : r.SameAliases r') :
    r'.placeElement element resolved visited ty = r.placeElement element resolved visited ty := by
  fun_induction r.placeElement element resolved visited ty with
  | case1 visited name seen => rw [Registry.placeElement, dif_pos seen]
  | case2 visited name fresh n target found ih =>
    obtain ⟨_, found'⟩ := same.typeAlias found
    rw [placeElement_alias fresh found', ih]
  | case3 visited name fresh n fields found conforms =>
    obtain ⟨_, _, found'⟩ := same.record found
    rw [placeElement_record fresh found', if_pos conforms]
  | case4 visited name fresh n fields found differs =>
    obtain ⟨_, _, found'⟩ := same.record found
    rw [placeElement_record fresh found', if_neg differs]
  | case5 visited name fresh missing =>
    rw [placeElement_undefined fresh (same.undefined missing)]
  | case6 visited inner ih => rw [Registry.placeElement, ih]
  | case7 visited item dynamic => rw [Registry.placeElement, if_pos dynamic]
  | case8 visited item known => rw [Registry.placeElement, if_neg known, same.resolve]
  | case9 => rw [Registry.placeElement]
  | case10 visited =>
    rw [Registry.placeElement, if_pos rfl]
    all_goals assumption
  | case11 visited other _ _ _ _ differs =>
    rw [Registry.placeElement, if_neg differs]
    all_goals assumption

theorem applyElement {root element : Ty} (same : r.SameAliases r') :
    r'.applyElement root element = r.applyElement root element := by
  simp only [Registry.applyElement, same.resolve, same.placeElement]

end SameAliases

end Registry

/-! ## Members -/

namespace Walk

variable {w : Walk} {allowance : Nat} {path : List String} {name owner : String}
  {ty inner item u : Ty} {format : Format} {node : Node} {s : Schema} {optional : Bool}
  {cardinality : Cardinality}

/-- An optional wrapper is split off where resolving uncovers one, and nothing else is. -/
theorem splitOption_ok (h : w.splitOption name ty = .ok (optional, inner)) :
    optional = false ∧ w.registry.resolve ty = .ok inner ∨
      optional = true ∧ ∃ under, w.registry.resolve ty = .ok (.option under) ∧
        w.registry.resolve under = .ok inner := by
  simp only [splitOption, bind_eq_ok] at h
  obtain ⟨t, resolved, h⟩ := h
  cases t with
  | option under =>
    simp only [bind_eq_ok] at h
    obtain ⟨t, resolved', h⟩ := h
    cases t with
    | option => exact absurd h fail_ne_ok
    | _ =>
      cases h
      exact .inr ⟨rfl, under, resolved, resolved'⟩
  | _ =>
    cases h
    exact .inl ⟨rfl, resolved⟩

theorem splitList_ok (h : w.splitList name ty inner = .ok (cardinality, item)) :
    cardinality = .single ∧ item = inner ∨
      cardinality = .repeated ∧ ∃ element, inner = .list element ∧
        w.registry.resolve element = .ok item := by
  cases inner with
  | list element =>
    simp only [splitList, bind_eq_ok] at h
    obtain ⟨t, resolved, h⟩ := h
    cases t with
    | value | list | option => exact absurd h fail_ne_ok
    | _ =>
      cases h
      exact .inr ⟨rfl, element, rfl, resolved⟩
  | _ =>
    cases h
    exact .inl ⟨rfl, rfl⟩

theorem standsFor_of_splitOption (h : w.splitOption name ty = .ok (optional, inner))
    (stands : w.registry.StandsFor inner u) :
    w.registry.StandsFor ty (if optional then .option u else u) := by
  obtain ⟨rfl, resolved⟩ | ⟨rfl, under, resolved, resolved'⟩ := splitOption_ok h
  · exact (Registry.resolve_standsFor resolved).2 stands
  · have inside := (Registry.resolve_standsFor resolved').2 stands
    exact (Registry.resolve_standsFor resolved).2 (.option inside)

theorem standsFor_of_splitList (h : w.splitList name ty inner = .ok (cardinality, item))
    (stands : w.registry.StandsFor item u) :
    w.registry.StandsFor inner (if cardinality = .repeated then .list u else u) := by
  obtain ⟨rfl, rfl⟩ | ⟨rfl, element, rfl, resolved⟩ := splitList_ok h
  · exact stands
  · exact .list ((Registry.resolve_standsFor resolved).2 stands)

/-- An item that expands is no wrapper, is not `value`, and stands for itself. -/
theorem Expands.element (h : w.Expands allowance path node s) :
    node.element.isPlain = true ∧ node.element ≠ .value ∧
      w.registry.StandsFor node.element node.element := by
  cases h with
  | primitive element =>
    rw [element]
    exact ⟨rfl, nofun, .primitive _⟩
  | custom element =>
    rw [element]
    exact ⟨rfl, nofun, .custom _⟩
  | record element _ split =>
    obtain ⟨n, fields, found, _⟩ := splitFields_ok split
    rw [element]
    exact ⟨rfl, nofun, .record found⟩

theorem splitOption_required (resolved : w.registry.resolve ty = .ok inner)
    (bare : ∀ u, inner ≠ .option u) : w.splitOption name ty = .ok (false, inner) := by
  rw [splitOption, resolved]
  cases inner with
  | option u => exact absurd rfl (bare u)
  | _ => rfl

theorem splitOption_optional (resolved : w.registry.resolve ty = .ok (.option u))
    (resolved' : w.registry.resolve u = .ok inner) (bare : ∀ u, inner ≠ .option u) :
    w.splitOption name ty = .ok (true, inner) := by
  simp only [splitOption, resolved, resolved', bind_eq_ok, Except.ok.injEq, exists_eq_left']

theorem splitList_single (plain : item.isPlain = true) :
    w.splitList name ty item = .ok (.single, item) := by
  cases item with
  | list => cases plain
  | _ => rfl

theorem splitList_repeated (resolved : w.registry.resolve inner = .ok item)
    (plain : item.isPlain = true) (known : item ≠ .value) :
    w.splitList name ty (.list inner) = .ok (.repeated, item) := by
  simp only [splitList, resolved, bind_eq_ok, Except.ok.injEq, exists_eq_left']
  cases item with
  | value => exact absurd rfl known
  | list | option => cases plain
  | _ => rfl

theorem ne_option_of_isPlain (plain : item.isPlain = true) : ∀ u, item ≠ .option u := by
  rintro u rfl
  cases plain

/-- The wrappers are split off as the declared type has them. -/
theorem split_of_standsFor (plain : node.element.isPlain = true) (known : node.element ≠ .value)
    (h : w.registry.StandsFor ty node.declared) :
    ∃ inner, w.splitOption name ty = .ok (node.optional, inner) ∧
      w.splitList name ty inner = .ok (node.cardinality, node.element) := by
  obtain ⟨_, item, cardinality, optional, _, _⟩ := node
  have bare := ne_option_of_isPlain plain
  cases optional with
  | false =>
    cases cardinality with
    | single =>
      have first := Registry.resolve_of_plain plain h
      exact ⟨item, splitOption_required first bare, splitList_single plain⟩
    | repeated =>
      obtain ⟨element, first, stands⟩ := Registry.resolve_of_list h
      have second := Registry.resolve_of_plain plain stands
      exact ⟨.list element, splitOption_required first nofun, splitList_repeated second plain known⟩
  | true =>
    obtain ⟨under, first, stands⟩ := Registry.resolve_of_option h
    cases cardinality with
    | single =>
      have second := Registry.resolve_of_plain plain stands
      exact ⟨item, splitOption_optional first second bare, splitList_single plain⟩
    | repeated =>
      obtain ⟨element, second, stands⟩ := Registry.resolve_of_list stands
      have third := Registry.resolve_of_plain plain stands
      exact ⟨.list element, splitOption_optional first second nofun,
        splitList_repeated third plain known⟩

/-- A member is read exactly if its schema declares what its reference stands for, with the
member's name and hints, and its item expands. -/
theorem member_iff : w.member (allowance + 1) path name ty format = .ok s ↔
    s.name = name ∧ s.node.format = format ∧ w.registry.StandsFor ty s.node.declared ∧
      w.Expands allowance path s.node s := by
  constructor
  · intro h
    obtain ⟨optional, inner, cardinality, item, skipped, hoption, hlist, expands⟩ := member_ok h
    obtain ⟨_, _, stands⟩ := expands.element
    have declared := standsFor_of_splitOption hoption (standsFor_of_splitList hlist stands)
    have same := expands.node_eq
    refine ⟨?_, ?_, ?_, ?_⟩
    · rw [Schema.name, same]
    · rw [same]
    · rw [same]
      cases optional <;> cases cardinality <;> exact declared
    · rw [same]
      exact expands
  · rintro ⟨rfl, rfl, stands, expands⟩
    obtain ⟨plain, known, _⟩ := expands.element
    obtain ⟨inner, hoption, hlist⟩ := split_of_standsFor plain known stands
    exact member_of_expands hoption hlist expands

end Walk

end Slotform
