import Slotform.Proofs.Introspection.Expansion
import Slotform.Proofs.Introspection.Runs

namespace Slotform

open Relation

/-- Puts an element type into a root without aliases. A list has it as its items, a dynamic root or
one equal to it is a single item of it, and an option keeps its wrapper. -/
def Ty.place (element resolved : Ty) : Ty → Except ReadError Ty
  | option inner => (place element resolved inner).map .option
  | list _ => .ok (.list element)
  | value => .ok element
  | other =>
    if other = resolved then .ok element
    else .error (.introspection (.conflictingElementType other element))

/-- A type without wrappers is compared with what the element type resolves to. -/
theorem Ty.place_plain {element resolved t : Ty} (plain : t.isPlain = true) (known : t ≠ .value) :
    place element resolved t = if t = resolved then .ok element
      else .error (.introspection (.conflictingElementType t element)) := by
  cases t with
  | list => cases plain
  | option => cases plain
  | value => exact absurd rfl known
  | _ => rw [place] <;> simp

/-- An option is opened first, and what is in it has no option left to be equal to. -/
theorem Ty.place_declared {element inner : Ty} {n : Node} (plain : n.element.isPlain = true)
    (known : n.element ≠ .value) (optional : n.optional = true) :
    place element (.option inner) n.declared =
      if n.isRepeated then .ok (.option (.list element))
      else .error (.introspection (.conflictingElementType n.element element)) := by
  cases repeated : n.isRepeated with
  | false =>
    have unlike : n.element ≠ .option inner := Walk.ne_option_of_isPlain plain inner
    simp only [Node.declared, optional, repeated, if_true, Bool.false_eq_true, if_false, place]
    rw [place_plain plain known, if_neg unlike]
    rfl
  | true =>
    simp only [Node.declared, optional, repeated, if_true, place]
    rfl

/-- Only an optional member is declared as an option. -/
theorem Node.optional_of_declared {n : Node} (plain : n.element.isPlain = true) {u : Ty}
    (declared : n.declared = .option u) : n.optional = true := by
  cases required : n.optional with
  | true => rfl
  | false =>
    cases repeated : n.isRepeated with
    | true => simp [Node.declared, required, repeated] at declared
    | false =>
      simp only [Node.declared, required, repeated, Bool.false_eq_true, if_false] at declared
      exact absurd declared (Walk.ne_option_of_isPlain plain u)

namespace Registry

variable {r : Registry} {visited : List String} {ty t u element resolved : Ty}

/-- Aliases on the way to a root's type have no part in where the element type is placed. -/
theorem StandsFor.placeElement (h : r.StandsFor ty u)
    (apart : ∀ a, ty.innermost = .named a → ∀ b ∈ visited, ¬ ReflTransGen r.Forwards a b) :
    r.placeElement element resolved visited ty = Ty.place element resolved u := by
  induction h generalizing visited with
  | primitive p =>
    rw [Registry.placeElement, Ty.place] <;> simp
  | custom kind =>
    rw [Registry.placeElement, Ty.place] <;> simp
  | value => rw [Registry.placeElement, Ty.place]
  | @list item t stands =>
    obtain ⟨known, found, _⟩ := stands.resolve
    rw [Registry.placeElement, Ty.place, found]
    cases item.isDynamic <;> rfl
  | option _ ih => rw [Registry.placeElement, Ty.place, ih apart]
  | @record name n fields found =>
    have fresh : name ∉ visited := fun seen => apart name rfl name seen .refl
    rw [placeElement_record fresh found, Ty.place] <;> simp
  | @typeAlias name n target t found stands ih =>
    have fresh : name ∉ visited := fun seen => apart name rfl name seen .refl
    rw [placeElement_alias fresh found]
    apply ih
    intro a inside
    exact apart_behind (.typeAlias found stands) ⟨n, target, found, inside⟩ (apart name rfl)

/-- What a root and an element type make, if the root stands for something. -/
theorem StandsFor.applyElement {root : Ty} (h : r.StandsFor root u)
    (known : r.resolve element = .ok resolved) (single : resolved.isList = false) :
    r.applyElement root element = Ty.place element resolved u := by
  have placed : r.placeElement element resolved [] root = Ty.place element resolved u :=
    h.placeElement fun _ _ _ seen => absurd seen List.not_mem_nil
  rw [Registry.applyElement, known]
  simp only [bind, Except.bind, single, Bool.false_eq_true, if_false, placed]

/-- A reference that resolves to neither a list nor an option stands for what it resolves to. -/
theorem standsFor_of_plain (plain : t.isPlain = true) (resolved : r.resolve ty = .ok t) :
    r.StandsFor ty t := by
  apply (resolve_standsFor resolved).2
  cases t with
  | primitive p => exact .primitive p
  | custom kind => exact .custom kind
  | value => exact .value
  | named name =>
    obtain ⟨n, fields, found⟩ := resolveFrom_named resolved
    exact .record found
  | list => cases plain
  | option => cases plain

end Registry

namespace Walk

variable {w : Walk} {ty inner : Ty} {allowance : Nat} {path : List String} {name : String}
  {format : Format}

/-- An option of lists of options is no member. -/
theorem member_nullable (optional : w.registry.resolve ty = .ok (.option inner)) :
    w.member (allowance + 1) path name (.option (.list ty)) format =
      fail (.nullableElement name (.option (.list ty))) := by
  have outer : w.registry.resolve (.option (.list ty)) = .ok (.option (.list ty)) :=
    Registry.resolveFrom_unnamed (by simp)
  have under : w.registry.resolve (.list ty) = .ok (.list ty) :=
    Registry.resolveFrom_unnamed (by simp)
  have first : w.splitOption name (.option (.list ty)) = .ok (true, .list ty) :=
    splitOption_optional outer under (by simp)
  have second : w.splitList name (.option (.list ty)) (.list ty) =
      fail (.nullableElement name (.option (.list ty))) := by
    rw [splitList, optional]
    rfl
  rw [member, first]
  simp only [bind, Except.bind, second]
  rfl

end Walk

namespace Reader

variable {r : Reader} {ty inner : Ty} {s : Schema}

/-- Without wrappers, a root that is its own element type is computed as without it. -/
theorem compute_self (bare : ∀ t, r.registry.resolve ty = .ok t → t.isPlain = true) :
    r.compute ty (some ty) = r.compute ty none := by
  cases resolved : r.registry.resolve ty with
  | error e =>
    -- Both fail in resolving the root: one before the element is placed, the other as it walks.
    have failing : r.registry.applyElement ty ty = .error e := by
      rw [Registry.applyElement, resolved]
      rfl
    have failing' : r.walk.root ty = .error e := by
      have split : r.walk.splitOption ty.itemName ty = .error e := by
        rw [Walk.splitOption, walk, resolved]
        rfl
      rw [Walk.root, Walk.member, split]
      rfl
    rw [compute, compute, failing]
    exact failing'.symm
  | ok t =>
    have plain := bare t resolved
    have single : t.isList = false := by
      cases t with
      | list => cases plain
      | _ => rfl
    have placed : Ty.place ty t t = .ok ty := by
      by_cases dynamic : t = .value
      · rw [dynamic, Ty.place]
      · rw [Ty.place_plain plain dynamic, if_pos rfl]
    have applied := (Registry.standsFor_of_plain plain resolved).applyElement resolved single
    rw [compute, applied, placed]
    rfl

/-- A root that resolves to an option is no element type of itself. -/
theorem compute_self_optional (optional : r.registry.resolve ty = .ok (.option inner))
    (read : r.compute ty none = .ok s) :
    r.compute ty (some ty) = .error (.introspection
      (if s.node.isRepeated then .nullableElement ty.itemName (.option (.list ty))
        else .conflictingElementType s.node.element ty)) := by
  obtain ⟨-, -, stands, expands⟩ := Walk.member_iff.1 read
  obtain ⟨plain, known, -⟩ := expands.element
  obtain ⟨u, declared, -⟩ := Registry.StandsFor.of_option.1
    ((Registry.resolve_standsFor optional).1 stands)
  have wrapped : s.node.optional = true := Node.optional_of_declared plain declared
  have applied : r.registry.applyElement ty ty = _ := stands.applyElement optional rfl
  rw [compute, applied, Ty.place_declared plain known wrapped]
  cases s.node.isRepeated with
  | false => rfl
  | true => exact Walk.member_nullable optional

/-- For a root that is no list, naming it as its own element type changes nothing unless it is an
option. An option that can be read cannot be read so: it conflicts with what is in it, or it would
be the item of the list in it. -/
theorem readWithElement_self (registry : Registry) (skip : SkipStrategy) (limits : Limits) {ty : Ty}
    (single : ∀ item, registry.resolve ty ≠ .ok (.list item)) :
    let plain := ((start registry skip limits).read ty).1.map Kept.value
    let explicit := ((start registry skip limits).readWithElement ty ty).1.map Kept.value
    ((∀ inner, registry.resolve ty ≠ .ok (.option inner)) → explicit = plain) ∧
      ∀ inner s, registry.resolve ty = .ok (.option inner) → plain = .ok s →
        explicit = .error (.introspection
          (if s.node.isRepeated then .nullableElement ty.itemName (.option (.list ty))
            else .conflictingElementType s.node.element ty)) := by
  intro plain explicit
  have alone : plain = (start registry skip limits).compute ty none :=
    request_start registry skip limits ty none
  have named : explicit = (start registry skip limits).compute ty (some ty) :=
    request_start registry skip limits ty (some ty)
  rw [alone, named]
  constructor
  · intro required
    apply compute_self
    intro t resolved
    cases t with
    | list item => exact absurd resolved (single item)
    | option inner => exact absurd resolved (required inner)
    | _ => rfl
  · intro inner s optional read
    exact compute_self_optional optional read

end Reader

namespace Sample

/-- A person is read as one item of persons. -/
theorem readWithElement_self_person :
    ((Reader.start people SkipRule.flagged.skips .standard).readWithElement (.named "person")
      (.named "person")).1.map Kept.value = .ok person := by
  have resolved : people.resolve (.named "person") = .ok (.named "person") :=
    Registry.resolveFrom_record List.not_mem_nil rfl
  have known : ((Reader.start people SkipRule.flagged.skips .standard).read
      (.named "person")).1.map Kept.value = .ok person := by cbv
  obtain ⟨same, -⟩ := Reader.readWithElement_self people SkipRule.flagged.skips .standard
    (fun item list => by cases resolved.symm.trans list)
  exact (same fun inner option => by cases resolved.symm.trans option).trans known

/-- An optional number is read, and as one item of its own type it is not. -/
theorem readWithElement_self_option :
    ((Reader.start .empty SkipRule.flagged.skips .standard).read
        (.option (.primitive .u8))).1.map Kept.value =
      .ok (Schema.ofKind "u8" (.primitive .u8)).optional ∧
    ((Reader.start .empty SkipRule.flagged.skips .standard).readWithElement
        (.option (.primitive .u8)) (.option (.primitive .u8))).1.map Kept.value =
      .error (.introspection
        (.conflictingElementType (.primitive .u8) (.option (.primitive .u8)))) := by
  have read : (Reader.start .empty SkipRule.flagged.skips .standard).compute
      (.option (.primitive .u8)) none = .ok (Schema.ofKind "u8" (.primitive .u8)).optional := by
    cbv
  have optional : Registry.empty.resolve (.option (.primitive .u8)) =
      .ok (.option (.primitive .u8)) := Registry.resolveFrom_unnamed (by simp)
  rw [Reader.read, Reader.readWithElement, Reader.request_start, Reader.request_start]
  exact ⟨read, Reader.compute_self_optional optional read⟩

end Sample

end Slotform
