import Slotform.Introspection.Error

/-!
Following aliases, and combining a root type with an explicit element type. Each alias on the way
is visited once, so resolving ends: either at a type that is no alias, at a name without definition,
or at an alias already visited. A list takes the element type for its items whatever they were, a
dynamic root or one equal to the element type becomes a single item of it, an option keeps its
wrapper, and any other root conflicts.
-/

namespace Slotform

namespace Registry

/-- How many defined names have not been visited. -/
def unvisited (r : Registry) (visited : List String) : Nat :=
  (r.names.filter fun name => !visited.contains name).length

theorem mem_names_of_get? {r : Registry} {name : String} {d : Definition}
    (h : r.get? name = some d) : name ∈ r.names := by
  have hd := List.mem_of_find?_eq_some h
  have hn := List.find?_some h
  simp only [beq_iff_eq] at hn
  exact List.mem_map.2 ⟨d, hd, hn⟩

theorem unvisited_cons_lt {r : Registry} {name : String} {visited : List String}
    (defined : name ∈ r.names) (fresh : name ∉ visited) :
    r.unvisited (name :: visited) < r.unvisited visited := by
  have split : r.names.filter (fun n => !(name :: visited).contains n) =
      (r.names.filter fun n => !visited.contains n).filter (fun n => n != name) := by
    rw [List.filter_filter]
    apply List.filter_congr
    intro n _
    by_cases h : n = name <;> simp [h]
  unfold unvisited
  rw [split]
  apply List.length_filter_lt_length_iff_exists.2
  exact ⟨name, List.mem_filter.2 ⟨defined, by simp [fresh]⟩, by simp⟩

/-- The type that a reference stands for once aliases are followed: never an alias itself. -/
def resolveFrom (r : Registry) (visited : List String) : Ty → Except ReadError Ty
  | .named name =>
    if _seen : name ∈ visited then .error (.cyclic (.closing name visited))
    else
      match _found : r.get? name with
      | some (.typeAlias _ target) => r.resolveFrom (name :: visited) target
      | some (.record ..) => .ok (.named name)
      | none => .error (.introspection (.undefinedType name))
  | ty => .ok ty
termination_by r.unvisited visited
decreasing_by exact unvisited_cons_lt (mem_names_of_get? _found) _seen

def resolve (r : Registry) (ty : Ty) : Except ReadError Ty := r.resolveFrom [] ty

/-- Puts an element type, with what it resolves to, into a root type. An alias of an option of
itself is met again under the option and reported as a cycle. -/
def placeElement (r : Registry) (element resolved : Ty) (visited : List String) :
    Ty → Except ReadError Ty
  | .named name =>
    if _seen : name ∈ visited then .error (.cyclic (.closing name visited))
    else
      match _found : r.get? name with
      | some (.typeAlias _ target) => r.placeElement element resolved (name :: visited) target
      | some (.record ..) =>
        if .named name = resolved then .ok element
        else .error (.introspection (.conflictingElementType (.named name) element))
      | none => .error (.introspection (.undefinedType name))
  | .option inner => (r.placeElement element resolved visited inner).map .option
  | .list item =>
    if item.isDynamic then .ok (.list element)
    else (r.resolve item).map fun _ => .list element
  | .value => .ok element
  | other =>
    if other = resolved then .ok element
    else .error (.introspection (.conflictingElementType other element))
termination_by ty => (r.unvisited visited, sizeOf ty)
decreasing_by
  · exact Prod.Lex.left _ _ (unvisited_cons_lt (mem_names_of_get? _found) _seen)
  · exact Prod.Lex.right _ (by simp)

/-- The root type whose items are of the element type. -/
def applyElement (r : Registry) (root element : Ty) : Except ReadError Ty := do
  let resolved ← r.resolve element
  if resolved.isList then
    .error (.introspection (.nestedCollection root.itemName element))
  else r.placeElement element resolved [] root

end Registry

end Slotform
