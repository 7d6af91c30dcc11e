import Slotform.Proofs.Introspection.Expansion
import Slotform.Proofs.Introspection.Runs

/-!
# Skipped fields

A field that the skip strategy leaves out might as well not be declared. Deleting all of them from
their records leaves the names and the aliases of a registry as they are
(`Registry.sameAliases_without`), and the fields that are kept. So a walk that skips and a walk over
what is left fail alike, and read the same schemas but for the lists of skipped names
(`Walk.member_cut`, by induction on the depth that is allowed).
-/

namespace Slotform

/-! ## Deleting fields -/

/-- A record without the fields that are skipped. -/
def Definition.without (skip : SkipStrategy) : Definition → Definition
  | typeAlias name target => .typeAlias name target
  | record name fields => .record name (fields.filter fun field => !skip name field)

namespace Registry

variable {r : Registry} {skip : SkipStrategy} {name : String}

/-- The registry in which the skipped fields were never declared. -/
def without (r : Registry) (skip : SkipStrategy) : Registry :=
  { r with definitions := r.definitions.map (·.without skip) }

theorem get?_without : (r.without skip).get? name = (r.get? name).map (·.without skip) := by
  have same : ((·.name == name) ∘ fun d : Definition => d.without skip) = (·.name == name) := by
    funext d
    cases d <;> rfl
  rw [get?, without, List.find?_map, same]
  rfl

theorem sameAliases_without : r.SameAliases (r.without skip) := by
  intro name
  rw [get?_without]
  cases r.get? name with
  | none => rfl
  | some d => cases d <;> rfl

end Registry

/-! ## Erasing the skipped names -/

namespace Schema

mutual

/-- The schema without its lists of skipped names. -/
def unskipped : Schema → Schema
  | leaf node kind => leaf { node with skipped := [] } kind
  | record node members => record { node with skipped := [] } (unskippedAll members)

def unskippedAll : List Schema → List Schema
  | [] => []
  | member :: rest => member.unskipped :: unskippedAll rest

end

theorem unskippedAll_eq_map (members : List Schema) :
    unskippedAll members = members.map unskipped := by
  induction members with
  | nil => rfl
  | cons member rest ih => rw [unskippedAll, ih, List.map_cons]

end Schema

/-! ## Two walks -/

namespace Walk

variable {w : Walk} {allowance : Nat} {path : List String} {name owner : String} {ty inner : Ty}
  {format : Format}

/-- The walk over what is left without the skipped fields, which skips nothing. -/
def cut (w : Walk) : Walk := ⟨w.registry.without w.skip, fun _ _ => false, w.maxDepth⟩

theorem resolve_cut : w.cut.registry.resolve ty = w.registry.resolve ty :=
  Registry.sameAliases_without.resolve

theorem splitOption_cut : w.cut.splitOption name ty = w.splitOption name ty := by
  simp only [splitOption, resolve_cut]

theorem splitList_cut : w.cut.splitList name ty inner = w.splitList name ty inner := by
  cases inner with
  | list element => simp only [splitList, resolve_cut]
  | _ => rfl

/-- Both walks keep the same fields of a record, or none. -/
theorem splitFields_cut :
    w.cut.splitFields owner = (w.splitFields owner).map fun fields => (fields.1, []) := by
  unfold splitFields
  have there : w.cut.registry.get? owner =
      (w.registry.get? owner).map (·.without w.skip) := Registry.get?_without
  rw [there]
  cases found : w.registry.get? owner with
  | none => rfl
  | some d =>
    cases d with
    | typeAlias => rfl
    | record n fields =>
      have same : n = owner := Registry.name_of_get? found
      subst same
      have kept : (fields.filter fun field => !w.skip n field).filter (fun _ => !false) =
          fields.filter fun field => !w.skip n field := List.filter_true _
      have left : (fields.filter fun field => !w.skip n field).filter (fun _ => false) = [] :=
        List.filter_false _
      simp only [Option.map_some, Definition.without, cut, kept, left]
      split <;> rfl

/-- Changing what is read of the fields changes the list of it. -/
theorem readFields_map {read : Field → Except ReadError Schema} {change : Schema → Schema}
    {earlier : List String} {fields : List Field} :
    readFields (fun field => (read field).map change) owner earlier fields =
      (readFields read owner earlier fields).map (List.map change) := by
  induction fields generalizing earlier with
  | nil => rfl
  | cons field rest ih =>
    simp only [readFields, ih]
    cases checked (checkName field.name) with
    | error e => rfl
    | ok _ =>
      simp only [bind, Except.bind]
      split
      · rfl
      · cases read field with
        | error e => rfl
        | ok member => cases readFields read owner (field.name :: earlier) rest <;> rfl

/-- At every depth the walks fail alike or read the same but for the skipped names. -/
theorem member_cut : w.cut.member allowance path name ty format =
    (w.member allowance path name ty format).map Schema.unskipped := by
  induction allowance generalizing path name ty format with
  | zero => rfl
  | succ allowance ih =>
    apply member_map_congr splitOption_cut
    · intro optional inner _
      exact splitList_cut
    · intro node kind bare
      rw [Schema.unskipped, ← bare]
    · intro optional inner cardinality owner node _ _ _
      simp only [expandRecord, splitFields_cut, ih, readFields_map]
      cases w.splitFields owner with
      | error e => rfl
      | ok fields =>
        obtain ⟨kept, skipped⟩ := fields
        simp only [Except.map, bind, Except.bind]
        cases readFields _ owner [] kept with
        | error e => rfl
        | ok members => simp only [Schema.unskipped, Schema.unskippedAll_eq_map]

theorem root_cut : w.cut.root ty = (w.root ty).map Schema.unskipped := member_cut

end Walk

/-! ## Reading -/

namespace Reader

/-- What a reader answers, apart from memories and lists of skipped names. -/
def bare (answer : Except ReadError (Kept Schema)) : Except ReadError Schema :=
  (answer.map Kept.value).map Schema.unskipped

variable {registry : Registry} {skip : SkipStrategy} {limits : Limits} {ty : Ty}
  {element : Option Ty}

theorem compute_without :
    (start (registry.without skip) (fun _ _ => false) limits).compute ty element =
      ((start registry skip limits).compute ty element).map Schema.unskipped := by
  have rooted (ty : Ty) : (start (registry.without skip) (fun _ _ => false) limits).walk.root ty =
      ((start registry skip limits).walk.root ty).map Schema.unskipped :=
    Walk.root_cut (w := (start registry skip limits).walk)
  cases element with
  | none => exact rooted ty
  | some element =>
    have placed : (registry.without skip).applyElement ty element =
        registry.applyElement ty element := Registry.sameAliases_without.applyElement
    change ((registry.without skip).applyElement ty element >>= _) =
      (registry.applyElement ty element >>= _).map Schema.unskipped
    rw [placed]
    cases registry.applyElement ty element with
    | error e => rfl
    | ok root => exact rooted root

theorem request_without :
    ((start (registry.without skip) (fun _ _ => false) limits).request ty element).1.map
        Kept.value =
      bare ((start registry skip limits).request ty element).1 := by
  rw [bare, request_start, request_start, compute_without]

/-- Skipping a field equals never having declared it: with and without an element type, a reader
answers what it would answer, without skipping, if the skipped fields were deleted, up to the lists
of skipped names. Whatever the skipped fields are, they do not influence the answer. -/
theorem read_without (registry : Registry) (skip : SkipStrategy) (limits : Limits) :
    let reader := start registry skip limits
    let cut := start (registry.without skip) (fun _ _ => false) limits
    (∀ ty, (cut.read ty).1.map Kept.value = bare (reader.read ty).1) ∧
      (∀ ty element,
        (cut.readWithElement ty element).1.map Kept.value =
          bare (reader.readWithElement ty element).1) ∧
      ∀ other, other.without skip = registry.without skip →
        (∀ ty, bare ((start other skip limits).read ty).1 = bare (reader.read ty).1) ∧
          ∀ ty element, bare ((start other skip limits).readWithElement ty element).1 =
            bare (reader.readWithElement ty element).1 := by
  intro reader cut
  refine ⟨fun _ => request_without, fun _ _ => request_without, ?_⟩
  intro other same
  have answers (ty : Ty) (element : Option Ty) :
      bare ((start other skip limits).request ty element).1 = bare (reader.request ty element).1 :=
    calc bare ((start other skip limits).request ty element).1
      _ = ((start (other.without skip) (fun _ _ => false) limits).request ty element).1.map
            Kept.value := request_without.symm
      _ = (cut.request ty element).1.map Kept.value := by rw [same]
      _ = bare (reader.request ty element).1 := request_without
  exact ⟨fun ty => answers ty none, fun ty element => answers ty (some element)⟩

end Reader

/-! ## A sample -/

namespace Sample

/-- A person with another field, which is skipped. -/
def hidden (name : String) (ty : Ty) : Registry where
  definitions := [.record "person" [
    ⟨"name", .primitive .string, .unset, false⟩,
    ⟨name, ty, .unset, true⟩,
    ⟨"tags", .option (.list (.primitive .u8)), .unset, false⟩]]

/-- A field without a name, of a nested list of nothing that is defined, does no harm. -/
theorem read_without_hidden :
    Reader.bare ((Reader.start (hidden "" (.list (.list (.named "nobody"))))
      SkipRule.flagged.skips .standard).read (.named "person")).1 = .ok person := by
  have same : people.without SkipRule.flagged.skips =
      (hidden "" (.list (.list (.named "nobody")))).without SkipRule.flagged.skips := by decide
  obtain ⟨-, -, others⟩ := Reader.read_without (hidden "" (.list (.list (.named "nobody"))))
    SkipRule.flagged.skips .standard
  obtain ⟨read, -⟩ := others people same
  have known : ((Reader.start people SkipRule.flagged.skips .standard).read
      (.named "person")).1.map Kept.value = .ok person := by cbv
  rw [← read, Reader.bare, known]
  rfl

end Sample

end Slotform
