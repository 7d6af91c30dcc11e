import Slotform.Introspection.Error
import Slotform.Introspection.Resolve
import Slotform.Schema.Basic

/-!
From a type reference to a schema. A member's type may be an option, of a list, of a leaf or a
record, each at most once. Records are expanded field by field, and the names of those being
expanded form a path on which no name may occur twice.
-/

namespace Slotform

/-- Decides, for a record's name and a field of the record, whether the field stays out of the
record's schema. -/
abbrev SkipStrategy := String → Field → Bool

/-- The strategy that skips the fields flagged in their definition and those listed with their
record's name. -/
structure SkipRule where
  ignored : List (String × String) := []
  deriving DecidableEq, Repr

namespace SkipRule

/-- Only flagged fields are skipped. -/
def flagged : SkipRule := ⟨[]⟩

def skips (rule : SkipRule) (owner : String) (field : Field) : Bool :=
  field.skip || rule.ignored.contains (owner, field.name)

end SkipRule

/-- What a walk over type references depends on. -/
structure Walk where
  registry : Registry
  skip : SkipStrategy
  maxDepth : Nat

namespace Walk

def fail {α : Type} (e : IntrospectionError) : Except ReadError α := .error (.introspection e)

/-- Takes a faulty name as a reading error. -/
def checked (result : Except IntrospectionError Unit) : Except ReadError Unit :=
  result.mapError .introspection

def splitOption (w : Walk) (name : String) (ty : Ty) : Except ReadError (Bool × Ty) := do
  match ← w.registry.resolve ty with
  | .option inner =>
    match ← w.registry.resolve inner with
    | .option _ => fail (.doublyOptional name ty)
    | inner => .ok (true, inner)
  | other => .ok (false, other)

/-- Splits off a list around items that are neither lists nor options nor unknown. -/
def splitList (w : Walk) (name : String) (ty inner : Ty) :
    Except ReadError (Cardinality × Ty) := do
  match inner with
  | .list element =>
    match ← w.registry.resolve element with
    | .value => fail (.missingElementType name)
    | .list _ => fail (.nestedCollection name ty)
    | .option _ => fail (.nullableElement name ty)
    | item => .ok (.repeated, item)
  | item => .ok (.single, item)

/-- The fields of a record, those that are kept and the names of those that are not. -/
def splitFields (w : Walk) (owner : String) : Except ReadError (List Field × List String) :=
  match w.registry.get? owner with
  | some (.record _ fields) =>
    let kept := fields.filter fun field => !w.skip owner field
    let skipped := fields.filter fun field => w.skip owner field
    if kept.isEmpty then fail (.noMembers owner) else .ok (kept, skipped.map (·.name))
  | _ => fail (.undefinedType owner)

/-- Reads the kept fields of a record in order. A field's name is checked before its type. -/
def readFields (read : Field → Except ReadError Schema) (owner : String) (earlier : List String) :
    List Field → Except ReadError (List Schema)
  | [] => .ok []
  | field :: rest => do
    checked (checkName field.name)
    if earlier.contains field.name then fail (.duplicateMember owner field.name)
    else
      let member ← read field
      let members ← readFields read owner (field.name :: earlier) rest
      .ok (member :: members)

/-- Reads a member. The first argument says how many record levels may still be entered, this one
included; the path holds the records being expanded, innermost first. -/
def member (w : Walk) : Nat → List String → String → Ty → Format → Except ReadError Schema
  | 0, _, _, _, _ => fail (.tooDeep w.maxDepth)
  | allowance + 1, path, name, ty, format => do
    let (optional, inner) ← w.splitOption name ty
    let (cardinality, item) ← w.splitList name ty inner
    let node (skipped : List String) : Node :=
      ⟨name, item, cardinality, optional, format, skipped⟩
    match item with
    | .primitive p => .ok (.leaf (node []) (.primitive p))
    | .custom kind =>
      checked (checkKind kind)
      .ok (.leaf (node []) (.custom kind))
    | .named owner =>
      if path.contains owner then .error (.cyclic (.closing owner path))
      else
        let (kept, skipped) ← w.splitFields owner
        let members ← readFields
          (fun field => w.member allowance (owner :: path) field.name field.ty field.format)
          owner [] kept
        .ok (.record (node skipped) members)
    | .value => fail (.opaqueMember name)
    | .option _ => fail (.doublyOptional name item)
    | .list _ => fail (.nestedCollection name item)

/-- Reads a root type, under the name of its item type. -/
def root (w : Walk) (ty : Ty) : Except ReadError Schema :=
  w.member (w.maxDepth + 1) [] ty.itemName ty .unset

end Walk

end Slotform
