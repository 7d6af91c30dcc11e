import Slotform.Registry
import Slotform.Value.Basic

/-!
Typed declarations. A model is the type of a program's own data: a primitive, a list, an option,
or a declared type. A declared type is a record of members or an enumeration of named variants; it
is identified by its owner, since two declarations may go by one type name. A catalog holds the
declarations that models refer to.

A model is described by a type reference; on the way every record that it refers to is defined in a
registry under its type name, once. A record's name is claimed and held by an empty placeholder
before its members are described, so that a record may refer to itself.
-/

namespace Slotform.Typed

/-- The type of a program's data. -/
inductive Model where
  | primitive (p : Primitive)
  | list (item : Model)
  | option (inner : Model)
  | declared (owner : Owner)
  deriving DecidableEq, Repr

/-- The declared type under all list and option wrappers, if there is one. -/
def Model.declared? : Model → Option Owner
  | primitive _ => none
  | list item => item.declared?
  | option inner => inner.declared?
  | declared owner => some owner

/-- Data of some model. A record holds one datum per member in declared order, and an enumeration
the number of its variant. -/
inductive Datum where
  | atom (a : Atom)
  | list (items : List Datum)
  | absent
  | present (inner : Datum)
  | record (fields : List Datum)
  | variant (index : Nat)

/-- What becomes of a member that a value leaves out: it is missed, or it takes a default. A
skipped member is never part of a value and always takes its default. -/
inductive Presence where
  | required
  | defaulted (fallback : Datum)
  | skipped (fallback : Datum)

def Presence.isSkipped : Presence → Bool
  | skipped _ => true
  | _ => false

/-- A member of a declared record. The kind, if there is one, replaces the item type of the member
in its description. -/
structure Member where
  name : String
  model : Model
  format : Format := .unset
  kind : Option String := none
  presence : Presence := .required

def Member.isSkipped (m : Member) : Bool := m.presence.isSkipped

/-- What a declared type is. -/
inductive Shape where
  | record (typeName : String) (members : List Member)
  | enumeration (kind : Option String) (variants : List String)

/-- Declared types by their owners. -/
abbrev Catalog := List (Owner × Shape)

def Catalog.shape? (catalog : Catalog) (owner : Owner) : Option Shape := catalog.lookup owner

end Slotform.Typed

namespace Slotform.Typed.Catalog

/-- The type reference that describes a model. An enumeration is a string, or a leaf of its own
kind. -/
def ty (catalog : Catalog) : Model → Ty
  | .primitive p => .primitive p
  | .list item => .list (catalog.ty item)
  | .option inner => .option (catalog.ty inner)
  | .declared owner =>
    match catalog.shape? owner with
    | some (.record typeName _) => .named typeName
    | some (.enumeration (some kind) _) => .custom kind
    | some (.enumeration none _) => .primitive .string
    | none => .named owner.id

/-- The field that describes a member. A skipped member's type does not matter. -/
def field (catalog : Catalog) (m : Member) : Field :=
  let described := catalog.ty m.model
  let ty := match m.presence, m.kind with
    | .skipped _, _ => .value
    | _, some kind => described.withInnermost (.custom kind)
    | _, none => described
  ⟨m.name, ty, m.format, m.isSkipped⟩

/-- Defines a record and the records that its kept members refer to. The first argument bounds how
deeply records are entered; since every record on the way claims its name first, the number of
declarations is enough. -/
def defineRecords (catalog : Catalog) : Nat → Owner → Registry → Registry
  | 0, _, registry => registry
  | depth + 1, owner, registry =>
    match catalog.shape? owner with
    | some (.record typeName members) =>
      match registry.claim typeName owner with
      | (false, registry) => registry
      | (true, registry) =>
        let nested := members.foldl
          (fun registry m =>
            match m.isSkipped, m.model.declared? with
            | false, some inner => defineRecords catalog depth inner registry
            | _, _ => registry)
          (registry.define (.record typeName []))
        nested.define (.record typeName (members.map catalog.field))
    | _ => registry

/-- Describes a model: its type reference, and the registry with the records it refers to. -/
def describe (catalog : Catalog) (model : Model) (registry : Registry) : Ty × Registry :=
  match model.declared? with
  | some owner => (catalog.ty model, catalog.defineRecords (catalog.length + 1) owner registry)
  | none => (catalog.ty model, registry)

end Slotform.Typed.Catalog
