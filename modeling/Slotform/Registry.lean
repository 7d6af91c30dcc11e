import Slotform.Ty

namespace Slotform

/-- A field of a record definition. -/
structure Field where
  name : String
  ty : Ty
  format : Format := .unset
  skip : Bool := false
  deriving DecidableEq, Repr

/-- What a name stands for: another type, or a record of fields. -/
inductive Definition where
  | typeAlias (name : String) (target : Ty)
  | record (name : String) (fields : List Field)
  deriving DecidableEq, Repr

def Definition.name : Definition → String
  | typeAlias name _ => name
  | record name _ => name

/-- Who describes a type. -/
structure Owner where
  id : String
  deriving DecidableEq, Repr

/-- A name has two different definitions, or two owners. -/
structure NameConflict where
  name : String
  deriving DecidableEq, Repr

def NameConflict.message (e : NameConflict) : String :=
  "type `" ++ e.name ++ "` is already defined differently"

/-- Definitions in the order of first definition, the owner of each claimed name, and the names
in conflict in the order of discovery. -/
structure Registry where
  definitions : List Definition := []
  owners : List (String × Owner) := []
  conflicts : List String := []
  deriving DecidableEq, Repr

namespace Registry

def empty : Registry := ⟨[], [], []⟩

def names (r : Registry) : List String := r.definitions.map (·.name)

def get? (r : Registry) (name : String) : Option Definition :=
  r.definitions.find? (·.name == name)

def contains (r : Registry) (name : String) : Bool := (r.get? name).isSome

/-- Puts a definition in the place of the one with its name, or at the end. -/
def define (r : Registry) (definition : Definition) : Registry :=
  if r.contains definition.name then
    { r with definitions := r.definitions.map fun d =>
        if d.name = definition.name then definition else d }
  else { r with definitions := r.definitions ++ [definition] }

def owner? (r : Registry) (name : String) : Option Owner := r.owners.lookup name

/-- Remembers a conflict over a name, once. -/
def addConflict (r : Registry) (name : String) : Registry :=
  if r.conflicts.contains name then r else { r with conflicts := r.conflicts ++ [name] }

/-- Claims a name for an owner. The answer says whether the caller must define the name now: it
must not when the owner already holds the name, nor when somebody else does or the name is
defined without an owner, which are conflicts. -/
def claim (r : Registry) (name : String) (owner : Owner) : Bool × Registry :=
  match r.owner? name with
  | some held => if held = owner then (false, r) else (false, r.addConflict name)
  | none =>
    if r.contains name then (false, r.addConflict name)
    else (true, { r with owners := r.owners ++ [(name, owner)] })

/-- Fails on the first conflict. -/
def check (r : Registry) : Except NameConflict Unit :=
  match r.conflicts with
  | [] => .ok ()
  | name :: _ => .error ⟨name⟩

/-- The first definition of `incoming` that differs from this registry's of the same name. -/
def differing? (r : Registry) (incoming : List Definition) : Option Definition :=
  incoming.find? fun d =>
    match r.get? d.name with
    | some present => present ≠ d
    | none => false

/-- Copies every definition of `other` that is missing here. A conflict inside `other`, or a
definition that differs from the one here, rejects the whole merge. -/
def merge (r other : Registry) : Except NameConflict Registry := do
  other.check
  match r.differing? other.definitions with
  | some d => .error ⟨d.name⟩
  | none => .ok (other.definitions.foldl (fun acc d =>
      if acc.contains d.name then acc else acc.define d) r)

/-- Defines a list of definitions in order, starting from nothing. -/
def ofDefinitions (definitions : List Definition) : Registry :=
  definitions.foldl define empty

end Registry

end Slotform
