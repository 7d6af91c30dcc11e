import Slotform.Registry

namespace Slotform

/-- A registry together with the places of its definitions by name. -/
structure IndexedRegistry extends Registry where
  index : List (String × Nat) := []
  deriving DecidableEq, Repr

namespace IndexedRegistry

def empty : IndexedRegistry := ⟨.empty, []⟩

/-- The place of a name's definition. -/
def place? (r : IndexedRegistry) (name : String) : Option Nat := r.index.lookup name

def get? (r : IndexedRegistry) (name : String) : Option Definition :=
  (r.place? name).bind fun place => r.definitions[place]?

def contains (r : IndexedRegistry) (name : String) : Bool := (r.place? name).isSome

/-- Writes a definition to the place of its name, or to a new place at the end. -/
def define (r : IndexedRegistry) (definition : Definition) : IndexedRegistry :=
  match r.place? definition.name with
  | some place => { r with definitions := r.definitions.set place definition }
  | none =>
    { r with
      definitions := r.definitions ++ [definition]
      index := r.index ++ [(definition.name, r.definitions.length)] }

def addConflict (r : IndexedRegistry) (name : String) : IndexedRegistry :=
  { r with toRegistry := r.toRegistry.addConflict name }

/-- Claims a name for an owner. The answer says whether the caller must define the name now. -/
def claim (r : IndexedRegistry) (name : String) (owner : Owner) : Bool × IndexedRegistry :=
  match r.owner? name with
  | some held => if held = owner then (false, r) else (false, r.addConflict name)
  | none =>
    if r.contains name then (false, r.addConflict name)
    else (true, { r with owners := r.owners ++ [(name, owner)] })

/-- Fails on the first definition that differs from the one of its name here. -/
def compare (r : IndexedRegistry) : List Definition → Except NameConflict Unit
  | [] => .ok ()
  | d :: rest =>
    match r.get? d.name with
    | some present => if present = d then r.compare rest else .error ⟨d.name⟩
    | none => r.compare rest

/-- Defines what is missing here, in order. -/
def fill (r : IndexedRegistry) : List Definition → IndexedRegistry
  | [] => r
  | d :: rest => (if r.contains d.name then r else r.define d).fill rest

/-- Copies every definition of `other` that is missing here, once nothing in `other` is in conflict
and no definition differs. Gives the outcome, and the registry as it is then. -/
def merge (r other : IndexedRegistry) : Except NameConflict Unit × IndexedRegistry :=
  match other.check with
  | .error e => (.error e, r)
  | .ok () =>
    match r.compare other.definitions with
    | .error e => (.error e, r)
    | .ok () => (.ok (), r.fill other.definitions)

end IndexedRegistry

end Slotform
