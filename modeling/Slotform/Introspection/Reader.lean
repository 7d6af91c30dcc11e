import Slotform.Introspection.Resolve
import Slotform.Introspection.Walk
import Slotform.Limits
import Slotform.Memo

namespace Slotform

structure Reader where
  registry : Registry := .empty
  skip : SkipStrategy := SkipRule.flagged.skips
  limits : Limits := .standard
  memo : Memo (Ty × Option Ty) Schema := .empty

namespace Reader

/-- A reader that knows the definitions of a registry. Their names are checked when a read first
reaches them. -/
def ofRegistry (registry : Registry) : Reader :=
  ⟨registry, SkipRule.flagged.skips, .standard, .empty⟩

/-- The reader under another skip strategy, with nothing remembered. -/
def withStrategy (r : Reader) (skip : SkipStrategy) : Reader :=
  { r with skip, memo := r.memo.clear }

/-- The reader under a skip rule, with nothing remembered. -/
def withSkip (r : Reader) (rule : SkipRule) : Reader := r.withStrategy rule.skips

/-- The reader under other limits, with nothing remembered. -/
def withLimits (r : Reader) (limits : Limits) : Reader := { r with limits, memo := r.memo.clear }

/-- How many schemas are remembered. -/
def cached (r : Reader) : Nat := r.memo.size

/-- Checks the names of definitions in order. -/
def checkNames : List Definition → Except IntrospectionError Unit
  | [] => .ok ()
  | d :: rest => do
    checkName d.name
    checkNames rest

/-- Adds definitions, all of them or none. -/
def define (r : Reader) (incoming : Registry) : Except IntrospectionError Reader := do
  checkNames incoming.definitions
  let registry ← (r.registry.merge incoming).mapError .conflictingDefinition
  .ok { r with registry }

def walk (r : Reader) : Walk := ⟨r.registry, r.skip, r.limits.maxDepth⟩

/-- The schema of a root type as the present definitions give it, without the memo. -/
def compute (r : Reader) (ty : Ty) (element : Option Ty) : Except ReadError Schema := do
  let root ← match element with
    | some element => r.registry.applyElement ty element
    | none => .ok ty
  r.walk.root root

/-- Answers a request from the memo, or computes and remembers the answer. -/
def request (r : Reader) (ty : Ty) (element : Option Ty) :
    Except ReadError (Kept Schema) × Reader :=
  let (answer, memo) :=
    r.memo.getOrCompute (ty, element) fun memo => (r.compute ty element, memo)
  (answer, { r with memo })

def read (r : Reader) (ty : Ty) : Except ReadError (Kept Schema) × Reader := r.request ty none

/-- The schema of a root type whose items are of the given type. -/
def readWithElement (r : Reader) (ty element : Ty) : Except ReadError (Kept Schema) × Reader :=
  r.request ty (some element)

end Reader

end Slotform
