/-!
A memo table that computes each key at most once. A key whose value is being computed holds an
empty slot; a failed computation leaves no slot behind. Slots carry tickets, which are never
issued twice, so that a computation only ever settles the slot that it opened, whatever happened
to the table in between.
-/

namespace Slotform

/-- A value with the ticket of the computation that made it. -/
structure Kept (α : Type) where
  ticket : Nat
  value : α

/-- A key's place in the table, empty while its value is being computed. -/
structure Slot (κ α : Type) where
  key : κ
  ticket : Nat
  value? : Option α

structure Memo (κ α : Type) where
  slots : List (Slot κ α) := []
  nextTicket : Nat := 0

/-- What a request finds: a value, or the ticket under which it has to be computed. -/
inductive Request (α : Type) where
  | known (kept : Kept α)
  | missing (ticket : Nat)

namespace Memo

variable {κ α ε : Type} [DecidableEq κ]

def empty : Memo κ α := ⟨[], 0⟩

def slot? (m : Memo κ α) (key : κ) : Option (Slot κ α) := m.slots.find? (·.key = key)

def get? (m : Memo κ α) (key : κ) : Option α := (m.slot? key).bind (·.value?)

def size (m : Memo κ α) : Nat := m.slots.countP (·.value?.isSome)

def isEmpty (m : Memo κ α) : Bool := m.size = 0

/-- How many slots there are, empty ones included. -/
def slotCount (m : Memo κ α) : Nat := m.slots.length

def inspected (m : Memo κ α) : String :=
  "SingleFlight \x7b slots: " ++ toString m.slotCount ++ " \x7d"

/-- Forgets every slot. Tickets go on from where they were. -/
def clear (m : Memo κ α) : Memo κ α := { m with slots := [] }

/-- Asks for a key. If it has no slot yet it gets an empty one. -/
def request (m : Memo κ α) (key : κ) : Request α × Memo κ α :=
  match m.slot? key with
  | some ⟨_, ticket, some value⟩ => (.known ⟨ticket, value⟩, m)
  | some ⟨_, ticket, none⟩ => (.missing ticket, m)
  | none =>
    (.missing m.nextTicket,
      ⟨m.slots ++ [⟨key, m.nextTicket, none⟩], m.nextTicket + 1⟩)

/-- Settles a computation: its slot takes the value, or is removed if the computation failed. A
slot that is no longer in the table stays out. -/
def settle (m : Memo κ α) (ticket : Nat) : Except ε α → Memo κ α
  | .ok value =>
    { m with slots := m.slots.map fun s =>
        if s.ticket = ticket ∧ s.value?.isNone then { s with value? := some value } else s }
  | .error _ =>
    { m with slots := m.slots.filter fun s => !(s.ticket = ticket ∧ s.value?.isNone) }

/-- The value of a key, computed if it is missing. The computation may use the table itself. -/
def getOrCompute (m : Memo κ α) (key : κ) (compute : Memo κ α → Except ε α × Memo κ α) :
    Except ε (Kept α) × Memo κ α :=
  match m.request key with
  | (.known kept, m) => (.ok kept, m)
  | (.missing ticket, m) =>
    let (result, m) := compute m
    (result.map (Kept.mk ticket), m.settle ticket result)

end Memo

end Slotform
