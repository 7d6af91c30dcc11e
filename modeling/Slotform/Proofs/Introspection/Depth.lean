import Slotform.Proofs.Introspection.Faithful
import Slotform.Proofs.Introspection.Runs

namespace Slotform

namespace Walk

variable {w : Walk}

def limited (w : Walk) (maxDepth : Nat) : Walk := { w with maxDepth }

/-- Fields are read as before if no member is too deep, and the first that is decides otherwise. -/
theorem readFields_limited {read read' : Field → Except ReadError Schema} {e : IntrospectionError}
    {n : Nat} {owner : String} {earlier : List String} {fields : List Field}
    {members : List Schema} (h : readFields read owner earlier fields = .ok members)
    (each : ∀ field s, read field = .ok s → read' field = if s.depth < n then .ok s else fail e) :
    readFields read' owner earlier fields =
      if ∀ m ∈ members, m.depth < n then .ok members else fail e := by
  induction fields generalizing earlier members with
  | nil =>
    cases h
    rfl
  | cons field rest ih =>
    simp only [readFields, bind_eq_ok] at h
    obtain ⟨⟨⟩, named, h⟩ := h
    split at h
    · exact absurd h fail_ne_ok
    next fresh =>
      simp only [bind_eq_ok, Except.ok.injEq] at h
      obtain ⟨m, one, others, more, rfl⟩ := h
      simp only [readFields, named, bind, Except.bind, if_neg fresh, each field m one, ih more,
        List.forall_mem_cons]
      by_cases low : m.depth < n
      · by_cases lower : ∀ m ∈ others, m.depth < n
        · simp only [if_pos low, if_pos lower, if_pos (And.intro low lower)]
        · simp only [if_pos low, if_neg lower, if_neg fun all => lower (And.right all)]
          rfl
      · simp only [if_neg low, if_neg fun all => low (And.left all)]
        rfl

/-- What is read at a member is read under another limit and allowance if the schema has no more
levels than that. -/
theorem member_limited {allowance : Nat} {path : List String} {name : String} {ty : Ty}
    {format : Format} {s : Schema} (h : w.member allowance path name ty format = .ok s)
    (maxDepth allowance' : Nat) :
    (w.limited maxDepth).member allowance' path name ty format =
      if s.depth < allowance' then .ok s else fail (.tooDeep maxDepth) := by
  induction allowance generalizing path name ty format s allowance' with
  | zero => exact absurd h member_zero_ne_ok
  | succ allowance ih =>
    cases allowance' with
    | zero => rfl
    | succ allowance' =>
      obtain ⟨optional, inner, cardinality, item, skipped, hoption, hlist, expands⟩ := member_ok h
      have first : (w.limited maxDepth).splitOption name ty = .ok (optional, inner) := hoption
      have second : (w.limited maxDepth).splitList name ty inner = .ok (cardinality, item) := hlist
      cases expands with
      | primitive element bare =>
        rw [if_pos Schema.depth_leaf_lt]
        exact member_of_expands first second (.primitive element bare)
      | custom element bare proper =>
        rw [if_pos Schema.depth_leaf_lt]
        exact member_of_expands first second (.custom element bare proper)
      | record element fresh split fields =>
        cases element
        have split : (w.limited maxDepth).splitFields _ = _ := split
        have members := readFields_limited fields fun field s h => ih h allowance'
        simp only [member, first, second, bind, Except.bind, List.contains_iff_mem, if_neg fresh,
          split, members, Schema.depth_record_lt]
        split_ifs <;> rfl

/-- A root that some walk reads is read under another limit if the limit is as large as the schema
is deep. -/
theorem root_limited {ty : Ty} {s : Schema} (h : w.root ty = .ok s) (maxDepth : Nat) :
    (w.limited maxDepth).root ty =
      if s.depth ≤ maxDepth then .ok s else fail (.tooDeep maxDepth) := by
  simp only [← Nat.lt_succ_iff]
  exact member_limited h maxDepth (maxDepth + 1)

end Walk

namespace Reader

variable {r r' : Reader} {ty : Ty} {element : Option Ty}

theorem compute_limited {s : Schema} (registry : r'.registry = r.registry) (skip : r'.skip = r.skip)
    (h : r.compute ty element = .ok s) :
    r'.compute ty element = if s.depth ≤ r'.limits.maxDepth then .ok s
      else .error (.introspection (.tooDeep r'.limits.maxDepth)) := by
  have limited : r'.walk = r.walk.limited r'.limits.maxDepth := by
    rw [walk, registry, skip]
    rfl
  cases element with
  | none =>
    have walked := Walk.root_limited h r'.limits.maxDepth
    rw [← limited] at walked
    exact walked
  | some element =>
    simp only [compute, bind_eq_ok] at h
    obtain ⟨root, placed, walked⟩ := h
    simp only [compute, registry, placed, bind, Except.bind, limited, Walk.root_limited walked]
    rfl

/-- What one reader reads every other reader with the same definitions reads as well, unless the
schema has more levels than the other reader's limit allows. -/
theorem request_limited (reachable : r.Reachable) (reachable' : r'.Reachable)
    (registry : r'.registry = r.registry) (skip : r'.skip = r.skip) {kept : Kept Schema}
    (answer : (r.request ty element).1 = .ok kept) :
    (r'.request ty element).1.map Kept.value =
      if kept.value.depth ≤ r'.limits.maxDepth then .ok kept.value
      else .error (.introspection (.tooDeep r'.limits.maxDepth)) := by
  have computed := reachable.request_eq ty element
  rw [answer] at computed
  exact (reachable'.request_eq ty element).trans (compute_limited registry skip computed.symm)

end Reader

end Slotform
