import Slotform.Proofs.Introspection.Readable
import Slotform.Proofs.Registry

/-!
# Reading from registries that grow

A read that succeeds met a definition for every name it came across. None of them changes when the
registry grows, so the same read gives the same schema from then on (`Walk.root_mono`,
`Reader.compute_mono`). Failures carry no such promise: a missing definition may arrive.
-/

namespace Slotform

namespace Registry

variable {r r' : Registry} {visited : List String} {ty t : Ty}

/-! ## Aliases -/

theorem resolveFrom_alias {name n : String} {target : Ty} (fresh : name ∉ visited)
    (found : r.get? name = some (.typeAlias n target)) :
    r.resolveFrom visited (.named name) = r.resolveFrom (name :: visited) target := by
  rw [resolveFrom, dif_neg fresh]
  split <;> simp_all

theorem resolveFrom_record {name n : String} {fields : List Field} (fresh : name ∉ visited)
    (found : r.get? name = some (.record n fields)) :
    r.resolveFrom visited (.named name) = .ok (.named name) := by
  rw [resolveFrom, dif_neg fresh]
  split <;> simp_all

theorem resolveFrom_undefined {name : String} (fresh : name ∉ visited)
    (missing : r.get? name = none) :
    r.resolveFrom visited (.named name) = .error (.introspection (.undefinedType name)) := by
  rw [resolveFrom, dif_neg fresh]
  split <;> simp_all

theorem resolveFrom_unnamed (unnamed : ∀ name, ty ≠ .named name) :
    r.resolveFrom visited ty = .ok ty := by
  cases ty with
  | named name => exact absurd rfl (unnamed name)
  | _ =>
    rw [resolveFrom]
    intro _ same
    cases same

theorem resolveFrom_mono (grows : r.GrowsTo r') (h : r.resolveFrom visited ty = .ok t) :
    r'.resolveFrom visited ty = .ok t := by
  fun_induction r.resolveFrom visited ty with
  | case1 => cases h
  | case2 visited name fresh n target found ih =>
    rw [resolveFrom_alias fresh (grows _ _ found)]
    exact ih h
  | case3 visited name fresh n fields found =>
    rw [resolveFrom_record fresh (grows _ _ found)]
    exact h
  | case4 => cases h
  | case5 visited ty unnamed =>
    rw [resolveFrom_unnamed unnamed]
    exact h

theorem resolve_mono (grows : r.GrowsTo r') (h : r.resolve ty = .ok t) : r'.resolve ty = .ok t :=
  resolveFrom_mono grows h

/-! ## Element types -/

section Element

variable {element resolved : Ty}

theorem placeElement_alias {name n : String} {target : Ty} (fresh : name ∉ visited)
    (found : r.get? name = some (.typeAlias n target)) :
    r.placeElement element resolved visited (.named name) =
      r.placeElement element resolved (name :: visited) target := by
  rw [placeElement, dif_neg fresh]
  split <;> simp_all

theorem placeElement_record {name n : String} {fields : List Field} (fresh : name ∉ visited)
    (found : r.get? name = some (.record n fields)) :
    r.placeElement element resolved visited (.named name) =
      if .named name = resolved then .ok element
      else .error (.introspection (.conflictingElementType (.named name) element)) := by
  rw [placeElement, dif_neg fresh]
  split <;> simp_all

theorem placeElement_undefined {name : String} (fresh : name ∉ visited)
    (missing : r.get? name = none) :
    r.placeElement element resolved visited (.named name) =
      .error (.introspection (.undefinedType name)) := by
  rw [placeElement, dif_neg fresh]
  split <;> simp_all

theorem placeElement_mono (grows : r.GrowsTo r')
    (h : r.placeElement element resolved visited ty = .ok t) :
    r'.placeElement element resolved visited ty = .ok t := by
  fun_induction r.placeElement element resolved visited ty generalizing t with
  | case1 => cases h
  | case2 visited name fresh n target found ih =>
    rw [placeElement_alias fresh (grows _ _ found)]
    exact ih h
  | case3 visited name fresh n fields found same =>
    rw [placeElement_record fresh (grows _ _ found), if_pos same]
    exact h
  | case4 => cases h
  | case5 => cases h
  | case6 visited inner ih =>
    obtain ⟨placed, inside, rfl⟩ := map_eq_ok.1 h
    rw [placeElement, ih inside]
    rfl
  | case7 visited item dynamic =>
    rw [placeElement, if_pos dynamic]
    exact h
  | case8 visited item known =>
    obtain ⟨resolved, found, rfl⟩ := map_eq_ok.1 h
    rw [placeElement, if_neg known, resolve_mono grows found]
    rfl
  | case9 =>
    rw [placeElement]
    exact h
  | case10 visited =>
    rw [placeElement, if_pos rfl]
    · exact h
    all_goals assumption
  | case11 => cases h

theorem applyElement_mono (grows : r.GrowsTo r') {root : Ty}
    (h : r.applyElement root element = .ok t) : r'.applyElement root element = .ok t := by
  simp only [applyElement, bind_eq_ok, ite_error_eq_ok] at h ⊢
  obtain ⟨resolved, found, single, placed⟩ := h
  exact ⟨resolved, resolve_mono grows found, single, placeElement_mono grows placed⟩

end Element

end Registry

namespace Walk

variable {w : Walk} {r' : Registry} {name owner : String} {ty inner item : Ty}
  {allowance : Nat} {path : List String} {format : Format} {s : Schema}

/-- The same walk over other definitions. -/
def withRegistry (w : Walk) (r : Registry) : Walk := { w with registry := r }

section Steps

variable (grows : w.registry.GrowsTo r')

include grows

theorem splitOption_mono {optional : Bool} (h : w.splitOption name ty = .ok (optional, inner)) :
    (w.withRegistry r').splitOption name ty = .ok (optional, inner) := by
  simp only [splitOption, bind_eq_ok] at h ⊢
  obtain ⟨resolved, found, h⟩ := h
  refine ⟨resolved, Registry.resolve_mono grows found, ?_⟩
  cases resolved with
  | option under =>
    simp only [bind_eq_ok] at h ⊢
    obtain ⟨resolved, found, h⟩ := h
    exact ⟨resolved, Registry.resolve_mono grows found, h⟩
  | _ => exact h

theorem splitList_mono {cardinality : Cardinality}
    (h : w.splitList name ty inner = .ok (cardinality, item)) :
    (w.withRegistry r').splitList name ty inner = .ok (cardinality, item) := by
  unfold splitList at h ⊢
  cases inner with
  | list element =>
    simp only [bind_eq_ok] at h ⊢
    obtain ⟨resolved, found, h⟩ := h
    exact ⟨resolved, Registry.resolve_mono grows found, h⟩
  | _ => exact h

theorem splitFields_mono {kept : List Field} {skipped : List String}
    (h : w.splitFields owner = .ok (kept, skipped)) :
    (w.withRegistry r').splitFields owner = .ok (kept, skipped) := by
  obtain ⟨name, fields, found, _⟩ := splitFields_ok h
  have found' : (w.withRegistry r').registry.get? owner = some (.record name fields) :=
    grows _ _ found
  unfold splitFields at h ⊢
  rw [found] at h
  rw [found']
  exact h

end Steps

theorem readFields_mono {read read' : Field → Except ReadError Schema}
    (mono : ∀ field member, read field = .ok member → read' field = .ok member)
    {earlier : List String} {fields : List Field} {members : List Schema}
    (h : readFields read owner earlier fields = .ok members) :
    readFields read' owner earlier fields = .ok members := by
  induction fields generalizing earlier members with
  | nil => exact h
  | cons field rest ih =>
    simp only [readFields, bind_eq_ok] at h ⊢
    obtain ⟨u, valid, h⟩ := h
    refine ⟨u, valid, ?_⟩
    split at h
    · exact absurd h fail_ne_ok
    next fresh =>
      rw [if_neg fresh]
      simp only [bind_eq_ok] at h ⊢
      obtain ⟨member, found, members', others, all⟩ := h
      exact ⟨member, mono _ _ found, members', ih others, all⟩

/-- The inversion of a successful step (`member_ok`) holds in the other direction as well. -/
theorem member_of_expands {optional : Bool} {cardinality : Cardinality} {skipped : List String}
    (hoption : w.splitOption name ty = .ok (optional, inner))
    (hlist : w.splitList name ty inner = .ok (cardinality, item))
    (expands : w.Expands allowance path ⟨name, item, cardinality, optional, format, skipped⟩ s) :
    w.member (allowance + 1) path name ty format = .ok s := by
  simp only [member, bind_eq_ok, Prod.exists]
  refine ⟨optional, inner, hoption, cardinality, item, hlist, ?_⟩
  cases expands with
  | primitive element none =>
    cases element
    cases none
    rfl
  | custom element none proper =>
    cases element
    cases none
    simp [checkKind, checked, proper, Except.mapError, bind, Except.bind]
  | record element fresh hfields hmembers =>
    cases element
    simp only [List.contains_iff_mem, if_neg fresh, bind_eq_ok, Prod.exists]
    exact ⟨_, _, hfields, _, hmembers, rfl⟩

theorem member_mono (grows : w.registry.GrowsTo r')
    (h : w.member allowance path name ty format = .ok s) :
    (w.withRegistry r').member allowance path name ty format = .ok s := by
  induction allowance generalizing path name ty format s with
  | zero => exact absurd h member_zero_ne_ok
  | succ allowance ih =>
    obtain ⟨optional, inner, cardinality, item, skipped, hoption, hlist, expands⟩ := member_ok h
    have expands' : (w.withRegistry r').Expands allowance path
        ⟨name, item, cardinality, optional, format, skipped⟩ s := by
      cases expands with
      | primitive element none => exact .primitive element none
      | custom element none proper => exact .custom element none proper
      | record element fresh hfields hmembers =>
        exact .record element fresh (splitFields_mono grows hfields)
          (readFields_mono (fun _ _ found => ih found) hmembers)
    exact member_of_expands (splitOption_mono grows hoption) (splitList_mono grows hlist) expands'

/-- A walk that succeeds gives the same schema when more is defined. -/
theorem root_mono (grows : w.registry.GrowsTo r') (h : w.root ty = .ok s) :
    (w.withRegistry r').root ty = .ok s :=
  member_mono grows h

end Walk

namespace Reader

variable {r r' : Reader}

/-- What is read stays right when definitions arrive. -/
theorem compute_mono {incoming : Registry} (defined : r.define incoming = .ok r') {ty : Ty}
    {element : Option Ty} {s : Schema} (h : r.compute ty element = .ok s) :
    r'.compute ty element = .ok s := by
  obtain ⟨registry, merged, rfl⟩ := define_ok defined
  have grows := Registry.merge_growsTo merged
  cases element with
  | none => exact Walk.root_mono (w := r.walk) grows h
  | some element =>
    simp only [compute, bind_eq_ok] at h ⊢
    obtain ⟨root, placed, walked⟩ := h
    exact ⟨root, Registry.applyElement_mono grows placed, Walk.root_mono (w := r.walk) grows walked⟩

end Reader

end Slotform
