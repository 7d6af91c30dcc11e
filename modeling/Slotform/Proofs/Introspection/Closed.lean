import Slotform.Proofs.Introspection.Growth

namespace Slotform

namespace Registry

variable {base r : Registry} {visited : List String} {ty t : Ty}

/-- In closed definitions a reference leads to a type whose names are defined. -/
theorem resolveFrom_defines (closed : base.Closed) (defines : base.Defines ty)
    (h : base.resolveFrom visited ty = .ok t) : base.Defines t := by
  fun_induction base.resolveFrom visited ty with
  | case1 => cases h
  | case2 visited name fresh n target found ih => exact ih (closed _ _ found) h
  | case3 => cases h; exact defines
  | case4 => cases h
  | case5 => cases h; exact defines

theorem resolveFrom_closed (closed : base.Closed) (grows : base.GrowsTo r)
    (defines : base.Defines ty) : r.resolveFrom visited ty = base.resolveFrom visited ty := by
  fun_induction base.resolveFrom visited ty with
  | case1 visited name seen => rw [resolveFrom, dif_pos seen]
  | case2 visited name fresh n target found ih =>
    rw [resolveFrom_alias fresh (grows _ _ found)]
    exact ih (closed _ _ found)
  | case3 visited name fresh n fields found => rw [resolveFrom_record fresh (grows _ _ found)]
  | case4 visited name fresh missing =>
    obtain ⟨d, found⟩ := defines name rfl
    cases missing.symm.trans found
  | case5 visited ty unnamed => rw [resolveFrom_unnamed unnamed]

theorem resolve_closed (closed : base.Closed) (grows : base.GrowsTo r)
    (defines : base.Defines ty) : r.resolve ty = base.resolve ty :=
  resolveFrom_closed closed grows defines

/-- An element type takes the place of the items of a raw list. -/
theorem applyElement_rawList (r : Registry) (element : Ty) :
    r.applyElement .rawList element = (r.resolve element).bind fun resolved =>
      if resolved.isList then .error (.introspection (.nestedCollection "value" element))
      else .ok (.list element) := by
  unfold applyElement Ty.rawList
  cases r.resolve element with
  | error e => rfl
  | ok resolved =>
    simp only [bind, Except.bind, placeElement]
    rfl

theorem applyElement_closed (closed : base.Closed) (grows : base.GrowsTo r)
    (defines : base.Defines ty) : r.applyElement .rawList ty = base.applyElement .rawList ty := by
  rw [applyElement_rawList, applyElement_rawList, resolve_closed closed grows defines]

end Registry

namespace Walk

variable {w : Walk} {r : Registry} {name owner : String} {ty inner : Ty} {allowance : Nat}
  {path : List String} {format : Format}

section Closed

variable (closed : w.registry.Closed) (grows : w.registry.GrowsTo r)

include closed grows

theorem splitOption_closed (defines : w.registry.Defines ty) :
    (w.withRegistry r).splitOption name ty = w.splitOption name ty ∧
      ∀ optional inner, w.splitOption name ty = .ok (optional, inner) →
        w.registry.Defines inner := by
  have first : (w.withRegistry r).registry.resolve ty = w.registry.resolve ty :=
    Registry.resolve_closed closed grows defines
  rw [splitOption, splitOption, first]
  cases resolved : w.registry.resolve ty with
  | error e => exact ⟨rfl, fun _ _ h => by cases h⟩
  | ok t =>
    have known : w.registry.Defines t := Registry.resolveFrom_defines closed defines resolved
    simp only [bind, Except.bind]
    cases t with
    | option under =>
      have inside : w.registry.Defines under := known
      have second : (w.withRegistry r).registry.resolve under = w.registry.resolve under :=
        Registry.resolve_closed closed grows inside
      dsimp only
      rw [second]
      cases resolved : w.registry.resolve under with
      | error e => exact ⟨rfl, fun _ _ h => by cases h⟩
      | ok t =>
        have known : w.registry.Defines t := Registry.resolveFrom_defines closed inside resolved
        refine ⟨rfl, fun optional inner h => ?_⟩
        cases t <;> cases h <;> exact known
    | _ =>
      refine ⟨rfl, fun optional inner h => ?_⟩
      cases h
      exact known

theorem splitList_closed (defines : w.registry.Defines inner) :
    (w.withRegistry r).splitList name ty inner = w.splitList name ty inner ∧
      ∀ cardinality item, w.splitList name ty inner = .ok (cardinality, item) →
        w.registry.Defines item := by
  cases inner with
  | list element =>
    have inside : w.registry.Defines element := defines
    have same : (w.withRegistry r).registry.resolve element = w.registry.resolve element :=
      Registry.resolve_closed closed grows inside
    rw [splitList, splitList, same]
    cases resolved : w.registry.resolve element with
    | error e => exact ⟨rfl, fun _ _ h => by cases h⟩
    | ok t =>
      have known : w.registry.Defines t := Registry.resolveFrom_defines closed inside resolved
      refine ⟨rfl, fun cardinality item h => ?_⟩
      cases t <;> cases h <;> exact known
  | _ =>
    refine ⟨rfl, fun cardinality item h => ?_⟩
    cases h
    exact defines

theorem splitFields_closed (defines : w.registry.Defines (.named owner)) :
    (w.withRegistry r).splitFields owner = w.splitFields owner ∧
      ∀ kept skipped, w.splitFields owner = .ok (kept, skipped) →
        ∀ f ∈ kept, w.registry.Defines f.ty := by
  obtain ⟨d, found⟩ := defines owner rfl
  have found' : (w.withRegistry r).registry.get? owner = some d := grows _ _ found
  refine ⟨by rw [splitFields, splitFields, found, found']; rfl, fun kept skipped h f hf => ?_⟩
  obtain ⟨n, fields, known, rfl, _⟩ := splitFields_ok h
  exact closed _ _ known f (List.mem_of_mem_filter hf)

end Closed

theorem member_closed (closed : w.registry.Closed) (grows : w.registry.GrowsTo r)
    (defines : w.registry.Defines ty) :
    (w.withRegistry r).member allowance path name ty format =
      w.member allowance path name ty format := by
  induction allowance generalizing path name ty format with
  | zero => rfl
  | succ allowance ih =>
    obtain ⟨first, known⟩ :
        (w.withRegistry r).splitOption name ty = w.splitOption name ty ∧ _ :=
      splitOption_closed closed grows defines
    apply member_congr first
    · intro optional inner hoption
      exact (splitList_closed closed grows (known _ _ hoption)).1
    · intro optional inner cardinality owner node hoption hlist _
      have defined : w.registry.Defines (.named owner) :=
        (splitList_closed closed grows (known _ _ hoption)).2 _ _ hlist
      obtain ⟨third, known⟩ := splitFields_closed closed grows defined
      exact expandRecord_congr third fun kept skipped hfields f hf => ih (known _ _ hfields f hf)

theorem root_closed (closed : w.registry.Closed) (grows : w.registry.GrowsTo r)
    (defines : w.registry.Defines ty) : (w.withRegistry r).root ty = w.root ty :=
  member_closed closed grows defines

end Walk

namespace Reader

variable {r r' : Reader} {base : Registry} {ty : Ty}

/-- Requests for a type, or for a list of its items, have the same outcome in all readers that
know the definitions of the type. -/
theorem compute_closed (closed : base.Closed) (defines : base.Defines ty)
    (grows : base.GrowsTo r.registry) (grows' : base.GrowsTo r'.registry)
    (skip : r.skip = r'.skip) (limits : r.limits = r'.limits) :
    r.compute ty none = r'.compute ty none ∧
      r.compute .rawList (some ty) = r'.compute .rawList (some ty) := by
  have same (root : Ty) (known : base.Defines root) : r.walk.root root = r'.walk.root root := by
    have here := Walk.root_closed (w := ⟨base, r.skip, r.limits.maxDepth⟩) closed grows known
    have there := Walk.root_closed (w := ⟨base, r.skip, r.limits.maxDepth⟩) closed grows' known
    rw [walk, walk, ← skip, ← limits]
    exact here.trans there.symm
  refine ⟨same ty defines, ?_⟩
  have placed : r.registry.applyElement .rawList ty = r'.registry.applyElement .rawList ty := by
    rw [Registry.applyElement_closed closed grows defines,
      Registry.applyElement_closed closed grows' defines]
  simp only [compute, placed, Registry.applyElement_rawList]
  cases r'.registry.resolve ty with
  | error e => rfl
  | ok resolved =>
    simp only [Except.bind, bind]
    cases resolved.isList with
    | true => rfl
    | false => exact same (.list ty) defines

end Reader

/-! ## No conflicts -/

/-- The outcome is not a complaint about conflicting definitions. -/
def Unconflicting {α : Type} (outcome : Except ReadError α) : Prop :=
  ∀ c, outcome ≠ .error (.introspection (.conflictingDefinition c))

namespace Unconflicting

variable {α β : Type}

theorem ok (a : α) : Unconflicting (.ok a) := fun _ h => by cases h

theorem cyclic (c : Cycle) : Unconflicting (.error (.cyclic c) : Except ReadError α) :=
  fun _ h => by cases h

theorem bind {x : Except ReadError α} {f : α → Except ReadError β} (first : Unconflicting x)
    (next : ∀ a, Unconflicting (f a)) : Unconflicting (x >>= f) := by
  cases x with
  | error e => exact fun c h => first c (congrArg Except.error (Except.error.inj h))
  | ok a => exact next a

theorem checkName (name : String) : Unconflicting (Walk.checked (Slotform.checkName name)) := by
  unfold Walk.checked Slotform.checkName
  split <;> (intro c h; cases h)

theorem checkKind (kind : String) : Unconflicting (Walk.checked (Slotform.checkKind kind)) := by
  unfold Walk.checked Slotform.checkKind
  split <;> (intro c h; cases h)

theorem resolve (r : Registry) (ty : Ty) : Unconflicting (r.resolve ty) := by
  unfold Registry.resolve
  fun_induction r.resolveFrom [] ty with
  | case1 => exact cyclic _
  | case2 _ _ _ _ _ _ ih => exact ih
  | case3 => exact ok _
  | case4 => intro c h; cases h
  | case5 => exact ok _

variable (w : Walk) (name owner : String) (ty inner : Ty)

theorem splitOption : Unconflicting (w.splitOption name ty) := by
  refine bind (resolve _ _) fun t => ?_
  cases t with
  | option under =>
    refine bind (resolve _ _) fun t => ?_
    cases t <;> (intro c h; cases h)
  | _ => exact ok _

theorem splitList : Unconflicting (w.splitList name ty inner) := by
  cases inner with
  | list element =>
    refine bind (resolve _ _) fun t => ?_
    cases t <;> (intro c h; cases h)
  | _ => exact ok _

theorem splitFields : Unconflicting (w.splitFields owner) := by
  unfold Walk.splitFields
  split
  · dsimp only
    split <;> (intro c h; cases h)
  · intro c h
    cases h

theorem readFields {read : Field → Except ReadError Schema} (each : ∀ f, Unconflicting (read f))
    (earlier : List String) (fields : List Field) :
    Unconflicting (Walk.readFields read owner earlier fields) := by
  induction fields generalizing earlier with
  | nil => exact ok _
  | cons f rest ih =>
    refine bind (checkName _) fun _ => ?_
    split
    · intro c h
      cases h
    · exact bind (each f) fun _ => bind (ih _) fun _ => ok _

theorem member (allowance : Nat) (path : List String) (format : Format) :
    Unconflicting (w.member allowance path name ty format) := by
  induction allowance generalizing path name ty format with
  | zero =>
    intro c h
    cases h
  | succ allowance ih =>
    refine bind (splitOption w name ty) fun (optional, inner) => ?_
    refine bind (splitList w name ty inner) fun (cardinality, item) => ?_
    cases item with
    | custom kind => exact bind (checkKind kind) fun _ => ok _
    | named owner =>
      dsimp only
      split
      · exact cyclic _
      · exact bind (splitFields w owner) fun _ =>
          bind (readFields owner (fun f => ih _ _ _ _) _ _) fun _ => ok _
    | _ =>
      intro c h
      cases h

end Unconflicting

namespace Reader

variable (r : Reader) (ty : Ty)

theorem compute_unconflicting :
    Unconflicting (r.compute ty none) ∧ Unconflicting (r.compute .rawList (some ty)) := by
  have read (root : Ty) : Unconflicting (r.walk.root root) := .member _ _ _ _ _ _
  refine ⟨read ty, ?_⟩
  simp only [compute, Registry.applyElement_rawList]
  refine .bind ?_ fun root => read root
  refine .bind (.resolve _ _) fun resolved => ?_
  split <;> (intro c h; cases h)

end Reader

end Slotform
