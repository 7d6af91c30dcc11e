import Mathlib.Data.List.Nodup
import Slotform.Proofs.Success
import Slotform.Registry

namespace Slotform.Registry

variable {r r' r'' : Registry} {name : String} {d : Definition}

/-! ## Definitions and owners -/

theorem contains_iff_get? : r.contains name = true ↔ ∃ d, r.get? name = some d :=
  Option.isSome_iff_exists

theorem name_of_get? (h : r.get? name = some d) : d.name = name := by
  simpa using List.find?_some h

theorem contains_iff_mem : r.contains name = true ↔ name ∈ r.names := by
  simp [contains, get?, names, List.find?_isSome]

/-- Where names are distinct, looking a definition up is finding it in the list. -/
theorem get?_eq_some_iff (distinct : r.names.Nodup) :
    r.get? d.name = some d ↔ d ∈ r.definitions := by
  constructor
  · exact List.mem_of_find?_eq_some
  · intro present
    obtain ⟨other, found⟩ := contains_iff_get?.1 (contains_iff_mem.2 (List.mem_map_of_mem present))
    have same : other = d := List.inj_on_of_nodup_map distinct
      (List.mem_of_find?_eq_some found) present (name_of_get? found)
    rw [found, same]

theorem get?_define_self (r : Registry) (d : Definition) :
    (r.define d).get? d.name = some d := by
  by_cases known : r.contains d.name = true
  · rw [define, if_pos known]
    obtain ⟨old, found⟩ := contains_iff_get?.1 known
    have replaced : ((r.definitions.map fun e => if e.name = d.name then d else e).find?
        fun e => e.name == d.name) = some d := by
      rw [List.find?_map]
      have same : ((fun e : Definition => e.name == d.name) ∘
          fun e => if e.name = d.name then d else e) = fun e => e.name == d.name := by
        funext e
        by_cases h : e.name = d.name <;> simp [h]
      rw [same, show r.definitions.find? (fun e => e.name == d.name) = some old from found,
        Option.map_some, if_pos (name_of_get? found)]
    exact replaced
  · rw [define, if_neg known]
    have absent : r.definitions.find? (fun e => e.name == d.name) = none := by
      simpa [contains, get?] using known
    simp [get?, List.find?_append, absent]

theorem get?_define_of_ne (other : name ≠ d.name) : (r.define d).get? name = r.get? name := by
  by_cases known : r.contains d.name = true
  · rw [define, if_pos known]
    simp only [get?]
    induction r.definitions with
    | nil => rfl
    | cons e rest ih =>
      by_cases replaced : e.name = d.name
      · rw [List.map_cons, if_pos replaced, List.find?_cons_of_neg (by simpa using other.symm),
          List.find?_cons_of_neg (by simpa [replaced] using other.symm), ih]
      · rw [List.map_cons, if_neg replaced, List.find?_cons, List.find?_cons, ih]
  · rw [define, if_neg known]
    have differs : (d.name == name) = false := by simpa using other.symm
    simp [get?, List.find?_append, differs]

theorem contains_define_of_ne (other : name ≠ d.name) :
    (r.define d).contains name = r.contains name := by
  rw [contains, get?_define_of_ne other, contains]

@[simp] theorem owner?_define (r : Registry) (d : Definition) (name : String) :
    (r.define d).owner? name = r.owner? name := by
  unfold define
  split <;> rfl

@[simp] theorem conflicts_define (r : Registry) (d : Definition) :
    (r.define d).conflicts = r.conflicts := by
  unfold define
  split <;> rfl

theorem names_define (r : Registry) (d : Definition) :
    (r.define d).names = if d.name ∈ r.names then r.names else r.names ++ [d.name] := by
  by_cases known : r.contains d.name = true
  · rw [define, if_pos known, if_pos (contains_iff_mem.1 known)]
    simp only [names, List.map_map]
    refine List.map_congr_left fun e _ => ?_
    by_cases h : e.name = d.name <;> simp [h]
  · rw [define, if_neg known, if_neg fun mem => known (contains_iff_mem.2 mem)]
    exact List.map_append

theorem nodup_names_define (distinct : r.names.Nodup) (d : Definition) :
    (r.define d).names.Nodup := by
  rw [names_define]
  split
  · exact distinct
  next fresh =>
    exact List.nodup_append.2 ⟨distinct, List.nodup_singleton _, by
      rintro _ hn _ hm rfl
      exact fresh (List.mem_singleton.1 hm ▸ hn)⟩

/-- The name is out of reach of the owner: somebody else holds it, or it is defined and nobody
holds it. -/
def Denied (r : Registry) (name : String) (owner : Owner) : Prop :=
  (∃ holder, r.owner? name = some holder ∧ holder ≠ owner) ∨
    (r.owner? name = none ∧ ∃ d, r.get? name = some d)

/-- The three ends of a claim: the name is held already, it is a conflict, or it is granted. -/
theorem claim_cases (r : Registry) (name : String) (owner : Owner) :
    (r.owner? name = some owner ∧ r.claim name owner = (false, r)) ∨
      (r.Denied name owner ∧ r.claim name owner = (false, r.addConflict name)) ∨
      (r.owner? name = none ∧ r.get? name = none ∧
        r.claim name owner = (true, { r with owners := r.owners ++ [(name, owner)] })) := by
  unfold claim
  cases held : r.owner? name with
  | some holder =>
    by_cases same : holder = owner
    · exact .inl ⟨congrArg some same, if_pos same⟩
    · exact .inr (.inl ⟨.inl ⟨holder, held, same⟩, if_neg same⟩)
  | none =>
    by_cases known : r.contains name = true
    · exact .inr (.inl ⟨.inr ⟨held, contains_iff_get?.1 known⟩, if_pos known⟩)
    · exact .inr (.inr ⟨rfl, by simpa [contains] using known, if_neg known⟩)

theorem mem_conflicts_addConflict {conflict : String} :
    name ∈ (r.addConflict conflict).conflicts ↔ name ∈ r.conflicts ∨ name = conflict := by
  unfold addConflict
  split
  next known =>
    have known : conflict ∈ r.conflicts := by simpa using known
    constructor
    · exact .inl
    · rintro (h | rfl)
      · exact h
      · exact known
  next => simp

theorem conflicts_addConflict_ne_nil (r : Registry) (conflict : String) :
    (r.addConflict conflict).conflicts ≠ [] :=
  List.ne_nil_of_mem (mem_conflicts_addConflict.2 (.inr rfl))

@[simp] theorem get?_addConflict (r : Registry) (conflict name : String) :
    (r.addConflict conflict).get? name = r.get? name := by
  unfold addConflict
  split <;> rfl

@[simp] theorem owner?_addConflict (r : Registry) (conflict name : String) :
    (r.addConflict conflict).owner? name = r.owner? name := by
  unfold addConflict
  split <;> rfl

@[simp] theorem names_addConflict (r : Registry) (conflict : String) :
    (r.addConflict conflict).names = r.names := by
  unfold addConflict
  split <;> rfl

theorem owner?_claimed (missing : r.owner? name = none) (owner : Owner) (other : String) :
    ({ r with owners := r.owners ++ [(name, owner)] } : Registry).owner? other =
      if other = name then some owner else r.owner? other := by
  simp only [owner?] at missing ⊢
  rw [List.lookup_append]
  by_cases same : other = name
  · simp [same, missing]
  · have differs : (other == name) = false := by simpa using same
    simp [same, List.lookup_cons, differs]

/-! ## Growth -/

/-- The second registry knows every definition of the first. -/
def GrowsTo (r r' : Registry) : Prop :=
  ∀ name d, r.get? name = some d → r'.get? name = some d

theorem GrowsTo.refl (r : Registry) : r.GrowsTo r := fun _ _ h => h

theorem GrowsTo.trans (first : r.GrowsTo r') (second : r'.GrowsTo r'') : r.GrowsTo r'' :=
  fun name d h => second name d (first name d h)

/-- A merge that succeeds defines what is missing, in order. -/
theorem merge_ok {incoming : Registry} (h : r.merge incoming = .ok r') :
    r' = incoming.definitions.foldl
      (fun acc d => if acc.contains d.name then acc else acc.define d) r := by
  simp only [merge, bind_eq_ok] at h
  obtain ⟨-, -, h⟩ := h
  split at h
  · cases h
  · cases h
    rfl

theorem get?_fill (incoming : List Definition) (r : Registry) (name : String) :
    (incoming.foldl
      (fun acc d => if acc.contains d.name then acc else acc.define d) r).get? name =
        (r.get? name).or (incoming.find? (·.name == name)) := by
  induction incoming generalizing r with
  | nil => exact Option.or_none.symm
  | cons d rest ih =>
    rw [List.foldl_cons, ih, List.find?_cons]
    by_cases own : name = d.name
    · subst own
      rw [beq_self_eq_true]
      split
      next known =>
        obtain ⟨present, found⟩ := contains_iff_get?.1 known
        rw [found]
        rfl
      next missing =>
        have unknown : r.get? d.name = none := by simpa [contains] using missing
        rw [get?_define_self, unknown]
        rfl
    · have differs : (d.name == name) = false := by simpa using fun same => own same.symm
      rw [differs]
      split
      next => rfl
      next => rw [get?_define_of_ne own]

/-- After a merge a name stands for what it stood for before, or else for what it stands for in the
other registry. -/
theorem get?_merge {incoming : Registry} (h : r.merge incoming = .ok r') (name : String) :
    r'.get? name = (r.get? name).or (incoming.get? name) := by
  rw [merge_ok h]
  exact get?_fill incoming.definitions r name

theorem merge_growsTo {incoming : Registry} (h : r.merge incoming = .ok r') : r.GrowsTo r' := by
  intro name d found
  rw [get?_merge h, found]
  rfl

/-! ## References -/

/-- Whatever a type reference names is defined. -/
def Defines (r : Registry) (ty : Ty) : Prop :=
  ∀ name, ty.innermost = .named name → ∃ d, r.get? name = some d

/-- No definition refers to a name without one. -/
def Closed (r : Registry) : Prop :=
  ∀ name d, r.get? name = some d → match d with
    | .typeAlias _ target => r.Defines target
    | .record _ fields => ∀ f ∈ fields, r.Defines f.ty

/-! ## Merging -/

section Merge

variable {incoming : Registry}

/-- No incoming definition differs from the one of its name here. -/
def Admits (r incoming : Registry) : Prop :=
  ∀ d ∈ incoming.definitions, ∀ present, r.get? d.name = some present → present = d

/-- All incoming definitions are here. -/
def Knows (r incoming : Registry) : Prop :=
  ∀ d ∈ incoming.definitions, r.get? d.name = some d

theorem Knows.mono (knows : r.Knows incoming) (grows : r.GrowsTo r') : r'.Knows incoming :=
  fun d hd => grows _ _ (knows d hd)

theorem Knows.growsTo (knows : r.Knows incoming) : incoming.GrowsTo r := by
  intro name d found
  rw [← name_of_get? found]
  exact knows d (List.mem_of_find?_eq_some found)

/-- A registry admits what it will know once it has grown. -/
theorem Knows.admits (knows : r'.Knows incoming) (grows : r.GrowsTo r') : r.Admits incoming := by
  intro d hd present found
  have later := grows _ _ found
  rw [knows d hd] at later
  exact (Option.some.inj later).symm

theorem differing?_eq_none : r.differing? incoming.definitions = none ↔ r.Admits incoming := by
  rw [differing?, List.find?_eq_none]
  refine forall_congr' fun d => forall_congr' fun _ => ?_
  cases r.get? d.name <;> simp

theorem check_eq_ok : incoming.check = .ok () ↔ incoming.conflicts = [] := by
  rw [check]
  cases incoming.conflicts <;> simp

theorem check_eq_error : (∃ e, incoming.check = .error e) ↔ incoming.conflicts ≠ [] := by
  rw [check]
  cases incoming.conflicts <;> simp

/-- Merging succeeds where nothing conflicts. -/
theorem merge_ok_iff :
    (∃ r', r.merge incoming = .ok r') ↔ incoming.conflicts = [] ∧ r.Admits incoming := by
  rw [← check_eq_ok, ← differing?_eq_none, merge]
  cases incoming.check with
  | error e => simp [bind, Except.bind]
  | ok => cases r.differing? incoming.definitions <;> simp [bind, Except.bind]

/-- Without conflicts a merge fails only over a definition that differs, which it names. -/
theorem merge_error {e : NameConflict} (quiet : incoming.conflicts = [])
    (h : r.merge incoming = .error e) : ∃ d ∈ incoming.definitions, ∃ present,
      r.get? d.name = some present ∧ present ≠ d ∧ e = ⟨d.name⟩ := by
  rw [merge, check_eq_ok.2 quiet] at h
  simp only [bind, Except.bind] at h
  split at h
  next d differs =>
    cases h
    have mem := List.mem_of_find?_eq_some differs
    have other := List.find?_some differs
    cases found : r.get? d.name with
    | none => simp [found] at other
    | some present => exact ⟨d, mem, present, found, by simpa [found] using other, rfl⟩
  next => cases h

/-- Merging takes over every incoming definition. -/
theorem merge_knows (distinct : incoming.names.Nodup) (h : r.merge incoming = .ok r') :
    r'.Knows incoming := by
  intro d mem
  have admits := (merge_ok_iff.1 ⟨r', h⟩).2
  rw [get?_merge h, (get?_eq_some_iff distinct).2 mem]
  cases found : r.get? d.name with
  | none => rfl
  | some present =>
    rw [admits d mem present found]
    rfl

end Merge

end Slotform.Registry
