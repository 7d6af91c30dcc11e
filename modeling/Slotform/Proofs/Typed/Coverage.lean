import Slotform.Proofs.Typed.Describe

/-!
# Describing many types

Types are described one after the other into one registry, which starts empty. Describing is work
on a list of tasks: records to be entered, and definitions to take the place of a placeholder.
Nothing in the rules for tasks bounds how deeply records are entered. Still the work ends from
every registry, and always in the one that describing gives (`Catalog.runs_iff`).

Every task keeps the registry accounted for: names are held by records that were reached, nothing
is defined without a holder, and a conflict is between two records that were reached
(`Catalog.Accounted`). Together with what a finished description holds, this says all about the
registry in the end (`Catalog.check_describeAll`): it reports a conflict exactly if two records
that were reached go by one name, and otherwise holds each of them once, with all of its fields.
-/

namespace Slotform.Typed

/-- What is left to do: entering a record, or putting a finished definition in its place. -/
inductive Task where
  | enter (owner : Owner)
  | finish (definition : Definition)

/-- The records to be entered for a list of members, in order. -/
def tasksOf (members : List Member) : List Task :=
  members.filterMap fun m => if m.isSkipped then none else m.model.declared?.map .enter

/-- The record to be entered for a model, if there is one. -/
def Model.tasks (model : Model) : List Task :=
  match model.declared? with
  | some owner => [.enter owner]
  | none => []

theorem enter_mem_tasksOf {members : List Member} {owner : Owner} :
    .enter owner ∈ tasksOf members ↔ Refers members owner := by
  simp only [tasksOf, List.mem_filterMap, Refers]
  refine exists_congr fun m => and_congr_right fun _ => ?_
  cases m.isSkipped <;> simp

theorem finish_not_mem_tasksOf {members : List Member} {d : Definition} :
    .finish d ∉ tasksOf members := by
  simp only [tasksOf, List.mem_filterMap, not_exists, not_and]
  intro m _
  cases m.isSkipped <;> simp

namespace Catalog

variable {catalog : Catalog} {r r' r'' : Registry} {owner : Owner} {name typeName : String}
  {members : List Member} {model : Model} {tasks rest : List Task} {d : Definition}

/-! ## Work without a bound -/

/-- Doing the tasks in order turns the first registry into the second. A record is entered if its
name can be claimed; its members are entered before its definition is finished. -/
inductive Runs (catalog : Catalog) : List Task → Registry → Registry → Prop where
  | done {r : Registry} : Runs catalog [] r r
  | finish {d : Definition} {rest : List Task} {r r' : Registry} :
      Runs catalog rest (r.define d) r' → Runs catalog (.finish d :: rest) r r'
  | pass {owner : Owner} {rest : List Task} {r r' : Registry} :
      (∀ typeName members, catalog.shape? owner ≠ some (.record typeName members)) →
      Runs catalog rest r r' → Runs catalog (.enter owner :: rest) r r'
  | refused {owner : Owner} {typeName : String} {members : List Member} {rest : List Task}
      {r refusing r' : Registry} :
      catalog.shape? owner = some (.record typeName members) →
      r.claim typeName owner = (false, refusing) →
      Runs catalog rest refusing r' → Runs catalog (.enter owner :: rest) r r'
  | granted {owner : Owner} {typeName : String} {members : List Member} {rest : List Task}
      {r claimed r' : Registry} :
      catalog.shape? owner = some (.record typeName members) →
      r.claim typeName owner = (true, claimed) →
      Runs catalog
        (tasksOf members ++ .finish (.record typeName (members.map catalog.field)) :: rest)
        (claimed.define (.record typeName [])) r' →
      Runs catalog (.enter owner :: rest) r r'

/-- Work can end in one way only. -/
theorem Runs.unique (h : catalog.Runs tasks r r') (h' : catalog.Runs tasks r r'') : r' = r'' := by
  induction h with
  | done =>
    cases h'
    rfl
  | finish _ ih =>
    cases h' with
    | finish h' => exact ih h'
  | pass other _ ih =>
    cases h' with
    | pass _ h' => exact ih h'
    | refused shape => exact absurd shape (other _ _)
    | granted shape => exact absurd shape (other _ _)
  | refused shape claim _ ih =>
    cases h' with
    | pass other => exact absurd shape (other _ _)
    | refused shape' claim' h' =>
      cases shape.symm.trans shape'
      cases claim.symm.trans claim'
      exact ih h'
    | granted shape' claim' =>
      cases shape.symm.trans shape'
      cases claim.symm.trans claim'
  | granted shape claim _ ih =>
    cases h' with
    | pass other => exact absurd shape (other _ _)
    | refused shape' claim' =>
      cases shape.symm.trans shape'
      cases claim.symm.trans claim'
    | granted shape' claim' h' =>
      cases shape.symm.trans shape'
      cases claim.symm.trans claim'
      exact ih h'

/-- At this depth entering a record is the work of its task. -/
def Unrolls (catalog : Catalog) (depth : Nat) : Prop :=
  ∀ r owner, catalog.pending r < depth → ∀ rest r',
    catalog.Runs rest (catalog.defineRecords depth owner r) r' →
      catalog.Runs (.enter owner :: rest) r r'

theorem runs_members {depth : Nat} (unrolls : catalog.Unrolls depth)
    (enough : catalog.pending r < depth) (members : List Member)
    (h : catalog.Runs rest (members.foldl (catalog.enter depth) r) r') :
    catalog.Runs (tasksOf members ++ rest) r r' := by
  induction members generalizing r with
  | nil => exact h
  | cons m others ih =>
    have enough' : catalog.pending (catalog.enter depth r m) < depth := by
      have less := (enter_completes (defineRecords_completes catalog depth) enough m).1.pending_le
      omega
    have later := ih enough' h
    cases skipped : m.isSkipped with
    | true => simpa [tasksOf, enter, skipped] using later
    | false =>
      cases refers : m.model.declared? with
      | none => simpa [tasksOf, enter, skipped, refers] using later
      | some inner =>
        have first : catalog.enter depth r m = catalog.defineRecords depth inner r := by
          simp only [enter, skipped, refers]
        rw [first] at later
        have all := unrolls r inner enough _ _ later
        simpa [tasksOf, skipped, refers] using all

/-- The bound on the depth is never met: every record on the way takes one of the names that were
free. -/
theorem defineRecords_unrolls (catalog : Catalog) (depth : Nat) : catalog.Unrolls depth := by
  induction depth with
  | zero => exact fun _ _ enough => absurd enough (Nat.not_lt_zero _)
  | succ depth ih =>
    intro r owner enough rest r' h
    cases shape : catalog.shape? owner with
    | none =>
      simp only [defineRecords, shape] at h
      exact .pass (fun _ _ record => by cases shape.symm.trans record) h
    | some s =>
      cases s with
      | enumeration kind variants =>
        simp only [defineRecords, shape] at h
        exact .pass (fun _ _ record => by cases shape.symm.trans record) h
      | record typeName members =>
        rcases r.claim_cases typeName owner with ⟨-, claim⟩ | ⟨-, claim⟩ | ⟨missing, -, claim⟩
        · simp only [defineRecords, shape, claim] at h
          exact .refused shape claim h
        · simp only [defineRecords, shape, claim] at h
          exact .refused shape claim h
        · simp only [defineRecords, shape, claim] at h
          have enough' : catalog.pending (claimedBy r typeName owner) < depth := by
            have less : catalog.pending (claimedBy r typeName owner) < catalog.pending r :=
              pending_claimedBy_lt missing shape
            omega
          exact .granted shape claim (runs_members ih enough' members (.finish h))

/-- Describing a model is the work of entering its record, which ends from every registry and in no
other way. -/
theorem runs_iff : catalog.Runs model.tasks r r' ↔ r' = (catalog.describe model r).2 := by
  have ends : catalog.Runs model.tasks r (catalog.describe model r).2 := by
    unfold Model.tasks describe
    cases model.declared? with
    | none => exact .done
    | some owner =>
      have enough : catalog.pending r < catalog.length + 1 := by
        have bound := List.length_filter_le (fun entry => isPending r entry.2) catalog
        rw [pending]
        omega
      exact defineRecords_unrolls catalog (catalog.length + 1) r owner enough _ _ .done
  constructor
  · exact fun h => h.unique ends
  · rintro rfl
    exact ends

/-! ## What every task keeps -/

/-- Two declared records among those that were reached go by the name. -/
def Contested (catalog : Catalog) (reached : Owner → Prop) (name : String) : Prop :=
  ∃ a b ms ns, a ≠ b ∧ reached a ∧ reached b ∧ catalog.shape? a = some (.record name ms) ∧
    catalog.shape? b = some (.record name ns)

/-- Everything in a registry goes back to records that were reached. -/
structure Accounted (catalog : Catalog) (reached : Owner → Prop) (r : Registry) : Prop where
  owned : ∀ name owner, r.owner? name = some owner →
    reached owner ∧ ∃ members, catalog.shape? owner = some (.record name members)
  claimed : ∀ name d, r.get? name = some d → ∃ owner, r.owner? name = some owner
  contested : ∀ name ∈ r.conflicts, catalog.Contested reached name

section Accounted

variable {reached : Owner → Prop}

theorem accounted_empty : catalog.Accounted reached .empty where
  owned := nofun
  claimed := nofun
  contested := nofun

theorem Accounted.define (h : catalog.Accounted reached r)
    (held : ∃ owner, r.owner? d.name = some owner) : catalog.Accounted reached (r.define d) where
  owned name owner := by
    rw [Registry.owner?_define]
    exact h.owned name owner
  claimed name e found := by
    rw [Registry.owner?_define]
    by_cases own : name = d.name
    · rw [own]
      exact held
    · rw [Registry.get?_define_of_ne own] at found
      exact h.claimed name e found
  contested := by
    rw [Registry.conflicts_define]
    exact h.contested

/-- A claim is denied to a record only in favour of another one, since every definition has a
holder. -/
theorem Accounted.denied (h : catalog.Accounted reached r) (arrived : reached owner)
    (shape : catalog.shape? owner = some (.record typeName members))
    (denied : r.Denied typeName owner) :
    catalog.Accounted reached (r.addConflict typeName) where
  owned name holder := by
    rw [Registry.owner?_addConflict]
    exact h.owned name holder
  claimed name e := by
    rw [Registry.get?_addConflict, Registry.owner?_addConflict]
    exact h.claimed name e
  contested name reported := by
    rcases Registry.mem_conflicts_addConflict.1 reported with earlier | rfl
    · exact h.contested name earlier
    · rcases denied with ⟨holder, held, other⟩ | ⟨unheld, e, found⟩
      · obtain ⟨before, ms, shape'⟩ := h.owned _ _ held
        exact ⟨holder, owner, ms, members, other, before, arrived, shape', shape⟩
      · obtain ⟨holder, held⟩ := h.claimed _ _ found
        cases unheld.symm.trans held

theorem Accounted.granted (h : catalog.Accounted reached r) (arrived : reached owner)
    (shape : catalog.shape? owner = some (.record typeName members))
    (missing : r.owner? typeName = none) :
    catalog.Accounted reached { r with owners := r.owners ++ [(typeName, owner)] } where
  owned name holder held := by
    rw [Registry.owner?_claimed missing] at held
    split at held
    next own =>
      cases held
      rw [own]
      exact ⟨arrived, members, shape⟩
    next => exact h.owned name holder held
  claimed name e found := by
    rw [Registry.owner?_claimed missing]
    split
    next => exact ⟨owner, rfl⟩
    next => exact h.claimed name e found
  contested := h.contested

/-- A record to be entered was reached, and the name of a definition to be finished is held. -/
def Ready (reached : Owner → Prop) (r : Registry) : Task → Prop
  | .enter owner => reached owner
  | .finish d => ∃ owner, r.owner? d.name = some owner

theorem Ready.mono {task : Task} (ready : Ready reached r task)
    (holds : ∀ name owner, r.owner? name = some owner → r'.owner? name = some owner) :
    Ready reached r' task := by
  cases task with
  | enter owner => exact ready
  | finish d =>
    obtain ⟨owner, held⟩ := ready
    exact ⟨owner, holds _ _ held⟩

/-- A run keeps the registry accounted for. The members of a record that is entered are reached
through it, and the name of its definition is held from the claim on. -/
theorem Runs.accounted (h : catalog.Runs tasks r r')
    (closed : ∀ owner typeName members inner, reached owner →
      catalog.shape? owner = some (.record typeName members) → Refers members inner →
      reached inner)
    (ready : ∀ task ∈ tasks, Ready reached r task) (start : catalog.Accounted reached r) :
    catalog.Accounted reached r' := by
  induction h with
  | done => exact start
  | finish _ ih =>
    obtain ⟨held, others⟩ := List.forall_mem_cons.1 ready
    apply ih
    · intro task mem
      apply (others task mem).mono
      intro name owner
      rw [Registry.owner?_define]
      exact id
    · exact start.define held
  | pass _ _ ih => exact ih (List.forall_mem_cons.1 ready).2 start
  | @refused owner typeName members rest r refusing r' shape claim _ ih =>
    obtain ⟨arrived, others⟩ := List.forall_mem_cons.1 ready
    rcases r.claim_cases typeName owner with ⟨-, ended⟩ | ⟨denied, ended⟩ | ⟨-, -, ended⟩
    · cases claim.symm.trans ended
      exact ih others start
    · cases claim.symm.trans ended
      apply ih
      · intro task mem
        apply (others task mem).mono
        intro name owner
        rw [Registry.owner?_addConflict]
        exact id
      · exact start.denied arrived shape denied
    · cases claim.symm.trans ended
  | @granted owner typeName members rest r claimed r' shape claim _ ih =>
    obtain ⟨arrived, others⟩ := List.forall_mem_cons.1 ready
    rcases r.claim_cases typeName owner with ⟨-, ended⟩ | ⟨-, ended⟩ | ⟨missing, -, ended⟩
    · cases claim.symm.trans ended
    · cases claim.symm.trans ended
    · cases claim.symm.trans ended
      have own : (claimedBy r typeName owner).owner? typeName = some owner := by
        rw [owner?_claimedBy missing, if_pos rfl]
      apply ih
      · intro task mem
        rcases List.mem_append.1 mem with entered | mem
        · cases task with
          | enter inner => exact closed _ _ _ _ arrived shape (enter_mem_tasksOf.1 entered)
          | finish d => exact absurd entered finish_not_mem_tasksOf
        · rcases List.mem_cons.1 mem with rfl | mem
          · exact ⟨owner, own⟩
          · apply (others task mem).mono
            intro name holder held
            have other : name ≠ typeName := by
              rintro rfl
              cases missing.symm.trans held
            rw [← claimedBy, owner?_claimedBy missing, if_neg other, held]
      · apply (start.granted arrived shape missing).define
        refine ⟨owner, ?_⟩
        rw [Registry.owner?_claimed missing]
        exact if_pos rfl

theorem Accounted.describe (start : catalog.Accounted reached r)
    (closed : ∀ owner typeName members inner, reached owner →
      catalog.shape? owner = some (.record typeName members) → Refers members inner →
      reached inner)
    (arrived : ∀ owner, model.declared? = some owner → reached owner) :
    catalog.Accounted reached (catalog.describe model r).2 := by
  have run : catalog.Runs model.tasks r (catalog.describe model r).2 := runs_iff.2 rfl
  apply run.accounted closed _ start
  unfold Model.tasks
  cases refers : model.declared? with
  | none => exact nofun
  | some owner =>
    rintro task mem
    cases List.mem_singleton.1 mem
    exact arrived owner refers

end Accounted

/-! ## A sequence of descriptions -/

/-- The registry after describing models in order, from a registry on. -/
def describeAll (catalog : Catalog) (models : List Model) (r : Registry) : Registry :=
  models.foldl (fun r model => (catalog.describe model r).2) r

/-- The declared type is that of a model, under wrappers, or of a kept member of a record that is
reached. -/
inductive Touches (catalog : Catalog) (models : List Model) : Owner → Prop where
  | model {model : Model} {owner : Owner} :
      model ∈ models → model.declared? = some owner → Touches catalog models owner
  | member {owner inner : Owner} {typeName : String} {members : List Member} :
      Touches catalog models owner → catalog.shape? owner = some (.record typeName members) →
      Refers members inner → Touches catalog models inner

/-- The field tells all of the member: its name, its hints, whether it is skipped, and its type, in
which a kind takes the place of the item type. A skipped member may be of any type. -/
structure Tells (catalog : Catalog) (m : Member) (f : Field) : Prop where
  name : f.name = m.name
  format : f.format = m.format
  skip : f.skip = m.isSkipped
  skipped : m.isSkipped = true → f.ty = .value
  plain : m.isSkipped = false → m.kind = none → f.ty = catalog.ty m.model
  kind : m.isSkipped = false → ∀ kind, m.kind = some kind →
    f.ty = (catalog.ty m.model).withInnermost (.custom kind)

theorem field_ty_skipped {m : Member} (skipped : m.isSkipped = true) :
    (catalog.field m).ty = .value := by
  unfold Member.isSkipped at skipped
  cases presence : m.presence with
  | skipped => simp only [field, presence]
  | _ => simp [presence, Presence.isSkipped] at skipped

theorem field_ty_kept {m : Member} (kept : m.isSkipped = false) : (catalog.field m).ty =
    match m.kind with
    | some kind => (catalog.ty m.model).withInnermost (.custom kind)
    | none => catalog.ty m.model := by
  unfold Member.isSkipped at kept
  cases presence : m.presence with
  | skipped => simp [presence, Presence.isSkipped] at kept
  | _ => cases kind : m.kind <;> simp only [field, presence, kind]

theorem tells_field (m : Member) : catalog.Tells m (catalog.field m) where
  name := rfl
  format := rfl
  skip := rfl
  skipped := field_ty_skipped
  plain kept none := by rw [field_ty_kept kept, none]
  kind kept kind some := by rw [field_ty_kept kept, some]

/-- A field that tells all of a member is the one by which the member is described. -/
theorem tells_iff {m : Member} {f : Field} : catalog.Tells m f ↔ catalog.field m = f := by
  constructor
  · rintro ⟨name, format, skip, skipped, plain, kind⟩
    have same : (catalog.field m).ty = f.ty := by
      cases left : m.isSkipped with
      | true => rw [field_ty_skipped left, skipped left]
      | false =>
        rw [field_ty_kept left]
        cases named : m.kind with
        | none => exact (plain left named).symm
        | some k => exact (kind left k named).symm
    obtain ⟨_, _, _, _⟩ := f
    cases name
    cases format
    cases skip
    cases same
    rfl
  · rintro rfl
    exact tells_field m

theorem forall₂_tells_iff {fields : List Field} :
    List.Forall₂ catalog.Tells members fields ↔ members.map catalog.field = fields := by
  rw [← List.forall₂_eq_eq_eq, List.forall₂_map_left_iff]
  simp only [← tells_iff]

theorem describeAll_accounted {models : List Model} {reached : Owner → Prop}
    (closed : ∀ owner typeName members inner, reached owner →
      catalog.shape? owner = some (.record typeName members) → Refers members inner →
      reached inner)
    (arrived : ∀ model ∈ models, ∀ owner, model.declared? = some owner → reached owner)
    (start : catalog.Accounted reached r) :
    catalog.Accounted reached (catalog.describeAll models r) := by
  induction models generalizing r with
  | nil => exact start
  | cons model rest ih =>
    obtain ⟨first, others⟩ := List.forall_mem_cons.1 arrived
    exact ih others (start.describe closed first)

/-- Each of the models is finished unless there is a conflict. -/
theorem describeAll_completes (catalog : Catalog) (models : List Model) (r : Registry) :
    catalog.Completes r (catalog.describeAll models r) ∧
      ((catalog.describeAll models r).conflicts = [] → ∀ model ∈ models, ∀ owner,
        model.declared? = some owner → catalog.Holds (catalog.describeAll models r) owner) := by
  induction models generalizing r with
  | nil => exact ⟨.refl catalog r, fun _ _ no => nomatch no⟩
  | cons model rest ih =>
    obtain ⟨first, held⟩ := describe_completes catalog model r
    obtain ⟨others, all⟩ := ih (catalog.describe model r).2
    refine ⟨first.trans others, ?_⟩
    intro quiet other mem owner refers
    rcases List.mem_cons.1 mem with rfl | mem
    · exact others.holds_mono (held (others.quiet quiet) owner refers)
    · exact all quiet other mem owner refers

section Sequence

variable {models : List Model}

/-- Without conflicts every record that is reached holds its name in the end. -/
theorem Touches.holds (h : catalog.Touches models owner)
    (quiet : (catalog.describeAll models .empty).conflicts = []) :
    catalog.Holds (catalog.describeAll models .empty) owner := by
  obtain ⟨done, all⟩ := describeAll_completes catalog models .empty
  induction h with
  | model mem refers => exact all quiet _ mem _ refers
  | member _ shape refers ih => exact done.holds_of_refers quiet ih shape refers

theorem accounted_describeAll (catalog : Catalog) (models : List Model) :
    catalog.Accounted (catalog.Touches models) (catalog.describeAll models .empty) := by
  apply describeAll_accounted
  · intro owner typeName members inner reached shape refers
    exact reached.member shape refers
  · intro model mem owner refers
    exact .model mem refers
  · exact accounted_empty

/-- There is a conflict in the end exactly if two records that were reached go by one name: if
there were none, both would hold the name. -/
theorem conflicts_describeAll : (catalog.describeAll models .empty).conflicts ≠ [] ↔
    ∃ name, catalog.Contested (catalog.Touches models) name := by
  constructor
  · intro reported
    obtain ⟨name, mem⟩ := List.exists_mem_of_ne_nil _ reported
    exact ⟨name, (accounted_describeAll catalog models).contested name mem⟩
  · rintro ⟨name, a, b, ms, ns, apart, reachesA, reachesB, shapeA, shapeB⟩ quiet
    have heldA := reachesA.holds quiet _ _ shapeA
    have heldB := reachesB.holds quiet _ _ shapeB
    exact apart (Option.some.inj (heldA.symm.trans heldB))

end Sequence

/-- Describing ends, finds every collision and nothing else, and leaves out nothing: from every
registry each description is a run that ends in one way only; after any sequence of descriptions
the check fails exactly if two distinct records that were reached go by one name; and if it does
not fail, the names in the registry are distinct, and its definitions are those of the records that
were reached, with a field that tells all for every member, in declared order. -/
theorem check_describeAll (catalog : Catalog) (models : List Model) :
    (∀ model r r', catalog.Runs model.tasks r r' ↔ r' = (catalog.describe model r).2) ∧
      ((∃ e, (catalog.describeAll models .empty).check = .error e) ↔
        ∃ name, catalog.Contested (catalog.Touches models) name) ∧
      ((catalog.describeAll models .empty).check = .ok () →
        (catalog.describeAll models .empty).names.Nodup ∧
          ∀ d, d ∈ (catalog.describeAll models .empty).definitions ↔
            ∃ owner typeName members fields, catalog.Touches models owner ∧
              catalog.shape? owner = some (.record typeName members) ∧
              List.Forall₂ catalog.Tells members fields ∧ d = .record typeName fields) := by
  obtain ⟨done, -⟩ := describeAll_completes catalog models .empty
  have accounted := accounted_describeAll catalog models
  refine ⟨fun model r r' => runs_iff, Registry.check_eq_error.trans conflicts_describeAll, ?_⟩
  intro passed
  have quiet := Registry.check_eq_ok.1 passed
  have distinct : (catalog.describeAll models .empty).names.Nodup := done.distinct List.nodup_nil
  refine ⟨distinct, fun d => ?_⟩
  rw [← Registry.get?_eq_some_iff distinct]
  constructor
  · intro found
    obtain ⟨owner, held⟩ := accounted.claimed _ _ found
    obtain ⟨reached, members, shape⟩ := accounted.owned _ _ held
    have finished := done.defined_of_holds (reached.holds quiet) shape
    exact ⟨owner, d.name, members, members.map catalog.field, reached, shape,
      forall₂_tells_iff.2 rfl, Option.some.inj (found.symm.trans finished)⟩
  · rintro ⟨owner, typeName, members, fields, reached, shape, tells, rfl⟩
    rw [← forall₂_tells_iff.1 tells]
    exact done.defined_of_holds (reached.holds quiet) shape

end Catalog

end Slotform.Typed
