import Slotform.Proofs.Registry
import Slotform.Typed.Model

/-!
# What describing defines

Describing a record claims its name, and on the way the name of every record that its kept members
refer to. Whatever the order of claims, a registry only gains finished definitions by it
(`Catalog.defineRecords_completes`): each name that was claimed stands for all members of its
owner. If no two owners wanted one name, the owner of every record on the way holds its name, so a
description never refers to a name that it leaves undefined (`Catalog.describe_defines`).
-/

namespace Slotform.Typed

/-- A kept member refers to the declared type, under whatever wrappers. -/
def Refers (members : List Member) (owner : Owner) : Prop :=
  ∃ m ∈ members, m.isSkipped = false ∧ m.model.declared? = some owner

namespace Catalog

variable {catalog : Catalog} {r r' r'' : Registry} {name typeName : String} {owner : Owner}
  {members : List Member} {model : Model}

/-- If the owner declares a record, it holds the record's name. -/
def Holds (catalog : Catalog) (r : Registry) (owner : Owner) : Prop :=
  ∀ typeName members, catalog.shape? owner = some (.record typeName members) →
    r.owner? typeName = some owner

/-- The name stands for all members of the owner's record, and without conflicts so do the names
of the records that they refer to. -/
def Finished (catalog : Catalog) (r : Registry) (name : String) (owner : Owner) : Prop :=
  ∃ members, catalog.shape? owner = some (.record name members) ∧
    r.get? name = some (.record name (members.map catalog.field)) ∧
    (r.conflicts = [] → ∀ inner, Refers members inner → catalog.Holds r inner)

/-- The second registry has grown out of the first by finished definitions. -/
structure Completes (catalog : Catalog) (r r' : Registry) : Prop where
  grows : r.GrowsTo r'
  holds : ∀ name owner, r.owner? name = some owner → r'.owner? name = some owner
  quiet : r'.conflicts = [] → r.conflicts = []
  distinct : r.names.Nodup → r'.names.Nodup
  finished : ∀ name owner, r'.owner? name = some owner →
    r.owner? name = some owner ∨ catalog.Finished r' name owner
  claimed : ∀ name d, r'.get? name = some d →
    r.get? name = some d ∨ ∃ owner, r'.owner? name = some owner

theorem Completes.holds_mono (h : catalog.Completes r r') (held : catalog.Holds r owner) :
    catalog.Holds r' owner :=
  fun typeName members declared => h.holds _ _ (held typeName members declared)

theorem Completes.finished_mono (h : catalog.Completes r r')
    (done : catalog.Finished r name owner) : catalog.Finished r' name owner := by
  obtain ⟨members, declared, defined, referred⟩ := done
  exact ⟨members, declared, h.grows _ _ defined, fun none inner refers =>
    h.holds_mono (referred (h.quiet none) inner refers)⟩

theorem Completes.refl (catalog : Catalog) (r : Registry) : catalog.Completes r r :=
  ⟨.refl r, fun _ _ h => h, id, id, fun _ _ h => .inl h, fun _ _ h => .inl h⟩

theorem Completes.trans (first : catalog.Completes r r') (second : catalog.Completes r' r'') :
    catalog.Completes r r'' where
  grows := first.grows.trans second.grows
  holds name owner h := second.holds _ _ (first.holds _ _ h)
  quiet h := first.quiet (second.quiet h)
  distinct h := second.distinct (first.distinct h)
  finished name owner h := by
    rcases second.finished name owner h with earlier | done
    · exact (first.finished name owner earlier).imp_right second.finished_mono
    · exact .inr done
  claimed name d h := by
    rcases second.claimed name d h with earlier | held
    · rcases first.claimed name d earlier with earlier | ⟨owner, held⟩
      · exact .inl earlier
      · exact .inr ⟨owner, second.holds _ _ held⟩
    · exact .inr held

theorem completes_addConflict (r : Registry) (name : String)
    (reported : (r.addConflict name).conflicts ≠ []) :
    catalog.Completes r (r.addConflict name) where
  grows := fun _ _ h => by rwa [Registry.get?_addConflict]
  holds _ _ h := by rwa [Registry.owner?_addConflict]
  quiet none := absurd none reported
  distinct h := by rwa [Registry.names_addConflict]
  finished _ _ h := .inl (by rwa [Registry.owner?_addConflict] at h)
  claimed _ _ h := .inl (by rwa [Registry.get?_addConflict] at h)

/-! ## One record -/

/-- The registry in which a record has claimed its name and holds it with a placeholder. -/
def claimedBy (r : Registry) (typeName : String) (owner : Owner) : Registry :=
  { r with owners := r.owners ++ [(typeName, owner)] }.define (.record typeName [])

section Record

variable (missing : r.owner? typeName = none)

include missing

theorem owner?_claimedBy (name : String) : (claimedBy r typeName owner).owner? name =
    if name = typeName then some owner else r.owner? name := by
  rw [claimedBy, Registry.owner?_define, Registry.owner?_claimed missing]

/-- Once a claimed record is finished over what its members have claimed, the placeholder is gone. -/
theorem completes_record (free : r.get? typeName = none)
    (declared : catalog.shape? owner = some (.record typeName members)) {nested : Registry}
    (inside : catalog.Completes (claimedBy r typeName owner) nested)
    (referred : nested.conflicts = [] → ∀ inner, Refers members inner →
      catalog.Holds nested inner) :
    catalog.Completes r (nested.define (.record typeName (members.map catalog.field))) ∧
      (nested.define (.record typeName (members.map catalog.field))).owner? typeName =
        some owner := by
  have own : nested.owner? typeName = some owner :=
    inside.holds _ _ (by rw [owner?_claimedBy missing, if_pos rfl])
  have other_get? {name : String} (other : name ≠ typeName) :
      (nested.define (.record typeName (members.map catalog.field))).get? name =
        nested.get? name := Registry.get?_define_of_ne other
  have before_get? {name : String} (other : name ≠ typeName) :
      (claimedBy r typeName owner).get? name = r.get? name := Registry.get?_define_of_ne other
  have before_owner? {name : String} (other : name ≠ typeName) :
      (claimedBy r typeName owner).owner? name = r.owner? name := by
    rw [owner?_claimedBy missing, if_neg other]
  have holds_define (inner : Owner) (held : catalog.Holds nested inner) :
      catalog.Holds (nested.define (.record typeName (members.map catalog.field))) inner :=
    fun typeName members shape => by
      rw [Registry.owner?_define]
      exact held typeName members shape
  refine ⟨⟨?grows, ?holds, ?quiet, ?distinct, ?finished, ?claimed⟩,
    by rwa [Registry.owner?_define]⟩
  case grows =>
    intro name d found
    have other : name ≠ typeName := by
      rintro rfl
      cases free.symm.trans found
    rw [other_get? other]
    exact inside.grows _ _ ((before_get? other).trans found)
  case holds =>
    intro name holder held
    have other : name ≠ typeName := by
      rintro rfl
      cases missing.symm.trans held
    rw [Registry.owner?_define]
    exact inside.holds _ _ ((before_owner? other).trans held)
  case quiet =>
    intro none
    rw [Registry.conflicts_define] at none
    have := inside.quiet none
    rwa [claimedBy, Registry.conflicts_define] at this
  case distinct =>
    intro distinct
    have claimed : ({ r with owners := r.owners ++ [(typeName, owner)] } : Registry).names.Nodup :=
      distinct
    exact Registry.nodup_names_define (inside.distinct (Registry.nodup_names_define claimed _)) _
  case finished =>
    intro name holder held
    rw [Registry.owner?_define] at held
    by_cases other : name = typeName
    · subst other
      cases own.symm.trans held
      refine .inr ⟨members, declared, Registry.get?_define_self _ _, fun none inner refers => ?_⟩
      rw [Registry.conflicts_define] at none
      exact holds_define inner (referred none inner refers)
    · rcases inside.finished name holder held with earlier | ⟨ms, shape, found, names⟩
      · exact .inl ((before_owner? other).symm.trans earlier)
      · refine .inr ⟨ms, shape, (other_get? other).trans found, fun none inner refers => ?_⟩
        rw [Registry.conflicts_define] at none
        exact holds_define inner (names none inner refers)
  case claimed =>
    intro name d found
    by_cases other : name = typeName
    · subst other
      exact .inr ⟨owner, by rwa [Registry.owner?_define]⟩
    · rw [other_get? other] at found
      rcases inside.claimed name d found with earlier | ⟨holder, held⟩
      · exact .inl ((before_get? other).symm.trans earlier)
      · exact .inr ⟨holder, by rwa [Registry.owner?_define]⟩

end Record

/-! ## Depth

Every record that is entered claims a name that nobody held, so the number of declared records with
names that are free bounds how deeply records are entered. -/

/-- Whether the shape is a record with a name that nobody holds. -/
def isPending (r : Registry) : Shape → Bool
  | .record typeName _ => (r.owner? typeName).isNone
  | .enumeration .. => false

theorem mem_of_shape? {shape : Shape} (declared : catalog.shape? owner = some shape) :
    (owner, shape) ∈ catalog := mem_of_lookup declared

/-- How many declared records have names that nobody holds. -/
def pending (catalog : Catalog) (r : Registry) : Nat :=
  (catalog.filter fun entry => isPending r entry.2).length

theorem isPending_anti (holds : ∀ name owner, r.owner? name = some owner →
    r'.owner? name = some owner) {shape : Shape} (h : isPending r' shape = true) :
    isPending r shape = true := by
  cases shape with
  | enumeration => exact h
  | record typeName members =>
    simp only [isPending, Option.isNone_iff_eq_none] at h ⊢
    cases held : r.owner? typeName with
    | none => rfl
    | some owner => cases h.symm.trans (holds _ _ held)

theorem filter_pending (holds : ∀ name owner, r.owner? name = some owner →
    r'.owner? name = some owner) : (catalog.filter fun entry => isPending r' entry.2) =
      (catalog.filter fun entry => isPending r entry.2).filter fun entry =>
        isPending r' entry.2 := by
  rw [List.filter_filter]
  refine List.filter_congr fun entry _ => ?_
  cases h : isPending r' entry.2 with
  | false => rfl
  | true => rw [isPending_anti holds h]; rfl

theorem Completes.pending_le (h : catalog.Completes r r') : catalog.pending r' ≤ catalog.pending r := by
  rw [pending, filter_pending h.holds]
  exact List.length_filter_le _ _

theorem pending_claimedBy_lt (missing : r.owner? typeName = none)
    (declared : catalog.shape? owner = some (.record typeName members)) :
    catalog.pending (claimedBy r typeName owner) < catalog.pending r := by
  have holds : ∀ name holder, r.owner? name = some holder →
      (claimedBy r typeName owner).owner? name = some holder := by
    intro name holder held
    rw [owner?_claimedBy missing, if_neg (by rintro rfl; cases missing.symm.trans held), held]
  rw [pending, filter_pending holds]
  refine List.length_filter_lt_length_iff_exists.2 ⟨(owner, .record typeName members), ?_, ?_⟩
  · rw [List.mem_filter]
    exact ⟨mem_of_shape? declared, by simp [isPending, missing]⟩
  · simp [isPending, owner?_claimedBy missing]

/-! ## All records on the way -/

/-- Enters the record that a kept member refers to, if there is one. -/
def enter (catalog : Catalog) (depth : Nat) (r : Registry) (m : Member) : Registry :=
  match m.isSkipped, m.model.declared? with
  | false, some inner => catalog.defineRecords depth inner r
  | _, _ => r

/-- Entering a record completes the registry, and without conflicts its owner holds its name. -/
def Enters (catalog : Catalog) (depth : Nat) : Prop :=
  ∀ r owner, catalog.pending r < depth →
    catalog.Completes r (catalog.defineRecords depth owner r) ∧
      ((catalog.defineRecords depth owner r).conflicts = [] →
        catalog.Holds (catalog.defineRecords depth owner r) owner)

theorem enter_completes {depth : Nat} (enters : catalog.Enters depth)
    (enough : catalog.pending r < depth) (m : Member) :
    catalog.Completes r (catalog.enter depth r m) ∧
      ((catalog.enter depth r m).conflicts = [] → m.isSkipped = false → ∀ inner,
        m.model.declared? = some inner → catalog.Holds (catalog.enter depth r m) inner) := by
  unfold enter
  cases m.isSkipped with
  | true => exact ⟨.refl catalog r, fun _ kept => nomatch kept⟩
  | false =>
    cases m.model.declared? with
    | none => exact ⟨.refl catalog r, fun _ _ inner found => nomatch found⟩
    | some inner =>
      obtain ⟨done, held⟩ := enters r inner enough
      refine ⟨done, fun none _ other found => ?_⟩
      cases found
      exact held none

theorem foldl_enter_completes {depth : Nat} (enters : catalog.Enters depth)
    (enough : catalog.pending r < depth) (members : List Member) :
    catalog.Completes r (members.foldl (catalog.enter depth) r) ∧
      ((members.foldl (catalog.enter depth) r).conflicts = [] → ∀ inner, Refers members inner →
        catalog.Holds (members.foldl (catalog.enter depth) r) inner) := by
  induction members generalizing r with
  | nil => exact ⟨.refl catalog r, fun _ _ ⟨_, hm, _⟩ => nomatch hm⟩
  | cons m rest ih =>
    obtain ⟨first, held⟩ := enter_completes enters enough m
    obtain ⟨others, referred⟩ := ih (Nat.lt_of_le_of_lt first.pending_le enough)
    refine ⟨first.trans others, ?_⟩
    rintro none inner ⟨m', hm, kept, refers⟩
    rcases List.mem_cons.1 hm with rfl | hm
    · exact others.holds_mono (held (others.quiet none) kept inner refers)
    · exact referred none inner ⟨m', hm, kept, refers⟩

theorem defineRecords_completes (catalog : Catalog) (depth : Nat) : catalog.Enters depth := by
  induction depth with
  | zero => exact fun _ _ enough => absurd enough (Nat.not_lt_zero _)
  | succ depth ih =>
    intro r owner enough
    cases shape : catalog.shape? owner with
    | none =>
      simp only [defineRecords, shape]
      exact ⟨.refl catalog r, fun _ _ _ declared => nomatch shape.symm.trans declared⟩
    | some s =>
      cases s with
      | enumeration kind variants =>
        simp only [defineRecords, shape]
        exact ⟨.refl catalog r, fun _ _ _ declared => nomatch shape.symm.trans declared⟩
      | record typeName members =>
        rcases r.claim_cases typeName owner with ⟨held, claim⟩ | ⟨-, claim⟩ |
          ⟨missing, free, claim⟩
        · simp only [defineRecords, shape, claim]
          refine ⟨.refl catalog r, fun _ other ms declared => ?_⟩
          cases shape.symm.trans declared
          exact held
        · simp only [defineRecords, shape, claim]
          have reported := Registry.conflicts_addConflict_ne_nil r typeName
          exact ⟨completes_addConflict r typeName reported, fun none => absurd none reported⟩
        · simp only [defineRecords, shape, claim]
          have enough' : catalog.pending (claimedBy r typeName owner) < depth :=
            Nat.lt_of_lt_of_le (pending_claimedBy_lt missing shape) (Nat.le_of_lt_succ enough)
          obtain ⟨inside, referred⟩ := foldl_enter_completes ih enough' members
          obtain ⟨done, own⟩ := completes_record missing free shape inside referred
          refine ⟨done, fun _ other ms declared => ?_⟩
          cases shape.symm.trans declared
          exact own

/-! ## Descriptions -/

/-- The declared type of a model is in the catalog. -/
def Declares (catalog : Catalog) (model : Model) : Prop :=
  ∀ owner, model.declared? = some owner → (catalog.shape? owner).isSome = true

/-- The kept members of declared records are of declared types. -/
def Closed (catalog : Catalog) : Prop :=
  ∀ owner typeName members, catalog.shape? owner = some (.record typeName members) →
    ∀ m ∈ members, m.isSkipped = false → catalog.Declares m.model

theorem describe_fst (catalog : Catalog) (model : Model) (r : Registry) :
    (catalog.describe model r).1 = catalog.ty model := by
  unfold describe
  cases model.declared? <;> rfl

theorem describe_completes (catalog : Catalog) (model : Model) (r : Registry) :
    catalog.Completes r (catalog.describe model r).2 ∧
      ((catalog.describe model r).2.conflicts = [] → ∀ owner, model.declared? = some owner →
        catalog.Holds (catalog.describe model r).2 owner) := by
  unfold describe
  cases model.declared? with
  | none => exact ⟨.refl catalog r, nofun⟩
  | some owner =>
    have enough : catalog.pending r < catalog.length + 1 :=
      Nat.lt_succ_of_le (List.length_filter_le _ _)
    obtain ⟨done, held⟩ := defineRecords_completes catalog (catalog.length + 1) r owner enough
    refine ⟨done, fun none other found => ?_⟩
    cases found
    exact held none

/-- Out of nothing, every definition is a finished one. -/
theorem Completes.finished_of_get? (h : catalog.Completes .empty r) {d : Definition}
    (found : r.get? name = some d) : ∃ owner, catalog.Finished r name owner := by
  rcases h.claimed name d found with none | ⟨owner, held⟩
  · nomatch none
  · rcases h.finished name owner held with none | done
    · nomatch none
    · exact ⟨owner, done⟩

theorem Completes.defined_of_holds (h : catalog.Completes .empty r) (held : catalog.Holds r owner)
    (declared : catalog.shape? owner = some (.record typeName members)) :
    r.get? typeName = some (.record typeName (members.map catalog.field)) := by
  rcases h.finished _ _ (held _ _ declared) with none | ⟨_, shape, found, _⟩
  · nomatch none
  · cases declared.symm.trans shape
    exact found

theorem Completes.holds_of_refers (h : catalog.Completes .empty r) (quiet : r.conflicts = [])
    (held : catalog.Holds r owner)
    (declared : catalog.shape? owner = some (.record typeName members)) {inner : Owner}
    (refers : Refers members inner) : catalog.Holds r inner := by
  rcases h.finished _ _ (held _ _ declared) with none | ⟨_, shape, _, referred⟩
  · nomatch none
  · cases declared.symm.trans shape
    exact referred quiet inner refers

theorem Completes.defines_ty (h : catalog.Completes .empty r) (declares : catalog.Declares model)
    (held : ∀ owner, model.declared? = some owner → catalog.Holds r owner) :
    r.Defines (catalog.ty model) := by
  induction model with
  | primitive p => exact fun _ named => nomatch named
  | list item ih => exact ih declares held
  | option inner ih => exact ih declares held
  | declared owner =>
    intro name named
    cases shape : catalog.shape? owner with
    | none =>
      have known := declares owner rfl
      rw [shape] at known
      nomatch known
    | some s =>
      cases s with
      | record typeName members =>
        simp only [ty, shape, Ty.innermost, Ty.named.injEq] at named
        exact ⟨_, named ▸ h.defined_of_holds (held owner rfl) shape⟩
      | enumeration kind variants => cases kind <;> simp [ty, shape, Ty.innermost] at named

theorem innermost_withInnermost (ty : Ty) (kind : String) :
    (ty.withInnermost (.custom kind)).innermost = .custom kind := by
  induction ty with
  | list item ih => exact ih
  | option inner ih => exact ih
  | _ => rfl

theorem Completes.defines_field (h : catalog.Completes .empty r) {m : Member}
    (declares : m.isSkipped = false → catalog.Declares m.model)
    (held : m.isSkipped = false → ∀ owner, m.model.declared? = some owner →
      catalog.Holds r owner) : r.Defines (catalog.field m).ty := by
  intro name named
  cases presence : m.presence with
  | skipped => simp [field, presence, Ty.innermost] at named
  | _ =>
    have kept : m.isSkipped = false := by rw [Member.isSkipped, presence]; rfl
    cases kind : m.kind with
    | some kind => simp [field, presence, kind, innermost_withInnermost] at named
    | none =>
      simp only [field, presence, kind] at named
      exact h.defines_ty (declares kept) (held kept) name named

/-- A description without conflicts refers to nothing that it leaves undefined. -/
theorem describe_defines (closed : catalog.Closed) (declares : catalog.Declares model)
    (quiet : (catalog.describe model .empty).2.conflicts = []) :
    (catalog.describe model .empty).2.Closed ∧
      (catalog.describe model .empty).2.Defines (catalog.ty model) := by
  obtain ⟨done, held⟩ := describe_completes catalog model .empty
  refine ⟨fun name d found => ?_, done.defines_ty declares (held quiet)⟩
  obtain ⟨owner, members, declared, defined, referred⟩ := done.finished_of_get? found
  cases defined.symm.trans found
  rintro f hf
  obtain ⟨m, hm, rfl⟩ := List.mem_map.1 hf
  exact done.defines_field (closed _ _ _ declared m hm) fun kept inner refers =>
    referred quiet inner ⟨m, hm, kept, refers⟩

theorem describe_distinct (catalog : Catalog) (model : Model) :
    (catalog.describe model .empty).2.names.Nodup :=
  (describe_completes catalog model .empty).1.distinct List.nodup_nil

end Catalog

end Slotform.Typed
