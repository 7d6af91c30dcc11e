import Slotform.Introspection.Walk
import Slotform.Proofs.Success

namespace Slotform

/-- A kind that declarations may use: a primitive, or an extension with a valid name. -/
def Kind.Proper : Kind → Prop
  | .primitive _ => True
  | .custom name => kindFault? name = none

namespace Schema

/-- A schema whose names can be told apart in a header. -/
inductive WellFormed : Schema → Prop where
  | leaf {node : Node} {kind : Kind} : kind.Proper → WellFormed (.leaf node kind)
  | record {node : Node} {members : List Schema} : members ≠ [] →
      (∀ m ∈ members, nameFault? m.name = none) → (members.map name).Nodup →
      (∀ m ∈ members, m.WellFormed) → WellFormed (.record node members)

end Schema

theorem checkName_ok {name : String} {u : Unit} (h : checkName name = .ok u) :
    nameFault? name = none := by
  unfold checkName at h
  split at h
  · cases h
  · assumption

theorem checkKind_ok {kind : String} {u : Unit} (h : checkKind kind = .ok u) :
    kindFault? kind = none := by
  unfold checkKind at h
  split at h
  · cases h
  · assumption

/-! ## Names that headers can spell -/

theorem name_of_nameFault? {name : String} (h : nameFault? name = none) :
    name.toList ≠ [] ∧ ∀ c ∈ name.toList, isNameChar c = true := by
  unfold nameFault? at h
  split at h
  · cases h
  next nonempty =>
    split at h
    next all => exact ⟨by simpa using nonempty, List.all_eq_true.1 all⟩
    · cases h

theorem isNameChar_of_isKindChar {c : Char} (h : isKindChar c = true) : isNameChar c = true := by
  unfold isKindChar at h
  unfold isNameChar
  rw [h]
  rfl

theorem kind_of_kindFault? {kind : String} (h : kindFault? kind = none) :
    kind.toList ≠ [] ∧ (∀ c ∈ kind.toList, isKindChar c = true) ∧
      Kind.isBuiltinName kind = false := by
  unfold kindFault? at h
  split at h
  · cases h
  next first rest spelled =>
    split at h
    · cases h
    · split at h
      · cases h
      next all =>
        split at h
        · cases h
        next free =>
          rw [spelled]
          refine ⟨List.cons_ne_nil _ _, ?_, ?_⟩
          · simpa using all
          · simp only [Bool.or_eq_true, not_or, Bool.not_eq_true] at free
            exact free.1

namespace Kind.Proper

variable {kind : Kind}

theorem name_ne_nil (h : kind.Proper) : kind.name.toList ≠ [] := by
  cases kind with
  | primitive p => cases p <;> decide
  | custom name => exact (kind_of_kindFault? h).1

theorem isNameChar (h : kind.Proper) : ∀ c ∈ kind.name.toList, isNameChar c = true := by
  cases kind with
  | primitive p =>
    have all : p.name.toList.all Slotform.isNameChar = true := by cases p <;> rfl
    exact List.all_eq_true.1 all
  | custom name => exact fun c hc => isNameChar_of_isKindChar ((kind_of_kindFault? h).2.1 c hc)

theorem ofName_name (h : kind.Proper) : Kind.ofName kind.name = kind := by
  cases kind with
  | primitive p => cases p <;> decide
  | custom name =>
    have unnamed : Primitive.ofName? name = none := by
      simpa [Kind.isBuiltinName] using (kind_of_kindFault? h).2.2
    rw [Kind.name, Kind.ofName, unnamed]

end Kind.Proper

/-! ## What a walk returns -/

namespace Walk

variable {w : Walk}

theorem fail_ne_ok {α : Type} {e : IntrospectionError} {a : α} : fail e ≠ .ok a := nofun

/-- Reading fields reads each of them in order, and their names are valid and new. -/
theorem readFields_ok {read : Field → Except ReadError Schema} {owner : String}
    {earlier : List String} {fields : List Field} {members : List Schema}
    (h : readFields read owner earlier fields = .ok members) :
    List.Forall₂ (fun field member => read field = .ok member) fields members ∧
      (∀ field ∈ fields, nameFault? field.name = none ∧ field.name ∉ earlier) ∧
      (fields.map (·.name)).Nodup := by
  induction fields generalizing earlier members with
  | nil =>
    simp only [readFields, Except.ok.injEq] at h
    subst h
    exact ⟨.nil, nofun, List.nodup_nil⟩
  | cons field rest ih =>
    simp only [readFields, checked, bind_eq_ok, mapError_eq_ok] at h
    obtain ⟨_, valid, h⟩ := h
    split at h
    · exact absurd h fail_ne_ok
    next fresh =>
      simp only [bind_eq_ok, Except.ok.injEq] at h
      obtain ⟨member, hmember, members', hrest, rfl⟩ := h
      obtain ⟨all, names, nodup⟩ := ih hrest
      refine ⟨.cons hmember all, ?_, ?_⟩
      · intro f hf
        rcases List.mem_cons.1 hf with rfl | hf
        · exact ⟨checkName_ok valid, by simpa using fresh⟩
        · exact ⟨(names f hf).1, fun hin => (names f hf).2 (List.mem_cons_of_mem _ hin)⟩
      · rw [List.map_cons, List.nodup_cons]
        refine ⟨?_, nodup⟩
        intro hin
        obtain ⟨f, hf, heq⟩ := List.mem_map.1 hin
        exact (names f hf).2 (by simp [heq])

/-- Fields are read if each of them is and their names are valid and new. -/
theorem readFields_of {read : Field → Except ReadError Schema} {owner : String}
    {earlier : List String} {fields : List Field} {members : List Schema}
    (each : List.Forall₂ (fun field member => read field = .ok member) fields members)
    (names : ∀ field ∈ fields, nameFault? field.name = none ∧ field.name ∉ earlier)
    (nodup : (fields.map (·.name)).Nodup) :
    readFields read owner earlier fields = .ok members := by
  induction each generalizing earlier with
  | nil => rfl
  | @cons field member rest members here _ ih =>
    obtain ⟨valid, fresh⟩ := names field List.mem_cons_self
    rw [List.map_cons, List.nodup_cons] at nodup
    have checks : checked (checkName field.name) = .ok () := by
      simp only [checkName, valid]
      rfl
    have others : readFields read owner (field.name :: earlier) rest = .ok members := by
      apply ih _ nodup.2
      intro f hf
      obtain ⟨valid, fresh⟩ := names f (List.mem_cons_of_mem _ hf)
      refine ⟨valid, ?_⟩
      intro seen
      rcases List.mem_cons.1 seen with same | seen
      · exact nodup.1 (List.mem_map.2 ⟨f, hf, same⟩)
      · exact fresh seen
    simp only [readFields, bind_eq_ok, List.contains_iff_mem, if_neg fresh]
    exact ⟨(), checks, member, here, members, others, rfl⟩

theorem readFields_congr {read read' : Field → Except ReadError Schema} {owner : String}
    {fields : List Field}
    (same : ∀ f ∈ fields, read f = read' f) (earlier : List String) :
    readFields read owner earlier fields = readFields read' owner earlier fields := by
  induction fields generalizing earlier with
  | nil => rfl
  | cons f rest ih =>
    have others := ih fun g hg => same g (List.mem_cons_of_mem _ hg)
    simp only [readFields, same f List.mem_cons_self, others]

/-- The kept and the skipped fields of a defined record, at least one of them kept. -/
theorem splitFields_ok {owner : String} {kept : List Field} {skipped : List String}
    (h : w.splitFields owner = .ok (kept, skipped)) :
    ∃ name fields, w.registry.get? owner = some (.record name fields) ∧
      kept = fields.filter (fun field => !w.skip owner field) ∧
      skipped = (fields.filter fun field => w.skip owner field).map (·.name) ∧
      kept ≠ [] := by
  unfold splitFields at h
  split at h
  next name fields found =>
    dsimp only at h
    split at h
    · exact absurd h fail_ne_ok
    next some =>
      cases h
      exact ⟨name, fields, found, rfl, rfl, by simpa using some⟩
  · exact absurd h fail_ne_ok

/-- What a member's schema is, by the item type under its wrappers. -/
inductive Expands (w : Walk) (allowance : Nat) (path : List String) (node : Node) :
    Schema → Prop where
  | primitive {p : Primitive} : node.element = .primitive p → node.skipped = [] →
      Expands w allowance path node (.leaf node (.primitive p))
  | custom {kind : String} : node.element = .custom kind → node.skipped = [] →
      kindFault? kind = none → Expands w allowance path node (.leaf node (.custom kind))
  | record {owner : String} {kept : List Field} {members : List Schema} :
      node.element = .named owner → owner ∉ path →
      w.splitFields owner = .ok (kept, node.skipped) →
      readFields (fun field => w.member allowance (owner :: path) field.name field.ty field.format)
        owner [] kept = .ok members →
      Expands w allowance path node (.record node members)

theorem member_ok {allowance : Nat} {path : List String} {name : String} {ty : Ty}
    {format : Format} {s : Schema} (h : w.member (allowance + 1) path name ty format = .ok s) :
    ∃ optional inner cardinality item skipped,
      w.splitOption name ty = .ok (optional, inner) ∧
      w.splitList name ty inner = .ok (cardinality, item) ∧
      w.Expands allowance path ⟨name, item, cardinality, optional, format, skipped⟩ s := by
  simp only [member, bind_eq_ok, Prod.exists] at h
  obtain ⟨optional, inner, hoption, cardinality, item, hlist, h⟩ := h
  refine ⟨optional, inner, cardinality, item, s.node.skipped, hoption, hlist, ?_⟩
  cases item with
  | primitive p =>
    cases h
    exact .primitive rfl rfl
  | custom kind =>
    simp only [checked, bind_eq_ok, mapError_eq_ok, Except.ok.injEq] at h
    obtain ⟨_, proper, rfl⟩ := h
    exact .custom rfl rfl (checkKind_ok proper)
  | named owner =>
    dsimp only at h
    split at h
    · cases h
    next fresh =>
      simp only [bind_eq_ok, Prod.exists, Except.ok.injEq] at h
      obtain ⟨kept, skipped, hfields, members, hmembers, rfl⟩ := h
      exact .record rfl (by simpa using fresh) hfields hmembers
  | value => exact absurd h fail_ne_ok
  | option inner => exact absurd h fail_ne_ok
  | list item => exact absurd h fail_ne_ok

/-- What a walk makes of a record that is not on the path, at a member with these attributes. -/
def expandRecord (w : Walk) (allowance : Nat) (path : List String) (owner : String) (node : Node) :
    Except ReadError Schema := do
  let (kept, skipped) ← w.splitFields owner
  let members ← readFields
    (fun field => w.member allowance (owner :: path) field.name field.ty field.format) owner [] kept
  .ok (.record { node with skipped } members)

theorem expandRecord_congr {w' : Walk} {allowance allowance' : Nat} {path : List String}
    {owner : String} {node : Node} (same : w'.splitFields owner = w.splitFields owner)
    (each : ∀ kept skipped, w.splitFields owner = .ok (kept, skipped) → ∀ f ∈ kept,
      w'.member allowance' (owner :: path) f.name f.ty f.format =
        w.member allowance (owner :: path) f.name f.ty f.format) :
    w'.expandRecord allowance' path owner node = w.expandRecord allowance path owner node := by
  simp only [expandRecord, same]
  cases found : w.splitFields owner with
  | error e => rfl
  | ok fields =>
    obtain ⟨kept, skipped⟩ := fields
    simp only [bind, Except.bind, readFields_congr (each kept skipped found)]

/-- Two walks that take wrappers off alike read a member alike, up to a change that spares leaves,
if they expand records alike up to this change. -/
theorem member_map_congr {w' : Walk} {allowance allowance' : Nat} {path : List String}
    {name : String} {ty : Ty} {format : Format} {g : Schema → Schema}
    (first : w'.splitOption name ty = w.splitOption name ty)
    (second : ∀ optional inner, w.splitOption name ty = .ok (optional, inner) →
      w'.splitList name ty inner = w.splitList name ty inner)
    (leaf : ∀ node kind, node.skipped = [] → g (.leaf node kind) = .leaf node kind)
    (record : ∀ optional inner cardinality owner node,
      w.splitOption name ty = .ok (optional, inner) →
      w.splitList name ty inner = .ok (cardinality, .named owner) → owner ∉ path →
      w'.expandRecord allowance' path owner node =
        (w.expandRecord allowance path owner node).map g) :
    w'.member (allowance' + 1) path name ty format =
      (w.member (allowance + 1) path name ty format).map g := by
  simp only [member, first]
  cases hoption : w.splitOption name ty with
  | error e => rfl
  | ok split =>
    obtain ⟨optional, inner⟩ := split
    simp only [bind, Except.bind, second optional inner hoption]
    cases hlist : w.splitList name ty inner with
    | error e => rfl
    | ok split =>
      obtain ⟨cardinality, item⟩ := split
      cases item with
      | primitive p => exact congrArg Except.ok (leaf _ _ rfl).symm
      | custom kind =>
        dsimp only
        cases checked (checkKind kind) with
        | error e => rfl
        | ok _ => exact congrArg Except.ok (leaf _ _ rfl).symm
      | named owner =>
        dsimp only
        split
        · rfl
        next fresh =>
          have apart : owner ∉ path := by simpa using fresh
          exact record optional inner cardinality owner
            ⟨name, .named owner, cardinality, optional, format, []⟩ hoption hlist apart
      | value | option | list => rfl

/-- Two walks that take wrappers off alike read a member alike if they expand records alike. -/
theorem member_congr {w' : Walk} {allowance allowance' : Nat} {path : List String} {name : String}
    {ty : Ty} {format : Format}
    (first : w'.splitOption name ty = w.splitOption name ty)
    (second : ∀ optional inner, w.splitOption name ty = .ok (optional, inner) →
      w'.splitList name ty inner = w.splitList name ty inner)
    (record : ∀ optional inner cardinality owner node,
      w.splitOption name ty = .ok (optional, inner) →
      w.splitList name ty inner = .ok (cardinality, .named owner) → owner ∉ path →
      w'.expandRecord allowance' path owner node = w.expandRecord allowance path owner node) :
    w'.member (allowance' + 1) path name ty format =
      w.member (allowance + 1) path name ty format := by
  have same : w'.member (allowance' + 1) path name ty format =
      (w.member (allowance + 1) path name ty format).map id := by
    apply member_map_congr first second
    · intro node kind _
      rfl
    · intro optional inner cardinality owner node hoption hlist fresh
      rw [Except.map_id]
      exact record optional inner cardinality owner node hoption hlist fresh
  rw [same, Except.map_id]
  rfl

theorem member_zero_ne_ok {path : List String} {name : String} {ty : Ty} {format : Format}
    {s : Schema} : w.member 0 path name ty format ≠ .ok s := nofun

/-- A member's schema is well formed and has the member's name and hints. -/
theorem member_wellFormed {allowance : Nat} {path : List String} {name : String} {ty : Ty}
    {format : Format} {s : Schema} (h : w.member allowance path name ty format = .ok s) :
    s.WellFormed ∧ s.name = name ∧ s.node.format = format := by
  induction allowance generalizing path name ty format s with
  | zero => exact absurd h member_zero_ne_ok
  | succ allowance ih =>
    obtain ⟨_, _, _, _, _, _, _, expands⟩ := member_ok h
    cases expands with
    | primitive => exact ⟨.leaf trivial, rfl, rfl⟩
    | custom _ _ proper => exact ⟨.leaf proper, rfl, rfl⟩
    | record _ _ hfields hmembers =>
      obtain ⟨_, _, _, _, _, some⟩ := splitFields_ok hfields
      obtain ⟨all, names, nodup⟩ := readFields_ok hmembers
      have each := all.imp fun _ _ hm => (ih hm : _ ∧ _ ∧ _)
      have same : _ = _ := forall₂_map_eq each (f := Field.name) (g := Schema.name)
        fun _ _ hm => hm.2.1.symm
      refine ⟨.record ?_ ?_ (same ▸ nodup) ?_, rfl, rfl⟩
      · rintro rfl
        cases all
        exact some rfl
      · intro m hm
        obtain ⟨f, hf, _, hname, _⟩ := forall₂_exists_left each hm
        exact hname ▸ (names f hf).1
      · intro m hm
        obtain ⟨_, _, proper, _⟩ := forall₂_exists_left each hm
        exact proper

end Walk

end Slotform
