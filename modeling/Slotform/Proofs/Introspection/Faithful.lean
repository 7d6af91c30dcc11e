import Slotform.Proofs.Introspection.Expansion
import Slotform.Proofs.Introspection.Runs
import Slotform.Proofs.Schema.Views

/-!
# Faithful schemas

What a schema has to be to describe a type: each node declares what its reference stands for, each
record has the kept fields of its definition as members, names can be spelled, and no way down is
too deep or meets a record twice. A read returns a schema if and only if the schema is faithful to
the type in this sense (`Reader.read_eq_ok_iff`).
-/

namespace Slotform

/-! ## Names -/

/-- The name of a member: not empty, and made of ASCII letters and digits, `_` and `-`. -/
def IsMemberName (name : String) : Prop :=
  name ≠ "" ∧ ∀ c ∈ name.toList, c.isAlphanum = true ∨ c = '_' ∨ c = '-'

/-- The name of an extension kind: an identifier that is neither the name of a primitive nor
`value`. -/
def IsExtensionName (kind : String) : Prop :=
  (∃ first rest, kind.toList = first :: rest ∧ first.isAlpha = true ∧
    ∀ c ∈ rest, c.isAlphanum = true ∨ c = '_') ∧
  (∀ p : Primitive, kind ≠ p.name) ∧ kind ≠ "value"

theorem nameFault?_eq_none {name : String} : nameFault? name = none ↔ IsMemberName name := by
  have chars : name.toList.all isNameChar = true ↔
      ∀ c ∈ name.toList, c.isAlphanum = true ∨ c = '_' ∨ c = '-' := by
    simp [isNameChar, isAsciiAlphanumeric, or_assoc]
  rw [nameFault?, IsMemberName, ← chars]
  by_cases empty : name = ""
  · simp [empty]
  · have some : name.toList.isEmpty = false := by simpa using empty
    cases name.toList.all isNameChar <;> simp [some, empty]

theorem isBuiltinName_eq_false {kind : String} :
    Kind.isBuiltinName kind = false ↔ ∀ p : Primitive, kind ≠ p.name := by
  constructor
  · rintro free p rfl
    simp [Kind.isBuiltinName, Primitive.ofName?_name] at free
  · intro free
    cases found : Primitive.ofName? kind with
    | none => simp [Kind.isBuiltinName, found]
    | some p => exact absurd (Primitive.name_of_ofName? found).symm (free p)

theorem kindFault?_eq_none {kind : String} : kindFault? kind = none ↔ IsExtensionName kind := by
  rw [IsExtensionName, ← isBuiltinName_eq_false, kindFault?]
  cases spelled : kind.toList with
  | nil => simp
  | cons first rest =>
    have chars : (first.isAlpha = true ∧ (first :: rest).all isKindChar = true) ↔
        ∃ start others, first :: rest = start :: others ∧ start.isAlpha = true ∧
          ∀ c ∈ others, c.isAlphanum = true ∨ c = '_' := by
      simp only [List.all_cons, isKindChar, isAsciiAlphanumeric, Char.isAlphanum, Bool.and_eq_true,
        Bool.or_eq_true, List.all_eq_true, decide_eq_true_eq]
      constructor
      · exact fun h => ⟨first, rest, rfl, h.1, h.2.2⟩
      · rintro ⟨_, _, ⟨⟩, start, others⟩
        exact ⟨start, .inl (.inl start), others⟩
    rw [← chars]
    dsimp only
    cases first.isAlpha <;> cases (first :: rest).all isKindChar <;>
      cases Kind.isBuiltinName kind <;> simp

/-! ## Nodes and ways down -/

namespace Schema

/-- The first schema is a node of the second. -/
inductive Within : Schema → Schema → Prop where
  | self (s : Schema) : Within s s
  | member {t m : Schema} {node : Node} {members : List Schema} :
      m ∈ members → Within t m → Within t (.record node members)

/-- The types of the records on a way from the root down to a leaf. -/
inductive Route : Schema → List Ty → Prop where
  | leaf (node : Node) (kind : Kind) : Route (.leaf node kind) []
  | record {node : Node} {m : Schema} {members : List Schema} {route : List Ty} :
      m ∈ members → Route m route → Route (.record node members) (node.element :: route)

end Schema

/-! ## Faithfulness -/

namespace Walk

/-- The schema of a field: it has the field's name and hints and declares what the field's type
stands for. -/
structure Presents (w : Walk) (field : Field) (member : Schema) : Prop where
  name : member.name = field.name
  format : member.node.format = field.format
  declared : w.registry.StandsFor field.ty member.node.declared

/-- A node is as its definition has it. A leaf is of the kind that its type names. A record presents
the fields of its type's definition that are kept, in order, and lists those that are not. -/
inductive Describes (w : Walk) : Schema → Prop where
  | leaf {node : Node} {kind : Kind} : node.element = kind.toTy → node.skipped = [] →
      (∀ name, kind = .custom name → IsExtensionName name) → Describes w (.leaf node kind)
  | record {node : Node} {members : List Schema} {owner n : String} {fields : List Field} :
      node.element = .named owner → w.registry.get? owner = some (.record n fields) →
      List.Forall₂ w.Presents (fields.filter fun field => !w.skip owner field) members →
      node.skipped = (fields.filter fun field => w.skip owner field).map (·.name) →
      members ≠ [] → (∀ m ∈ members, IsMemberName m.name) → (members.map Schema.name).Nodup →
      Describes w (.record node members)

/-- The schema describes the type under the definitions, the skip strategy and the depth limit of
the walk. -/
structure Faithful (w : Walk) (ty : Ty) (s : Schema) : Prop where
  name : s.name = ty.itemName
  format : s.node.format = .unset
  declared : w.registry.StandsFor ty s.node.declared
  described : ∀ t, t.Within s → w.Describes t
  depth_le : s.depth ≤ w.maxDepth
  routes_nodup : ∀ route, s.Route route → route.Nodup

variable {w : Walk} {allowance : Nat} {path : List String} {name owner : String} {ty : Ty}
  {format : Format} {s : Schema}

/-! ### What is read is described -/

theorem presents_of_member {field : Field}
    (h : w.member allowance path field.name field.ty field.format = .ok s) :
    w.Presents field s := by
  cases allowance with
  | zero => exact absurd h member_zero_ne_ok
  | succ allowance =>
    obtain ⟨sameName, sameFormat, stands, _⟩ := member_iff.1 h
    exact ⟨sameName, sameFormat, stands⟩

/-- What an item expands to is described by its definition. -/
theorem Expands.describes {node : Node} (h : w.Expands allowance path node s) : w.Describes s := by
  cases h with
  | primitive element bare => exact .leaf element bare nofun
  | custom element bare proper =>
    refine .leaf element bare ?_
    rintro _ ⟨⟩
    exact kindFault?_eq_none.1 proper
  | @record owner kept members element _ split read =>
    obtain ⟨n, fields, found, rfl, skipped, some⟩ := splitFields_ok split
    obtain ⟨all, names, nodup⟩ := readFields_ok read
    have presented :
        List.Forall₂ w.Presents (fields.filter fun field => !w.skip owner field) members :=
      all.imp fun _ _ hread => presents_of_member hread
    have same := forall₂_map_eq presented (f := Field.name) (g := Schema.name)
      fun _ _ presents => presents.name.symm
    refine .record element found presented skipped ?_ ?_ (same ▸ nodup)
    · rintro rfl
      exact some (List.forall₂_nil_right_iff.1 all)
    · intro m hm
      obtain ⟨field, hfield, presents⟩ := forall₂_exists_left presented hm
      rw [presents.name]
      exact nameFault?_eq_none.1 (names field hfield).1

/-- A record is read by reading its members one level deeper, with the record on the path. -/
theorem member_record_ok {node : Node} {members : List Schema}
    (h : w.member (allowance + 1) path name ty format = .ok (.record node members)) :
    ∃ owner, node.element = .named owner ∧ owner ∉ path ∧ ∀ m ∈ members, ∃ name ty format,
      w.member allowance (owner :: path) name ty format = .ok m := by
  obtain ⟨_, _, _, expands⟩ := member_iff.1 h
  cases expands with
  | @record owner _ _ element fresh _ read =>
    refine ⟨owner, element, fresh, ?_⟩
    intro m hm
    obtain ⟨field, _, hread⟩ := forall₂_exists_left (readFields_ok read).1 hm
    exact ⟨_, _, _, hread⟩

theorem describes_within {t : Schema} (within : t.Within s)
    (h : w.member allowance path name ty format = .ok s) : w.Describes t := by
  induction within generalizing allowance path name ty format with
  | self =>
    cases allowance with
    | zero => exact absurd h member_zero_ne_ok
    | succ allowance => exact (member_iff.1 h).2.2.2.describes
  | member hm _ ih =>
    cases allowance with
    | zero => exact absurd h member_zero_ne_ok
    | succ allowance =>
      obtain ⟨_, _, _, each⟩ := member_record_ok h
      obtain ⟨_, _, _, hread⟩ := each _ hm
      exact ih hread

theorem depth_lt (h : w.member allowance path name ty format = .ok s) : s.depth < allowance := by
  induction allowance generalizing path name ty format s with
  | zero => exact absurd h member_zero_ne_ok
  | succ allowance ih =>
    cases s with
    | leaf => exact Nat.succ_pos _
    | record node members =>
      obtain ⟨_, _, _, each⟩ := member_record_ok h
      apply Schema.depth_record_lt.2
      intro m hm
      obtain ⟨_, _, _, hread⟩ := each m hm
      exact ih hread

/-- No way down passes a record twice, nor one that is being expanded. -/
theorem route_fresh {route : List Ty} (way : s.Route route)
    (h : w.member allowance path name ty format = .ok s) :
    route.Nodup ∧ ∀ owner ∈ path, Ty.named owner ∉ route := by
  induction way generalizing allowance path name ty format with
  | leaf => exact ⟨List.nodup_nil, fun _ _ => List.not_mem_nil⟩
  | record hm _ ih =>
    cases allowance with
    | zero => exact absurd h member_zero_ne_ok
    | succ allowance =>
      obtain ⟨owner, element, fresh, each⟩ := member_record_ok h
      obtain ⟨_, _, _, hread⟩ := each _ hm
      obtain ⟨distinct, apart⟩ := ih hread
      rw [element, List.nodup_cons]
      refine ⟨⟨apart owner List.mem_cons_self, distinct⟩, ?_⟩
      intro o ho
      rw [List.mem_cons, not_or]
      refine ⟨?_, apart o (List.mem_cons_of_mem _ ho)⟩
      intro again
      cases again
      exact fresh ho

/-! ### What is described is read -/

/-- From every described node a way leads down to a leaf. -/
theorem exists_route {n : Nat} (shallow : s.depth < n)
    (described : ∀ t, t.Within s → w.Describes t) : ∃ route, s.Route route := by
  induction n generalizing s with
  | zero => exact absurd shallow (Nat.not_lt_zero _)
  | succ n ih =>
    cases described s (.self s) with
    | leaf => exact ⟨[], .leaf _ _⟩
    | @record _ members _ _ _ _ _ _ _ some =>
      obtain ⟨m, hm⟩ := List.exists_mem_of_ne_nil members some
      have lower : m.depth < n := Schema.depth_record_lt.1 shallow m hm
      obtain ⟨route, way⟩ := ih lower fun t within => described t (.member hm within)
      exact ⟨_, .record hm way⟩

/-- A described item expands if its record is not being expanded and its members are read. -/
theorem Describes.expands (h : w.Describes s)
    (inside : ∀ owner, s.node.element = .named owner → owner ∉ path ∧ ∀ m ∈ s.members, ∀ ty,
      w.registry.StandsFor ty m.node.declared →
        w.member allowance (owner :: path) m.name ty m.node.format = .ok m) :
    w.Expands allowance path s.node s := by
  cases h with
  | @leaf node kind element bare proper =>
    cases kind with
    | primitive p => exact .primitive element bare
    | custom name => exact .custom element bare (kindFault?_eq_none.2 (proper name rfl))
  | @record node members owner n fields element found presented skipped some names nodup =>
    obtain ⟨fresh, read⟩ := inside owner element
    have same := forall₂_map_eq presented (f := Field.name) (g := Schema.name)
      fun _ _ presents => presents.name.symm
    have split : w.splitFields owner =
        .ok (fields.filter fun field => !w.skip owner field, node.skipped) := by
      have kept : (fields.filter fun field => !w.skip owner field).isEmpty = false := by
        rw [List.isEmpty_eq_false_iff]
        intro none
        rw [none] at presented
        exact some (List.forall₂_nil_left_iff.1 presented)
      simp only [splitFields, found, kept, skipped, Bool.false_eq_true, ↓reduceIte]
    refine .record element fresh split (readFields_of ?_ ?_ (same ▸ nodup))
    · apply List.Forall₂.flip
      apply forall₂_imp_mem (List.Forall₂.flip (R := flip w.Presents) presented)
      intro m hm field presents
      rw [flip, ← presents.name, ← presents.format]
      exact read m hm field.ty presents.declared
    · intro field hfield
      have listed : field.name ∈ members.map Schema.name := same ▸ List.mem_map_of_mem hfield
      obtain ⟨m, hm, sameName⟩ := List.mem_map.1 listed
      exact ⟨nameFault?_eq_none.2 (sameName ▸ names m hm), List.not_mem_nil⟩

/-- What the definitions describe is read, if it is not too deep and meets no record twice. -/
theorem member_of_described (stands : w.registry.StandsFor ty s.node.declared)
    (described : ∀ t, t.Within s → w.Describes t) (shallow : s.depth < allowance)
    (routes : ∀ route, s.Route route → route.Nodup ∧ ∀ owner ∈ path, Ty.named owner ∉ route) :
    w.member allowance path s.name ty s.node.format = .ok s := by
  induction allowance generalizing path ty s with
  | zero => exact absurd shallow (Nat.not_lt_zero _)
  | succ allowance ih =>
    refine member_iff.2 ⟨rfl, rfl, stands, (described s (.self s)).expands ?_⟩
    intro owner element
    cases s with
    | leaf node kind =>
      cases described _ (.self _) with
      | leaf sameElement => cases kind <;> cases sameElement.symm.trans element
    | record node members =>
      constructor
      · -- Some way down starts at this record, so that it cannot be on the path.
        intro seen
        obtain ⟨route, way⟩ := exists_route shallow described
        have apart := (routes route way).2 owner seen
        cases way
        exact apart (List.mem_cons.2 (.inl element.symm))
      · intro m hm ty stands
        apply ih stands
        · exact fun t within => described t (.member hm within)
        · exact Schema.depth_record_lt.1 shallow m hm
        · intro route way
          obtain ⟨distinct, apart⟩ := routes _ (.record hm way)
          rw [List.nodup_cons] at distinct
          refine ⟨distinct.2, ?_⟩
          intro o ho
          rcases List.mem_cons.1 ho with rfl | ho
          · exact fun again => distinct.1 (element.symm ▸ again)
          · exact fun later => apart o ho (List.mem_cons_of_mem _ later)

/-- A walk returns exactly the schemas that are faithful to the type. -/
theorem root_iff_faithful : w.root ty = .ok s ↔ w.Faithful ty s := by
  constructor
  · intro h
    obtain ⟨sameName, sameFormat, stands, _⟩ := member_iff.1 h
    exact ⟨sameName, sameFormat, stands, fun t within => describes_within within h,
      Nat.le_of_lt_succ (depth_lt h), fun route way => (route_fresh way h).1⟩
  · intro faithful
    rw [root, ← faithful.name, ← faithful.format]
    exact member_of_described faithful.declared faithful.described
      (Nat.lt_succ_of_le faithful.depth_le)
      fun route way => ⟨faithful.routes_nodup route way, fun _ no => absurd no List.not_mem_nil⟩

end Walk

/-- A read returns exactly the schemas that are faithful to the type: every node of a schema that is
read is as the definitions say, and whatever they describe within the limits is read. -/
theorem Reader.read_eq_ok_iff (registry : Registry) (skip : SkipStrategy) (limits : Limits)
    (ty : Ty) (s : Schema) :
    ((start registry skip limits).read ty).1.map Kept.value = .ok s ↔
      Walk.Faithful ⟨registry, skip, limits.maxDepth⟩ ty s := by
  rw [read_start]
  exact Walk.root_iff_faithful

end Slotform
