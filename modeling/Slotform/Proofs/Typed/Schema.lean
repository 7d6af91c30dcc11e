import Slotform.Proofs.Introspection.Wrapped
import Slotform.Proofs.Payload.Room
import Slotform.Proofs.Typed.Convert
import Slotform.Proofs.Typed.Describe

namespace Slotform.Typed.Catalog

variable {catalog : Catalog} {model : Model} {s : Schema}

/-- The schema takes the model apart: its leaves are the primitives and the enumerations of the
model, and the members of its records the kept members. -/
inductive Fits (catalog : Catalog) : Model → Schema → Prop where
  | primitive {node : Node} {p : Primitive} : node.Bare →
      Fits catalog (.primitive p) (.leaf node (.primitive p))
  | enumeration {node : Node} {owner : Owner} {variants : List String} : node.Bare →
      catalog.shape? owner = some (.enumeration none variants) →
      Fits catalog (.declared owner) (.leaf node (.primitive .string))
  | record {node : Node} {owner : Owner} {typeName : String} {members : List Member}
      {schemas : List Schema} : node.Bare →
      catalog.shape? owner = some (.record typeName members) →
      schemas.map Schema.name = (kept members).map (·.name) →
      (∀ m ∈ kept members, ∀ s ∈ schemas, s.name = m.name → s.node.format = m.format) →
      (∀ m ∈ kept members, ∀ s ∈ schemas, s.name = m.name → Fits catalog m.model s) →
      Fits catalog (.declared owner) (.record node schemas)
  | list {item : Model} {s : Schema} : s.node.optional = false → s.node.isRepeated = true →
      Fits catalog item s.item → Fits catalog (.list item) s
  | option {inner : Model} {s : Schema} : s.node.optional = true →
      Fits catalog inner s.required → Fits catalog (.option inner) s

/-! ## Reading a described model -/

/-- No mapper is made for an extension kind without a codec of its own. -/
theorem not_assembled_custom {w : Walk} {allowance : Nat} {path : List String} {name kind : String}
    {ty : Ty} {format : Format} {m : Mapper}
    (read : w.member allowance path name ty format = .ok s)
    (custom : ty.innermost = .custom kind) : CodecTable.assemble [] s ≠ .ok m := by
  intro assembled
  cases allowance with
  | zero => exact Walk.member_zero_ne_ok read
  | succ allowance =>
    induction ty generalizing format s m with
    | list item ih =>
      obtain ⟨ho, hr, inside⟩ := Walk.member_list read
      obtain ⟨_, element, made, _⟩ := (CodecTable.assemble_repeated_ok ho hr).1 assembled
      exact ih custom made inside
    | option inner ih =>
      obtain ⟨ho, inside⟩ := Walk.member_option read
      obtain ⟨element, made, _⟩ := (CodecTable.assemble_optional_ok ho).1 assembled
      exact ih custom made inside
    | custom k =>
      obtain ⟨_, bare, rfl⟩ := Walk.member_custom read
      obtain ⟨_, codec, found, _⟩ := (CodecTable.assemble_leaf_ok bare).1 assembled
      cases found
    | _ => cases custom

/-- The kept members of a record are described by the fields that a reader keeps. -/
theorem filter_fields (members : List Member) (owner : String) :
    ((members.map catalog.field).filter fun f => !SkipRule.flagged.skips owner f) =
      (kept members).map catalog.field := by
  rw [List.filter_map, kept]
  refine congrArg _ (List.filter_congr fun m _ => ?_)
  simp [SkipRule.skips, SkipRule.flagged, field]

theorem field_ty {m : Member} (isKept : m.isSkipped = false) (plain : m.kind = none) :
    (catalog.field m).ty = catalog.ty m.model := by
  unfold field
  rcases m.presence_of_kept isKept with presence | ⟨_, presence⟩ <;> simp [presence, plain]

theorem field_ty_custom {m : Member} {kind : String} (isKept : m.isSkipped = false)
    (own : m.kind = some kind) : (catalog.field m).ty.innermost = .custom kind := by
  unfold field
  rcases m.presence_of_kept isKept with presence | ⟨_, presence⟩ <;>
    simp [presence, own, innermost_withInnermost]

section Read

variable {r : Registry} {w : Walk} {allowance : Nat} {path : List String} {name : String}
  {format : Format} {m : Mapper}

/-- A record's schema takes it apart if the schemas of its kept members do. -/
theorem fits_record {node : Node} {owner : Owner} {typeName : String} {members : List Member}
    {schemas : List Schema} (bare : node.Bare)
    (shape : catalog.shape? owner = some (.record typeName members))
    (distinct : ((kept members).map (·.name)).Nodup)
    (all : List.Forall₂ (fun m s => w.member allowance path m.name (catalog.field m).ty m.format =
      .ok s) (kept members) schemas)
    (each : ∀ m ∈ kept members, ∀ s ∈ schemas,
      w.member allowance path m.name (catalog.field m).ty m.format = .ok s →
      catalog.Fits m.model s) :
    catalog.Fits (.declared owner) (.record node schemas) := by
  have names : schemas.map Schema.name = (kept members).map (·.name) :=
    (forall₂_map_eq all fun _ _ read => (Walk.member_wellFormed read).2.1.symm).symm
  have pairs : ∀ m ∈ kept members, ∀ s ∈ schemas, s.name = m.name →
      w.member allowance path m.name (catalog.field m).ty m.format = .ok s := by
    intro m hm s hs same
    obtain ⟨n, hn, read⟩ := forall₂_exists_left all hs
    have own : n.name = m.name := (Walk.member_wellFormed read).2.1.symm.trans same
    exact List.inj_on_of_nodup_map distinct hn hm own ▸ read
  exact .record bare shape names
    (fun m hm s hs same => (Walk.member_wellFormed (pairs m hm s hs same)).2.2)
    fun m hm s hs same => each m hm s hs (pairs m hm s hs same)

/-- What a walk reads of a described model takes the model apart, if built-in codecs suffice. -/
theorem fits_of_member (closed : catalog.Closed) (done : catalog.Completes .empty r)
    (quiet : r.conflicts = []) (grows : r.GrowsTo w.registry)
    (flagged : w.skip = SkipRule.flagged.skips) (declares : catalog.Declares model)
    (held : ∀ owner, model.declared? = some owner → catalog.Holds r owner)
    (read : w.member allowance path name (catalog.ty model) format = .ok s)
    (assembled : CodecTable.assemble [] s = .ok m) : catalog.Fits model s := by
  induction allowance generalizing path name format model s m with
  | zero => exact absurd read Walk.member_zero_ne_ok
  | succ allowance inner =>
    induction model generalizing format s m with
    | primitive p =>
      obtain ⟨_, bare, rfl⟩ := Walk.member_primitive read
      exact .primitive bare
    | list item ih =>
      obtain ⟨ho, hr, inside⟩ := Walk.member_list read
      obtain ⟨_, element, made, _⟩ := (CodecTable.assemble_repeated_ok ho hr).1 assembled
      exact .list ho hr (ih declares held inside made)
    | option under ih =>
      obtain ⟨ho, inside⟩ := Walk.member_option read
      obtain ⟨element, made, _⟩ := (CodecTable.assemble_optional_ok ho).1 assembled
      exact .option ho (ih declares held inside made)
    | declared owner =>
      cases shape : catalog.shape? owner with
      | none =>
        have known := declares owner rfl
        rw [shape] at known
        cases known
      | some declared =>
        cases declared with
        | enumeration kind variants =>
          cases kind with
          | some kind =>
            have custom : (catalog.ty (.declared owner)).innermost = .custom kind := by
              simp only [ty, shape, Ty.innermost]
            exact absurd assembled (not_assembled_custom read custom)
          | none =>
            simp only [ty, shape] at read
            obtain ⟨_, bare, rfl⟩ := Walk.member_primitive read
            exact .enumeration bare shape
        | record typeName members =>
          have holds := held owner rfl
          have defined := grows _ _ (done.defined_of_holds holds shape)
          simp only [ty, shape] at read
          obtain ⟨_, schemas, bare, rfl, distinct, all⟩ := Walk.member_record defined read
          rw [flagged, filter_fields, List.map_map] at distinct
          rw [flagged, filter_fields, List.forall₂_map_left_iff] at all
          obtain ⟨_, _, mappers, made, _⟩ := (CodecTable.assemble_record_ok bare).1 assembled
          refine fits_record bare shape distinct all fun m hm s hs read => ?_
          obtain ⟨mapper, _, own⟩ := forall₂_exists_left made.flip hs
          obtain ⟨hm, isKept⟩ := mem_kept.1 hm
          cases kind : m.kind with
          | some kind =>
            exact absurd own (not_assembled_custom read (field_ty_custom isKept kind))
          | none =>
            rw [field_ty isKept kind] at read
            exact inner (closed _ _ _ shape m hm isKept)
              (fun other refers => done.holds_of_refers quiet holds shape ⟨m, hm, isKept, refers⟩)
              read own

end Read

/-! ## Values of data -/

/-- The value of a datum is in the shape of its model's schema. -/
theorem Fits.matches_toValue {allowed : Align → Atom → Prop} {align : Align} {x : Datum}
    (fits : catalog.Fits model s) (inhabits : catalog.Inhabits allowed align model x)
    (proper : s.WellFormed) (side : align = s.node.format.align.getD .left) :
    s.Matches allowed (catalog.toValue model x) := by
  induction inhabits generalizing s with
  | atom admitted =>
    cases fits with
    | primitive bare => exact .leaf bare (side ▸ admitted)
  | @list _ item items _ ih =>
    cases fits with
    | list ho hr inner =>
      rw [toValue, toValues_eq_map]
      refine .list ho hr (List.forall_mem_map.2 fun d hd => ih d hd inner proper.item ?_)
      rw [Schema.node_item]
      exact side
  | absent =>
    cases fits with
    | option ho inner => exact .absent ho
  | present _ ih =>
    cases fits with
    | option ho inner =>
      refine .present ho (ih inner proper.required ?_)
      rw [Schema.node_required]
      exact side
  | @record _ owner typeName members fields declared length _ ih =>
    cases fits with
    | enumeration bare shape => cases declared.symm.trans shape
    | record bare shape names formats inner =>
      cases declared.symm.trans shape
      cases proper with
      | record _ _ _ each =>
        rw [toValue, declared]
        refine .record bare ((names_toEntries length).trans names.symm) fun schema hs v entry => ?_
        obtain ⟨m, d, pair, isKept, same, rfl⟩ := mem_toEntries entry
        have hm : m ∈ kept members := mem_kept.2 ⟨(List.of_mem_zip pair).1, isKept⟩
        refine ih m d pair isKept (inner m hm schema hs same.symm) (each schema hs) ?_
        rw [formats m hm schema hs same.symm]
  | @variant _ owner kind variants index declared bound admitted =>
    cases fits with
    | record bare shape => cases declared.symm.trans shape
    | @enumeration node _ _ bare shape =>
      cases declared.symm.trans shape
      have leaf : (Schema.leaf node (.primitive .string)).Matches allowed
          (.atom (.string (variants.getD index ""))) := .leaf bare (side ▸ admitted)
      simpa only [toValue, declared] using leaf

/-! ## Names -/

/-- Under its wrappers a model is taken apart like the declared type that stands there. -/
theorem Fits.declared {owner : Owner} (fits : catalog.Fits model s) (proper : s.WellFormed)
    (refers : model.declared? = some owner) :
    ∃ inner, catalog.Fits (.declared owner) inner ∧ inner.WellFormed := by
  induction fits with
  | primitive => cases refers
  | enumeration bare shape =>
    cases refers
    exact ⟨_, .enumeration bare shape, proper⟩
  | record bare shape names formats inner =>
    cases refers
    exact ⟨_, .record bare shape names formats inner, proper⟩
  | list _ _ _ ih => exact ih proper.item refers
  | option _ _ ih => exact ih proper.required refers

/-- The parts of every declared type on the way have distinct names, those of enumerations by
declaration and those of records because the schema's members have. -/
theorem Fits.unambiguous {owner : Owner} (fits : catalog.Fits model s) (proper : s.WellFormed)
    (variants : ∀ owner kind variants, catalog.shape? owner = some (.enumeration kind variants) →
      variants.Nodup)
    (reached : catalog.Reaches model owner) : catalog.Unambiguous owner := by
  induction reached generalizing s with
  | here refers =>
    obtain ⟨inner, fits, proper⟩ := fits.declared proper refers
    refine ⟨fun typeName members shape => ?_, fun kind names shape => variants _ kind names shape⟩
    cases fits with
    | enumeration bare shape' => cases shape.symm.trans shape'
    | record bare shape' names =>
      cases shape.symm.trans shape'
      cases proper with
      | record _ _ nodup _ => exact names ▸ nodup
  | @member model outer owner typeName members m refers shape hm isKept _ ih =>
    obtain ⟨inner, fits, proper⟩ := fits.declared proper refers
    cases fits with
    | enumeration bare shape' => cases shape.symm.trans shape'
    | @record _ _ _ _ schemas bare shape' names _ each =>
      cases shape.symm.trans shape'
      have hm : m ∈ kept members := mem_kept.2 ⟨hm, isKept⟩
      have listed : m.name ∈ schemas.map Schema.name := names ▸ List.mem_map_of_mem hm
      obtain ⟨schema, hs, same⟩ := List.mem_map.1 listed
      cases proper with
      | record _ _ _ proper => exact ih (each m hm schema hs same) (proper schema hs)

end Slotform.Typed.Catalog
