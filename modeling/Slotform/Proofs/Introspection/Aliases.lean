import Slotform.Proofs.Introspection.Faithful

namespace Slotform

/-! ## Matching definitions -/

/-- The fields differ only in their types, and both types stand for the same. -/
structure Field.Matches (r : Registry) (field field' : Field) : Prop where
  name : field'.name = field.name
  format : field'.format = field.format
  skip : field'.skip = field.skip
  standsFor : ∀ t, r.StandsFor field'.ty t ↔ r.StandsFor field.ty t

/-- The definitions are the same but for the types of matching fields. -/
inductive Definition.Matches (r : Registry) : Definition → Definition → Prop where
  | typeAlias (name : String) (target : Ty) :
      Matches r (.typeAlias name target) (.typeAlias name target)
  | record {name : String} {fields fields' : List Field} :
      List.Forall₂ (Field.Matches r) fields fields' →
      Matches r (.record name fields) (.record name fields')

theorem Field.Matches.refl {r : Registry} (field : Field) : Field.Matches r field field :=
  ⟨rfl, rfl, rfl, fun _ => Iff.rfl⟩

/-- Matching fields are kept together, if what decides about them is the same for both. -/
theorem Field.Matches.filter {r : Registry} {keep : Field → Bool} {fields fields' : List Field}
    (alike : ∀ field field', Field.Matches r field field' → keep field' = keep field)
    (matching : List.Forall₂ (Field.Matches r) fields fields') :
    List.Forall₂ (Field.Matches r) (fields.filter keep) (fields'.filter keep) := by
  apply List.rel_filter _ matching
  intro field field' m
  simp only [alike field field' m]

theorem Definition.Matches.refl {r : Registry} (d : Definition) : Definition.Matches r d d := by
  cases d with
  | typeAlias name target => exact .typeAlias name target
  | record name fields => exact .record (List.forall₂_same.2 fun field _ => .refl field)

namespace Registry

/-- The second registry matches the first, definition by definition. -/
def Matches (r r' : Registry) : Prop :=
  List.Forall₂ (Definition.Matches r) r.definitions r'.definitions

variable {r r' : Registry} {name n owner : String} {ty ty' t : Ty} {fields fields' : List Field}

namespace Matches

theorem refl (r : Registry) : r.Matches r := List.forall₂_same.2 fun d _ => .refl d

theorem get? (h : r.Matches r') (name : String) :
    Option.Rel (Definition.Matches r) (r.get? name) (r'.get? name) := by
  apply forall₂_find? h
  intro d d' matching
  cases matching <;> rfl

theorem record (h : r.Matches r') (found : r.get? name = some (.record n fields)) :
    ∃ fields', r'.get? name = some (.record n fields') ∧
      List.Forall₂ (Field.Matches r) fields fields' := by
  have related := h.get? name
  rw [found] at related
  generalize r'.get? name = there at related
  cases related with
  | some matching =>
    cases matching with
    | record matching => exact ⟨_, rfl, matching⟩

theorem sameAliases (h : r.Matches r') : r.SameAliases r' := by
  intro name
  have related := h.get? name
  generalize r.get? name = here, r'.get? name = there at related
  cases related with
  | none => rfl
  | some matching => cases matching <;> rfl

theorem standsFor (h : r.Matches r') : r'.StandsFor ty t ↔ r.StandsFor ty t :=
  ⟨h.sameAliases.symm.standsFor, h.sameAliases.standsFor⟩

theorem symm (h : r.Matches r') : r'.Matches r := by
  apply List.Forall₂.flip
  apply h.imp
  intro d d' matching
  cases matching with
  | typeAlias name target => exact .typeAlias name target
  | record matching =>
    apply Definition.Matches.record
    apply List.Forall₂.flip
    apply matching.imp
    intro field field' m
    refine ⟨m.name.symm, m.format.symm, m.skip.symm, fun t => ?_⟩
    rw [h.standsFor, h.standsFor, m.standsFor]

end Matches

/-! ## Writing out an alias -/

/-- One occurrence of an alias in a type gives way to the target of the alias. -/
inductive Inlines (r : Registry) : Ty → Ty → Prop where
  | typeAlias {name n : String} {target : Ty} :
      r.get? name = some (.typeAlias n target) → Inlines r (.named name) target
  | list {item item' : Ty} : Inlines r item item' → Inlines r (.list item) (.list item')
  | option {inner inner' : Ty} : Inlines r inner inner' → Inlines r (.option inner) (.option inner')

/-- One occurrence of an alias gives way to the target of the alias, either in a root type or in the
type of a field. -/
inductive InlinesOnce : Registry → Ty → Registry → Ty → Prop where
  | root {r : Registry} {ty ty' : Ty} : r.Inlines ty ty' → InlinesOnce r ty r ty'
  | field {r : Registry} {ty ty' : Ty} {before after : List Definition} {owner : String}
      {earlier later : List Field} {field : Field} :
      r.definitions = before ++ .record owner (earlier ++ field :: later) :: after →
      r.Inlines field.ty ty' →
      InlinesOnce r ty
        { r with definitions := before ++
            (.record owner (earlier ++ { field with ty := ty' } :: later) :: after) } ty

theorem Inlines.standsFor (h : r.Inlines ty ty') : r.StandsFor ty' t ↔ r.StandsFor ty t := by
  induction h generalizing t with
  | typeAlias found => exact (StandsFor.of_alias found).symm
  | list _ ih => simp only [StandsFor.of_list, ih]
  | option _ ih => simp only [StandsFor.of_option, ih]

/-- Writing out an alias once leaves matching definitions, and a root type that stands for the
same. -/
theorem InlinesOnce.matches (h : InlinesOnce r ty r' ty') :
    r.Matches r' ∧ ∀ t, r'.StandsFor ty' t ↔ r.StandsFor ty t := by
  cases h with
  | root inlines => exact ⟨.refl r, fun _ => inlines.standsFor⟩
  | @field written before after owner earlier later field here inlines =>
    have fixed (ds : List Definition) : List.Forall₂ (Definition.Matches r) ds ds :=
      List.forall₂_same.2 fun d _ => .refl d
    have others (fs : List Field) : List.Forall₂ (Field.Matches r) fs fs :=
      List.forall₂_same.2 fun f _ => .refl f
    have changed : Field.Matches r field { field with ty := written } :=
      ⟨rfl, rfl, rfl, fun _ => inlines.standsFor⟩
    have fields := List.rel_append (others earlier) (.cons changed (others later))
    have matching : r.Matches { r with definitions := before ++
        (.record owner (earlier ++ { field with ty := written } :: later) :: after) } := by
      unfold Matches
      rw [here]
      exact List.rel_append (fixed before) (.cons (.record fields) (fixed after))
    exact ⟨matching, fun _ => matching.standsFor⟩

end Registry

/-! ## Schemas -/

namespace Schema

def named (s : Schema) (name : String) : Schema := s.mapNode fun node => { node with name }

variable {s t : Schema} {name other : String} {route : List Ty}

@[simp] theorem node_named : (s.named name).node = { s.node with name } := node_mapNode _

@[simp] theorem named_named : (s.named other).named name = s.named name := mapNode_mapNode _ _

@[simp] theorem depth_named : (s.named name).depth = s.depth := depth_mapNode _

theorem named_name : s.named s.name = s := by cases s <;> rfl

theorem within_named (h : t.Within (s.named name)) : t = s.named name ∨ t.Within s := by
  cases s with
  | leaf node kind =>
    cases h with
    | self => exact .inl rfl
  | record node members =>
    cases h with
    | self => exact .inl rfl
    | member hm within => exact .inr (.member hm within)

theorem route_named (h : (s.named name).Route route) : s.Route route := by
  cases s with
  | leaf node kind =>
    cases h with
    | leaf => exact .leaf node kind
  | record node members =>
    cases h with
    | record hm way => exact .record hm way

end Schema

namespace Walk

variable {w : Walk} {r r' : Registry} {rule : SkipRule} {maxDepth : Nat} {ty ty' : Ty} {s : Schema}
  {fields fields' : List Field} {members : List Schema} {name owner : String}

theorem Describes.named (h : w.Describes s) : w.Describes (s.named name) := by
  cases h with
  | leaf element bare proper => exact .leaf element bare proper
  | record element found presented skipped some names nodup =>
    exact .record element found presented skipped some names nodup

/-- Fields that match in order are presented by the same schemas. -/
theorem presented_of_matches (h : r.Matches r') {skip : SkipStrategy}
    (matching : List.Forall₂ (Field.Matches r) fields fields')
    (presented : List.Forall₂ (Presents ⟨r, skip, maxDepth⟩) fields members) :
    List.Forall₂ (Presents ⟨r', skip, maxDepth⟩) fields' members := by
  induction matching generalizing members with
  | nil => exact List.forall₂_nil_left_iff.1 presented ▸ .nil
  | cons m _ ih =>
    cases presented with
    | cons presents rest =>
      refine .cons ⟨?_, ?_, ?_⟩ (ih rest)
      · rw [m.name]
        exact presents.name
      · rw [m.format]
        exact presents.format
      · exact h.standsFor.2 ((m.standsFor _).2 presents.declared)

/-- A skip rule looks at nothing of a field but its name and its flag, so that matching definitions
keep matching fields, and describe the same schemas. -/
theorem Describes.matches (h : r.Matches r') (described : Describes ⟨r, rule.skips, maxDepth⟩ s) :
    Describes ⟨r', rule.skips, maxDepth⟩ s := by
  cases described with
  | leaf element bare proper => exact .leaf element bare proper
  | @record node members owner n fields element found presented skipped some names nodup =>
    obtain ⟨fields', found', matching⟩ := h.record found
    have decided (field field' : Field) (m : Field.Matches r field field') :
        rule.skips owner field' = rule.skips owner field := by
      simp only [SkipRule.skips, m.skip, m.name]
    have kept : List.Forall₂ (Field.Matches r) (fields.filter fun field => !rule.skips owner field)
        (fields'.filter fun field => !rule.skips owner field) :=
      Field.Matches.filter (fun field field' m => by rw [decided field field' m]) matching
    have left : List.Forall₂ (Field.Matches r) (fields.filter fun field => rule.skips owner field)
        (fields'.filter fun field => rule.skips owner field) :=
      Field.Matches.filter decided matching
    have listed := forall₂_map_eq left (f := Field.name) (g := Field.name)
      fun _ _ m => m.name.symm
    exact .record element found' (presented_of_matches h kept presented)
      (skipped.trans listed) some names nodup

/-- What is faithful to a type under some definitions is faithful, under the name of the other type,
to a type that stands for the same under matching definitions. -/
theorem Faithful.matches (h : r.Matches r')
    (same : ∀ t, r'.StandsFor ty' t ↔ r.StandsFor ty t)
    (faithful : Faithful ⟨r, rule.skips, maxDepth⟩ ty s) :
    Faithful ⟨r', rule.skips, maxDepth⟩ ty' (s.named ty'.itemName) where
  name := by rw [Schema.name, Schema.node_named]
  format := by
    rw [Schema.node_named]
    exact faithful.format
  declared := by
    rw [Schema.node_named]
    exact (same _).2 faithful.declared
  described := by
    intro t within
    rcases Schema.within_named within with rfl | within
    · exact ((faithful.described s (.self s)).matches h).named
    · exact (faithful.described t within).matches h
  depth_le := by
    rw [Schema.depth_named]
    exact faithful.depth_le
  routes_nodup := fun route way => faithful.routes_nodup route (Schema.route_named way)

/-- The same types are read, with the same schemas but for the names of the roots. -/
theorem root_matches (h : r.Matches r') (same : ∀ t, r'.StandsFor ty' t ↔ r.StandsFor ty t) :
    (root ⟨r', rule.skips, maxDepth⟩ ty').toOption =
      (root ⟨r, rule.skips, maxDepth⟩ ty).toOption.map fun s => s.named ty'.itemName := by
  apply Option.ext
  intro s
  simp only [Option.map_eq_some_iff, toOption_eq_some, root_iff_faithful]
  -- Matching is symmetric, so that what is faithful there comes from what is faithful here.
  constructor
  · intro faithful
    refine ⟨s.named ty.itemName, faithful.matches h.symm ?_, ?_⟩
    · intro t
      rw [h.standsFor, ← same, h.standsFor]
    · rw [Schema.named_named, ← faithful.name, Schema.named_name]
  · rintro ⟨s, faithful, rfl⟩
    exact faithful.matches h same

end Walk

namespace Reader

/-- Writing the target of an alias in its place, once, in the root type or in the type of a field,
has no influence on what is read: the root type is read if it was before, and its schema stays the
same but for the name of the root. -/
theorem read_inlined {r r' : Registry} {ty ty' : Ty} (inlines : Registry.InlinesOnce r ty r' ty')
    (rule : SkipRule) (limits : Limits) :
    (((start r' rule.skips limits).read ty').1.map Kept.value).toOption =
      (((start r rule.skips limits).read ty).1.map Kept.value).toOption.map
        fun s => s.named ty'.itemName := by
  obtain ⟨matching, same⟩ := inlines.matches
  rw [read_start, read_start]
  exact Walk.root_matches matching same

end Reader

/-! ## A sample -/

namespace Sample

/-- A person may have tags, which are numbers in a list. -/
def tagged (tags : Ty) : Registry where
  definitions := [
    .typeAlias "tag" (.primitive .u8),
    .typeAlias "tags" (.list (.named "tag")),
    .record "person" [
      ⟨"name", .primitive .string, .unset, false⟩,
      ⟨"tags", .option tags, .unset, false⟩]]

theorem inlines_tagged : Registry.InlinesOnce (tagged (.named "tags")) (.named "person")
    (tagged (.list (.named "tag"))) (.named "person") := by
  have tags : (tagged (.named "tags")).Inlines (.named "tags") (.list (.named "tag")) :=
    .typeAlias rfl
  exact @Registry.InlinesOnce.field (tagged (.named "tags")) _ _
    [.typeAlias "tag" _, .typeAlias "tags" _] [] "person" [⟨"name", _, _, _⟩] []
    ⟨"tags", _, _, _⟩ rfl (.option tags)

/-- A person is read the same, whichever way the tags are declared. -/
theorem read_inlined_tagged :
    let answer (tags : Ty) :=
      ((Reader.start (tagged tags) SkipRule.flagged.skips .standard).read
        (.named "person")).1.map Kept.value
    answer (.named "tags") = .ok person ∧
      (answer (.list (.named "tag"))).toOption = some person := by
  have known : ((Reader.start (tagged (.named "tags")) SkipRule.flagged.skips .standard).read
      (.named "person")).1.map Kept.value = .ok person := by cbv
  have same := Reader.read_inlined inlines_tagged SkipRule.flagged .standard
  refine ⟨known, same.trans ?_⟩
  rw [known]
  rfl

end Sample

end Slotform
