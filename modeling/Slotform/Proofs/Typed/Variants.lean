import Slotform.Proofs.Typed.Schema

/-!
# Variants in slots

A variant stands in its slot by name, and the slot takes spaces from one end of the name. What is
left may be the name of another variant, or of none. `Catalog.Fits.keepsVariants_iff` says when the
normal form of a datum's value is converted to data with the same variants.
-/

namespace Slotform.Typed.Catalog

variable {catalog : Catalog} {model : Model} {s : Schema}

/-- The second datum has the variants of the first one. Its atoms may be others, and so may whatever
skipped members hold. -/
inductive SameVariants (catalog : Catalog) : Model → Datum → Datum → Prop where
  | atom {p : Primitive} {a b : Atom} : SameVariants catalog (.primitive p) (.atom a) (.atom b)
  | list {item : Model} {xs ys : List Datum} : xs.length = ys.length →
      (∀ x y, (x, y) ∈ xs.zip ys → SameVariants catalog item x y) →
      SameVariants catalog (.list item) (.list xs) (.list ys)
  | absent {inner : Model} : SameVariants catalog (.option inner) .absent .absent
  | present {inner : Model} {x y : Datum} : SameVariants catalog inner x y →
      SameVariants catalog (.option inner) (.present x) (.present y)
  | record {owner : Owner} {typeName : String} {members : List Member} {xs ys : List Datum} :
      catalog.shape? owner = some (.record typeName members) →
      (members.zip xs).length = ys.length →
      (∀ m x y, ((m, x), y) ∈ (members.zip xs).zip ys → m.isSkipped = false →
        SameVariants catalog m.model x y) →
      SameVariants catalog (.declared owner) (.record xs) (.record ys)
  | variant {owner : Owner} {index : Nat} :
      SameVariants catalog (.declared owner) (.variant index) (.variant index)

/-- The value is converted to a datum with the variants of the given one. -/
def KeepsVariants (catalog : Catalog) (model : Model) (x : Datum) (v : Value) : Prop :=
  ∃ y, catalog.ofValue model v = .ok y ∧ catalog.SameVariants model x y

/-- No slot takes anything from the name of a variant of the datum. -/
inductive VariantsTight (catalog : Catalog) : Align → Model → Datum → Prop where
  | atom {align : Align} {p : Primitive} {a : Atom} :
      VariantsTight catalog align (.primitive p) (.atom a)
  | list {align : Align} {item : Model} {items : List Datum} :
      (∀ d ∈ items, VariantsTight catalog align item d) →
      VariantsTight catalog align (.list item) (.list items)
  | absent {align : Align} {inner : Model} : VariantsTight catalog align (.option inner) .absent
  | present {align : Align} {inner : Model} {d : Datum} : VariantsTight catalog align inner d →
      VariantsTight catalog align (.option inner) (.present d)
  | record {align : Align} {owner : Owner} {typeName : String} {members : List Member}
      {fields : List Datum} : catalog.shape? owner = some (.record typeName members) →
      (∀ m d, (m, d) ∈ members.zip fields → m.isSkipped = false →
        VariantsTight catalog (m.format.align.getD .left) m.model d) →
      VariantsTight catalog align (.declared owner) (.record fields)
  | variant {align : Align} {owner : Owner} {kind : Option String} {variants : List String}
      {index : Nat} : catalog.shape? owner = some (.enumeration kind variants) →
      (Atom.string (variants.getD index "")).Tight align →
      VariantsTight catalog align (.declared owner) (.variant index)

theorem Inhabits.variantsTight {align : Align} {x : Datum}
    (h : catalog.Inhabits Atom.Tight align model x) : catalog.VariantsTight align model x := by
  induction h with
  | atom _ => exact .atom
  | list _ ih => exact .list ih
  | absent => exact .absent
  | present _ ih => exact .present ih
  | record declared _ _ ih => exact .record declared ih
  | variant declared _ tight => exact .variant declared tight

/-! ## One level at a time -/

section Levels

variable {align : Align} {owner : Owner} {members : List Member} {fields : List Datum}

theorem sameVariants_list {item : Model} {xs : List Datum} {y : Datum} :
    catalog.SameVariants (.list item) (.list xs) y ↔
      ∃ ys, List.Forall₂ (catalog.SameVariants item) xs ys ∧ y = .list ys := by
  constructor
  · rintro (_ | ⟨length, each⟩)
    exact ⟨_, List.forall₂_iff_zip.2 ⟨length, fun pair => each _ _ pair⟩, rfl⟩
  · rintro ⟨ys, all, rfl⟩
    obtain ⟨length, each⟩ := List.forall₂_iff_zip.1 all
    exact .list length fun _ _ pair => each pair

theorem sameVariants_record {typeName : String}
    (declared : catalog.shape? owner = some (.record typeName members)) {xs : List Datum}
    {y : Datum} : catalog.SameVariants (.declared owner) (.record xs) y ↔
      ∃ ys, List.Forall₂ (fun part y => part.1.isSkipped = false →
        catalog.SameVariants part.1.model part.2 y) (members.zip xs) ys ∧ y = .record ys := by
  constructor
  · rintro (_ | _ | _ | _ | ⟨declared', length, each⟩)
    cases declared.symm.trans declared'
    exact ⟨_, List.forall₂_iff_zip.2 ⟨length, fun pair => each _ _ _ pair⟩, rfl⟩
  · rintro ⟨ys, all, rfl⟩
    obtain ⟨length, each⟩ := List.forall₂_iff_zip.1 all
    exact .record declared length fun _ _ _ pair => each pair

theorem variantsTight_list {item : Model} {items : List Datum} :
    catalog.VariantsTight align (.list item) (.list items) ↔
      ∀ d ∈ items, catalog.VariantsTight align item d := by
  constructor
  · rintro (_ | each)
    exact each
  · exact .list

theorem variantsTight_present {inner : Model} {d : Datum} :
    catalog.VariantsTight align (.option inner) (.present d) ↔
      catalog.VariantsTight align inner d := by
  constructor
  · rintro (_ | _ | _ | tight)
    exact tight
  · exact .present

theorem variantsTight_variant {kind : Option String} {variants : List String} {index : Nat}
    (declared : catalog.shape? owner = some (.enumeration kind variants)) :
    catalog.VariantsTight align (.declared owner) (.variant index) ↔
      (Atom.string (variants.getD index "")).Tight align := by
  constructor
  · rintro (_ | _ | _ | _ | _ | ⟨declared', tight⟩)
    cases declared.symm.trans declared'
    exact tight
  · exact .variant declared

theorem variantsTight_record {typeName : String}
    (declared : catalog.shape? owner = some (.record typeName members)) :
    catalog.VariantsTight align (.declared owner) (.record fields) ↔
      ∀ m d, (m, d) ∈ members.zip fields → m.isSkipped = false →
        catalog.VariantsTight (m.format.align.getD .left) m.model d := by
  constructor
  · rintro (_ | _ | _ | _ | ⟨declared', each⟩)
    cases declared.symm.trans declared'
    exact each
  · exact .record declared

theorem keepsVariants_list {item : Model} {items : List Datum} {value : Datum → Value} :
    catalog.KeepsVariants (.list item) (.list items) (.list (items.map value)) ↔
      ∀ d ∈ items, catalog.KeepsVariants item d (value d) := by
  unfold KeepsVariants
  rw [← exists_forall₂]
  simp only [ofValue, map_eq_ok, ofItems_ok, List.forall₂_map_left_iff, sameVariants_list]
  constructor
  · rintro ⟨_, ⟨ys, each, rfl⟩, _, same, ⟨⟩⟩
    exact ⟨ys, each, same⟩
  · rintro ⟨ys, each, same⟩
    exact ⟨_, ⟨ys, each, rfl⟩, ys, same, rfl⟩

theorem keepsVariants_present {inner : Model} {x : Datum} {v : Value} :
    catalog.KeepsVariants (.option inner) (.present x) (.present v) ↔
      catalog.KeepsVariants inner x v := by
  unfold KeepsVariants
  simp only [ofValue, map_eq_ok]
  constructor
  · rintro ⟨_, ⟨y, converted, rfl⟩, same⟩
    cases same with
    | present same => exact ⟨y, converted, same⟩
  · rintro ⟨y, converted, same⟩
    exact ⟨_, ⟨y, converted, rfl⟩, .present same⟩

/-- A record keeps its variants if each of its kept members does. -/
theorem keepsVariants_record {typeName : String}
    (declared : catalog.shape? owner = some (.record typeName members))
    (distinct : ((kept members).map (·.name)).Nodup) (length : fields.length = members.length)
    {entries : List (String × Value)}
    (order : ((kept members).map (·.name)).Perm (entries.map Prod.fst)) :
    catalog.KeepsVariants (.declared owner) (.record fields) (.record entries) ↔
      ∀ m d, (m, d) ∈ members.zip fields → m.isSkipped = false →
        ∃ v, (m.name, v) ∈ entries ∧ catalog.KeepsVariants m.model d v := by
  have parts (ys : List Datum) : List.Forall₂ (catalog.Receives entries) members ys ↔
      List.Forall₂ (fun part y => catalog.Receives entries part.1 y) (members.zip fields) ys := by
    have firsts : (members.zip fields).map Prod.fst = members :=
      List.map_fst_zip (Nat.le_of_eq length.symm)
    rw [← List.forall₂_map_left_iff (f := Prod.fst), firsts]
  have single (m : Member) (d : Datum) :
      (∃ y, catalog.Receives entries m y ∧
        (m.isSkipped = false → catalog.SameVariants m.model d y)) ↔
      (m.isSkipped = false → ∃ v, (m.name, v) ∈ entries ∧ catalog.KeepsVariants m.model d v) := by
    cases skipped : m.isSkipped with
    | true =>
      obtain ⟨_, presence⟩ := m.presence_of_skipped skipped
      simp [Receives, presence]
    | false =>
      simp only [receives_of_kept skipped, true_imp_iff]
      constructor
      · rintro ⟨y, ⟨v, entry, converted⟩, same⟩
        exact ⟨v, entry, y, converted, same⟩
      · rintro ⟨v, entry, y, converted, same⟩
        exact ⟨y, ⟨v, entry, converted⟩, same⟩
  unfold KeepsVariants at single ⊢
  simp only [ofValue_record_ok declared distinct order, sameVariants_record declared, parts]
  constructor
  · rintro ⟨_, ⟨ys, received, rfl⟩, _, same, ⟨⟩⟩ m d pair
    exact (single m d).1 (exists_forall₂.1 ⟨ys, received, same⟩ (m, d) pair)
  · intro each
    obtain ⟨ys, received, same⟩ := exists_forall₂.2 fun (part : Member × Datum) pair =>
      (single part.1 part.2).2 (each part.1 part.2 pair)
    exact ⟨_, ⟨ys, received, rfl⟩, ys, same, rfl⟩

/-- What slots leave of a record keeps its variants exactly if they take nothing from the names of
these, provided that this holds for each member. -/
theorem keepsVariants_members {typeName : String} {node : Node} {schemas : List Schema}
    (bare : node.Bare) (declared : catalog.shape? owner = some (.record typeName members))
    (length : fields.length = members.length)
    (names : schemas.map Schema.name = (kept members).map (·.name))
    (nodup : (schemas.map Schema.name).Nodup)
    (each : ∀ m d, (m, d) ∈ members.zip fields → m.isSkipped = false →
      ∀ schema ∈ schemas, schema.name = m.name →
        (catalog.KeepsVariants m.model d (schema.normal (catalog.toValue m.model d)) ↔
          catalog.VariantsTight (m.format.align.getD .left) m.model d)) :
    catalog.KeepsVariants (.declared owner) (.record fields) ((Schema.record node schemas).normal
        (catalog.toValue (.declared owner) (.record fields))) ↔
      catalog.VariantsTight align (.declared owner) (.record fields) := by
  have named : (catalog.toEntries members fields).map Prod.fst = schemas.map Schema.name :=
    (names_toEntries length).trans names.symm
  have order : ((kept members).map (·.name)).Perm
      ((Schema.normalMembers schemas (catalog.toEntries members fields)).map Prod.fst) := by
    rw [Schema.names_normalMembers named nodup, names]
  have value : (Schema.record node schemas).normal
      (catalog.toValue (.declared owner) (.record fields)) =
        .record (Schema.normalMembers schemas (catalog.toEntries members fields)) := by
    rw [Schema.normal_bare (s := .record node schemas) bare, toValue, declared]
    rfl
  rw [value, keepsVariants_record declared (names ▸ nodup) length order,
    variantsTight_record declared]
  refine forall₂_congr fun m d => forall₂_congr fun pair isKept => ?_
  have listed : m.name ∈ schemas.map Schema.name :=
    names ▸ List.mem_map_of_mem (mem_kept.2 ⟨(List.of_mem_zip pair).1, isKept⟩)
  obtain ⟨schema, hs, same⟩ := List.mem_map.1 listed
  have entry : (m.name, catalog.toValue m.model d) ∈ catalog.toEntries members fields :=
    toEntries_mem pair isKept
  rw [← each m d pair isKept schema hs same]
  rw [← same] at entry ⊢
  simp only [Schema.mem_normalMembers named nodup hs entry, exists_eq_left]

/-- A variant is kept if its name has nothing that a slot takes away. -/
theorem keepsVariants_variant {kind : Option String} {variants : List String} {index : Nat}
    (declared : catalog.shape? owner = some (.enumeration kind variants)) (distinct : variants.Nodup)
    (bound : index < variants.length) :
    catalog.KeepsVariants (.declared owner) (.variant index)
        (.atom ((Atom.string (variants.getD index "")).normal align)) ↔
      (Atom.string (variants.getD index "")).Tight align := by
  rw [← Atom.normal_string]
  constructor
  · rintro ⟨_, converted, ⟨⟩⟩
    rcases ofValue_declared_ok.1 converted with ⟨_, _, _, _, _, ⟨⟩, _⟩ |
      ⟨_, _, name, _, found, text, listed, ⟨⟩⟩
    cases declared.symm.trans found
    obtain ⟨_, same, _⟩ := List.findIdx?_eq_some_iff_getElem.1 listed
    rw [Value.atom.injEq] at text
    rw [text, ← beq_iff_eq.1 same, List.getD_eq_getElem _ _ bound]
  · intro tight
    rw [tight]
    exact ⟨_, ofValue_declared_ok.2
      (.inr ⟨_, _, _, _, declared, rfl, findIdx?_getD distinct bound, rfl⟩), .variant⟩

end Levels

/-! ## Whole data -/

/-- What slots leave of a datum keeps the datum's variants exactly if they take nothing from the
names of these. -/
theorem Fits.keepsVariants_iff {align : Align} {x : Datum} (fits : catalog.Fits model s)
    (proper : s.WellFormed) (has : catalog.Inhabits (fun _ _ => True) align model x)
    (side : align = s.node.format.align.getD .left)
    (variants : ∀ owner kind variants, catalog.shape? owner = some (.enumeration kind variants) →
      variants.Nodup) :
    catalog.KeepsVariants model x (s.normal (catalog.toValue model x)) ↔
      catalog.VariantsTight align model x := by
  induction has generalizing s with
  | @atom _ a =>
    cases fits with
    | @primitive node _ bare =>
      have converted (side : Align) : catalog.ofValue (.primitive a.primitive)
          (.atom (a.normal side)) = .ok (.atom (a.normal side)) := by
        cases a <;> rfl
      rw [Schema.normal_bare (s := .leaf node _) bare]
      exact ⟨fun _ => .atom, fun _ => ⟨_, converted _, .atom⟩⟩
  | @list align item items _ ih =>
    cases fits with
    | list ho hr inner =>
      rw [toValue, toValues_eq_map, Schema.normal_repeated ho hr, Value.mapItems, List.map_map,
        keepsVariants_list, variantsTight_list]
      exact forall₂_congr fun d hd =>
        ih d hd inner proper.item (by rw [Schema.node_item]; exact side)
  | absent =>
    cases fits with
    | option ho =>
      rw [Schema.normal_optional ho]
      exact ⟨fun _ => .absent, fun _ => ⟨_, rfl, .absent⟩⟩
  | present _ ih =>
    cases fits with
    | option ho inner =>
      rw [toValue, Schema.normal_optional ho, Value.mapPresent, keepsVariants_present,
        variantsTight_present]
      exact ih inner proper.required (by rw [Schema.node_required]; exact side)
  | @record _ owner typeName members fields declared length _ ih =>
    cases fits with
    | enumeration bare shape => cases declared.symm.trans shape
    | @record node _ _ _ schemas bare shape names formats inner =>
      cases declared.symm.trans shape
      cases proper with
      | record _ _ nodup each =>
        refine keepsVariants_members bare declared length names nodup ?_
        intro m d pair isKept schema hs same
        have hm : m ∈ kept members := mem_kept.2 ⟨(List.of_mem_zip pair).1, isKept⟩
        exact ih m d pair isKept (inner m hm schema hs same) (each schema hs)
          (by rw [formats m hm schema hs same])
  | @variant align owner kind names index declared bound _ =>
    cases fits with
    | record bare shape => cases declared.symm.trans shape
    | @enumeration node _ _ bare shape =>
      cases declared.symm.trans shape
      have value : (Schema.leaf node (.primitive .string)).normal
          (catalog.toValue (.declared owner) (.variant index)) =
            .atom ((Atom.string (names.getD index "")).normal align) := by
        rw [Schema.normal_bare (s := .leaf node _) bare, toValue, declared, side]
        rfl
      rw [value, keepsVariants_variant declared (variants _ _ _ declared) bound,
        variantsTight_variant declared]

end Slotform.Typed.Catalog
