import Mathlib.Data.List.Induction
import Slotform.Derive.Code
import Slotform.Proofs.Derive.Literal
import Slotform.Proofs.Typed.Convert

/-!
# Names in derived conversions

An accepted enumeration has distinct texts for its variants (`Derivation.armNames_nodup`), so that
every variant comes back from its value. The names of a structure's fields are not compared at all
(`Derivation.ofItem_renamed`): of two kept fields with one name the later one is never filled from a
value (`Typed.Catalog.ofValue_repeated`). `Derivation.Generates` says which declared types a
derivation converts.
-/

namespace Slotform

namespace Derive

open Typed

variable {item : Item} {d : Derivation}

/-! ## What is accepted -/

/-- Accepted variants have distinct texts, none of which was taken before. -/
theorem DerivedVariant.texts_of_ofVariants {taken : List String} {variants : List SourceVariant}
    {derived : List DerivedVariant} (h : ofVariants taken variants = .ok derived) :
    (derived.map (·.text)).Nodup ∧ ∀ text ∈ derived.map (·.text), text ∉ taken := by
  induction variants generalizing taken derived with
  | nil =>
    cases h
    exact ⟨.nil, nofun⟩
  | cons variant rest ih =>
    simp only [ofVariants, ite_error_eq_ok, bind_eq_ok] at h
    obtain ⟨_, text, _, fresh, more, others, ⟨⟩⟩ := h
    obtain ⟨distinct, apart⟩ := ih others
    rw [List.map_cons, List.nodup_cons]
    refine ⟨⟨fun again => apart _ again List.mem_cons_self, distinct⟩, ?_⟩
    intro other hother
    rcases List.mem_cons.1 hother with rfl | hother
    · simpa using fresh
    · exact fun before => apart _ hother (List.mem_cons_of_mem _ before)

namespace Derivation

/-- What is accepted is a structure whose fields are taken in one by one, or an enumeration whose
variants are. -/
theorem ofItem_ok : ofItem item = .ok d ↔ item.hasParameters = false ∧
    ∃ settings, Setting.ofAttributes .container item.attributes = .ok settings ∧
      ((∃ fields members, item.body = .named fields ∧
          Setting.last? settings Setting.kind? = none ∧
          List.Forall₂ (fun field m => DerivedMember.ofField field = .ok m) fields members ∧
          d = .record item.name ((Setting.last? settings Setting.name?).getD item.name) members) ∨
        ∃ variants derived, item.body = .enumeration variants ∧
          Setting.last? settings Setting.name? = none ∧ variants ≠ [] ∧
          DerivedVariant.ofVariants [] variants = .ok derived ∧
          d = .leaf item.name (Setting.last? settings Setting.kind?) derived) := by
  simp only [ofItem, ite_error_eq_ok, Bool.not_eq_true, bind_eq_ok]
  refine and_congr_right fun _ => exists_congr fun settings => and_congr_right fun _ => ?_
  cases item.body with
  | named fields =>
    simp [mapM_eq_ok, @eq_comm _ d]
  | unnamed => simp
  | enumeration variants =>
    simp [ofVariants, @eq_comm _ d]
  | union => simp

/-- The texts of an accepted enumeration are distinct. -/
theorem armNames_nodup (accepted : ofItem item = .ok d) {variants : List SourceVariant}
    (body : item.body = .enumeration variants) : d.armNames.Nodup := by
  obtain ⟨_, _, _, ⟨_, _, named, _⟩ | ⟨_, derived, _, _, _, distinct, rfl⟩⟩ := ofItem_ok.1 accepted
  · rw [body] at named
    cases named
  · exact (DerivedVariant.texts_of_ofVariants distinct).1

/-- Whether a structure is accepted does not depend on the names of its fields. -/
theorem ofItem_renamed (accepted : ofItem item = .ok d) {fields renamed : List SourceField}
    (body : item.body = .named fields)
    (same : renamed.map (·.attributes) = fields.map (·.attributes)) :
    ∃ d', ofItem { item with body := .named renamed } = .ok d' := by
  obtain ⟨plain, settings, taken, shape⟩ := ofItem_ok.1 accepted
  rcases shape with ⟨_, members, named, kind, each, _⟩ | ⟨_, _, named, _⟩
  · cases body.symm.trans named
    have reads : ∀ field ∈ renamed, ∃ m, DerivedMember.ofField field = .ok m := by
      intro field hfield
      have listed : field.attributes ∈ fields.map (·.attributes) :=
        same ▸ List.mem_map_of_mem hfield
      obtain ⟨other, hother, attributes⟩ := List.mem_map.1 listed
      obtain ⟨m, _, made⟩ := forall₂_exists_right each hother
      obtain ⟨found, settings, _⟩ := bind_eq_ok.1 made
      rw [DerivedMember.ofField, ← attributes, settings]
      exact ⟨_, rfl⟩
    obtain ⟨members', each'⟩ := mapM_ok reads
    exact ⟨_, ofItem_ok.2 ⟨plain, settings, taken, .inl ⟨renamed, members', rfl, kind,
      mapM_eq_ok.1 each', rfl⟩⟩⟩
  · rw [body] at named
    cases named

end Derivation

/-! ## What is converted -/

/-- The member of a declared record that the code for a derived member converts. Its model is the
field's type, which only a compiler resolves. -/
structure DerivedMember.Generates (m : DerivedMember) (t : Member) : Prop where
  name : t.name = m.name
  format : t.format = m.format
  kind : t.kind = m.kind
  presence : match t.presence with
    | .skipped _ => m.skip = true
    | .defaulted _ => m.skip = false ∧ m.fallback = true
    | .required => m.skip = false ∧ m.fallback = false

/-- The declared type that the code of a derivation converts. -/
inductive Derivation.Generates : Derivation → Shape → Prop where
  | record {item typeName : String} {members : List DerivedMember} {typed : List Member} :
      List.Forall₂ DerivedMember.Generates members typed →
      Generates (.record item typeName members) (.record typeName typed)
  | leaf {item : String} {kind : Option String} {variants : List DerivedVariant} :
      Generates (.leaf item kind variants) (.enumeration kind (variants.map (·.text)))

theorem DerivedMember.Generates.isSkipped {m : DerivedMember} {t : Member} (h : m.Generates t) :
    t.isSkipped = m.skip := by
  have presence := h.presence
  unfold Member.isSkipped Presence.isSkipped
  cases shape : t.presence <;> simp_all

theorem names_kept {members : List DerivedMember} {typed : List Member}
    (h : List.Forall₂ DerivedMember.Generates members typed) :
    (Derivation.kept members).map (·.name) = (Catalog.kept typed).map (·.name) := by
  induction h with
  | nil => rfl
  | cons first _ ih =>
    have skip := first.isSkipped
    simp only [Derivation.kept, Catalog.kept, List.filter_cons, skip]
    split
    · rw [List.map_cons, List.map_cons, first.name]
      exact congrArg _ ih
    · exact ih

end Derive

namespace Typed.Catalog

variable {catalog : Catalog} {owner : Owner} {members : List Member}

/-! ## Repeated names -/

/-- A kept member finds no entry if an earlier one has its name. -/
theorem collect_repeated {converted : List (String × Except ConversionError Datum)}
    {earlier : List String} {before after : List Member} {m : Member}
    (isKept : m.isSkipped = false) (again : m.name ∈ earlier ∨ m.name ∈ (kept before).map (·.name))
    {data : List Datum} (h : collect converted earlier (before ++ m :: after) = .ok data) :
    ∃ fallback, m.presence = .defaulted fallback ∧ data[before.length]? = some fallback := by
  induction before generalizing earlier data with
  | nil =>
    obtain ⟨datum, rest, found, _, rfl⟩ := collect_cons_ok.1 h
    have contained : earlier.contains m.name = true := by simpa [kept] using again
    rw [contained, if_pos rfl] at found
    unfold taken at found
    rcases m.presence_of_kept isKept with presence | ⟨fallback, presence⟩
    · simp [presence] at found
    · simp only [presence, Except.ok.injEq] at found
      exact ⟨fallback, presence, by simp [found]⟩
  | cons n before ih =>
    obtain ⟨datum, rest, _, others, rfl⟩ := collect_cons_ok.1 h
    refine ih ?_ others
    cases skipped : n.isSkipped with
    | true =>
      rw [kept_cons_of_skipped skipped] at again
      exact again
    | false =>
      rw [kept_cons_of_kept skipped, List.map_cons, List.mem_cons] at again
      simp only [Bool.false_eq_true, if_false, List.mem_cons]
      tauto

/-- Of two kept members with one name the later one holds its default, whatever the value; if it
has none, nothing is converted to the record. -/
theorem ofValue_repeated {typeName : String} {before after : List Member} {m : Member}
    (declared : catalog.shape? owner = some (.record typeName (before ++ m :: after)))
    (isKept : m.isSkipped = false) (again : m.name ∈ (kept before).map (·.name)) {v : Value}
    {x : Datum} (h : catalog.ofValue (.declared owner) v = .ok x) :
    ∃ fields fallback, x = .record fields ∧ m.presence = .defaulted fallback ∧
      fields[before.length]? = some fallback := by
  rcases ofValue_declared_ok.1 h with ⟨_, _, _, fields, found, rfl, _, collected, rfl⟩ |
    ⟨_, _, _, _, found, _⟩
  · obtain ⟨⟩ := Option.some.inj (declared.symm.trans found)
    obtain ⟨fallback, presence, held⟩ := collect_repeated isKept (.inr again) collected
    exact ⟨fields, fallback, rfl, presence, held⟩
  · cases declared.symm.trans found

/-- Where names are not distinct, some kept member comes after one of its name. -/
theorem exists_repeated (h : ¬ ((kept members).map (·.name)).Nodup) :
    ∃ before m after, members = before ++ m :: after ∧ m.isSkipped = false ∧
      m.name ∈ (kept before).map (·.name) := by
  induction members using List.reverseRecOn with
  | nil => exact absurd .nil h
  | append_singleton init m ih =>
    by_cases distinct : ((kept init).map (·.name)).Nodup
    · cases skipped : m.isSkipped with
      | true =>
        have same : kept (init ++ [m]) = kept init := by simp [kept, skipped]
        exact absurd (same ▸ distinct) h
      | false =>
        have more : kept (init ++ [m]) = kept init ++ [m] := by simp [kept, skipped]
        refine ⟨init, m, [], rfl, skipped, ?_⟩
        by_contra fresh
        apply h
        rw [more, List.map_append, List.map_singleton, List.nodup_append]
        refine ⟨distinct, List.nodup_singleton _, ?_⟩
        rintro name hname _ last rfl
        exact fresh (List.mem_singleton.1 last ▸ hname)
    · obtain ⟨before, n, after, rfl, found⟩ := ih distinct
      exact ⟨before, n, after ++ [m], by simp, found⟩

end Typed.Catalog

namespace Derive

open Typed

variable {item : Item} {d : Derivation}

/-! ## Derived conversions -/

/-- The names that the derived conversion tells parts apart by. -/
theorem Derivation.Generates.armNames {shape : Shape} (h : d.Generates shape) : match shape with
    | .record _ typed => d.armNames = (Catalog.kept typed).map (·.name)
    | .enumeration _ variants => d.armNames = variants := by
  cases h with
  | record each => exact names_kept each
  | leaf => rfl

/-- The declared type of an accepted item. -/
def Derived (shape : Shape) : Prop :=
  ∃ item d, Derivation.ofItem item = .ok d ∧ d.Generates shape

theorem Derived.variants_nodup {kind : Option String} {variants : List String}
    (h : Derived (.enumeration kind variants)) : variants.Nodup := by
  obtain ⟨item, d, accepted, generates⟩ := h
  have names := generates.armNames
  cases generates
  obtain ⟨_, _, _, ⟨_, _, _, _, _, ⟨⟩⟩ | ⟨_, _, body, _⟩⟩ := Derivation.ofItem_ok.1 accepted
  exact names ▸ Derivation.armNames_nodup accepted body

/-- The literals that the alternatives of the derived conversion begin with. -/
def Derivation.patterns (d : Derivation) : List (List Char) := d.armNames.map Literal.ofString

theorem Derivation.patterns_nodup : d.patterns.Nodup ↔ d.armNames.Nodup :=
  List.nodup_map_iff Literal.ofString_injective

/-- An accepted enumeration has distinct patterns. Where the patterns of an accepted item are
distinct, everything comes back from its value; where they are not, the item is a structure with a
field whose entry is never read, since an earlier field has its name. -/
theorem Derivation.converts_back (accepted : ofItem item = .ok d) {shape : Shape}
    (generates : d.Generates shape) {catalog : Catalog} {owner : Owner}
    (declared : catalog.shape? owner = some shape)
    (inner : ∀ other, catalog.Reaches (.declared owner) other → other ≠ owner →
      catalog.Unambiguous other) :
    (∀ variants, item.body = .enumeration variants → d.patterns.Nodup) ∧
      (d.patterns.Nodup → ∀ x, catalog.Has (.declared owner) x →
        catalog.ofValue (.declared owner) (catalog.toValue (.declared owner) x) =
          .ok (catalog.restored (.declared owner) x)) ∧
      (¬ d.patterns.Nodup → ∃ typeName before m after,
        shape = .record typeName (before ++ m :: after) ∧ m.isSkipped = false ∧
          m.name ∈ (Catalog.kept before).map (·.name) ∧
          ∀ v x, catalog.ofValue (.declared owner) v = .ok x → ∃ fields fallback,
            x = .record fields ∧ m.presence = .defaulted fallback ∧
              fields[before.length]? = some fallback) := by
  have names := generates.armNames
  rw [patterns_nodup]
  refine ⟨fun _ body => armNames_nodup accepted body, ?_, ?_⟩
  · intro distinct x has
    refine Catalog.ofValue_toValue has fun other reached => ?_
    by_cases own : other = owner
    · subst own
      refine ⟨fun typeName members found => ?_, fun kind variants found => ?_⟩
      · obtain rfl := Option.some.inj (declared.symm.trans found)
        exact names ▸ distinct
      · obtain rfl := Option.some.inj (declared.symm.trans found)
        exact names ▸ distinct
    · exact inner other reached own
  · intro again
    cases generates with
    | @record _ typeName _ typed each =>
      rw [names] at again
      obtain ⟨before, m, after, rfl, isKept, found⟩ := Catalog.exists_repeated again
      exact ⟨typeName, before, m, after, rfl, isKept, found,
        fun v x => Catalog.ofValue_repeated declared isKept found⟩
    | leaf =>
      rw [names] at again
      exact absurd (Derived.variants_nodup ⟨item, _, accepted, .leaf⟩) again

/-! ## A structure with a renamed field -/

namespace Sample

/-- The second field is renamed. -/
def entry (renamed : String) : Item :=
  ⟨[], "Entry", false, .named [
    ⟨[], "key", [.ident "u8"]⟩,
    ⟨[.listed [.ident "rename", .punct '=' false, .literal (Literal.ofString renamed)]], "r#type",
      [.ident "u8"]⟩]⟩

def derivedEntry (renamed : String) : Derivation :=
  .record "Entry" "Entry" [
    ⟨"key", [.ident "u8"], "key", false, false, .unset, none⟩,
    ⟨"r#type", [.ident "u8"], renamed, false, false, .unset, none⟩]

def entryMembers (renamed : String) : List Member :=
  [{ name := "key", model := .primitive .u8 }, { name := renamed, model := .primitive .u8 }]

def entries (renamed : String) : Catalog :=
  [(⟨"Entry"⟩, .record "Entry" (entryMembers renamed))]

theorem settings_rename (renamed : String) : Setting.ofAttributes .field
    [.listed [.ident "rename", .punct '=' false, .literal (Literal.ofString renamed)]] =
      .ok [.rename renamed] := by
  have denoted := Literal.string?_ofString renamed
  simp [Setting.ofAttributes, Setting.ofAttribute, Setting.readList, Setting.readKey,
    Setting.afterSeparator?, Setting.readPathRest, Setting.readSetting, Setting.readString,
    Setting.afterEquals, Token.isPunct, Token.isJoint, denoted, bind, Except.bind, Except.map]

/-- Whatever the second field is renamed to, the structure is accepted. -/
theorem ofItem_entry (renamed : String) :
    Derivation.ofItem (entry renamed) = .ok (derivedEntry renamed) := by
  refine Derivation.ofItem_ok.2 ⟨rfl, [], rfl, .inl ⟨_, _, rfl, rfl, .cons ?_ (.cons ?_ .nil), rfl⟩⟩
  · rfl
  · rw [DerivedMember.ofField, settings_rename]
    rfl

theorem generates_entry (renamed : String) :
    (derivedEntry renamed).Generates (.record "Entry" (entryMembers renamed)) :=
  .record (.cons ⟨rfl, rfl, rfl, rfl, rfl⟩ (.cons ⟨rfl, rfl, rfl, rfl, rfl⟩ .nil))

theorem shape?_entries (renamed : String) :
    (entries renamed).shape? ⟨"Entry"⟩ = some (.record "Entry" (entryMembers renamed)) := rfl

/-- The fields refer to no declared type. -/
theorem reaches_entries {renamed : String} {other : Owner}
    (h : (entries renamed).Reaches (.declared ⟨"Entry"⟩) other) : other = ⟨"Entry"⟩ := by
  have inner {p : Primitive} : ¬ (entries renamed).Reaches (.primitive p) other := by
    intro h
    cases h with
    | here h => cases h
    | member h => cases h
  cases h with
  | here h => exact (Option.some.inj h).symm
  | member outer declared hm _ further =>
    obtain rfl := Option.some.inj outer
    cases (shape?_entries renamed).symm.trans declared
    simp only [entryMembers, List.mem_cons, List.not_mem_nil, or_false] at hm
    rcases hm with rfl | rfl <;> exact absurd further inner

end Sample

open Derive.Sample

/-- A raw identifier is named without its mark. -/
theorem Derivation.converts_back_entry :
    (derivedEntry "type").patterns.Nodup ∧
      (entries "type").ofValue (.declared ⟨"Entry"⟩) ((entries "type").toValue (.declared ⟨"Entry"⟩)
        (.record [.atom (.u8 1), .atom (.u8 2)])) = .ok (.record [.atom (.u8 1), .atom (.u8 2)]) := by
  have distinct : (derivedEntry "type").patterns.Nodup := by decide +kernel
  have has : (entries "type").Has (.declared ⟨"Entry"⟩)
      (.record [.atom (.u8 1), .atom (.u8 2)]) := by
    have number (n : UInt8) : (entries "type").Has (.primitive .u8) (.atom (.u8 n)) :=
      .atom (a := .u8 n) trivial
    refine .record (shape?_entries "type") rfl ?_
    intro m d pair _
    simp only [entryMembers, List.zip_cons_cons, List.zip_nil_right, List.mem_cons, Prod.mk.injEq,
      List.not_mem_nil, or_false] at pair
    rcases pair with ⟨rfl, rfl⟩ | ⟨rfl, rfl⟩
    · exact number 1
    · exact number 2
  have back := converts_back (ofItem_entry "type") (generates_entry "type") (shape?_entries "type")
    fun other reached apart => absurd (reaches_entries reached) apart
  exact ⟨distinct, back.2.1 distinct _ has⟩

/-- A field renamed to the name of the one before it: no value is converted to the structure. -/
theorem Derivation.shadowed_accepted :
    ofItem (entry "key") = .ok (derivedEntry "key") ∧ ¬ (derivedEntry "key").patterns.Nodup ∧
      (derivedEntry "key").Generates (.record "Entry" (entryMembers "key")) ∧
      ∀ v, ∃ e, (entries "key").ofValue (.declared ⟨"Entry"⟩) v = .error e := by
  refine ⟨ofItem_entry "key", by decide +kernel, generates_entry "key", fun v => ?_⟩
  cases converted : (entries "key").ofValue (.declared ⟨"Entry"⟩) v with
  | error e => exact ⟨e, rfl⟩
  | ok x =>
    let key : Member := { name := "key", model := .primitive .u8 }
    have declared : (entries "key").shape? ⟨"Entry"⟩ =
        some (.record "Entry" ([key] ++ key :: [])) := shape?_entries "key"
    obtain ⟨_, _, _, presence, _⟩ := Catalog.ofValue_repeated declared rfl (by decide) converted
    cases presence

end Derive

end Slotform
