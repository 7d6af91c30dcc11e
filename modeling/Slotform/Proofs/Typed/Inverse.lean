import Slotform.Proofs.Derive.Names

namespace Slotform

/-- Induction over the parts of a value. -/
theorem Value.byParts {P : Value → Prop} (atom : ∀ a, P (.atom a))
    (list : ∀ items, (∀ v ∈ items, P v) → P (.list items)) (absent : P .absent)
    (present : ∀ v, P v → P (.present v))
    (record : ∀ entries, (∀ e ∈ entries, P e.2) → P (.record entries)) : (v : Value) → P v
  | .atom a => atom a
  | .list items => list items fun v _ => byParts atom list absent present record v
  | .absent => absent
  | .present v => present v (byParts atom list absent present record v)
  | .record entries => record entries fun e _ => byParts atom list absent present record e.2
termination_by v => sizeOf v
decreasing_by
  · simpa using Nat.lt_add_left 1 (List.sizeOf_lt_of_mem ‹_›)
  · simp
  · have inside := List.sizeOf_lt_of_mem ‹e ∈ entries›
    obtain ⟨name, v⟩ := e
    simp only [Prod.mk.sizeOf_spec] at inside
    simp only [Value.record.sizeOf_spec]
    omega

namespace Typed.Catalog

variable {catalog : Catalog} {members : List Member} {model : Model} {owner : Owner}

/-! ## What is converted to data -/

/-- Which data a model has does not depend on the side at which they stand. -/
theorem Has.inhabits {x : Datum} (h : catalog.Has model x) (align : Align) :
    catalog.Inhabits (fun _ _ => True) align model x := by
  unfold Has at h
  generalize Align.left = side at h
  induction h generalizing align with
  | atom admitted => exact .atom trivial
  | list _ ih => exact .list fun d hd => ih d hd align
  | absent => exact .absent
  | present _ ih => exact .present (ih align)
  | record declared length each _ => exact .record declared length each
  | variant declared bound _ => exact .variant declared bound trivial

/-- The default of a member that a value may leave out is a datum of its model. -/
def DefaultsFit (catalog : Catalog) (owner : Owner) : Prop :=
  ∀ typeName members, catalog.shape? owner = some (.record typeName members) → ∀ m ∈ members,
    ∀ fallback, m.presence = .defaulted fallback → catalog.Has m.model fallback

theorem taken_ok {m : Member} (isKept : m.isSkipped = false)
    {found : Option (Except ConversionError Datum)} {d : Datum} (h : taken m found = .ok d) :
    found = some (.ok d) ∨ m.presence = .defaulted d := by
  unfold taken at h
  rcases m.presence_of_kept isKept with presence | ⟨_, presence⟩ <;>
    rcases found with _ | _ | _ <;> simp_all

/-- What the entries of a record are converted to comes from the member of their name. -/
theorem of_mem_ofEntries {entries : List (String × Value)} {name : String}
    {converted : Except ConversionError Datum}
    (h : (name, converted) ∈ catalog.ofEntries members entries) :
    ∃ v model, (name, v) ∈ entries ∧ memberModel? members name = some model ∧
      catalog.ofValue model v = converted := by
  induction entries with
  | nil => cases h
  | cons e rest ih =>
    rw [ofEntries] at h
    have later (h : (name, converted) ∈ catalog.ofEntries members rest) :
        ∃ v model, (name, v) ∈ e :: rest ∧ memberModel? members name = some model ∧
          catalog.ofValue model v = converted := by
      obtain ⟨v, model, entry, found, same⟩ := ih h
      exact ⟨v, model, List.mem_cons_of_mem _ entry, found, same⟩
    split at h
    next model found =>
      rcases List.mem_cons.1 h with same | h
      · cases same
        exact ⟨e.2, model, List.mem_cons_self, found, rfl⟩
      · exact later h
    next => exact later h

theorem has_list {item : Model} {values : List Value} {data : List Datum}
    (each : List.Forall₂ (fun v d => catalog.ofValue item v = .ok d) values data)
    (ih : ∀ v ∈ values, ∀ d, catalog.ofValue item v = .ok d → catalog.Has item d) :
    catalog.Has (.list item) (.list data) := by
  refine .list fun d hd => ?_
  obtain ⟨v, hv, converted⟩ := forall₂_exists_left each hd
  exact ih v hv d converted

theorem has_record {typeName : String}
    (declared : catalog.shape? owner = some (.record typeName members))
    (distinct : ((kept members).map (·.name)).Nodup) {entries : List (String × Value)}
    {fields : List Datum}
    (collected : collect (catalog.ofEntries members entries) [] members = .ok fields)
    (defaults : ∀ m ∈ members, ∀ fallback, m.presence = .defaulted fallback →
      catalog.Has m.model fallback)
    (ih : ∀ m ∈ kept members, ∀ e ∈ entries, ∀ d, catalog.ofValue m.model e.2 = .ok d →
      catalog.Has m.model d) : catalog.Has (.declared owner) (.record fields) := by
  obtain ⟨length, each⟩ :=
    List.forall₂_iff_zip.1 ((collect_ok distinct fun _ _ => List.not_mem_nil).1 collected)
  refine .record declared length.symm fun m d pair isKept => ?_
  have hm : m ∈ members := (List.of_mem_zip pair).1
  refine Has.inhabits ?_ _
  rcases taken_ok isKept (each pair) with found | presence
  · have entry := List.mem_reverse.1 (mem_of_lookup found)
    obtain ⟨v, model, entry, found, converted⟩ := of_mem_ofEntries entry
    rw [memberModel?_of_mem distinct (mem_kept.2 ⟨hm, isKept⟩)] at found
    cases found
    exact ih m (mem_kept.2 ⟨hm, isKept⟩) _ entry d converted
  · exact defaults m hm d presence

theorem has_variant {v : Value} {x : Datum} (h : catalog.ofValue (.declared owner) v = .ok x)
    (noRecord : ∀ entries, v ≠ .record entries) : catalog.Has (.declared owner) x := by
  rcases ofValue_declared_ok.1 h with ⟨_, _, entries, _, _, record, _⟩ |
    ⟨kind, variants, name, index, declared, _, found, rfl⟩
  · exact absurd record (noRecord entries)
  · obtain ⟨bound, _⟩ := List.findIdx?_eq_some_iff_getElem.1 found
    exact .variant declared bound trivial

/-- Whatever a value is converted to is a datum of the model. -/
theorem has_of_ofValue {v : Value} {y : Datum} (h : catalog.ofValue model v = .ok y)
    (unambiguous : ∀ owner, catalog.Reaches model owner → catalog.Unambiguous owner)
    (defaults : ∀ owner, catalog.Reaches model owner → catalog.DefaultsFit owner) :
    catalog.Has model y := by
  induction v using Value.byParts generalizing model y with
  | atom a =>
    cases model with
    | primitive p =>
      rw [ofValue, ite_ok_error_eq_ok] at h
      obtain ⟨rfl, ⟨⟩⟩ := h
      exact .atom trivial
    | list | option => cases h
    | declared owner => exact has_variant h fun _ same => by cases same
  | list items ih =>
    cases model with
    | primitive | option => cases h
    | list item =>
      obtain ⟨data, each, rfl⟩ := map_eq_ok.1 h
      exact has_list (ofItems_ok.1 each) fun v hv d converted => ih v hv converted
        (fun owner reached => unambiguous owner reached.list)
        fun owner reached => defaults owner reached.list
    | declared owner => exact has_variant h fun _ same => by cases same
  | absent =>
    cases model with
    | primitive | list => cases h
    | option inner =>
      cases h
      exact .absent
    | declared owner => exact has_variant h fun _ same => by cases same
  | present w ih =>
    cases model with
    | primitive | list => cases h
    | option inner =>
      obtain ⟨d, converted, rfl⟩ := map_eq_ok.1 h
      exact .present (ih converted (fun owner reached => unambiguous owner reached.option)
        fun owner reached => defaults owner reached.option)
    | declared owner => exact has_variant h fun _ same => by cases same
  | record entries ih =>
    cases model with
    | primitive | list | option => cases h
    | declared owner =>
      rcases ofValue_declared_ok.1 h with
        ⟨typeName, members, _, fields, declared, ⟨⟩, _, collected, rfl⟩ | ⟨_, _, _, _, _, ⟨⟩, _⟩
      refine has_record declared ((unambiguous owner (.here rfl)).members _ _ declared) collected
        (defaults owner (.here rfl) _ _ declared) fun m hm e he d converted => ?_
      obtain ⟨hm, isKept⟩ := mem_kept.1 hm
      exact ih e he converted
        (fun inner reached => unambiguous inner (.member rfl declared hm isKept reached))
        fun inner reached => defaults inner (.member rfl declared hm isKept reached)

/-! ## There and back -/

/-- Conversions are inverse where the declared types are derived and the kept members of each record
have distinct names: a datum comes back from its value, and from any value that differs from that in
the order of record entries only, with skipped members at their defaults; and so does whatever a
value was converted to. -/
theorem convert_inverse
    (derived : ∀ owner shape, catalog.Reaches model owner → catalog.shape? owner = some shape →
      Derive.Derived shape)
    (distinct : ∀ owner typeName members, catalog.Reaches model owner →
      catalog.shape? owner = some (.record typeName members) →
      ((kept members).map (·.name)).Nodup)
    (defaults : ∀ owner, catalog.Reaches model owner → catalog.DefaultsFit owner) :
    (∀ x, catalog.Has model x →
      catalog.ofValue model (catalog.toValue model x) = .ok (catalog.restored model x)) ∧
    (∀ x v, catalog.Has model x → (catalog.toValue model x).Permuted v →
      catalog.ofValue model v = .ok (catalog.restored model x)) ∧
    ∀ v y, catalog.ofValue model v = .ok y →
      catalog.ofValue model (catalog.toValue model y) = .ok (catalog.restored model y) := by
  have unambiguous : ∀ owner, catalog.Reaches model owner → catalog.Unambiguous owner :=
    fun owner reached => ⟨fun _ _ declared => distinct owner _ _ reached declared,
      fun _ _ declared => (derived owner _ reached declared).variants_nodup⟩
  refine ⟨fun x has => ofValue_toValue has unambiguous,
    fun x v has permuted => ofValue_permuted has unambiguous permuted, fun v y converted => ?_⟩
  exact ofValue_toValue (has_of_ofValue converted unambiguous defaults) unambiguous

end Typed.Catalog

/-! ## A sample

Tickets with the levels that they had, in a list of options. -/

namespace Sample

open Derive Typed

def levelItem : Item :=
  ⟨[], "Level", false, .enumeration [⟨[], "Low", true⟩, ⟨[], "High", true⟩]⟩

def ticketItem : Item :=
  ⟨[], "Ticket", false, .named [
    ⟨[], "title", [.ident "String"]⟩,
    ⟨[], "levels", [.ident "Levels"]⟩,
    ⟨[.listed [.ident "default"]], "note", [.ident "String"]⟩,
    ⟨[.listed [.ident "skip"]], "cache", [.ident "u8"]⟩]⟩

def level : Shape := .enumeration none ["Low", "High"]

def ticketMembers : List Member :=
  [{ name := "title", model := .primitive .string },
   { name := "levels", model := .list (.option (.declared ⟨"Level"⟩)) },
   { name := "note", model := .primitive .string, presence := .defaulted (.atom (.string "")) },
   { name := "cache", model := .primitive .u8, presence := .skipped (.atom (.u8 0)) }]

def tickets : Catalog :=
  [(⟨"Level"⟩, level), (⟨"Ticket"⟩, .record "Ticket" ticketMembers)]

theorem derived_level : Derived level := ⟨levelItem, _, rfl, .leaf⟩

theorem derived_ticket : Derived (.record "Ticket" ticketMembers) := by
  refine ⟨ticketItem, _, rfl, .record ?_⟩
  exact .cons ⟨rfl, rfl, rfl, rfl, rfl⟩ (.cons ⟨rfl, rfl, rfl, rfl, rfl⟩
    (.cons ⟨rfl, rfl, rfl, rfl, rfl⟩ (.cons ⟨rfl, rfl, rfl, rfl⟩ .nil)))

theorem tickets_cases {owner : Owner} {shape : Shape} (h : tickets.shape? owner = some shape) :
    shape = level ∨ shape = .record "Ticket" ticketMembers := by
  have listed : (owner, shape) ∈ tickets := mem_of_lookup h
  simp only [tickets, List.mem_cons, Prod.mk.injEq, List.not_mem_nil, or_false] at listed
  exact listed.imp And.right And.right

theorem shape?_level : tickets.shape? ⟨"Level"⟩ = some (.enumeration none ["Low", "High"]) := rfl

theorem shape?_ticket : tickets.shape? ⟨"Ticket"⟩ = some (.record "Ticket" ticketMembers) := rfl

theorem has_level (index : Nat) (bound : index < 2) :
    tickets.Has (.declared ⟨"Level"⟩) (.variant index) :=
  .variant shape?_level bound trivial

end Sample

namespace Typed.Catalog

open Sample

/-- A ticket from a value with the entries the other way round. -/
theorem convert_inverse_ticket :
    tickets.ofValue (.declared ⟨"Ticket"⟩)
      (.record [("note", .atom (.string "urgent")),
        ("levels", .list [.present (.atom (.string "High")), .absent]),
        ("title", .atom (.string "leak"))]) =
      .ok (.record [.atom (.string "leak"), .list [.present (.variant 1), .absent],
        .atom (.string "urgent"), .atom (.u8 0)]) := by
  have text (s : String) : tickets.Has (.primitive .string) (.atom (.string s)) :=
    .atom (a := .string s) trivial
  have levels : tickets.Has (.list (.option (.declared ⟨"Level"⟩)))
      (.list [.present (.variant 1), .absent]) := by
    refine .list fun d hd => ?_
    simp only [List.mem_cons, List.not_mem_nil, or_false] at hd
    rcases hd with rfl | rfl
    · exact .present (has_level 1 (by decide))
    · exact .absent
  have has : tickets.Has (.declared ⟨"Ticket"⟩)
      (.record [.atom (.string "leak"), .list [.present (.variant 1), .absent],
        .atom (.string "urgent"), .atom (.u8 7)]) := by
    refine .record shape?_ticket rfl fun m d pair isKept => ?_
    simp only [ticketMembers, List.zip_cons_cons, List.zip_nil_right, List.mem_cons, Prod.mk.injEq,
      List.not_mem_nil, or_false] at pair
    rcases pair with ⟨rfl, rfl⟩ | ⟨rfl, rfl⟩ | ⟨rfl, rfl⟩ | ⟨rfl, rfl⟩
    · exact text "leak"
    · exact levels
    · exact text "urgent"
    · cases isKept
  have fits : ∀ owner, tickets.DefaultsFit owner := by
    intro owner typeName members declared m hm fallback presence
    rcases tickets_cases declared with ⟨⟨⟩⟩ | ⟨⟨⟩⟩
    simp only [ticketMembers, List.mem_cons, List.not_mem_nil, or_false] at hm
    rcases hm with rfl | rfl | rfl | rfl <;> cases presence
    exact text ""
  have back := convert_inverse
    (fun owner shape (_ : tickets.Reaches (.declared ⟨"Ticket"⟩) owner) declared => by
      rcases tickets_cases declared with rfl | rfl
      · exact derived_level
      · exact derived_ticket)
    (fun owner typeName members _ declared => by
      rcases tickets_cases declared with ⟨⟨⟩⟩ | ⟨⟨⟩⟩
      decide)
    (fun owner _ => fits owner)
  exact back.2.1 _ _ has (.record rfl (List.forall₂_same.2 fun e _ => .refl e.2)
    (List.reverse_perm _).symm)

end Typed.Catalog

end Slotform
