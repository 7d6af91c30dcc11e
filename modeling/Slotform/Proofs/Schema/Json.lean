import Mathlib.Data.List.Nodup
import Slotform.Proofs.Json.Text
import Slotform.Schema.Json

namespace Slotform

namespace Json

variable {α : Type}

/-! ## Fields by name -/

theorem eraseDups_of_nodup [BEq α] [LawfulBEq α] {xs : List α} (distinct : xs.Nodup) :
    xs.eraseDups = xs := by
  induction xs with
  | nil => rfl
  | cons x xs ih =>
    obtain ⟨fresh, distinct⟩ := List.nodup_cons.1 distinct
    have others : xs.filter (fun y => !y == x) = xs := by
      apply List.filter_eq_self.2
      intro y mem
      have apart : y ≠ x := fun same => fresh (same ▸ mem)
      simpa using apart
    rw [List.eraseDups_cons, others, ih distinct]

theorem allTexts_ofEntries (entries : List (String × Json)) :
    allTexts (entries.map fun entry => some entry.1.toList) =
      some (entries.map fun entry => entry.1.toList) := by
  induction entries with
  | nil => rfl
  | cons entry rest ih =>
    rw [List.map_cons, allTexts, ih]
    rfl

theorem lookup_ofEntries (entries : List (String × Json)) (name : String) :
    (entries.map fun entry => ((some entry.1.toList : JsonText), entry.2)).lookup
      (some name.toList) = entries.lookup name := by
  induction entries with
  | nil => rfl
  | cons entry rest ih =>
    obtain ⟨key, value⟩ := entry
    rw [List.map_cons, List.lookup_cons, List.lookup_cons, ih]
    have same : ((some name.toList : JsonText) == some key.toList) = (name == key) := by
      rw [Bool.eq_iff_iff, beq_iff_eq, beq_iff_eq, Option.some.injEq, String.toList_inj]
    rw [same]

/-- In an object whose keys differ every field is found by its name. -/
theorem fields_ofEntries {entries : List (String × Json)}
    (distinct : (entries.map Prod.fst).Nodup) (names : List String) (least : Nat) :
    (ofEntries entries).fields names least = some (names.map fun name => entries.lookup name) := by
  have keys : (entries.map fun entry => entry.1.toList).Nodup := by
    have same : (entries.map fun entry => entry.1.toList) =
        (entries.map Prod.fst).map String.toList := by
      rw [List.map_map]
      rfl
    rw [same]
    exact distinct.map fun _ _ => String.toList_inj.1
  simp only [ofEntries, fields, List.map_map, Function.comp_def, allTexts_ofEntries,
    lookup_ofEntries]
  simp only [Option.bind_eq_bind, Option.bind_some]
  rw [eraseDups_of_nodup (keys.filter _), if_neg (Nat.lt_irrefl _)]

/-! ## What reading restores -/

/-- Within as many levels as the document nests, and only then, reading gives the value. -/
def Restores (read : Nat → Json → Option α) (j : Json) (a : α) : Prop :=
  ∀ left, read left j = if j.nesting ≤ left then some a else none

theorem nesting_single (name : String) (payload : Json) :
    (ofEntries [(name, payload)]).nesting = payload.nesting + 1 := by
  simp only [ofEntries, List.map_cons, List.map_nil, nesting, nestingEntries, Nat.max_zero]

/-- An alternative that carries something takes one level more than what it carries. -/
theorem Restores.wrap {β : Type} {read : Nat → Json → Option α} {read' : Nat → Json → Option β}
    {payload : Json} {a : α} {name : String} {f : α → β} (restores : Restores read payload a)
    (outside : read' 0 (ofEntries [(name, payload)]) = none)
    (inside : ∀ left, read' (left + 1) (ofEntries [(name, payload)]) =
      (read left payload).map f) :
    Restores read' (ofEntries [(name, payload)]) (f a) := by
  intro left
  rw [nesting_single]
  cases left with
  | zero => exact outside
  | succ left =>
    rw [inside, restores left]
    by_cases fits : payload.nesting ≤ left
    · rw [if_pos fits, if_pos (Nat.succ_le_succ fits)]
      rfl
    · rw [if_neg fits, if_neg (fun h => fits (Nat.le_of_succ_le_succ h))]
      rfl

/-- What needs no level at all is read within any number of them. -/
theorem restores_flat {read : Nat → Json → Option α} {j : Json} {a : α} (flat : j.nesting = 0)
    (h : ∀ left, read left j = some a) : Restores read j a := by
  intro left
  rw [flat, if_pos (Nat.zero_le left)]
  exact h left

theorem string?_restores (s : String) : Restores (fun _ => string?) (ofString s) s :=
  restores_flat rfl fun _ => congrArg some String.ofList_toList

theorem nat?_ofNat {bound n : Nat} (small : n < bound) : (ofNat n).nat? bound = some n := by
  have read : Decimal.readDigits (Nat.toDigits 10 n) = some n := Decimal.readDigits_digits n
  rw [ofNat, nat?, read, Option.filter_some, if_pos (decide_eq_true small)]

theorem nestingItems_le_iff {items : List Json} {n : Nat} :
    nestingItems items ≤ n ↔ ∀ item ∈ items, item.nesting ≤ n := by
  induction items with
  | nil => simp [nestingItems]
  | cons item rest ih => rw [nestingItems, Nat.max_le, ih, List.forall_mem_cons]

theorem nesting_ofEntries_le {entries : List (String × Json)} {n : Nat} :
    (ofEntries entries).nesting ≤ n + 1 ↔ ∀ entry ∈ entries, entry.2.nesting ≤ n := by
  rw [ofEntries, nesting, Nat.add_le_add_iff_right]
  induction entries with
  | nil => simp [nestingEntries]
  | cons entry rest ih => rw [List.map_cons, nestingEntries, Nat.max_le, ih, List.forall_mem_cons]

/-- An array is read if each of its items is. -/
theorem mapM_restores {read : Nat → Json → Option α} {write : α → Json} {items : List α}
    (each : ∀ item ∈ items, Restores read (write item) item) (left : Nat) :
    (items.map write).mapM (read left) =
      if nestingItems (items.map write) ≤ left then some items else none := by
  induction items with
  | nil => rfl
  | cons item rest ih =>
    obtain ⟨first, others⟩ := List.forall_mem_cons.1 each
    rw [List.map_cons, List.mapM_cons, first left, ih others, nestingItems]
    by_cases here : (write item).nesting ≤ left
    · by_cases there : nestingItems (rest.map write) ≤ left
      · rw [if_pos here, if_pos there, if_pos (Nat.max_le.2 ⟨here, there⟩)]
        rfl
      · rw [if_pos here, if_neg there, if_neg (fun h => there (Nat.max_le.1 h).2)]
        rfl
    · rw [if_neg here, if_neg (fun h => here (Nat.max_le.1 h).1)]
      rfl

theorem nesting_strings (names : List String) : (array (names.map ofString)).nesting = 1 := by
  have flat : nestingItems (names.map ofString) ≤ 0 := by
    apply nestingItems_le_iff.2
    intro item mem
    obtain ⟨name, -, rfl⟩ := List.mem_map.1 mem
    exact Nat.le_refl 0
  rw [nesting, Nat.le_zero.1 flat]

theorem strings?_restores (names : List String) :
    Restores strings? (array (names.map ofString)) names := by
  intro left
  have items := mapM_restores (fun name (_ : name ∈ names) => string?_restores name) left
  have flat := nesting_strings names
  rw [nesting, Nat.add_eq_right] at flat
  rw [flat, if_pos (Nat.zero_le left)] at items
  rw [strings?, items?, items, nesting, flat]
  rfl

/-- A value that may be missing is read back if nothing that is written looks like `null`. -/
theorem optional?_hintJson {read : Json → Option α} {write : α → Json}
    (restores : ∀ x, read (write x) = some x) (written : ∀ x, write x ≠ null) (x : Option α) :
    optional? read (some (Format.hintJson write x)) = some x := by
  cases x with
  | none => rfl
  | some x =>
    have present : optional? read (some (write x)) = (read (write x)).map some := by
      rw [optional?]
      intro isNull
      exact written x isNull
    rw [Format.hintJson, present, restores]
    rfl

theorem alternative_single (name : String) (payload : Json) :
    (ofEntries [(name, payload)]).alternative = some (name.toList, some payload) := rfl

end Json

section

open Json

/-! ## Types, kinds and formats -/

theorem Ty.ofJson?_restores (ty : Ty) : Restores Ty.ofJson? ty.toJson ty := by
  induction ty with
  | primitive p =>
    apply restores_flat rfl
    have tag : Ty.ofTag? p.tag.toList = some (primitive p) := by cases p <;> decide
    rintro (_ | left) <;> exact tag
  | value =>
    apply restores_flat rfl
    rintro (_ | left) <;> rfl
  | list item ih => exact ih.wrap rfl fun left => by simp [ofJson?, alternative_single]
  | option inner ih => exact ih.wrap rfl fun left => by simp [ofJson?, alternative_single]
  | named name =>
    exact (string?_restores name).wrap rfl fun left => by simp [ofJson?, alternative_single]
  | custom kind =>
    exact (string?_restores kind).wrap rfl fun left => by simp [ofJson?, alternative_single]

theorem Kind.ofJson?_restores (kind : Kind) : Restores Kind.ofJson? kind.toJson kind := by
  cases kind with
  | primitive p =>
    apply restores_flat rfl
    intro left
    rw [toJson, ofJson?]
    simp only [ofString, alternative, Primitive.ofTag?_tag, Option.map_some]
  | custom name =>
    exact (string?_restores name).wrap (by simp [ofJson?, alternative_single])
      fun left => by simp [ofJson?, alternative_single]

theorem Align.ofJson?_toJson (left : Nat) (align : Align) :
    ofJson? left align.toJson = some align := by
  cases align <;> rfl

theorem Cardinality.ofJson?_toJson (left : Nat) (cardinality : Cardinality) :
    ofJson? left cardinality.toJson = some cardinality := by
  cases cardinality <;> rfl

theorem Format.word?_ofNat (n : UInt32) : word? (.ofNat n.toNat) = some n := by
  rw [word?, nat?_ofNat n.toNat_lt, Option.map_some, UInt32.ofNat_toNat]

theorem Format.nesting_toJson (f : Format) : f.toJson.nesting = 1 := by
  obtain ⟨size, maxOccurs, align⟩ := f
  cases size <;> cases maxOccurs <;> rcases align with _ | _ | _ <;> rfl

theorem Format.ofJson?_restores (f : Format) : Restores Format.ofJson? f.toJson f := by
  intro left
  rw [nesting_toJson]
  cases left with
  | zero => rfl
  | succ left =>
    have word (x : Option UInt32) :
        optional? word? (some (hintJson (fun n => .ofNat n.toNat) x)) = some x :=
      optional?_hintJson word?_ofNat (fun _ => nofun) x
    have align : optional? (Align.ofJson? left) (some (hintJson Align.toJson f.align)) =
        some f.align :=
      optional?_hintJson (Align.ofJson?_toJson left) (fun a => by cases a <;> nofun) _
    rw [ofJson?, toJson, fields_ofEntries (by simp)]
    simp [List.lookup_cons, word, align]

/-! ## Nodes -/

/-- The fields of a node are found by their names, the skipped names if there are any. -/
theorem Node.fields_toJson (n : Node) (shape : Json) :
    (n.toJson shape).fields keys 6 =
      some [some (.ofString n.name), some n.element.toJson, some n.cardinality.toJson,
        some (.bool n.optional), some n.format.toJson, some shape,
        if n.skipped.isEmpty then none else some (.array (n.skipped.map .ofString))] := by
  rw [toJson, fields_ofEntries]
  · cases n.skipped.isEmpty <;> simp [keys, List.lookup_cons]
  · cases n.skipped.isEmpty <;> simp

theorem Node.nesting_toJson_le (n : Node) (shape : Json) (left : Nat) :
    (n.toJson shape).nesting ≤ left + 1 ↔
      n.element.toJson.nesting ≤ left ∧ 1 ≤ left ∧ shape.nesting ≤ left := by
  have cardinality : n.cardinality.toJson.nesting = 0 := by cases n.cardinality <;> rfl
  have name : (ofString n.name).nesting = 0 := rfl
  have optional : (Json.bool n.optional).nesting = 0 := rfl
  rw [toJson, nesting_ofEntries_le]
  simp only [List.forall_mem_append, List.forall_mem_cons, name, cardinality, optional,
    Format.nesting_toJson, Nat.zero_le, true_and]
  cases n.skipped.isEmpty with
  | true => simp
  | false => simpa [nesting_strings] using fun _ (some : 1 ≤ left) _ => some

/-- A node is read within the levels of its item type and its formatting hints. -/
theorem Node.ofJson?_toJson (n : Node) (shape : Json) (left : Nat) :
    ofJson? left (n.toJson shape) =
      if n.element.toJson.nesting ≤ left ∧ 1 ≤ left then some (n, shape) else none := by
  have format := Format.ofJson?_restores n.format left
  have name : (ofString n.name).string? = some n.name := string?_restores n.name 0
  have optional : (Json.bool n.optional).bool? = some n.optional := rfl
  have element := Ty.ofJson?_restores n.element left
  have skipped := strings?_restores n.skipped left
  rw [Format.nesting_toJson] at format
  rw [nesting_strings] at skipped
  rw [ofJson?, fields_toJson]
  simp only [Option.bind_eq_bind, Option.bind_some, name, element, optional,
    Cardinality.ofJson?_toJson, format]
  by_cases fits : n.element.toJson.nesting ≤ left
  · by_cases enough : 1 ≤ left
    · rw [if_pos fits, if_pos enough, if_pos (And.intro fits enough)]
      rw [if_pos enough] at skipped
      simp only [Option.bind_some]
      cases missing : n.skipped.isEmpty with
      | true =>
        change some (({ n with skipped := [] } : Node), shape) = some (n, shape)
        rw [← List.isEmpty_iff.1 missing]
      | false =>
        simp only [Bool.false_eq_true, if_false, skipped]
        rfl
    · rw [if_pos fits, if_neg enough, if_neg fun h : _ ∧ _ => enough h.2]
      rfl
  · rw [if_neg fits, if_neg fun h : _ ∧ _ => fits h.1]
    rfl

/-! ## What is written -/

theorem Json.plain_single {name : String} {payload : Json} (plain : payload.Plain) :
    (ofEntries [(name, payload)]).Plain := by
  apply plain_ofEntries
  intro entry mem
  rw [List.mem_singleton.1 mem]
  exact plain

theorem Ty.plain_toJson (ty : Ty) : ty.toJson.Plain := by
  induction ty with
  | primitive | value => exact plain_ofString _
  | list _ ih | option _ ih => exact plain_single ih
  | named name | custom name => exact plain_single (plain_ofString name)

theorem Kind.plain_toJson (kind : Kind) : kind.toJson.Plain := by
  cases kind with
  | primitive => exact plain_ofString _
  | custom name => exact plain_single (plain_ofString name)

theorem Format.plain_hintJson {α : Type} {write : α → Json} (plain : ∀ x, (write x).Plain)
    (x : Option α) : (hintJson write x).Plain := by
  cases x with
  | none => exact .null
  | some x => exact plain x

theorem Format.plain_toJson (f : Format) : f.toJson.Plain := by
  have word (x : Option UInt32) : (hintJson (fun n => .ofNat n.toNat) x).Plain :=
    plain_hintJson (fun n => .nat n.toNat) x
  have align : (hintJson Align.toJson f.align).Plain :=
    plain_hintJson (fun a => by cases a <;> exact plain_ofString _) f.align
  apply plain_ofEntries
  simp only [List.forall_mem_cons, word, align, true_and]
  exact nofun

theorem Node.plain_toJson (n : Node) {shape : Json} (plain : shape.Plain) :
    (n.toJson shape).Plain := by
  have cardinality : n.cardinality.toJson.Plain := by
    cases n.cardinality <;> exact plain_ofString _
  have skipped : (Json.array (n.skipped.map .ofString)).Plain := by
    apply Plain.array
    intro j mem
    obtain ⟨name, -, rfl⟩ := List.mem_map.1 mem
    exact plain_ofString name
  apply plain_ofEntries
  simp only [List.forall_mem_append, List.forall_mem_cons, plain_ofString, Ty.plain_toJson,
    cardinality, Plain.bool, Format.plain_toJson, plain, true_and]
  constructor
  · exact nofun
  · split
    · exact nofun
    · intro entry mem
      rw [List.mem_singleton.1 mem]
      exact skipped

namespace Schema

/-! ## Shapes and schemas -/

/-- Reads the members of a record below a node with so many levels left. -/
def members? : Nat → Json → Option (List Schema)
  | left + 2 => items? (ofJson? left)
  | _ => fun _ => none

theorem ofJson?_succ (left : Nat) (j : Json) : ofJson? (left + 1) j =
    (Node.ofJson? left j).bind fun (node, shape) => ofShape? node left (members? left) shape := by
  rcases left with _ | _ | left <;> rfl

/-- A schema is read one level below its node. -/
theorem ofJson?_node {node : Node} {shape : Json} {s : Schema}
    (restores : Restores (fun left => ofShape? node left (members? left)) shape s) :
    Restores ofJson? (node.toJson shape) s := by
  intro left
  cases left with
  | zero => rfl
  | succ left =>
    have nesting := Node.nesting_toJson_le node shape left
    rw [ofJson?_succ, Node.ofJson?_toJson]
    have below : ofShape? node left (members? left) shape = _ := restores left
    by_cases outside : node.element.toJson.nesting ≤ left ∧ 1 ≤ left
    · rw [if_pos outside, Option.bind_some]
      simp only [below, nesting, outside, true_and]
    · rw [if_neg outside, if_neg]
      · rfl
      · intro fits
        obtain ⟨element, some, -⟩ := nesting.1 fits
        exact outside ⟨element, some⟩

theorem membersJson_eq_map (members : List Schema) : membersJson members = members.map toJson := by
  induction members with
  | nil => rfl
  | cons member rest ih => rw [membersJson, ih, List.map_cons]

theorem members?_restores {members : List Schema}
    (each : ∀ m ∈ members, Restores ofJson? m.toJson m) :
    Restores (fun left => members? (left + 1)) (array (membersJson members)) members := by
  intro left
  cases left with
  | zero => rfl
  | succ left =>
    have read : members? (left + 2) (array (membersJson members)) =
        (members.map toJson).mapM (ofJson? left) := by
      rw [membersJson_eq_map]
      rfl
    change members? (left + 2) _ = _
    rw [read, mapM_restores each, nesting, membersJson_eq_map]
    simp only [Nat.add_le_add_iff_right]

/-- Induction over a schema by its members. -/
theorem byMembers {P : Schema → Prop} (leaf : ∀ node kind, P (.leaf node kind))
    (record : ∀ node members, (∀ m ∈ members, P m) → P (.record node members)) (s : Schema) :
    P s := by
  apply @Schema.rec P (fun members => ∀ m ∈ members, P m) leaf record
  · exact nofun
  · intro member rest here others
    exact List.forall_mem_cons.2 ⟨here, others⟩

/-- A schema is read back within as many levels as its document nests, and only then. -/
theorem ofJson?_restores (s : Schema) : Restores ofJson? s.toJson s := by
  induction s using byMembers with
  | leaf node kind =>
    rw [toJson]
    apply ofJson?_node
    exact (Kind.ofJson?_restores kind).wrap rfl fun left => by simp [ofShape?, alternative_single]
  | record node members ih =>
    rw [toJson]
    apply ofJson?_node
    exact (members?_restores ih).wrap rfl fun left => by simp [ofShape?, alternative_single]

/-- All that is written of a schema are texts, natural numbers and what holds them. -/
theorem plain_toJson (s : Schema) : s.toJson.Plain := by
  induction s using byMembers with
  | leaf node kind =>
    rw [toJson]
    exact node.plain_toJson (plain_single kind.plain_toJson)
  | record node members ih =>
    rw [toJson, membersJson_eq_map]
    refine node.plain_toJson (plain_single (.array ?_))
    intro j mem
    obtain ⟨m, member, rfl⟩ := List.mem_map.1 mem
    exact ih m member

/-- A schema survives being written as JSON text and read back, exactly if its document nests no
deeper than is read. -/
theorem readJson?_printJson (s : Schema) :
    readJson? s.printJson = if s.toJson.nesting ≤ 127 then some s else none := by
  rw [readJson?, printJson, s.plain_toJson.read?_indented]
  exact ofJson?_restores s maxNesting

end Schema

end

end Slotform
