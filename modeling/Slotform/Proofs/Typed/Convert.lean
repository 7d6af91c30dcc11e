import Mathlib.Data.List.Nodup
import Slotform.Proofs.Success
import Slotform.Typed.Convert

namespace Slotform

/-! ## Values with entries in another order -/

/-- The second value is the first one with the entries of records in another order, at any
depth. -/
inductive Value.Permuted : Value → Value → Prop where
  | refl (v : Value) : Permuted v v
  | list {xs ys : List Value} : List.Forall₂ Permuted xs ys → Permuted (.list xs) (.list ys)
  | present {v w : Value} : Permuted v w → Permuted (.present v) (.present w)
  | record {xs ys zs : List (String × Value)} : xs.map Prod.fst = ys.map Prod.fst →
      List.Forall₂ (fun e f => Permuted e.2 f.2) xs ys → ys.Perm zs →
      Permuted (.record xs) (.record zs)

namespace Value

variable {v w : Value} {entries : List (String × Value)}

theorem Permuted.of_list {items : List Value} (h : (Value.list items).Permuted v) :
    ∃ items', v = .list items' ∧ List.Forall₂ Permuted items items' := by
  cases h with
  | refl => exact ⟨items, rfl, List.forall₂_same.2 fun v _ => .refl v⟩
  | list each => exact ⟨_, rfl, each⟩

theorem Permuted.of_present (h : (Value.present w).Permuted v) :
    ∃ w', v = .present w' ∧ w.Permuted w' := by
  cases h with
  | refl => exact ⟨w, rfl, .refl w⟩
  | present inner => exact ⟨_, rfl, inner⟩

/-- The entries of a permuted record have the same names, and each entry has its counterpart. -/
theorem Permuted.of_record (h : (Value.record entries).Permuted v) :
    ∃ entries', v = .record entries' ∧ (entries.map Prod.fst).Perm (entries'.map Prod.fst) ∧
      ∀ e ∈ entries, ∃ w, (e.1, w) ∈ entries' ∧ e.2.Permuted w := by
  cases h with
  | refl => exact ⟨entries, rfl, .refl _, fun e he => ⟨e.2, he, .refl e.2⟩⟩
  | @record _ ys zs names each order =>
    refine ⟨zs, rfl, names ▸ order.map Prod.fst, fun e he => ?_⟩
    have counterpart : ∃ w, (e.1, w) ∈ ys ∧ e.2.Permuted w := by
      clear order
      induction each with
      | nil => cases he
      | @cons first first' rest rest' same _ ih =>
        obtain ⟨name, others⟩ := List.cons.inj names
        rcases List.mem_cons.1 he with rfl | he
        · exact ⟨first'.2, by rw [name]; exact List.mem_cons_self, same⟩
        · obtain ⟨w, entry, permuted⟩ := ih others he
          exact ⟨w, List.mem_cons_of_mem _ entry, permuted⟩
    obtain ⟨w, entry, permuted⟩ := counterpart
    exact ⟨w, order.mem_iff.1 entry, permuted⟩

end Value

namespace Typed

theorem Member.presence_of_skipped {m : Member} (skipped : m.isSkipped = true) :
    ∃ fallback, m.presence = .skipped fallback := by
  unfold Member.isSkipped at skipped
  cases presence : m.presence with
  | skipped fallback => exact ⟨fallback, rfl⟩
  | _ => simp [presence, Presence.isSkipped] at skipped

theorem Member.presence_of_kept {m : Member} (isKept : m.isSkipped = false) :
    m.presence = .required ∨ ∃ fallback, m.presence = .defaulted fallback := by
  unfold Member.isSkipped at isKept
  cases presence : m.presence with
  | skipped => simp [presence, Presence.isSkipped] at isKept
  | required => exact .inl rfl
  | defaulted fallback => exact .inr ⟨fallback, rfl⟩

namespace Catalog

variable {catalog : Catalog} {allowed : Align → Atom → Prop} {members : List Member}
  {fields : List Datum} {model : Model} {owner : Owner}

/-- The data of a model. A record has a datum for each member, of which a skipped one may hold
anything, and an enumeration the numbers of its variants. Each atom, and each variant by its name,
satisfies a condition at the side where slots of its member have their texts. -/
inductive Inhabits (catalog : Catalog) (allowed : Align → Atom → Prop) :
    Align → Model → Datum → Prop where
  | atom {align : Align} {a : Atom} : allowed align a →
      Inhabits catalog allowed align (.primitive a.primitive) (.atom a)
  | list {align : Align} {item : Model} {items : List Datum} :
      (∀ d ∈ items, Inhabits catalog allowed align item d) →
      Inhabits catalog allowed align (.list item) (.list items)
  | absent {align : Align} {inner : Model} : Inhabits catalog allowed align (.option inner) .absent
  | present {align : Align} {inner : Model} {d : Datum} :
      Inhabits catalog allowed align inner d →
      Inhabits catalog allowed align (.option inner) (.present d)
  | record {align : Align} {owner : Owner} {typeName : String} {members : List Member}
      {fields : List Datum} : catalog.shape? owner = some (.record typeName members) →
      fields.length = members.length →
      (∀ m d, (m, d) ∈ members.zip fields → m.isSkipped = false →
        Inhabits catalog allowed (m.format.align.getD .left) m.model d) →
      Inhabits catalog allowed align (.declared owner) (.record fields)
  | variant {align : Align} {owner : Owner} {kind : Option String} {variants : List String}
      {index : Nat} : catalog.shape? owner = some (.enumeration kind variants) →
      index < variants.length → allowed align (.string (variants.getD index "")) →
      Inhabits catalog allowed align (.declared owner) (.variant index)

theorem Inhabits.mono {more : Align → Atom → Prop} {align : Align} {x : Datum}
    (h : catalog.Inhabits allowed align model x) (imp : ∀ side a, allowed side a → more side a) :
    catalog.Inhabits more align model x := by
  induction h with
  | atom admitted => exact .atom (imp _ _ admitted)
  | list _ ih => exact .list ih
  | absent => exact .absent
  | present _ ih => exact .present ih
  | record declared length _ ih => exact .record declared length ih
  | variant declared bound admitted => exact .variant declared bound (imp _ _ admitted)

/-- Data for the members of a record, one after the other, are a datum of its type. -/
theorem Inhabits.of_fields {align : Align} {owner : Owner} {typeName : String}
    {members : List Member} {fields : List Datum}
    (declared : catalog.shape? owner = some (.record typeName members))
    (each : List.Forall₂ (fun m d => m.isSkipped = false →
      catalog.Inhabits allowed (m.format.align.getD .left) m.model d) members fields) :
    catalog.Inhabits allowed align (.declared owner) (.record fields) :=
  .record declared each.length_eq.symm fun _ _ pair => (List.forall₂_iff_zip.1 each).2 pair

def Has (catalog : Catalog) (model : Model) (datum : Datum) : Prop :=
  catalog.Inhabits (fun _ _ => True) .left model datum

mutual

/-- The datum with all skipped members at their defaults. -/
def restored (catalog : Catalog) : Model → Datum → Datum
  | .list item, .list items => .list (restoredItems catalog item items)
  | .option inner, .present datum => .present (restored catalog inner datum)
  | .declared owner, .record fields =>
    match catalog.shape? owner with
    | some (.record _ members) => .record (restoredFields catalog members fields)
    | _ => .record fields
  | _, datum => datum

def restoredItems (catalog : Catalog) (item : Model) : List Datum → List Datum
  | [] => []
  | datum :: rest => restored catalog item datum :: restoredItems catalog item rest

def restoredFields (catalog : Catalog) : List Member → List Datum → List Datum
  | m :: members, datum :: rest =>
    let kept := match m.presence with
      | .skipped fallback => fallback
      | _ => restored catalog m.model datum
    kept :: restoredFields catalog members rest
  | _, _ => []

end

/-! ## Names that tell parts apart -/

/-- A model refers to the declared type, be it through kept members of records. -/
inductive Reaches (catalog : Catalog) : Model → Owner → Prop where
  | here {model : Model} {owner : Owner} : model.declared? = some owner →
      Reaches catalog model owner
  | member {model : Model} {outer owner : Owner} {typeName : String} {members : List Member}
      {m : Member} : model.declared? = some outer →
      catalog.shape? outer = some (.record typeName members) → m ∈ members →
      m.isSkipped = false → Reaches catalog m.model owner → Reaches catalog model owner

theorem Reaches.list {item : Model} (h : catalog.Reaches item owner) :
    catalog.Reaches (.list item) owner := by
  cases h with
  | here h => exact .here h
  | member refers shape hm isKept further => exact .member refers shape hm isKept further

theorem Reaches.option {inner : Model} (h : catalog.Reaches inner owner) :
    catalog.Reaches (.option inner) owner := by
  cases h with
  | here h => exact .here h
  | member refers shape hm isKept further => exact .member refers shape hm isKept further

/-- The kept members of a record have distinct names, and so have the variants of an
enumeration. -/
structure Unambiguous (catalog : Catalog) (owner : Owner) : Prop where
  members : ∀ typeName members, catalog.shape? owner = some (.record typeName members) →
    ((kept members).map (·.name)).Nodup
  variants : ∀ kind variants, catalog.shape? owner = some (.enumeration kind variants) →
    variants.Nodup

/-! ## Entries -/

theorem kept_cons_of_skipped {m : Member} (skipped : m.isSkipped = true) :
    kept (m :: members) = kept members := by
  simp [kept, skipped]

theorem kept_cons_of_kept {m : Member} (isKept : m.isSkipped = false) :
    kept (m :: members) = m :: kept members := by
  simp [kept, isKept]

theorem mem_kept {m : Member} : m ∈ kept members ↔ m ∈ members ∧ m.isSkipped = false := by
  simp [kept]

theorem toValues_eq_map (item : Model) (items : List Datum) :
    catalog.toValues item items = items.map (catalog.toValue item) := by
  induction items with
  | nil => rfl
  | cons d rest ih => rw [toValues, ih, List.map_cons]

/-- The entries of a record stand under the names of its kept members, in their order. -/
theorem names_toEntries (length : fields.length = members.length) :
    (catalog.toEntries members fields).map Prod.fst = (kept members).map (·.name) := by
  induction members generalizing fields with
  | nil => cases fields <;> rfl
  | cons m rest ih =>
    cases fields with
    | nil => cases length
    | cons d fields =>
      have others := ih (Nat.succ.inj length)
      rw [toEntries]
      cases skipped : m.isSkipped with
      | true => rw [if_pos rfl, kept_cons_of_skipped skipped, others]
      | false =>
        rw [if_neg Bool.false_ne_true, kept_cons_of_kept skipped, List.map_cons, List.map_cons,
          others]

theorem mem_toEntries {name : String} {v : Value} (h : (name, v) ∈ catalog.toEntries members fields) :
    ∃ m d, (m, d) ∈ members.zip fields ∧ m.isSkipped = false ∧ m.name = name ∧
      catalog.toValue m.model d = v := by
  induction members generalizing fields with
  | nil => cases fields <;> cases h
  | cons m rest ih =>
    cases fields with
    | nil => cases h
    | cons d fields =>
      have later (h : (name, v) ∈ catalog.toEntries rest fields) :
          ∃ n e, (n, e) ∈ (m :: rest).zip (d :: fields) ∧ n.isSkipped = false ∧ n.name = name ∧
            catalog.toValue n.model e = v := by
        obtain ⟨n, e, pair, found⟩ := ih h
        exact ⟨n, e, List.mem_cons_of_mem _ pair, found⟩
      rw [toEntries] at h
      cases skipped : m.isSkipped with
      | true =>
        rw [skipped, if_pos rfl] at h
        exact later h
      | false =>
        rw [skipped, if_neg Bool.false_ne_true] at h
        rcases List.mem_cons.1 h with same | h
        · cases same
          exact ⟨m, d, List.mem_cons_self, skipped, rfl, rfl⟩
        · exact later h

theorem toEntries_mem {m : Member} {d : Datum} (pair : (m, d) ∈ members.zip fields)
    (isKept : m.isSkipped = false) :
    (m.name, catalog.toValue m.model d) ∈ catalog.toEntries members fields := by
  induction members generalizing fields with
  | nil => cases pair
  | cons n rest ih =>
    cases fields with
    | nil => cases pair
    | cons e fields =>
      rw [toEntries]
      rcases List.mem_cons.1 pair with same | pair
      · cases same
        rw [isKept, if_neg Bool.false_ne_true]
        exact List.mem_cons_self
      · split
        · exact ih pair
        · exact List.mem_cons_of_mem _ (ih pair)

/-- Entries belong to the one kept member of their name. -/
theorem memberModel?_of_mem (distinct : ((kept members).map (·.name)).Nodup) {m : Member}
    (hm : m ∈ kept members) : memberModel? members m.name = some m.model := by
  have found : (kept members).find? (·.name == m.name) = some m := by
    obtain ⟨n, found⟩ := Option.isSome_iff_exists.1
      (List.find?_isSome.2 ⟨m, hm, beq_self_eq_true m.name⟩ :
        ((kept members).find? (·.name == m.name)).isSome = true)
    have same := List.inj_on_of_nodup_map distinct (List.mem_of_find?_eq_some found) hm
      (by simpa using List.find?_some found)
    rw [found, same]
  rw [memberModel?, found]
  rfl

theorem unknown?_eq_none {names : List String} {entries : List (String × Value)}
    (known : ∀ name ∈ entries.map Prod.fst, name ∈ names) : unknown? names entries = none := by
  rw [unknown?, List.find?_eq_none]
  intro name hname
  simpa using known name hname

/-- Entries that all belong to members are all converted. -/
theorem names_ofEntries (distinct : ((kept members).map (·.name)).Nodup)
    {entries : List (String × Value)}
    (known : ∀ name ∈ entries.map Prod.fst, name ∈ (kept members).map (·.name)) :
    (catalog.ofEntries members entries).map Prod.fst = entries.map Prod.fst := by
  induction entries with
  | nil => rfl
  | cons e rest ih =>
    obtain ⟨m, hm, same⟩ := List.mem_map.1 (known e.1 List.mem_cons_self)
    have others := ih fun name hname => known name (List.mem_cons_of_mem _ hname)
    rw [ofEntries, ← same, memberModel?_of_mem distinct hm, List.map_cons, List.map_cons, others,
      same]

theorem mem_ofEntries {entries : List (String × Value)} {name : String} {v : Value}
    (entry : (name, v) ∈ entries) (found : memberModel? members name = some model) :
    (name, catalog.ofValue model v) ∈ catalog.ofEntries members entries := by
  induction entries with
  | nil => cases entry
  | cons e rest ih =>
    rcases List.mem_cons.1 entry with rfl | entry
    · rw [ofEntries, found]
      exact List.mem_cons_self
    · rw [ofEntries]
      split
      · exact List.mem_cons_of_mem _ (ih entry)
      · exact ih entry

/-- What a member takes from the conversion of its entry, if there is one. -/
def taken (m : Member) (found : Option (Except ConversionError Datum)) :
    Except ConversionError Datum :=
  match m.presence, found with
  | .skipped fallback, _ => .ok fallback
  | _, some (.ok datum) => .ok datum
  | _, some (.error e) => .error (.fieldError m.name e)
  | .defaulted fallback, none => .ok fallback
  | .required, none => .error (.missingField m.name)

theorem collect_cons_ok {converted : List (String × Except ConversionError Datum)}
    {earlier : List String} {m : Member} {data : List Datum} :
    collect converted earlier (m :: members) = .ok data ↔ ∃ datum more,
      taken m (if earlier.contains m.name then none else converted.reverse.lookup m.name) =
        .ok datum ∧
      collect converted (if m.isSkipped then earlier else m.name :: earlier) members = .ok more ∧
      data = datum :: more := by
  rw [collect]
  unfold taken
  generalize (if earlier.contains m.name then none else converted.reverse.lookup m.name) = found
  dsimp only
  cases m.presence <;> rcases found with _ | (_ | _) <;> simp [@eq_comm _ data]

theorem taken_of_skipped {m : Member} (skipped : m.isSkipped = true)
    (found found' : Option (Except ConversionError Datum)) : taken m found = taken m found' := by
  obtain ⟨_, presence⟩ := m.presence_of_skipped skipped
  simp [taken, presence]

/-- Where the kept members have distinct names, each of them finds the entry of its name. -/
theorem collect_ok {converted : List (String × Except ConversionError Datum)}
    (distinct : ((kept members).map (·.name)).Nodup) {earlier : List String}
    (fresh : ∀ m ∈ kept members, m.name ∉ earlier) {data : List Datum} :
    collect converted earlier members = .ok data ↔
      List.Forall₂ (fun m d => taken m (converted.reverse.lookup m.name) = .ok d) members data := by
  induction members generalizing earlier data with
  | nil => simp [collect, eq_comm]
  | cons m rest ih =>
    have first : taken m (if earlier.contains m.name then none else
        converted.reverse.lookup m.name) = taken m (converted.reverse.lookup m.name) := by
      cases skipped : m.isSkipped with
      | true => exact taken_of_skipped skipped _ _
      | false =>
        have isFresh := fresh m (mem_kept.2 ⟨List.mem_cons_self, skipped⟩)
        rw [if_neg (by simpa using isFresh)]
    have others (data : List Datum) :
        collect converted (if m.isSkipped then earlier else m.name :: earlier) rest = .ok data ↔
          List.Forall₂ (fun m d => taken m (converted.reverse.lookup m.name) = .ok d) rest data := by
      cases skipped : m.isSkipped with
      | true =>
        rw [kept_cons_of_skipped skipped] at distinct fresh
        exact ih distinct fresh
      | false =>
        rw [kept_cons_of_kept skipped] at distinct fresh
        rw [List.map_cons, List.nodup_cons] at distinct
        refine ih distinct.2 fun n hn again => ?_
        rcases List.mem_cons.1 again with same | again
        · exact distinct.1 (List.mem_map.2 ⟨n, hn, same⟩)
        · exact fresh n (List.mem_cons_of_mem _ hn) again
    simp only [collect_cons_ok, first, others, List.forall₂_cons_left_iff]

/-! ## The way back -/

/-- What is converted to a declared type is a record of known entries, or the name of a variant. -/
theorem ofValue_declared_ok {v : Value} {x : Datum} :
    catalog.ofValue (.declared owner) v = .ok x ↔
      (∃ typeName members entries fields, catalog.shape? owner = some (.record typeName members) ∧
        v = .record entries ∧ unknown? ((kept members).map (·.name)) entries = none ∧
        collect (catalog.ofEntries members entries) [] members = .ok fields ∧
        x = .record fields) ∨
      ∃ kind variants name index, catalog.shape? owner = some (.enumeration kind variants) ∧
        v = .atom (.string name) ∧ variants.findIdx? (· == name) = some index ∧
        x = .variant index := by
  unfold ofValue
  cases shape : catalog.shape? owner with
  | none => simp
  | some declared =>
    cases declared with
    | record typeName members =>
      cases v with
      | record entries =>
        dsimp only
        cases unknown : unknown? ((kept members).map (·.name)) entries <;>
          simp [unknown, @eq_comm _ x]
      | _ => simp
    | enumeration kind variants =>
      cases v with
      | atom a =>
        cases a with
        | string name =>
          dsimp only
          cases found : variants.findIdx? (· == name) <;> simp [found, @eq_comm _ x]
        | _ => simp
      | _ => simp

/-- The datum of a member of a record: a skipped one holds its default, any other what its entry is
converted to. -/
def Receives (catalog : Catalog) (entries : List (String × Value)) (m : Member) (d : Datum) :
    Prop :=
  match m.presence with
  | .skipped fallback => d = fallback
  | _ => ∃ v, (m.name, v) ∈ entries ∧ catalog.ofValue m.model v = .ok d

theorem receives_of_kept {entries : List (String × Value)} {m : Member} {d : Datum}
    (isKept : m.isSkipped = false) : catalog.Receives entries m d ↔
      ∃ v, (m.name, v) ∈ entries ∧ catalog.ofValue m.model v = .ok d := by
  unfold Receives
  rcases m.presence_of_kept isKept with presence | ⟨_, presence⟩ <;> rw [presence]

theorem taken_eq_ok {m : Member} {c : Except ConversionError Datum} {d : Datum}
    (isKept : m.isSkipped = false) : taken m (some c) = .ok d ↔ c = .ok d := by
  unfold taken
  rcases m.presence_of_kept isKept with presence | ⟨_, presence⟩ <;>
    cases c <;> simp [presence]

/-- A record comes from one entry for each kept member, in any order. -/
theorem ofValue_record_ok {typeName : String}
    (declared : catalog.shape? owner = some (.record typeName members))
    (distinct : ((kept members).map (·.name)).Nodup) {entries : List (String × Value)}
    (order : ((kept members).map (·.name)).Perm (entries.map Prod.fst)) {x : Datum} :
    catalog.ofValue (.declared owner) (.record entries) = .ok x ↔
      ∃ fields, List.Forall₂ (catalog.Receives entries) members fields ∧ x = .record fields := by
  have known : ∀ name ∈ entries.map Prod.fst, name ∈ (kept members).map (·.name) :=
    fun name hname => order.mem_iff.2 hname
  have nodup : (entries.map Prod.fst).Nodup := order.nodup_iff.1 distinct
  have reversed : ((catalog.ofEntries members entries).reverse.map Prod.fst).Nodup := by
    rw [List.map_reverse, List.nodup_reverse, names_ofEntries distinct known]
    exact nodup
  have each : ∀ m ∈ members, ∀ d,
      taken m ((catalog.ofEntries members entries).reverse.lookup m.name) = .ok d ↔
        catalog.Receives entries m d := by
    intro m hm d
    cases skipped : m.isSkipped with
    | true =>
      obtain ⟨_, presence⟩ := m.presence_of_skipped skipped
      simp [taken, Receives, presence, eq_comm]
    | false =>
      have hm := mem_kept.2 ⟨hm, skipped⟩
      have listed : m.name ∈ entries.map Prod.fst := order.mem_iff.1 (List.mem_map.2 ⟨m, hm, rfl⟩)
      obtain ⟨⟨name, v⟩, entry, rfl⟩ := List.mem_map.1 listed
      have found := (mem_entries_iff reversed).1
        (List.mem_reverse.2 (mem_ofEntries entry (memberModel?_of_mem distinct hm)))
      rw [found, taken_eq_ok skipped, receives_of_kept skipped]
      refine ⟨fun converted => ⟨v, entry, converted⟩, fun ⟨w, entry', converted⟩ => ?_⟩
      have same := ((mem_entries_iff nodup).1 entry').symm.trans ((mem_entries_iff nodup).1 entry)
      exact Option.some.inj same ▸ converted
  have collected (fields : List Datum) :
      collect (catalog.ofEntries members entries) [] members = .ok fields ↔
        List.Forall₂ (catalog.Receives entries) members fields :=
    (collect_ok distinct fun _ _ => List.not_mem_nil).trans
      ⟨fun all => forall₂_imp_mem all fun m hm d => (each m hm d).1,
        fun all => forall₂_imp_mem all fun m hm d => (each m hm d).2⟩
  rw [ofValue_declared_ok]
  constructor
  · rintro (⟨_, _, _, fields, found, ⟨⟩, _, all, rfl⟩ | ⟨_, _, _, _, _, ⟨⟩, _⟩)
    cases declared.symm.trans found
    exact ⟨fields, (collected fields).1 all, rfl⟩
  · rintro ⟨fields, all, rfl⟩
    exact .inl ⟨_, _, _, _, declared, rfl, unknown?_eq_none known, (collected fields).2 all, rfl⟩

/-- A property of all data that a record is restored with. -/
theorem forall₂_restoredFields {R : Member → Datum → Prop} (length : fields.length = members.length)
    (defaults : ∀ m fallback, m.presence = .skipped fallback → R m fallback)
    (each : ∀ m d, (m, d) ∈ members.zip fields → m.isSkipped = false →
      R m (catalog.restored m.model d)) :
    List.Forall₂ R members (catalog.restoredFields members fields) := by
  induction members generalizing fields with
  | nil => cases fields <;> exact .nil
  | cons m rest ih =>
    cases fields with
    | nil => cases length
    | cons d fields =>
      have others := ih (Nat.succ.inj length)
        fun n e pair => each n e (List.mem_cons_of_mem _ pair)
      have own := each m d List.mem_cons_self
      rw [restoredFields]
      refine .cons ?_ others
      cases presence : m.presence with
      | skipped fallback => exact defaults m fallback presence
      | _ => exact own (by simp [Member.isSkipped, presence, Presence.isSkipped])

theorem ofItems_ok {item : Model} {values : List Value} {data : List Datum} {index : Nat} :
    catalog.ofItems item index values = .ok data ↔
      List.Forall₂ (fun v d => catalog.ofValue item v = .ok d) values data := by
  induction values generalizing data index with
  | nil => simp [ofItems, eq_comm]
  | cons v rest ih =>
    simp only [ofItems, bind_eq_ok, mapError_eq_ok, ih, Except.ok.injEq]
    constructor
    · rintro ⟨d, first, data, others, rfl⟩
      exact .cons first others
    · rintro (_ | ⟨first, others⟩)
      exact ⟨_, first, _, others, rfl⟩

theorem restoredItems_eq_map (item : Model) (items : List Datum) :
    catalog.restoredItems item items = items.map (catalog.restored item) := by
  induction items with
  | nil => rfl
  | cons d rest ih => rw [restoredItems, ih, List.map_cons]

theorem findIdx?_getD {variants : List String} (distinct : variants.Nodup) {index : Nat}
    (declared : index < variants.length) :
    variants.findIdx? (· == variants.getD index "") = some index := by
  have own : variants.getD index "" = variants[index] := by simp [declared]
  rw [own, List.findIdx?_eq_some_iff_getElem]
  refine ⟨declared, beq_self_eq_true _, fun j earlier => ?_⟩
  have apart : variants[j] ≠ variants[index] := fun same =>
    absurd ((distinct.getElem_inj_iff).1 same) (Nat.ne_of_lt earlier)
  simpa using apart

/-- A datum comes back from its value with the entries of records in any order. -/
theorem ofValue_permuted {align : Align} {x : Datum} {v : Value}
    (h : catalog.Inhabits allowed align model x)
    (unambiguous : ∀ owner, catalog.Reaches model owner → catalog.Unambiguous owner)
    (permuted : (catalog.toValue model x).Permuted v) :
    catalog.ofValue model v = .ok (catalog.restored model x) := by
  induction h generalizing v with
  | @atom _ a _ =>
    cases permuted with
    | refl => exact if_pos rfl
  | @list _ item items _ ih =>
    rw [toValue, toValues_eq_map] at permuted
    obtain ⟨values, rfl, each⟩ := permuted.of_list
    have back : List.Forall₂ (fun v d => catalog.ofValue item v = .ok d) values
        (items.map (catalog.restored item)) := by
      rw [List.forall₂_map_left_iff] at each
      rw [List.forall₂_map_right_iff]
      exact (forall₂_imp_mem each fun d hd v same =>
        ih d hd (fun owner reached => unambiguous owner reached.list) same).flip
    rw [ofValue, ofItems_ok.2 back, restored, restoredItems_eq_map]
    rfl
  | absent =>
    cases permuted with
    | refl => rfl
  | @present _ inner d _ ih =>
    rw [toValue] at permuted
    obtain ⟨w, rfl, inside⟩ := permuted.of_present
    rw [ofValue, ih (fun owner reached => unambiguous owner reached.option) inside, restored]
    rfl
  | @record _ owner typeName members fields declared length _ ih =>
    have distinct := (unambiguous owner (.here rfl)).members _ _ declared
    have names : (catalog.toEntries members fields).map Prod.fst =
        (kept members).map (·.name) := names_toEntries length
    rw [toValue, declared] at permuted
    obtain ⟨entries, rfl, order, counterpart⟩ := permuted.of_record
    rw [names] at order
    rw [restored, declared]
    refine (ofValue_record_ok declared distinct order).2
      ⟨_, forall₂_restoredFields length (fun m fallback presence => ?_)
        (fun m d pair isKept => ?_), rfl⟩
    · simp [Receives, presence]
    · obtain ⟨w, entry, inside⟩ := counterpart _ (toEntries_mem pair isKept)
      exact (receives_of_kept isKept).2 ⟨w, entry, ih m d pair isKept (fun inner reached =>
        unambiguous inner (.member rfl declared (List.of_mem_zip pair).1 isKept reached)) inside⟩
  | @variant _ owner kind variants index declared bound admitted =>
    have value : catalog.toValue (.declared owner) (.variant index) =
        .atom (.string (variants.getD index "")) := by
      simp only [toValue, declared]
    rw [value] at permuted
    cases permuted with
    | refl =>
      have distinct := (unambiguous owner (.here rfl)).variants _ _ declared
      exact ofValue_declared_ok.2
        (.inr ⟨_, _, _, _, declared, rfl, findIdx?_getD distinct bound, rfl⟩)

theorem ofValue_toValue {align : Align} {x : Datum} (h : catalog.Inhabits allowed align model x)
    (unambiguous : ∀ owner, catalog.Reaches model owner → catalog.Unambiguous owner) :
    catalog.ofValue model (catalog.toValue model x) = .ok (catalog.restored model x) :=
  ofValue_permuted h unambiguous (.refl _)

end Catalog

end Typed

end Slotform
