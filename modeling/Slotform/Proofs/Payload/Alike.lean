import Slotform.Proofs.Payload.Conformance

/-!
# Values that are written alike

The payload of a record depends on its members alone. Two values are alike if, record by record,
they have the same entries in any order once the skipped fields are left out: if one of them has a
payload, the other one has the very same (`Factory.encode_alike`). So neither the order of entries
nor anything that stands under a skipped name shows in a payload, not even in a width.
-/

namespace Slotform

/-- No record in the value has two entries of one name. -/
inductive Value.Unrepeated : Value → Prop where
  | atom (a : Atom) : Unrepeated (.atom a)
  | list {items : List Value} : (∀ v ∈ items, v.Unrepeated) → Unrepeated (.list items)
  | absent : Unrepeated .absent
  | present {v : Value} : v.Unrepeated → Unrepeated (.present v)
  | record {entries : List (String × Value)} : (entries.map Prod.fst).Nodup →
      (∀ e ∈ entries, e.2.Unrepeated) → Unrepeated (.record entries)

namespace Schema

/-- The entries of a record without those of skipped fields. A name that a member has as well is
the member's. -/
def shown (node : Node) (members : List Schema) (entries : List (String × Value)) :
    List (String × Value) :=
  entries.filter fun e => members.any (·.name == e.1) || !node.skipped.contains e.1

mutual

/-- Two values of a schema differ in nothing but the order of record entries and the entries of
skipped fields. -/
inductive Alike : Schema → Value → Value → Prop where
  | refl (s : Schema) (v : Value) : Alike s v v
  | record {node : Node} {members : List Schema} {xs ys zs : List (String × Value)} :
      node.Bare → (shown node members xs).Perm zs → AlikeEntries members zs (shown node members ys) →
      Alike (.record node members) (.record xs) (.record ys)
  | list {s : Schema} {xs ys : List Value} : s.node.optional = false →
      s.node.isRepeated = true → AlikeItems s.item xs ys → Alike s (.list xs) (.list ys)
  | present {s : Schema} {v w : Value} : s.node.optional = true → Alike s.required v w →
      Alike s (.present v) (.present w)

/-- Entries with the same names in the same order. Under the name of a member they are alike, and
under any other name they are equal. -/
inductive AlikeEntries :
    List Schema → List (String × Value) → List (String × Value) → Prop where
  | nil {members : List Schema} : AlikeEntries members [] []
  | cons {members : List Schema} {name : String} {v w : Value} {xs ys : List (String × Value)} :
      (∀ m ∈ members, m.name = name → Alike m v w) → (name ∉ members.map Schema.name → v = w) →
      AlikeEntries members xs ys → AlikeEntries members ((name, v) :: xs) ((name, w) :: ys)

inductive AlikeItems : Schema → List Value → List Value → Prop where
  | nil {s : Schema} : AlikeItems s [] []
  | cons {s : Schema} {v w : Value} {xs ys : List Value} : Alike s v w → AlikeItems s xs ys →
      AlikeItems s (v :: xs) (w :: ys)

end

section Entries

variable {node : Node} {members : List Schema} {xs ys zs : List (String × Value)} {name : String}
  {v w : Value}

theorem mem_shown {e : String × Value} : e ∈ shown node members xs ↔
    e ∈ xs ∧ (e.1 ∈ members.map Schema.name ∨ e.1 ∉ node.skipped) := by
  simp [shown]

theorem AlikeEntries.mem (alike : AlikeEntries members xs ys) (h : (name, v) ∈ xs) :
    ∃ w, (name, w) ∈ ys ∧ ∀ m ∈ members, m.name = name → Alike m v w := by
  induction xs generalizing ys with
  | nil => cases h
  | cons x rest ih =>
    cases alike with
    | @cons _ _ _ w _ _ same _ others =>
      rcases List.mem_cons.1 h with h | h
      · cases h
        exact ⟨w, List.mem_cons_self, same⟩
      · obtain ⟨w, hw, same⟩ := ih others h
        exact ⟨w, List.mem_cons_of_mem _ hw, same⟩

theorem AlikeEntries.names (alike : AlikeEntries members xs ys) :
    xs.map Prod.fst = ys.map Prod.fst := by
  induction xs generalizing ys with
  | nil =>
    cases alike
    rfl
  | cons x rest ih =>
    cases alike with
    | cons _ _ others => rw [List.map_cons, List.map_cons, ih others]

/-- The same names are shown. -/
theorem AlikeEntries.mem_names (perm : (shown node members xs).Perm zs)
    (alike : AlikeEntries members zs (shown node members ys)) (hn : name ∈ ys.map Prod.fst) :
    name ∈ xs.map Prod.fst ∨ name ∈ node.skipped := by
  by_cases skipped : name ∈ node.skipped
  · exact .inr skipped
  · obtain ⟨e, he, named⟩ := List.mem_map.1 hn
    have seen : name ∈ (shown node members ys).map Prod.fst :=
      List.mem_map.2 ⟨e, mem_shown.2 ⟨he, .inr (named ▸ skipped)⟩, named⟩
    rw [← alike.names] at seen
    obtain ⟨e, he, named⟩ := List.mem_map.1 ((perm.map Prod.fst).mem_iff.2 seen)
    exact .inl (List.mem_map.2 ⟨e, (mem_shown.1 he).1, named⟩)

/-- What one record has under the name of a member the other one has too, in a like form. -/
theorem AlikeEntries.lookup (perm : (shown node members xs).Perm zs)
    (alike : AlikeEntries members zs (shown node members ys)) (nx : (xs.map Prod.fst).Nodup)
    (ny : (ys.map Prod.fst).Nodup) {m : Schema} (hm : m ∈ members)
    (found : xs.lookup m.name = some v) : ∃ w, ys.lookup m.name = some w ∧ Alike m v w := by
  have entry := (mem_entries_iff nx).2 found
  have listed := perm.mem_iff.1 (mem_shown.2 ⟨entry, .inl (List.mem_map_of_mem hm)⟩)
  obtain ⟨w, hw, same⟩ := alike.mem listed
  exact ⟨w, (mem_entries_iff ny).1 (mem_shown.1 hw).1, same m hm rfl⟩

end Entries

theorem shown_rendered (node : Node) (members : List Schema) (xs : List (String × Value)) :
    shown (node.rendered node.skipped) (renderedAll members) xs = shown node members xs := by
  refine List.filter_congr fun e _ => ?_
  have names : (renderedAll members).any (·.name == e.1) = members.any (·.name == e.1) := by
    simp [renderedAll_eq_map, List.any_map, Function.comp_def]
  rw [names]
  rfl

/-- Values are alike for the written form of their schema. -/
theorem Alike.rendered {s : Schema} {v w : Value} (h : s.Alike v w) : s.rendered.Alike v w := by
  induction s using byViews generalizing v w with
  | leaf node kind bare =>
    cases h with
    | refl => exact .refl _ _
    | list _ hr => exact absurd hr bare.not_repeated
    | present ho => exact absurd ho bare.not_optional
  | record node members bare ih =>
    have entries {xs ys : List (String × Value)} (alike : AlikeEntries members xs ys) :
        AlikeEntries (renderedAll members) xs ys := by
      induction xs generalizing ys with
      | nil =>
        cases alike
        exact .nil
      | cons x rest ihRest =>
        cases alike with
        | cons same other others =>
          rw [renderedAll_eq_map]
          refine .cons ?_ ?_ (renderedAll_eq_map members ▸ ihRest others)
          · intro m' hm' named
            obtain ⟨m, hm, rfl⟩ := List.mem_map.1 hm'
            exact ih m hm (same m hm ((name_rendered m).symm.trans named))
          · intro none
            exact other (by simpa using none)
    cases h with
    | refl => exact .refl _ _
    | record _ perm alike =>
      have perm' := perm
      rw [← shown_rendered] at perm'
      exact .record bare.rendered perm' (shown_rendered node members _ ▸ entries alike)
    | list _ hr => exact absurd hr bare.not_repeated
    | present ho => exact absurd ho bare.not_optional
  | repeated s ho hr ih =>
    have items {xs ys : List Value} (alike : AlikeItems s.item xs ys) :
        AlikeItems s.rendered.item xs ys := by
      induction xs generalizing ys with
      | nil =>
        cases alike
        exact .nil
      | cons x rest ihRest =>
        cases alike with
        | cons first others => exact .cons (s.item_rendered ▸ ih first) (ihRest others)
    cases h with
    | refl => exact .refl _ _
    | record bare => exact absurd hr bare.not_repeated
    | list _ _ all => exact .list (by simpa using ho) (by simpa using hr) (items all)
    | present h => cases ho.symm.trans h
  | optional s ho ih =>
    cases h with
    | refl => exact .refl _ _
    | record bare => exact absurd ho bare.not_optional
    | list h => cases h.symm.trans ho
    | present _ alike => exact .present (by simpa using ho) (s.required_rendered ▸ ih alike)

end Schema

namespace Mapper

variable {codecs : CodecTable}

/-- What is measured or written of one value is measured or written of another. -/
structure Covers (codecs : CodecTable) (s : Schema) (m : Mapper) (v w : Value) : Prop where
  measure : ∀ L grown, Shapes codecs s L → m.measure v L = (.ok (), grown) →
    m.measure w L = (.ok (), grown)
  write : ∀ L text, m.write v L = .ok text → m.write w L = .ok text

theorem Covers.refl {s : Schema} {m : Mapper} {v : Value} : Covers codecs s m v v :=
  ⟨fun _ _ _ h => h, fun _ _ h => h⟩

/-- A mapper takes alike values for one. -/
def TakesForOne (codecs : CodecTable) (s : Schema) (m : Mapper) : Prop :=
  ∀ v w, s.Alike v w → w.Unrepeated → Covers codecs s m v w

theorem takesForOne_leaf {node : Node} {kind : Kind} {codec : Codec} (bare : node.Bare) :
    TakesForOne codecs (.leaf node kind) (.leaf node kind codec) := by
  intro v w alike _
  cases alike with
  | refl => exact .refl
  | list _ hr => exact absurd hr bare.not_repeated
  | present ho => exact absurd ho bare.not_optional

/-- Member by member, the values that two records have are measured and written alike. -/
theorem covers_members {members : List Schema} {mappers : List Mapper}
    (covers : List.Forall₂ (fun s m => m.name = s.name ∧ TakesForOne codecs s m) members mappers)
    {xs ys : List (String × Value)}
    (alike : ∀ s ∈ members, ∀ v, xs.lookup s.name = some v →
      ∃ w, ys.lookup s.name = some w ∧ s.Alike v w ∧ w.Unrepeated)
    {values : List Value} (found : List.Forall₂ (fun name value => xs.lookup name = some value)
      (mappers.map name) values) :
    ∃ values', List.Forall₂ (fun name value => ys.lookup name = some value)
        (mappers.map name) values' ∧
      (∀ slots grown, List.Forall₂ (Shapes codecs) members slots →
        measureMembers mappers values slots = (.ok (), grown) →
        measureMembers mappers values' slots = (.ok (), grown)) ∧
      ∀ slots text, writeMembers mappers values slots = .ok text →
        writeMembers mappers values' slots = .ok text := by
  induction covers generalizing values with
  | nil =>
    cases found
    exact ⟨[], .nil, fun _ _ _ h => h, fun _ _ h => h⟩
  | cons first _ ih =>
    obtain ⟨name, covers⟩ := first
    rw [List.map_cons] at found
    cases found with
    | cons value found =>
      obtain ⟨w, value', same, unrepeated⟩ := alike _ List.mem_cons_self _ (name ▸ value)
      obtain ⟨values', found', measures, writes⟩ :=
        ih (fun s hs => alike s (List.mem_cons_of_mem _ hs)) found
      have covered := covers _ w same unrepeated
      exact ⟨w :: values', .cons (name ▸ value') found',
        fun _ _ => measureMembers_cons_in_place covered.measure measures,
        fun _ _ => writeMembers_cons_in_place covered.write writes⟩

theorem takesForOne_record {node : Node} {members : List Schema} {mappers : List Mapper}
    (bare : node.Bare)
    (covers : List.Forall₂ (fun s m => m.name = s.name ∧ TakesForOne codecs s m) members mappers) :
    TakesForOne codecs (.record node members) (.record node members mappers) := by
  intro v w alike unrepeated
  cases alike with
  | refl => exact .refl
  | list _ hr => exact absurd hr bare.not_repeated
  | present ho => exact absurd ho bare.not_optional
  | @record _ _ xs ys _ _ perm alike =>
    cases unrepeated with
    | record distinct inside =>
      have values_of {values : List Value}
          (known : recordValues node members (mappers.map name) (.record xs) = .ok values) :
          ∃ values', recordValues node members (mappers.map name) (.record ys) = .ok values' ∧
            (∀ slots grown, List.Forall₂ (Shapes codecs) members slots →
              measureMembers mappers values slots = (.ok (), grown) →
              measureMembers mappers values' slots = (.ok (), grown)) ∧
            ∀ slots text, writeMembers mappers values slots = .ok text →
              writeMembers mappers values' slots = .ok text := by
        obtain ⟨_, ⟨⟩, checked, found⟩ := recordValues_ok.1 known
        obtain ⟨nodup, _, names⟩ := checkEntries_ok.1 checked
        obtain ⟨values', found', same⟩ := covers_members covers (fun s hs v hv =>
          have ⟨w, hw, same⟩ := alike.lookup perm nodup distinct hs hv
          ⟨w, hw, same, inside _ ((mem_entries_iff distinct).2 hw)⟩) found
        refine ⟨values', recordValues_ok.2 ⟨ys, rfl, checkEntries_ok.2 ⟨distinct, by simp, ?_⟩,
          found'⟩, same⟩
        intro name hn
        rcases alike.mem_names perm hn with known | skipped
        · exact names name known
        · exact .inr skipped
      constructor
      · intro L grown shapes measured
        obtain ⟨slots, inner, rfl⟩ := (shapes_record bare).1 shapes
        have same : slots.length = mappers.length := inner.length_eq.symm.trans covers.length_eq
        obtain ⟨values, grown, known, each, rfl⟩ := (measure_record_ok same).1 measured
        obtain ⟨values', known', measures, _⟩ := values_of known
        exact (measure_record_ok same).2 ⟨values', grown, known', measures _ _ inner each, rfl⟩
      · intro L text written
        obtain ⟨slots, values, rfl, known, same, written⟩ := write_record_ok.1 written
        obtain ⟨values', known', _, writes⟩ := values_of known
        exact write_record_ok.2 ⟨slots, values', rfl, known', same, writes _ _ written⟩

theorem covers_items {s : Schema} {m : Mapper} (covers : TakesForOne codecs s m)
    {xs ys : List Value} (alike : Schema.AlikeItems s xs ys)
    (unrepeated : ∀ w ∈ ys, w.Unrepeated) : List.Forall₂ (Covers codecs s m) xs ys := by
  induction xs generalizing ys with
  | nil =>
    cases alike
    exact .nil
  | cons v rest ih =>
    cases alike with
    | @cons _ _ w _ ys first others =>
      exact .cons (covers v w first (unrepeated w List.mem_cons_self))
        (ih others fun w hw => unrepeated w (List.mem_cons_of_mem _ hw))

theorem takesForOne_repeated {s : Schema} {element : Mapper} (ho : s.node.optional = false)
    (hr : s.node.isRepeated = true) (keeps : KeepsShape codecs s.item element)
    (covers : TakesForOne codecs s.item element) :
    TakesForOne codecs s (.repeated s element) := by
  intro v w alike unrepeated
  cases alike with
  | refl => exact .refl
  | record bare => exact absurd hr bare.not_repeated
  | present h => cases ho.symm.trans h
  | list _ _ all =>
    cases unrepeated with
    | list inside =>
      have covered := covers_items covers all inside
      have length := covered.length_eq
      constructor
      · intro L grown shapes measured
        obtain ⟨slot, occurs, inner, fixed, rfl⟩ := (shapes_repeated ho hr).1 shapes
        obtain ⟨_, slot', ⟨⟩, few, each, rfl⟩ := (measure_repeated_ok fixed).1 measured
        rw [length] at few ⊢
        have each' := measureEach_in_place keeps (covered.imp fun _ _ h => h.measure) inner each
        exact (measure_repeated_ok fixed).2 ⟨_, slot', rfl, few, each', rfl⟩
      · intro L text written
        obtain ⟨occurs, slot, _, texts, rfl, ⟨⟩, few, each, small, rfl⟩ :=
          write_repeated_ok.1 written
        have each' := forall₂_in_place each (covered.imp fun _ _ h => h.write slot)
        rw [length] at few small ⊢
        exact write_repeated_ok.2 ⟨occurs, slot, _, texts, rfl, rfl, few, each', small, rfl⟩

theorem takesForOne_optional {s : Schema} {inner : Mapper} (ho : s.node.optional = true)
    (covers : TakesForOne codecs s.required inner) : TakesForOne codecs s (.optional s inner) := by
  intro v w alike unrepeated
  cases alike with
  | refl => exact .refl
  | record bare => exact absurd ho bare.not_optional
  | list h => cases h.symm.trans ho
  | present _ alike =>
    cases unrepeated with
    | present inside =>
      have covered := covers _ _ alike inside
      constructor
      · intro L grown shapes measured
        obtain ⟨slot, shape, rfl⟩ := (shapes_optional ho).1 shapes
        rcases measure_optional_ok.1 measured with ⟨⟨⟩, _⟩ | ⟨_, slot', ⟨⟩, once, rfl⟩
        exact measure_optional_ok.2 (.inr ⟨_, slot', rfl, covered.measure _ _ shape once, rfl⟩)
      · intro L text written
        obtain ⟨slot, rfl, ⟨⟨⟩, _⟩ | ⟨_, rest, ⟨⟩, once, rfl⟩⟩ := write_optional_ok.1 written
        exact write_optional_ok.2
          ⟨slot, rfl, .inr ⟨_, rest, rfl, covered.write _ _ once, rfl⟩⟩

theorem takesForOne {s : Schema} {m : Mapper} (assembled : codecs.assemble s = .ok m) :
    TakesForOne codecs s m :=
  byMeasuring (fun bare _ => takesForOne_leaf bare) takesForOne_record takesForOne_repeated
    takesForOne_optional assembled

theorem encode_covers {s : Schema} {m : Mapper} (assembled : codecs.assemble s = .ok m)
    {v w : Value} (alike : s.Alike v w) (unrepeated : w.Unrepeated) {t : List Char}
    (encoded : m.encode v = .ok t) : m.encode w = .ok t := by
  have covered := takesForOne assembled v w alike unrepeated
  exact encode_in_place encoded (covered.measure _ _ (layout_shapes assembled)) (fun _ h => h)
    (covered.write _)

end Mapper

namespace Factory

/-- Whatever codecs a factory has, values that are alike have the same payload. -/
theorem encode_alike {codecs : CodecTable} {past : List Schema} {s : Schema}
    (discerns : Fingerprint.Discerns (past ++ [s])) {kept : Kept Mapper}
    (accepted : ((after codecs past).create s).1 = .ok kept) {v w : Value} (alike : s.Alike v w)
    (unrepeated : w.Unrepeated) {t : List Char} (encoded : kept.value.encode v = .ok t) :
    kept.value.encode w = .ok t := by
  have assembled := create_rendered discerns accepted
  rw [← Mapper.encode_rendered] at encoded ⊢
  exact Mapper.encode_covers assembled alike.rendered unrepeated encoded

end Factory

namespace Sample

/-- Visitors with a badge in hexadecimal digits and a password that is not shown. -/
def visitors : Schema :=
  ((Schema.ofMembers "visitors" "visitor" [
    .ofKind "name" (.primitive .string),
    .ofKind "badge" (.custom "hex")]).withSkipped ["password"]).repeated

def hexCodecs : CodecTable := [("hex", .hex)]

def visitorsMapper : Mapper :=
  .repeated visitors (.record visitors.item.node visitors.members [
    .leaf (Schema.ofKind "name" (.primitive .string)).node (.primitive .string)
      (.ofPrimitive .string),
    .leaf (Schema.ofKind "badge" (.custom "hex")).node (.custom "hex") .hex])

theorem assemble_visitors : hexCodecs.assemble visitors = .ok visitorsMapper := rfl

theorem distinct_visitors : Fingerprint.Identifies ([] ++ [visitors]) := by decide +kernel

/-- A visitor in declared order, without the password. -/
def visitor : Value := .record [("name", .atom (.string "Ada")), ("badge", .atom (.u32 48879))]

/-- The same visitor in another order, with a password that is wider than all members. -/
def visitorWithPassword : Value := .record [
  ("badge", .atom (.u32 48879)), ("password", .list [.atom (.string "swordfish")]),
  ("name", .atom (.string "Ada"))]

theorem alike_visitors : visitors.Alike (.list [visitorWithPassword]) (.list [visitor]) := by
  refine .list rfl rfl (.cons (.record ⟨rfl, rfl⟩ (.swap _ _ _) ?_) .nil)
  exact .cons (fun _ _ _ => .refl _ _) (fun _ => rfl)
    (.cons (fun _ _ _ => .refl _ _) (fun _ => rfl) .nil)

end Sample

namespace Factory

theorem encode_alike_visitors :
    ∃ kept, ((after Sample.hexCodecs []).create Sample.visitors).1 = .ok kept ∧
      Fingerprint.Discerns ([] ++ [Sample.visitors]) ∧
      Sample.visitors.Alike (.list [Sample.visitorWithPassword]) (.list [Sample.visitor]) ∧
      Value.Unrepeated (.list [Sample.visitor]) ∧
      kept.value.encode (.list [Sample.visitorWithPassword]) =
        .ok "\x7bname:string(3);badge:hex(4)\x7d[1]1Adabeef".toList ∧
      kept.value.encode (.list [Sample.visitor]) =
        .ok "\x7bname:string(3);badge:hex(4)\x7d[1]1Adabeef".toList := by
  have distinct := Sample.distinct_visitors
  obtain ⟨kept, accepted, made⟩ := create_ok [] distinct Sample.assemble_visitors
  have encoded : kept.value.encode (.list [Sample.visitorWithPassword]) =
      .ok "\x7bname:string(3);badge:hex(4)\x7d[1]1Adabeef".toList := by
    rw [made]
    cbv
  have unrepeated : Value.Unrepeated (.list [Sample.visitor]) := by
    refine .list fun v hv => ?_
    cases List.mem_singleton.1 hv
    refine .record (by decide) fun e he => ?_
    simp only [List.mem_cons, List.not_mem_nil, or_false] at he
    rcases he with rfl | rfl <;> exact .atom _
  exact ⟨kept, accepted, distinct.discerns, Sample.alike_visitors, unrepeated, encoded,
    encode_alike distinct.discerns accepted Sample.alike_visitors unrepeated encoded⟩

end Factory

end Slotform
