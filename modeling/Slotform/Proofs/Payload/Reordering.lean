import Slotform.Proofs.Payload.Padding

namespace Slotform

namespace Mapper

mutual

/-- The second value is the first one with the items of lists in another order, as far as the
mapper knows lists: what a codec is handed stays as it is. -/
inductive Reorders : Mapper → Value → Value → Prop where
  | refl (m : Mapper) (v : Value) : Reorders m v v
  | record {node : Node} {declared : List Schema} {members : List Mapper}
      {xs ys : List (String × Value)} : ReordersEntries members xs ys →
      Reorders (.record node declared members) (.record xs) (.record ys)
  | list {view : Schema} {element : Mapper} {xs ys zs : List Value} :
      ReordersItems element xs ys → ys.Perm zs →
      Reorders (.repeated view element) (.list xs) (.list zs)
  | present {view : Schema} {inner : Mapper} {v w : Value} : Reorders inner v w →
      Reorders (.optional view inner) (.present v) (.present w)

/-- Entries with the same names in the same order. What stands under no member's name does not
matter. -/
inductive ReordersEntries :
    List Mapper → List (String × Value) → List (String × Value) → Prop where
  | nil {members : List Mapper} : ReordersEntries members [] []
  | cons {members : List Mapper} {name : String} {v w : Value} {xs ys : List (String × Value)} :
      (∀ m ∈ members, m.name = name → Reorders m v w) → ReordersEntries members xs ys →
      ReordersEntries members ((name, v) :: xs) ((name, w) :: ys)

inductive ReordersItems : Mapper → List Value → List Value → Prop where
  | nil {m : Mapper} : ReordersItems m [] []
  | cons {m : Mapper} {v w : Value} {xs ys : List Value} : Reorders m v w →
      ReordersItems m xs ys → ReordersItems m (v :: xs) (w :: ys)

end

theorem ReordersItems.refl (m : Mapper) (items : List Value) : ReordersItems m items items := by
  induction items with
  | nil => exact .nil
  | cons v rest ih => exact .cons (.refl m v) ih

theorem ReordersItems.length_eq {m : Mapper} {xs ys : List Value} (h : ReordersItems m xs ys) :
    xs.length = ys.length := by
  induction xs generalizing ys with
  | nil =>
    cases h
    rfl
  | cons v rest ih =>
    cases h with
    | cons _ others => rw [List.length_cons, List.length_cons, ih others]

section Entries

variable {members : List Mapper} {xs ys : List (String × Value)}

theorem ReordersEntries.names (h : ReordersEntries members xs ys) :
    xs.map Prod.fst = ys.map Prod.fst := by
  induction xs generalizing ys with
  | nil =>
    cases h
    rfl
  | cons x rest ih =>
    cases h with
    | cons _ others => rw [List.map_cons, List.map_cons, ih others]

theorem ReordersEntries.lookup (h : ReordersEntries members xs ys) {m : Mapper} (hm : m ∈ members)
    {v : Value} (found : xs.lookup m.name = some v) :
    ∃ w, ys.lookup m.name = some w ∧ m.Reorders v w := by
  induction xs generalizing ys with
  | nil => cases found
  | cons x rest ih =>
    cases h with
    | @cons _ name v' w _ _ same others =>
      rw [List.lookup_cons] at found ⊢
      cases named : m.name == name with
      | true =>
        rw [named] at found
        cases found
        exact ⟨w, rfl, same m hm (beq_iff_eq.1 named)⟩
      | false =>
        rw [named] at found
        exact ih others found

end Entries

/-- Entries are checked by their names. -/
theorem checkEntries_names {node : Node} {declared : List Schema} {earlier : List String}
    {xs ys : List (String × Value)} (names : xs.map Prod.fst = ys.map Prod.fst) :
    checkEntries node declared earlier xs = checkEntries node declared earlier ys := by
  induction xs generalizing ys earlier with
  | nil => rw [List.map_eq_nil_iff.1 names.symm]
  | cons x rest ih =>
    obtain ⟨y, rest', rfl, first, others⟩ := List.map_eq_cons_iff.1 names.symm
    rw [checkEntries, checkEntries, first, ih others.symm]

/-- The values of members, each reordered. -/
inductive ReordersValues : List Mapper → List Value → List Value → Prop where
  | nil : ReordersValues [] [] []
  | cons {m : Mapper} {v w : Value} {members : List Mapper} {vs ws : List Value} :
      Reorders m v w → ReordersValues members vs ws →
      ReordersValues (m :: members) (v :: vs) (w :: ws)

theorem reordersValues_of_lookup {members : List Mapper} {xs ys : List (String × Value)}
    {vs : List Value}
    (related : ∀ m ∈ members, ∀ v, xs.lookup m.name = some v →
      ∃ w, ys.lookup m.name = some w ∧ m.Reorders v w)
    (found : List.Forall₂ (fun name v => xs.lookup name = some v) (members.map name) vs) :
    ∃ ws, List.Forall₂ (fun name w => ys.lookup name = some w) (members.map name) ws ∧
      ReordersValues members vs ws := by
  induction members generalizing vs with
  | nil =>
    cases found
    exact ⟨[], .nil, .nil⟩
  | cons m rest ih =>
    cases found with
    | cons first others =>
      obtain ⟨w, found, same⟩ := related m List.mem_cons_self _ first
      obtain ⟨ws, founds, sames⟩ := ih (fun n hn => related n (List.mem_cons_of_mem _ hn)) others
      exact ⟨w :: ws, .cons found founds, .cons same sames⟩

theorem recordValues_reorders {node : Node} {declared : List Schema} {members : List Mapper}
    {xs ys : List (String × Value)} {vs : List Value} (entries : ReordersEntries members xs ys)
    (known : recordValues node declared (members.map name) (.record xs) = .ok vs) :
    ∃ ws, recordValues node declared (members.map name) (.record ys) = .ok ws ∧
      ReordersValues members vs ws := by
  obtain ⟨_, ⟨⟩, checked, found⟩ := recordValues_ok.1 known
  obtain ⟨ws, found', reorders⟩ := reordersValues_of_lookup (fun m hm _ => entries.lookup hm) found
  rw [checkEntries_names entries.names] at checked
  exact ⟨ws, recordValues_ok.2 ⟨ys, rfl, checked, found'⟩, reorders⟩

/-! ## Measuring and writing -/

theorem measureEach_reorders {m : Mapper} {xs ys : List Value} {L grown : Layout}
    (each : ∀ {v w L grown}, m.Reorders v w → m.layout.Le L → m.measure v L = (.ok (), grown) →
      m.measure w L = (.ok (), grown))
    (h : ReordersItems m xs ys) (shape : m.layout.Le L)
    (measured : measureEach (fun v l => m.measure v l) xs L = (.ok (), grown)) :
    measureEach (fun v l => m.measure v l) ys L = (.ok (), grown) := by
  induction xs generalizing ys L with
  | nil =>
    cases h
    exact measured
  | cons v rest ih =>
    cases h with
    | cons first others =>
      obtain ⟨mid, once, more⟩ := measureEach_cons_ok.1 measured
      have later := shape.trans (measure_least m shape once).grows
      exact measureEach_cons_ok.2 ⟨mid, each first shape once, ih others later more⟩

mutual

theorem measure_reorders : (m : Mapper) → ∀ {v w : Value} {L grown : Layout}, m.Reorders v w →
    m.layout.Le L → m.measure v L = (.ok (), grown) → m.measure w L = (.ok (), grown)
  | leaf _ _ _, _, _, _, _, .refl _ _, _, measured => measured
  | record node declared members, _, _, .record slots, _, reorders, shape, measured => by
    cases reorders with
    | refl => exact measured
    | @record _ _ _ xs ys entries =>
      have shapes := Layout.record_le_record.1 shape
      have same := shapes.length_eq.symm.trans (length_layouts members)
      obtain ⟨values, grown, known, each, rfl⟩ := (measure_record_ok same).1 measured
      obtain ⟨values', known', reorders⟩ := recordValues_reorders entries known
      have each' := measureMembers_reorders members reorders shapes each
      exact (measure_record_ok same).2 ⟨values', grown, known', each', rfl⟩
  | repeated view element, _, _, .repeated _ slot, _, reorders, shape, measured => by
    cases reorders with
    | refl => exact measured
    | @list _ _ xs ys zs items perm =>
      have inner := (Layout.repeated_le_repeated.1 shape).2
      obtain ⟨_, grown, ⟨⟩, few, each, rfl⟩ :=
        (measure_repeated_ok_of_le (occurs_le shape)).1 measured
      have each' := measureEach_reorders (measure_reorders element) items inner each
      have permuted := measureEach_perm perm inner each'
      rw [items.length_eq, perm.length_eq] at few ⊢
      exact (measure_repeated_ok_of_le (occurs_le shape)).2 ⟨zs, grown, rfl, few, permuted, rfl⟩
  | optional view inner, _, _, .optional slot, _, reorders, shape, measured => by
    cases reorders with
    | refl => exact measured
    | @present _ _ v w inside =>
      obtain ⟨⟨⟩, _⟩ | ⟨_, grown, ⟨⟩, once, rfl⟩ := measure_optional_ok.1 measured
      have once' := measure_reorders inner inside (Layout.optional_le_optional.1 shape) once
      exact measure_optional_ok.2 (.inr ⟨w, grown, rfl, once', rfl⟩)

theorem measureMembers_reorders : (members : List Mapper) →
    ∀ {vs ws : List Value} {slots grown : List Layout}, ReordersValues members vs ws →
      Layout.AllLe (layouts members) slots →
      measureMembers members vs slots = (.ok (), grown) →
      measureMembers members ws slots = (.ok (), grown)
  | [], _, _, _, _, .nil, .nil, measured => measured
  | member :: rest, _, _, _, _, .cons first others, .cons shape shapes, measured => by
    obtain ⟨grown, more, once, each, rfl⟩ := measureMembers_cons_ok.1 measured
    have once' := measure_reorders member first shape once
    have each' := measureMembers_reorders rest others shapes each
    exact measureMembers_cons_ok.2 ⟨grown, more, once', each', rfl⟩

end

theorem mapM_reorders {m : Mapper} {xs ys : List Value} {slot : Layout} {texts : List (List Char)}
    (each : ∀ {v w text}, m.Reorders v w → m.write v slot = .ok text →
      ∃ text', m.write w slot = .ok text')
    (h : ReordersItems m xs ys)
    (written : List.Forall₂ (fun v text => m.write v slot = .ok text) xs texts) :
    ∀ w ∈ ys, ∃ text, m.write w slot = .ok text := by
  induction xs generalizing ys texts with
  | nil =>
    cases h
    exact nofun
  | cons v rest ih =>
    cases h with
    | cons first others =>
      cases written with
      | cons once more =>
        exact List.forall_mem_cons.2 ⟨each first once, ih others more⟩

mutual

/-- A value that is written into a layout is still written when items are reordered: their number
does not change, and neither do the blanks. -/
theorem write_reorders : (m : Mapper) → ∀ {v w : Value} {L : Layout} {text : List Char},
    m.Reorders v w → m.write v L = .ok text → ∃ text', m.write w L = .ok text'
  | leaf _ _ _, _, _, _, text, .refl _ _, written => ⟨text, written⟩
  | record node declared members, _, _, _, text, reorders, written => by
    cases reorders with
    | refl => exact ⟨text, written⟩
    | record entries =>
      obtain ⟨slots, values, rfl, known, same, inside⟩ := write_record_ok.1 written
      obtain ⟨values', known', reorders⟩ := recordValues_reorders entries known
      obtain ⟨text', inside'⟩ := writeMembers_reorders members reorders inside
      exact ⟨text', write_record_ok.2 ⟨slots, values', rfl, known', same, inside'⟩⟩
  | repeated view element, _, _, _, text, reorders, written => by
    cases reorders with
    | refl => exact ⟨text, written⟩
    | @list _ _ xs ys zs items perm =>
      obtain ⟨occurs, slot, _, texts, rfl, ⟨⟩, few, each, small, rfl⟩ :=
        write_repeated_ok.1 written
      have all := mapM_reorders (write_reorders element) items each
      obtain ⟨texts', done⟩ := mapM_ok fun w hw => all w (perm.mem_iff.2 hw)
      rw [items.length_eq, perm.length_eq] at few small
      exact ⟨_, write_repeated_ok.2
        ⟨occurs, slot, zs, texts', rfl, rfl, few, mapM_eq_ok.1 done, small, rfl⟩⟩
  | optional view inner, _, _, _, text, reorders, written => by
    cases reorders with
    | refl => exact ⟨text, written⟩
    | present inside =>
      obtain ⟨slot, rfl, ⟨⟨⟩, _⟩ | ⟨_, rest, ⟨⟩, once, rfl⟩⟩ := write_optional_ok.1 written
      obtain ⟨rest', once'⟩ := write_reorders inner inside once
      exact ⟨_, write_optional_ok.2 ⟨slot, rfl, .inr ⟨_, rest', rfl, once', rfl⟩⟩⟩

theorem writeMembers_reorders : (members : List Mapper) →
    ∀ {vs ws : List Value} {slots : List Layout} {text : List Char}, ReordersValues members vs ws →
      writeMembers members vs slots = .ok text → ∃ text', writeMembers members ws slots = .ok text'
  | [], _, _, _, text, .nil, written => ⟨text, written⟩
  | _ :: _, _, _, [], _, .cons _ _, _ => ⟨[], rfl⟩
  | m :: rest, _, _, slot :: slots, _, .cons first others, written => by
    obtain ⟨text, more, once, inside, rfl⟩ := writeMembers_cons_ok.1 written
    obtain ⟨text', once'⟩ := write_reorders m first once
    obtain ⟨more', inside'⟩ := writeMembers_reorders rest others inside
    exact ⟨_, writeMembers_cons_ok.2 ⟨text', more', once', inside', rfl⟩⟩

end

/-! ## The layout that remains -/

/-- What remains of measuring values one after the other is the least of the mapper's layouts that
all of them can be written into, whatever their order. They are all written into it unless it is too
wide for a word. A value with the items of lists in another order is written behind the same
header. -/
theorem measureEach_least (m : Mapper) :
    (∀ (vs : List Value) (L : Layout),
      measureEach (fun v l => m.measure v l) vs m.layout = (.ok (), L) →
        m.layout.Le L ∧
        (L.exactWidth < UInt64.size → ∀ v ∈ vs, ∃ text, m.write v L = .ok text) ∧
        (∀ ws, vs.Perm ws → measureEach (fun v l => m.measure v l) ws m.layout = (.ok (), L)) ∧
        ∀ L', m.layout.Le L' → (∀ v ∈ vs, ∃ text, m.write v L' = .ok text) → L.Le L') ∧
    ∀ v w t, m.Reorders v w → m.encode v = .ok t →
      ∃ header slots slots', m.writeHeader (m.measured v) = .ok header ∧
        m.writeHeader (m.measured w) = .ok header ∧ t = header ++ slots ∧
        m.encode w = .ok (header ++ slots') := by
  constructor
  · intro vs L measured
    have least := measureEach_leastFrom (measure_least m) (.refl _) measured
    refine ⟨least.grows, fun narrow v hv => (least.fits_least .refl v hv).writes narrow,
      fun ws perm => measureEach_perm perm (.refl _) measured, fun L' larger fits => ?_⟩
    apply (least.fits_iff L' larger).2
    intro v hv
    obtain ⟨text, written⟩ := fits v hv
    exact write_hasRoom m written
  · intro v w t reorders encoded
    obtain ⟨fits, header, slots, headed, filled, rfl⟩ := encode_ok.1 encoded
    have taken : m.measure w m.layout = (.ok (), m.measured v) :=
      measure_reorders m reorders (.refl _) (Prod.ext fits rfl)
    have same : m.measured w = m.measured v := by
      rw [measured, taken]
    obtain ⟨slots', filled'⟩ := write_reorders m reorders filled
    rw [← same] at filled'
    have headed' : m.writeHeader (m.measured w) = .ok header := by rwa [same]
    exact ⟨header, slots, slots', headed, headed', rfl,
      encode_ok.2 ⟨congrArg Prod.fst taken, header, slots', headed', filled', rfl⟩⟩

end Mapper

namespace Sample

def words : Schema := (Schema.ofKind "words" (.primitive .string)).repeated

def wordsMapper : Mapper :=
  .repeated words (.leaf words.item.node (.primitive .string) (.ofPrimitive .string))

theorem assemble_words : CodecTable.assemble [] words = .ok wordsMapper := rfl

def shortFirst : Value := .list [.atom (.string "on"), .atom (.string "off")]

def longFirst : Value := .list [.atom (.string "off"), .atom (.string "on")]

end Sample

namespace Mapper

theorem measureEach_least_words : CodecTable.assemble [] Sample.words = .ok Sample.wordsMapper ∧
    measureEach (fun v l => Sample.wordsMapper.measure v l) [Sample.shortFirst, .list []]
        Sample.wordsMapper.layout = (.ok (), .repeated 2 (.leaf 3)) ∧
      measureEach (fun v l => Sample.wordsMapper.measure v l) [.list [], Sample.shortFirst]
        Sample.wordsMapper.layout = (.ok (), .repeated 2 (.leaf 3)) ∧
      (∃ text, Sample.wordsMapper.write (.list []) (.repeated 2 (.leaf 3)) = .ok text) ∧
      Sample.wordsMapper.Reorders Sample.shortFirst Sample.longFirst ∧
      Sample.wordsMapper.encode Sample.shortFirst = .ok "string(3)[2]2on off".toList ∧
      ∃ slots, Sample.wordsMapper.encode Sample.longFirst =
        .ok ("string(3)[2]".toList ++ slots) := by
  have measured : measureEach (fun v l => Sample.wordsMapper.measure v l)
      [Sample.shortFirst, .list []] Sample.wordsMapper.layout =
        (.ok (), .repeated 2 (.leaf 3)) := by
    rfl
  have reorders : Sample.wordsMapper.Reorders Sample.shortFirst Sample.longFirst :=
    .list (.refl _ _) (.swap _ _ _)
  have encoded : Sample.wordsMapper.encode Sample.shortFirst =
      .ok "string(3)[2]2on off".toList := by
    rfl
  have headed : Sample.wordsMapper.writeHeader (Sample.wordsMapper.measured Sample.shortFirst) =
      .ok "string(3)[2]".toList := by
    rfl
  obtain ⟨least, header⟩ := measureEach_least Sample.wordsMapper
  obtain ⟨_, written, permuted, _⟩ := least _ _ measured
  have blank := written (by decide) (.list []) (List.mem_cons_of_mem _ List.mem_cons_self)
  obtain ⟨_, _, slots, headed', _, _, again⟩ := header _ _ _ reorders encoded
  cases headed.symm.trans headed'
  exact ⟨Sample.assemble_words, measured, permuted _ (.swap _ _ _), blank, reorders, encoded, slots,
    again⟩

end Mapper

namespace Sample

theorem distinct_rows : Fingerprint.Identifies ([] ++ [sheetRows]) := by decide +kernel

end Sample

namespace Mapper

/-- No rows at all are measured, and cannot be written into the layout that remains. -/
theorem measureEach_least_rows :
    (∃ kept, ((Factory.after [] []).create Sample.sheetRows).1 = .ok kept ∧
      kept.value = Sample.rowsMapper) ∧
    measureEach (fun v l => Sample.rowsMapper.measure v l) [.list []] Sample.rowsMapper.layout =
      (.ok (), .repeated 2147483648 (.record [.leaf 4294967295, .leaf 4294967295, .leaf 2])) ∧
    Sample.rowsMapper.write (.list [])
      (.repeated 2147483648 (.record [.leaf 4294967295, .leaf 4294967295, .leaf 2])) =
        .error (.wordOverflow 2147483648 8589934592) := by
  have assembled : CodecTable.assemble [] Sample.sheetRows = .ok Sample.rowsMapper := rfl
  exact ⟨Factory.create_ok [] Sample.distinct_rows assembled, by cbv, by cbv⟩

end Mapper

end Slotform
