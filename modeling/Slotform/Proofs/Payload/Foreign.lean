import Slotform.Proofs.Payload.Header

namespace Slotform

/-! ## Wider limits -/

namespace Limits

/-- What either of two limits allows. -/
def either (l l' : Limits) : Limits :=
  ⟨max l.maxDepth l'.maxDepth, max l.maxPayloadLen l'.maxPayloadLen, max l.maxWidth l'.maxWidth,
    max l.maxOccurs l'.maxOccurs⟩

theorem Words.either {l l' : Limits} (words : l.Words) (words' : l'.Words) :
    (l.either l').Words :=
  ⟨Nat.max_le.2 ⟨words.depth, words'.depth⟩, Nat.max_le.2 ⟨words.payloadLen, words'.payloadLen⟩,
    Nat.max_le.2 ⟨words.width, words'.width⟩, Nat.max_le.2 ⟨words.occurs, words'.occurs⟩⟩

end Limits

section Header

variable {codecs codecs' : CodecTable} {l l' : Limits} {s s' : Schema} {L L' : Layout}

/-- A header stays one when wider leaves and longer lists are allowed. -/
theorem Spells.mono (width : l.maxWidth ≤ l'.maxWidth) (occurs : l.maxOccurs ≤ l'.maxOccurs)
    {header : List Char} (h : Spells codecs l s L header) : Spells codecs l' s L header := by
  induction s using Schema.byViews generalizing L header with
  | leaf node kind bare =>
    obtain ⟨codec, width', digits, found, denotes, within, fixed, rfl, rfl⟩ := (spells_leaf bare).1 h
    exact .leaf bare found denotes (Nat.le_trans within width) fixed
  | record node members bare ih =>
    obtain ⟨slots, inside, all, rfl, rfl⟩ := (spells_record bare).1 h
    exact .record bare (all.in_place (List.forall₂_same.2 fun m hm =>
      ⟨rfl, fun _ _ spells => ih m hm spells⟩))
  | repeated s ho hr ih =>
    obtain ⟨slot, occurs', inner, digits, spells, denotes, within, fixed, rfl, rfl⟩ :=
      (spells_repeated ho hr).1 h
    exact .repeated ho hr (ih spells) denotes (Nat.le_trans within occurs) fixed
  | optional s ho ih =>
    obtain ⟨slot, inner, spells, rfl, rfl⟩ := (spells_optional ho).1 h
    exact .optional ho (ih spells)

/-- Items of two schemas that are spelled at the start of one text have one view, one layout and
one header. -/
theorem Spells.item_unique (words : l.Words) (proper : s.WellFormed) (proper' : s'.WellFormed)
    {header header' rest rest' : List Char} (spells : Spells codecs l s.item L header)
    (spells' : Spells codecs' l s'.item L' header') (same : header ++ rest = header' ++ rest')
    (name : String) :
    s.item.headerView name = s'.item.headerView name ∧ L = L' ∧ header = header' := by
  have passes : (Cursor.ofText (header ++ rest)).Passes header ⟨rest, header.length⟩ :=
    ⟨rfl, (Nat.zero_add _).symm⟩
  have passes' : (Cursor.ofText (header ++ rest)).Passes header' ⟨rest', header'.length⟩ :=
    ⟨same, (Nat.zero_add _).symm⟩
  have deep := Nat.lt_succ_of_le (Nat.le_max_left s.depth s'.depth)
  have deep' := Nat.lt_succ_of_le (Nat.le_max_right s.depth s'.depth)
  -- One reading of the text gives both, if it goes as deep as either schema.
  have read := Header.readItem_ok words proper name _ _ _ L header deep spells passes
  have read' := Header.readItem_ok words proper' name _ _ _ L' header' deep' spells' passes'
  rw [read] at read'
  simp only [Except.ok.injEq, Prod.mk.injEq, Cursor.mk.injEq] at read'
  obtain ⟨⟨view, layout⟩, -, length⟩ := read'
  exact ⟨view, layout, (List.append_inj same length).1⟩

/-- A view is that of the item with the wrappers put around it again. -/
theorem Schema.headerView_eq_item (s : Schema) (name : String) : s.headerView name =
    (s.item.headerView name).mapNode fun n =>
      { n with cardinality := s.node.cardinality, optional := s.node.optional } := by
  cases s <;> rfl

theorem Schema.headerView_congr (repeated : s.node.isRepeated = s'.node.isRepeated)
    (optional : s.node.optional = s'.node.optional) {name : String}
    (item : s.item.headerView name = s'.item.headerView name) :
    s.headerView name = s'.headerView name := by
  have cardinality : s.node.cardinality = s'.node.cardinality := by
    simp only [Node.isRepeated, decide_eq_decide] at repeated
    cases h : s.node.cardinality <;> cases h' : s'.node.cardinality <;> simp_all
  rw [s.headerView_eq_item, s'.headerView_eq_item, item, cardinality, optional]

/-- Headers at the start of one text belong to schemas of one view, apart from the wrappers of the
root. -/
theorem Spells.headerView_unique (words : l.Words) (words' : l'.Words) (proper : s.WellFormed)
    (proper' : s'.WellFormed) (repeated : s.node.isRepeated = s'.node.isRepeated)
    (optional : s.node.optional = s'.node.optional) {header header' rest rest' : List Char}
    (spells : Spells codecs l s L header) (spells' : Spells codecs' l' s' L' header')
    (same : header ++ rest = header' ++ rest') (name : String) :
    s.headerView name = s'.headerView name := by
  obtain ⟨_, inner, _, suffix, inside, -, -, rfl, -⟩ := spells.split
  obtain ⟨_, inner', _, suffix', inside', -, -, rfl, -⟩ := spells'.split
  have wider : Spells codecs (l.either l') s.item _ inner :=
    inside.mono (Nat.le_max_left _ _) (Nat.le_max_left _ _)
  have wider' : Spells codecs' (l.either l') s'.item _ inner' :=
    inside'.mono (Nat.le_max_right _ _) (Nat.le_max_right _ _)
  rw [List.append_assoc, List.append_assoc inner'] at same
  obtain ⟨item, -, -⟩ := Spells.item_unique (words.either words') proper proper' wider wider' same
    name
  exact Schema.headerView_congr repeated optional item

end Header

/-! ## Decoders -/

namespace Factory

/-- A text that two decoders accept is of one header view, whatever their limits are, provided the
roots have the same wrappers. A payload of another view is rejected. -/
theorem headerView_eq_of_decode {codecs codecs' : CodecTable} {past past' : List Schema}
    {s s' : Schema} (readable : s.Readable) (readable' : s'.Readable)
    (distinct : Fingerprint.Identifies (past ++ [s]))
    (distinct' : Fingerprint.Identifies (past' ++ [s'])) {kept kept' : Kept Mapper}
    (accepted : ((after codecs past).create s).1 = .ok kept)
    (accepted' : ((after codecs' past').create s').1 = .ok kept')
    (repeated : s.node.isRepeated = s'.node.isRepeated)
    (optional : s.node.optional = s'.node.optional) {l l' : Limits} (words : l.Words)
    (words' : l'.Words) {t : List Char} {v v' : Value}
    (decoded : kept.value.decode l t = .ok v) (decoded' : kept'.value.decode l' t = .ok v')
    (name : String) : s.headerView name = s'.headerView name := by
  have proper := readable.wellFormed
  have proper' := readable'.wellFormed
  obtain ⟨-, header, slots, L, rfl, spells, -⟩ :=
    (Mapper.decode_ok words proper (create_assembles distinct accepted)).1 decoded
  obtain ⟨-, header', slots', L', same, spells', -⟩ :=
    (Mapper.decode_ok words' proper' (create_assembles distinct' accepted')).1 decoded'
  exact Spells.headerView_unique words words' proper proper' repeated optional spells spells' same
    name

end Factory

/-! ## A sample -/

namespace Sample

/-- Authors are described like persons, with hints for the slots. -/
def authors : Registry where
  definitions := [.record "author" [
    ⟨"name", .primitive .string, ⟨some 5, none, none⟩, false⟩,
    ⟨"tags", .option (.list (.primitive .u8)), ⟨none, some 2, none⟩, false⟩]]

def author : Schema := .ofMembers "author" "author" [
  name.withFormat ⟨some 5, none, none⟩,
  tag.repeated.optional.withFormat ⟨none, some 2, none⟩]

theorem readable_author : author.Readable :=
  ⟨.ofRegistry authors, .named "author", none, ⟨0, author⟩, .start authors, by cbv, rfl⟩

theorem distinct_author : Fingerprint.Identifies ([] ++ [author]) := by decide +kernel

end Sample

/-- A payload of a person is one of an author: their headers look the same. -/
theorem Factory.headerView_eq_of_decode_author :
    ∃ kept kept', ((after [] []).create Sample.person).1 = .ok kept ∧
      ((after [] []).create Sample.author).1 = .ok kept' ∧
      kept.value.decode .standard Sample.text = .ok Sample.ada ∧
      kept'.value.decode .standard Sample.text = .ok Sample.ada ∧
      Sample.person.headerView "root" = Sample.author.headerView "root" := by
  obtain ⟨kept, accepted, made⟩ := create_ok [] Sample.distinct_person Sample.assemble_person
  obtain ⟨mapper, assembled⟩ : ∃ m, CodecTable.assemble [] Sample.author = .ok m := ⟨_, rfl⟩
  obtain ⟨kept', accepted', made'⟩ := create_ok [] Sample.distinct_author assembled
  have decoded : kept.value.decode .standard Sample.text = .ok Sample.ada := by
    rw [made]
    cbv
  have decoded' : kept'.value.decode .standard Sample.text = .ok Sample.ada := by
    rw [made']
    cases assembled
    cbv
  exact ⟨kept, kept', accepted, accepted', decoded, decoded',
    headerView_eq_of_decode Sample.readable_person Sample.readable_author Sample.distinct_person
      Sample.distinct_author accepted accepted' rfl rfl Limits.words_standard Limits.words_standard
      decoded decoded' "root"⟩

end Slotform
