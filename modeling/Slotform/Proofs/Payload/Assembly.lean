import Slotform.Payload.Factory
import Slotform.Proofs.Schema.Views

/-!
# Mappers without a table

`CodecTable.assemble` is the mapper of a schema made from nothing but the codecs. Its equations
follow the views of the schema: an optional schema gets a mapper around that of its required view,
a repeated one a mapper around that of its item view. `CodecTable.byMapper` is the induction over a
schema together with its mapper.
-/

namespace Slotform

namespace CodecTable

def assembleRequired (item : Schema → Except MappingError Mapper) (s : Schema) :
    Except MappingError Mapper :=
  if s.node.isRepeated then do
    checkRepeated s
    let element ← item s.item
    .ok (.repeated s element)
  else item s

def assembleWrapped (item : Schema → Except MappingError Mapper) (s : Schema) :
    Except MappingError Mapper :=
  if s.node.optional then do
    let inner ← assembleRequired item s.required
    .ok (.optional s inner)
  else assembleRequired item s

mutual

def assemble (codecs : CodecTable) : Schema → Except MappingError Mapper
  | .leaf node kind =>
    assembleWrapped (fun view => codecs.makeLeaf view.node kind) (.leaf node kind)
  | .record node members =>
    assembleWrapped
      (fun view => do
        checkRecord view.node
        let mappers ← assembleAll codecs members
        .ok (.record view.node members mappers))
      (.record node members)

def assembleAll (codecs : CodecTable) : List Schema → Except MappingError (List Mapper)
  | [] => .ok []
  | member :: rest => do
    let mapper ← assemble codecs member
    let mappers ← assembleAll codecs rest
    .ok (mapper :: mappers)

end

/-! ## The mappers of views -/

section Views

variable {codecs : CodecTable} {s : Schema} {m : Mapper}

/-- The mapper of a single item, whose shape is the schema's and whose node is the view's. -/
def assembleItem (codecs : CodecTable) (s view : Schema) : Except MappingError Mapper :=
  match s with
  | .leaf _ kind => codecs.makeLeaf view.node kind
  | .record _ members => do
    checkRecord view.node
    let mappers ← codecs.assembleAll members
    .ok (.record view.node members mappers)

theorem assemble_eq (s : Schema) :
    codecs.assemble s = assembleWrapped (codecs.assembleItem s) s := by
  cases s <;> rfl

theorem assembleItem_mapNode (change : Node → Node) :
    codecs.assembleItem (s.mapNode change) = codecs.assembleItem s := by
  cases s <;> rfl

/-- A required view has no option around it, and an item no list either. -/
theorem assemble_required (s : Schema) :
    codecs.assemble s.required = assembleRequired (codecs.assembleItem s) s.required := by
  rw [assemble_eq, Schema.required, assembleItem_mapNode, assembleWrapped, if_neg]
  simp

theorem assemble_item (s : Schema) :
    codecs.assemble s.item = codecs.assembleItem s s.item := by
  have bare := s.bare_item
  rw [assemble_eq, assembleWrapped, if_neg bare.not_optional, assembleRequired,
    if_neg bare.not_repeated, Schema.item, assembleItem_mapNode]

theorem assemble_optional (h : s.node.optional = true) :
    codecs.assemble s = (do
      let inner ← codecs.assemble s.required
      .ok (.optional s inner)) := by
  rw [assemble_eq, assembleWrapped, if_pos h, assemble_required]

theorem assemble_repeated (ho : s.node.optional = false) (hr : s.node.isRepeated = true) :
    codecs.assemble s = (do
      checkRepeated s
      let element ← codecs.assemble s.item
      .ok (.repeated s element)) := by
  rw [assemble_eq, assembleWrapped, if_neg (by simp [ho]), assembleRequired, if_pos hr,
    assemble_item]

theorem assemble_bare (s : Schema) (bare : s.node.Bare) :
    codecs.assemble s = codecs.assembleItem s s := by
  rw [assemble_eq, assembleWrapped, if_neg (by simp [bare.1]), assembleRequired,
    if_neg (by simp [bare.2])]

theorem assemble_leaf {node : Node} {kind : Kind} (bare : node.Bare) :
    codecs.assemble (.leaf node kind) = codecs.makeLeaf node kind :=
  assemble_bare (.leaf node kind) bare

theorem assemble_record {node : Node} {members : List Schema} (bare : node.Bare) :
    codecs.assemble (.record node members) = (do
      checkRecord node
      let mappers ← codecs.assembleAll members
      .ok (.record node members mappers)) :=
  assemble_bare (.record node members) bare

theorem assemble_optional_ok (h : s.node.optional = true) :
    codecs.assemble s = .ok m ↔
      ∃ inner, codecs.assemble s.required = .ok inner ∧ m = .optional s inner := by
  simp [assemble_optional h, @eq_comm _ m]

theorem assemble_repeated_ok (ho : s.node.optional = false) (hr : s.node.isRepeated = true) :
    codecs.assemble s = .ok m ↔ s.node.format.maxOccurs ≠ some 0 ∧
      ∃ element, codecs.assemble s.item = .ok element ∧ m = .repeated s element := by
  simp [assemble_repeated ho hr, checkRepeated, @eq_comm _ m]

theorem assemble_leaf_ok {node : Node} {kind : Kind} (bare : node.Bare) :
    codecs.assemble (.leaf node kind) = .ok m ↔ node.format.maxOccurs = none ∧
      ∃ codec, codecs.codec? kind = some codec ∧ m = .leaf node kind codec ∧
        ∀ size ∈ node.format.size, size ≠ 0 ∧ codec.fixedWidth.getD size.toNat = size.toNat := by
  rw [assemble_leaf bare, makeLeaf, ite_error_eq_ok, Bool.not_eq_true, Option.isSome_eq_false_iff,
    Option.isNone_iff_eq_none]
  refine and_congr_right fun _ => ?_
  cases codecs.codec? kind with
  | none => simp
  | some codec =>
    cases node.format.size with
    | none => simp [@eq_comm _ m]
    | some size => simp [@eq_comm _ m, and_comm, and_assoc]

theorem assembleAll_ok {members : List Schema} {mappers : List Mapper} :
    codecs.assembleAll members = .ok mappers ↔
      List.Forall₂ (fun s m => codecs.assemble s = .ok m) members mappers := by
  induction members generalizing mappers with
  | nil => simp [assembleAll, eq_comm]
  | cons member rest ih =>
    simp only [assembleAll, bind_eq_ok, ih, Except.ok.injEq]
    constructor
    · rintro ⟨m, hm, ms, hms, rfl⟩
      exact .cons hm hms
    · intro h
      cases h with
      | cons hm hms => exact ⟨_, hm, _, hms, rfl⟩

theorem assemble_record_ok {node : Node} {members : List Schema} (bare : node.Bare) :
    codecs.assemble (.record node members) = .ok m ↔ node.format.maxOccurs = none ∧
      node.format.size = none ∧ ∃ mappers,
        List.Forall₂ (fun s m => codecs.assemble s = .ok m) members mappers ∧
        m = .record node members mappers := by
  rw [assemble_record bare]
  simp only [bind_eq_ok, assembleAll_ok, checkRecord, ite_error_eq_ok, Bool.not_eq_true,
    Option.isSome_eq_false_iff, Option.isNone_iff_eq_none, Except.ok.injEq, exists_const,
    true_and, and_assoc, @eq_comm _ m]

theorem assemble_schema (h : codecs.assemble s = .ok m) : m.schema = s := by
  induction s using Schema.byViews generalizing m with
  | leaf node kind bare =>
    obtain ⟨_, _, _, rfl, _⟩ := (assemble_leaf_ok bare).1 h
    rfl
  | record node members bare _ =>
    obtain ⟨_, _, _, _, rfl⟩ := (assemble_record_ok bare).1 h
    rfl
  | repeated s ho hr _ =>
    obtain ⟨_, _, _, rfl⟩ := (assemble_repeated_ok ho hr).1 h
    rfl
  | optional s ho _ =>
    obtain ⟨_, _, rfl⟩ := (assemble_optional_ok ho).1 h
    rfl

/-- Induction over a schema together with the mapper that is assembled for it. -/
theorem byMapper {P : Schema → Mapper → Prop}
    (leaf : ∀ {node : Node} {kind : Kind} {codec : Codec}, node.Bare →
      codecs.codec? kind = some codec → P (.leaf node kind) (.leaf node kind codec))
    (record : ∀ {node : Node} {members : List Schema} {mappers : List Mapper}, node.Bare →
      List.Forall₂ (fun s m => m.name = s.name ∧ P s m) members mappers →
      P (.record node members) (.record node members mappers))
    (repeated : ∀ {s : Schema} {element : Mapper}, s.node.optional = false →
      s.node.isRepeated = true → P s.item element → P s (.repeated s element))
    (optional : ∀ {s : Schema} {inner : Mapper}, s.node.optional = true →
      P s.required inner → P s (.optional s inner))
    (h : codecs.assemble s = .ok m) : P s m := by
  induction s using Schema.byViews generalizing m with
  | leaf node kind bare =>
    obtain ⟨_, codec, found, rfl, _⟩ := (assemble_leaf_ok bare).1 h
    exact leaf bare found
  | record node members bare ih =>
    obtain ⟨_, _, mappers, all, rfl⟩ := (assemble_record_ok bare).1 h
    apply record bare
    exact forall₂_imp_mem all fun s hs m made =>
      ⟨congrArg Schema.name (assemble_schema made), ih s hs made⟩
  | repeated s ho hr ih =>
    obtain ⟨_, element, inside, rfl⟩ := (assemble_repeated_ok ho hr).1 h
    exact repeated ho hr (ih inside)
  | optional s ho ih =>
    obtain ⟨inner, inside, rfl⟩ := (assemble_optional_ok ho).1 h
    exact optional ho (ih inside)

end Views

end CodecTable

end Slotform
