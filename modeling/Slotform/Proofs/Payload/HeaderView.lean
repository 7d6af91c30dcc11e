import Slotform.Proofs.Payload.Assembly
import Slotform.Proofs.Payload.Grammar

/-!
# Header views

A header tells no more about a schema than its view: the names and kinds of members, their order
and their wrappers. Whatever spells a schema spells its view, and without alignment hints whatever
fills its slots fills those of the view.
-/

namespace Slotform

/-- What a header tells about a node: its name and its wrappers. -/
def Node.headerView (n : Node) (name : String) (element : Ty) : Node :=
  ⟨name, element, n.cardinality, n.optional, .unset, []⟩

theorem Node.Bare.headerView {n : Node} (bare : n.Bare) (name : String) (element : Ty) :
    (n.headerView name element).Bare := bare

namespace Schema

mutual

/-- What a header tells about a schema that stands under a name: records are named after the
member that holds them, hints and skipped fields do not show. -/
def headerView (name : String) : Schema → Schema
  | leaf node kind => leaf (node.headerView name kind.toTy) kind
  | record node members => record (node.headerView name (.named name)) (headerViews members)

def headerViews : List Schema → List Schema
  | [] => []
  | member :: rest => member.headerView member.name :: headerViews rest

end

/-- No leaf has an alignment hint. -/
inductive Unaligned : Schema → Prop where
  | leaf {node : Node} {kind : Kind} : node.format.align = none → Unaligned (.leaf node kind)
  | record {node : Node} {members : List Schema} : (∀ m ∈ members, m.Unaligned) →
      Unaligned (.record node members)

/-- No node has a hint. -/
inductive Unhinted : Schema → Prop where
  | leaf {node : Node} {kind : Kind} : node.format = .unset → Unhinted (.leaf node kind)
  | record {node : Node} {members : List Schema} : node.format = .unset →
      (∀ m ∈ members, m.Unhinted) → Unhinted (.record node members)

variable {s : Schema} {name : String}

theorem headerViews_eq_map (members : List Schema) :
    headerViews members = members.map fun m => m.headerView m.name := by
  induction members with
  | nil => rfl
  | cons m rest ih => rw [headerViews, ih, List.map_cons]

theorem forall₂_headerViews {R : Schema → Schema → Prop} {members : List Schema}
    (each : ∀ m ∈ members, R m (m.headerView m.name)) :
    List.Forall₂ R members (headerViews members) := by
  rw [headerViews_eq_map, List.forall₂_map_right_iff, List.forall₂_same]
  exact each

mutual

@[simp] theorem depth_headerView (name : String) :
    (s : Schema) → (s.headerView name).depth = s.depth
  | leaf .. => rfl
  | record _ members => depthBelow_headerViews members

theorem depthBelow_headerViews :
    (members : List Schema) → depthBelow (headerViews members) = depthBelow members
  | [] => rfl
  | m :: rest => by
    rw [headerViews, depthBelow, depthBelow, depth_headerView m.name m, depthBelow_headerViews rest]

end

@[simp] theorem name_headerView : (s.headerView name).name = name := by cases s <;> rfl

@[simp] theorem optional_headerView : (s.headerView name).node.optional = s.node.optional := by
  cases s <;> rfl

@[simp] theorem isRepeated_headerView :
    (s.headerView name).node.isRepeated = s.node.isRepeated := by
  cases s <;> rfl

@[simp] theorem format_headerView : (s.headerView name).node.format = .unset := by
  cases s <;> rfl

@[simp] theorem required_headerView :
    (s.headerView name).required = s.required.headerView name := by
  cases s <;> rfl

@[simp] theorem item_headerView : (s.headerView name).item = s.item.headerView name := by
  cases s <;> rfl

theorem Unaligned.required (h : s.Unaligned) : s.required.Unaligned := by
  cases h with
  | leaf free => exact .leaf free
  | record all => exact .record all

theorem Unaligned.item (h : s.Unaligned) : s.item.Unaligned := by
  cases h with
  | leaf free => exact .leaf free
  | record all => exact .record all

namespace Unhinted

theorem format (h : s.Unhinted) : s.node.format = .unset := by
  cases h with
  | leaf free => exact free
  | record free => exact free

theorem unaligned (h : s.Unhinted) : s.Unaligned := by
  induction h with
  | leaf free => exact .leaf (congrArg Format.align free)
  | record _ _ ih => exact .record ih

theorem required (h : s.Unhinted) : s.required.Unhinted := by
  cases h with
  | leaf free => exact .leaf free
  | record free all => exact .record free all

theorem item (h : s.Unhinted) : s.item.Unhinted := by
  cases h with
  | leaf free => exact .leaf (by simp [Node.item, free, Format.unset])
  | record free all => exact .record (by simp [Node.item, free, Format.unset]) all

end Unhinted

theorem WellFormed.headerView (h : s.WellFormed) (name : String) :
    (s.headerView name).WellFormed := by
  induction h generalizing name with
  | leaf proper => exact .leaf proper
  | @record node members some names nodup _ ih =>
    have same : (members.map fun m => m.headerView m.name).map Schema.name =
        members.map Schema.name := by
      rw [List.map_map]
      exact List.map_congr_left fun m _ => name_headerView
    rw [Schema.headerView, headerViews_eq_map]
    refine .record (by simpa using some) ?_ (same ▸ nodup) ?_
    · intro v hv
      obtain ⟨m, hm, rfl⟩ := List.mem_map.1 hv
      rw [name_headerView]
      exact names m hm
    · intro v hv
      obtain ⟨m, hm, rfl⟩ := List.mem_map.1 hv
      exact ih m hm m.name

end Schema

variable {codecs : CodecTable} {l : Limits}

/-! ## Mappers of views -/

namespace Mapper

mutual

/-- The mapper of the view of a schema: the same codecs, without hints and skipped fields. -/
def headerView (name : String) : Mapper → Mapper
  | leaf node kind codec => leaf (node.headerView name kind.toTy) kind codec
  | record node declared members =>
    record (node.headerView name (.named name)) (Schema.headerViews declared) (headerViews members)
  | repeated view element => repeated (view.headerView name) (element.headerView name)
  | optional view inner => optional (view.headerView name) (inner.headerView name)

def headerViews : List Mapper → List Mapper
  | [] => []
  | member :: rest => member.headerView member.name :: headerViews rest

end

@[simp] theorem name_headerView (m : Mapper) (name : String) :
    (m.headerView name).name = name := by
  cases m with
  | leaf | record => rfl
  | repeated | optional => exact Schema.name_headerView

theorem headerViews_eq_map (members : List Mapper) :
    headerViews members = members.map fun m => m.headerView m.name := by
  induction members with
  | nil => rfl
  | cons m rest ih => rw [headerViews, ih, List.map_cons]

end Mapper

/-- The mapper of the view of a schema is the view of its mapper. -/
theorem CodecTable.assemble_headerView_eq {s : Schema} {m : Mapper}
    (assembled : codecs.assemble s = .ok m) (name : String) :
    codecs.assemble (s.headerView name) = .ok (m.headerView name) := by
  revert name
  refine byMapper (P := fun s m => ∀ name,
    codecs.assemble (s.headerView name) = .ok (m.headerView name))
    ?leaf ?record ?repeated ?optional assembled
  case leaf =>
    intro node kind codec bare found name
    exact (assemble_leaf_ok (bare.headerView name kind.toTy)).2 ⟨rfl, codec, found, rfl, nofun⟩
  case record =>
    intro node members mappers bare all name
    refine (assemble_record_ok (bare.headerView name (.named name))).2 ⟨rfl, rfl, _, ?_, rfl⟩
    induction all with
    | nil => exact .nil
    | cons first _ ih => exact .cons (first.1 ▸ first.2 _) ih
  case repeated =>
    intro s element ho hr inside name
    refine (assemble_repeated_ok (by simpa using ho) (by simpa using hr)).2 ⟨?_, _, ?_, rfl⟩
    · rw [Schema.format_headerView]
      exact nofun
    · rw [Schema.item_headerView]
      exact inside name
  case optional =>
    intro s inner ho inside name
    refine (assemble_optional_ok (by simpa using ho)).2 ⟨_, ?_, rfl⟩
    rw [Schema.required_headerView]
    exact inside name

/-- The view of a schema that has a mapper has one as well. -/
theorem CodecTable.assemble_headerView {s : Schema} {m : Mapper}
    (assembled : codecs.assemble s = .ok m) (name : String) :
    ∃ view, codecs.assemble (s.headerView name) = .ok view :=
  ⟨_, assemble_headerView_eq assembled name⟩

/-! ## Texts of views -/

theorem leafWidth?_headerView {node : Node} {codec : Codec} {name : String} {element : Ty}
    {fixed : Nat} (h : fixed ∈ Mapper.leafWidth? (node.headerView name element) codec) :
    fixed ∈ Mapper.leafWidth? node codec := by
  cases hw : codec.fixedWidth with
  | none => simp [Mapper.leafWidth?, hw, Node.headerView, Format.unset] at h
  | some width => simpa [Mapper.leafWidth?, hw] using h

/-- Whatever spells a schema spells its view. -/
theorem Spells.headerView {s : Schema} {L : Layout} {text : List Char}
    (h : Spells codecs l s L text) (name : String) : Spells codecs l (s.headerView name) L text := by
  induction s using Schema.byViews generalizing L text name with
  | leaf node kind bare =>
    obtain ⟨codec, width, digits, found, denotes, within, fixed, rfl, rfl⟩ := (spells_leaf bare).1 h
    exact .leaf (bare.headerView name _) found denotes within
      fun width h => fixed width (leafWidth?_headerView h)
  | record node members bare ih =>
    obtain ⟨slots, inside, all, rfl, rfl⟩ := (spells_record bare).1 h
    refine .record (bare.headerView name _) (all.in_place (Schema.forall₂_headerViews fun m hm => ?_))
    exact ⟨Schema.name_headerView, fun _ _ spells => ih m hm spells m.name⟩
  | repeated s ho hr ih =>
    obtain ⟨slot, occurs, inner, digits, spells, denotes, within, _, rfl, rfl⟩ :=
      (spells_repeated ho hr).1 h
    refine .repeated (by simpa using ho) (by simpa using hr) ?_ denotes within ?_
    · rw [Schema.item_headerView]
      exact ih spells name
    · rw [Mapper.occurs?, Schema.format_headerView]
      exact nofun
  | optional s ho ih =>
    obtain ⟨slot, inner, spells, rfl, rfl⟩ := (spells_optional ho).1 h
    refine .optional (by simpa using ho) ?_
    rw [Schema.required_headerView]
    exact ih spells name

/-- Without alignment hints whatever fills the slots of a schema fills those of its view. -/
theorem Fills.headerView {s : Schema} (unaligned : s.Unaligned) {L : Layout} {v : Value}
    {text : List Char} (h : Fills codecs s L v text) (name : String) :
    Fills codecs (s.headerView name) L v text := by
  induction s using Schema.byViews generalizing L v text name with
  | leaf node kind bare =>
    obtain ⟨codec, found, parses, rfl⟩ := (fills_leaf bare).1 h
    cases unaligned with
    | leaf free =>
      refine .leaf (bare.headerView name _) found rfl ?_
      rw [Mapper.slotText, Mapper.leafAlign, free] at parses
      exact parses
  | record node members bare ih =>
    obtain ⟨slots, entries, all, rfl, rfl⟩ := (fills_record bare).1 h
    cases unaligned with
    | record each =>
      refine .record (bare.headerView name _)
        (all.in_place (Schema.forall₂_headerViews fun m hm => ?_))
      exact ⟨Schema.name_headerView, fun _ _ _ fills => ih m hm (each m hm) fills m.name⟩
  | repeated s ho hr ih =>
    obtain ⟨slot, occurs, items, count, inner, digits, denotes, fits, all, rfl, rfl, rfl⟩ :=
      (fills_repeated ho hr).1 h
    refine .repeated (by simpa using ho) (by simpa using hr) digits denotes fits ?_
    rw [Schema.item_headerView]
    exact all.in_place fun v text fills => ih unaligned.item fills name
  | optional s ho ih =>
    obtain ⟨slot, rfl, ⟨rfl, rfl⟩ | ⟨w, inner, fills, rfl, rfl⟩⟩ := (fills_optional ho).1 h
    · exact .absent (by simpa using ho)
    · refine .present (by simpa using ho) ?_
      rw [Schema.required_headerView]
      exact ih unaligned.required fills name

end Slotform
