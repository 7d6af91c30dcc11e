import Slotform.Proofs.Introspection.Faithful
import Slotform.Proofs.Schema.Json
import Slotform.Proofs.Schema.Rendered

/-!
# How deeply documents of schemas nest

A record costs three levels of its document: one for its node, one for its shape and one for the
list of its members. A leaf costs two, and one more if its kind is an extension. So the document of
a schema that was read nests three levels for each record level and two or three more
(`Schema.Faithful.nesting_bounds`), and what is written can be read again up to 41 record levels,
whatever the limits of the reader are (`Reader.readJson?_read`). The standard limits allow 64.
-/

namespace Slotform

open Json

/-! ## Levels of a node -/

theorem Kind.nesting_toTy_le (kind : Kind) : kind.toTy.toJson.nesting ≤ 1 := by
  cases kind <;> exact Nat.le_of_ble_eq_true rfl

theorem Kind.nesting_toJson_le (kind : Kind) : kind.toJson.nesting ≤ 1 := by
  cases kind <;> exact Nat.le_of_ble_eq_true rfl

/-- A node costs one level above its shape. -/
theorem Node.nesting_toJson {n : Node} {shape : Json} (flat : n.element.toJson.nesting ≤ 1)
    (deep : 1 ≤ shape.nesting) : (n.toJson shape).nesting = shape.nesting + 1 := by
  apply Nat.le_antisymm
  · exact (n.nesting_toJson_le shape _).2 ⟨Nat.le_trans flat deep, deep, Nat.le_refl _⟩
  · cases whole : (n.toJson shape).nesting with
    | zero => rw [Node.toJson, ofEntries, nesting] at whole; cases whole
    | succ left =>
      obtain ⟨-, -, inside⟩ := (n.nesting_toJson_le shape left).1 (Nat.le_of_eq whole)
      exact Nat.succ_le_succ inside

namespace Schema

theorem nesting_leaf {node : Node} {kind : Kind} (element : node.element = kind.toTy) :
    (leaf node kind).toJson.nesting = kind.toJson.nesting + 2 := by
  have shape : (ofEntries [("Leaf", kind.toJson)]).nesting = kind.toJson.nesting + 1 :=
    nesting_single _ _
  rw [toJson, Node.nesting_toJson (element ▸ kind.nesting_toTy_le) (by omega), shape]

theorem nesting_record {node : Node} {members : List Schema} {typeName : String}
    (element : node.element = .named typeName) :
    (record node members).toJson.nesting = nestingItems (members.map toJson) + 3 := by
  have shape : (ofEntries [("Record", .array (membersJson members))]).nesting =
      nestingItems (members.map toJson) + 2 := by
    rw [nesting_single, nesting, membersJson_eq_map]
  have flat : node.element.toJson.nesting ≤ 1 := by
    rw [element]
    exact Nat.le_refl 1
  rw [toJson, Node.nesting_toJson flat (by omega), shape]

/-- Three levels for each record level, and two or three for the deepest node. -/
theorem Faithful.nesting_bounds {s : Schema} (faithful : s.Faithful) :
    3 * s.depth + 2 ≤ s.toJson.nesting ∧ s.toJson.nesting ≤ 3 * s.depth + 3 := by
  induction s using byMembers with
  | leaf node kind =>
    cases faithful with
    | leaf element =>
      have flat := kind.nesting_toJson_le
      rw [nesting_leaf element, depth]
      omega
  | record node members ih =>
    cases faithful with
    | record element each =>
      rw [nesting_record element, depth]
      constructor
      · -- `depthBelow` is bounded member by member only, so the levels are divided, not the depth
        -- multiplied.
        have below : depthBelow members ≤ (nestingItems (members.map toJson) + 1) / 3 := by
          apply depthBelow_le_iff.2
          intro m hm
          have inside := nestingItems_le_iff.1 (Nat.le_refl (nestingItems (members.map toJson)))
            m.toJson (List.mem_map_of_mem hm)
          have bound := (ih m hm (each m hm)).1
          omega
        omega
      · have above : nestingItems (members.map toJson) ≤ 3 * depthBelow members := by
          apply nestingItems_le_iff.2
          intro item hitem
          obtain ⟨m, hm, rfl⟩ := List.mem_map.1 hitem
          have deeper := depthBelow_le_iff.1 (Nat.le_refl (depthBelow members)) m hm
          have bound := (ih m hm (each m hm)).2
          omega
        omega

/-- A schema in which nothing is hidden is read again exactly up to 41 record levels. -/
theorem Faithful.readJson?_eq {s : Schema} (faithful : s.Faithful) :
    readJson? s.printJson = if s.depth ≤ 41 then some s else none := by
  obtain ⟨lower, upper⟩ := faithful.nesting_bounds
  have restored : readJson? s.printJson = if s.toJson.nesting ≤ 127 then some s else none := by
    rw [readJson?, printJson, s.plain_toJson.read?_indented]
    exact ofJson?_restores s maxNesting
  rw [restored]
  by_cases shallow : s.depth ≤ 41
  · rw [if_pos shallow, if_pos (by omega)]
  · rw [if_neg shallow, if_neg (by omega)]

end Schema

/-! ## Reading and keeping -/

/-- A schema that was read, for a root type alone or together with an element type, can be kept as
text if it has at most 41 record levels, and only then, however many the limits allow. -/
theorem Reader.readJson?_read (registry : Registry) (skip : SkipStrategy) (limits : Limits)
    (ty : Ty) (element : Option Ty) {s : Schema}
    (read : ((start registry skip limits).request ty element).1.map Kept.value = .ok s) :
    s.depth ≤ limits.maxDepth ∧
      Schema.readJson? s.printJson = if s.depth ≤ 41 then some s else none := by
  rw [request_start] at read
  obtain ⟨root, walked⟩ := compute_root read
  have faithful : s.Faithful := Walk.member_faithful walked
  exact ⟨Nat.le_of_lt_succ (Walk.depth_lt walked), faithful.readJson?_eq⟩

/-! ## A sample -/

namespace Sample

def boxName (n : Nat) : String := String.ofList (List.replicate (n + 1) 'b')

/-- What is in a box: another one, or a label in the innermost. -/
def boxField : Nat → Field
  | 0 => ⟨"label", .primitive .string, .unset, false⟩
  | n + 1 => ⟨"inside", .named (boxName n), .unset, false⟩

def boxDefinition (n : Nat) : Definition := .record (boxName n) [boxField n]

def boxes (n : Nat) : Registry where
  definitions := (List.range (n + 1)).map boxDefinition

/-- The schema of a box that stands under a name. -/
def box (name : String) : Nat → Schema
  | 0 => .ofMembers name (boxName 0) [.ofKind "label" (.primitive .string)]
  | n + 1 => .ofMembers name (boxName (n + 1)) [box "inside" n]

theorem boxName_inj {m n : Nat} (h : boxName m = boxName n) : m = n := by
  have same := congrArg (fun name => name.toList.length) h
  simpa [boxName] using same

theorem names_boxes (n : Nat) : (boxes n).names = (List.range (n + 1)).map boxName := by
  rw [Registry.names, boxes, List.map_map]
  rfl

theorem get?_boxes {m n : Nat} (le : m ≤ n) :
    (boxes n).get? (boxName m) = some (boxDefinition m) := by
  have distinct : (boxes n).names.Nodup := by
    rw [names_boxes]
    exact List.nodup_range.map fun _ _ => boxName_inj
  have listed : boxDefinition m ∈ (boxes n).definitions :=
    List.mem_map_of_mem (List.mem_range.2 (Nat.lt_succ_of_le le))
  exact (Registry.get?_eq_some_iff distinct).2 listed

theorem depth_box (name : String) (n : Nat) : (box name n).depth = n + 1 := by
  induction n generalizing name with
  | zero => rfl
  | succ n ih => rw [box, Schema.ofMembers, Schema.depth, Schema.depthBelow, ih]; rfl

/-- A box is read if what is in it is. -/
theorem member_box_of {m n depth allowance : Nat} (le : m ≤ n) {path : List String}
    (fresh : boxName m ∉ path) (name : String) {inside : Schema}
    (read : Walk.member ⟨boxes n, SkipRule.flagged.skips, depth⟩ allowance (boxName m :: path)
      (boxField m).name (boxField m).ty (boxField m).format = .ok inside) :
    Walk.member ⟨boxes n, SkipRule.flagged.skips, depth⟩ (allowance + 1) path name
      (.named (boxName m)) .unset = .ok (.ofMembers name (boxName m) [inside]) := by
  have found := get?_boxes le
  have resolved : (boxes n).resolve (.named (boxName m)) = .ok (.named (boxName m)) :=
    Registry.resolveFrom_record List.not_mem_nil found
  have split : Walk.splitFields ⟨boxes n, SkipRule.flagged.skips, depth⟩ (boxName m) =
      .ok ([boxField m], []) := by
    rw [Walk.splitFields, found]
    cases m <;> rfl
  have named : nameFault? (boxField m).name = none := by
    cases m with
    | zero => decide
    | succ m => exact (by decide : nameFault? "inside" = none)
  have first : Walk.splitOption ⟨boxes n, SkipRule.flagged.skips, depth⟩ name
      (.named (boxName m)) = .ok (false, .named (boxName m)) :=
    Walk.splitOption_required resolved (by simp)
  have each : Walk.readFields (fun field => Walk.member ⟨boxes n, SkipRule.flagged.skips, depth⟩
      allowance (boxName m :: path) field.name field.ty field.format) (boxName m) [] [boxField m] =
        .ok [inside] := by
    refine Walk.readFields_of (.cons read .nil) ?_ (List.nodup_singleton _)
    rintro field hfield
    cases List.mem_singleton.1 hfield
    exact ⟨named, List.not_mem_nil⟩
  exact Walk.member_of_expands first (Walk.splitList_single rfl) (.record rfl fresh split each)

/-- A box is read if the limit allows as many records and none of them is being expanded. -/
theorem member_box {n depth allowance : Nat} (m : Nat) (le : m ≤ n) {path : List String}
    (fresh : ∀ k ≤ m, boxName k ∉ path) (name : String) (deep : m + 1 < allowance) :
    Walk.member ⟨boxes n, SkipRule.flagged.skips, depth⟩ allowance path name (.named (boxName m))
      .unset = .ok (box name m) := by
  induction m generalizing allowance path name with
  | zero =>
    obtain ⟨rest, rfl⟩ : ∃ rest, allowance = rest + 2 := ⟨allowance - 2, by omega⟩
    refine member_box_of le (fresh 0 (Nat.le_refl 0)) name ?_
    have first : Walk.splitOption ⟨boxes n, SkipRule.flagged.skips, depth⟩ "label"
        (.primitive .string) = .ok (false, .primitive .string) :=
      Walk.splitOption_required (Registry.resolveFrom_unnamed (by simp)) (by simp)
    exact Walk.member_of_expands first (Walk.splitList_single rfl) (.primitive rfl rfl)
  | succ m ih =>
    obtain ⟨rest, rfl⟩ : ∃ rest, allowance = rest + 1 := ⟨allowance - 1, by omega⟩
    refine member_box_of le (fresh _ (Nat.le_refl _)) name (ih (Nat.le_of_succ_le le) ?_ _ ?_)
    · intro k hk
      rw [List.mem_cons, not_or]
      refine ⟨fun same => ?_, fresh k (Nat.le_succ_of_le hk)⟩
      have := boxName_inj same
      omega
    · omega

/-- Boxes are read as far as the limit allows. -/
theorem read_boxes {n : Nat} {limits : Limits} (deep : n < limits.maxDepth) :
    ((Reader.start (boxes n) SkipRule.flagged.skips limits).request (.named (boxName n))
      none).1.map Kept.value = .ok (box (boxName n) n) := by
  rw [Reader.request_start]
  exact member_box n (Nat.le_refl n) (fun _ _ => List.not_mem_nil) _ (Nat.succ_lt_succ deep)

end Sample

/-- Forty-one boxes in each other are as many as can be kept. -/
theorem Reader.readJson?_read_boxes :
    ((start (Sample.boxes 40) SkipRule.flagged.skips .standard).request
      (.named (Sample.boxName 40)) none).1.map Kept.value =
        .ok (Sample.box (Sample.boxName 40) 40) ∧
      Schema.readJson? (Sample.box (Sample.boxName 40) 40).printJson =
        some (Sample.box (Sample.boxName 40) 40) := by
  have allowed : 40 < Limits.standard.maxDepth := by decide
  have read := Sample.read_boxes allowed
  obtain ⟨-, kept⟩ := readJson?_read _ _ _ _ _ read
  rw [Sample.depth_box, if_pos (by decide)] at kept
  exact ⟨read, kept⟩

/-- One box more is read within the standard limits, and its text is not. -/
theorem Reader.readJson?_read_none :
    ((start (Sample.boxes 41) SkipRule.flagged.skips .standard).request
      (.named (Sample.boxName 41)) none).1.map Kept.value =
        .ok (Sample.box (Sample.boxName 41) 41) ∧
      Schema.readJson? (Sample.box (Sample.boxName 41) 41).printJson = none := by
  have allowed : 41 < Limits.standard.maxDepth := by decide
  have read := Sample.read_boxes allowed
  have faithful : (Sample.box (Sample.boxName 41) 41).Faithful := by
    rw [Reader.request_start] at read
    exact Walk.member_faithful (w := ⟨_, _, _⟩) read
  have unread := faithful.readJson?_eq
  rw [Sample.depth_box, if_neg (by decide)] at unread
  exact ⟨read, unread⟩

end Slotform
