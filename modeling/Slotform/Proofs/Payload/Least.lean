import Slotform.Proofs.Payload.Blanks
import Slotform.Proofs.Payload.Measuring

/-!
# Least layouts

A value that is measured with success leaves the least of the larger layouts that have room for it
(`Mapper.measure_least`). The least layout for several values is what remains when they are
measured one after the other. It does not depend on their order, since there is only one such
layout (`Mapper.measureEach_perm`).
-/

namespace Slotform

/-- The least element from a start on that satisfies a condition, which all larger elements then
satisfy as well. -/
structure LeastFrom {α : Type} (le : α → α → Prop) (fits : α → Prop) (start least : α) : Prop where
  grows : le start least
  fits_iff : ∀ other, le start other → (le least other ↔ fits other)

namespace LeastFrom

variable {α : Type} {le : α → α → Prop} {fits fits' : α → Prop} {start mid least least' : α}

theorem fits_least (refl : ∀ a, le a a) (h : LeastFrom le fits start least) : fits least :=
  (h.fits_iff least h.grows).1 (refl least)

theorem unique (refl : ∀ a, le a a) (antisymm : ∀ {a b}, le a b → le b a → a = b)
    (h : LeastFrom le fits start least) (h' : LeastFrom le fits start least') : least = least' :=
  antisymm ((h.fits_iff least' h'.grows).2 (h'.fits_least refl))
    ((h'.fits_iff least h.grows).2 (h.fits_least refl))

theorem congr (same : ∀ a, fits a ↔ fits' a) (h : LeastFrom le fits start least) :
    LeastFrom le fits' start least :=
  ⟨h.grows, fun other later => (h.fits_iff other later).trans (same other)⟩

/-- What is least for a second condition from the least element for a first one on is least for
both. -/
theorem trans (trans : ∀ {a b c}, le a b → le b c → le a c) (h : LeastFrom le fits start mid)
    (h' : LeastFrom le fits' mid least) :
    LeastFrom le (fun a => fits a ∧ fits' a) start least := by
  refine ⟨trans h.grows h'.grows, fun other later => ⟨fun larger => ?_, ?_⟩⟩
  · have from_mid := trans h'.grows larger
    exact ⟨(h.fits_iff other later).1 from_mid, (h'.fits_iff other from_mid).1 larger⟩
  · rintro ⟨fit, fit'⟩
    exact (h'.fits_iff other ((h.fits_iff other later).2 fit)).2 fit'

end LeastFrom

/-- The least layout from another one on that satisfies a condition. -/
abbrev Layout.Least (fits : Layout → Prop) (start least : Layout) : Prop :=
  LeastFrom Layout.Le fits start least

namespace Mapper

/-! ## What remains of measuring -/

theorem measureEach_leastFrom {m : Mapper} {vs : List Value} {L grown : Layout}
    (each : ∀ {v L grown}, m.layout.Le L → m.measure v L = (.ok (), grown) →
      Layout.Least (m.HasRoom v) L grown)
    (shape : m.layout.Le L)
    (measured : measureEach (fun v l => m.measure v l) vs L = (.ok (), grown)) :
    Layout.Least (fun L' => ∀ v ∈ vs, m.HasRoom v L') L grown := by
  induction vs generalizing L with
  | nil =>
    cases measured
    exact ⟨.refl _, fun _ larger => iff_of_true larger nofun⟩
  | cons v rest ih =>
    obtain ⟨mid, once, more⟩ := measureEach_cons_ok.1 measured
    have first := each shape once
    have others := ih (shape.trans first.grows) more
    refine (LeastFrom.trans .trans first others).congr fun L' => ?_
    exact (List.forall_mem_cons (p := fun v => m.HasRoom v L')).symm

theorem length_layouts (members : List Mapper) : (layouts members).length = members.length := by
  induction members with
  | nil => rfl
  | cons member rest ih => rw [layouts, List.length_cons, List.length_cons, ih]

section Fixed

variable {node : Node} {kind : Kind} {codec : Codec} {view : Schema} {element : Mapper}
  {width occurs : Nat} {slot : Layout}

/-- A slot that a width is fixed for is at least as wide. -/
theorem leafWidth_le (shape : (leaf node kind codec).layout.Le (.leaf width)) :
    ∀ one ∈ leafWidth? node codec, one ≤ width := by
  intro one known
  rwa [layout, Layout.leaf_le_leaf, Option.mem_def.1 known] at shape

theorem occurs_le (shape : (repeated view element).layout.Le (.repeated occurs slot)) :
    ∀ one ∈ occurs? view, one ≤ occurs := by
  intro one known
  rw [layout, Layout.repeated_le_repeated, Option.mem_def.1 known] at shape
  exact shape.1

end Fixed

mutual

/-- What remains is the least layout from the given one on that has room for the value. -/
theorem measure_least : (m : Mapper) → ∀ {v : Value} {L grown : Layout}, m.layout.Le L →
    m.measure v L = (.ok (), grown) → Layout.Least (m.HasRoom v) L grown
  | leaf node kind codec, v, .leaf _, _, shape, measured => by
    obtain ⟨text, rendered, _, rfl⟩ := (measure_leaf_ok_of_le (leafWidth_le shape)).1 measured
    refine ⟨.leaf (Nat.le_max_left _ _), fun _ larger => ?_⟩
    cases larger with
    | leaf le =>
      rw [Layout.leaf_le_leaf, Nat.max_le]
      constructor
      · intro fits
        exact .leaf rendered fits.2
      · intro room
        cases room with
        | leaf rendered' fits =>
          cases rendered.symm.trans rendered'
          exact ⟨le, fits⟩
  | record node declared members, v, _, _, .record shapes, measured => by
    have same := shapes.length_eq.symm.trans (length_layouts members)
    obtain ⟨values, grown, found, each, rfl⟩ := (measure_record_ok same).1 measured
    have least := measureMembers_least members shapes each
    refine ⟨.record least.grows, fun _ larger => ?_⟩
    cases larger with
    | record larger =>
      rw [Layout.record_le_record, least.fits_iff _ larger]
      constructor
      · intro inside
        exact .record found (larger.length_eq.symm.trans same) inside
      · intro room
        cases room with
        | record found' _ inside =>
          cases found.symm.trans found'
          exact inside
  | repeated view element, v, .repeated _ slot, _, shape, measured => by
    obtain ⟨items, grown, rfl, _, each, rfl⟩ :=
      (measure_repeated_ok_of_le (occurs_le shape)).1 measured
    have least : Layout.Least (fun L' => ∀ v ∈ items, element.HasRoom v L') slot grown :=
      measureEach_leastFrom (measure_least element) (Layout.repeated_le_repeated.1 shape).2 each
    refine ⟨.repeated (Nat.le_max_left _ _) least.grows, fun _ larger => ?_⟩
    cases larger with
    | repeated le larger =>
      rw [Layout.repeated_le_repeated, Nat.max_le, least.fits_iff _ larger]
      constructor
      · intro room
        exact .list room.1.2 room.2
      · intro room
        cases room with
        | list few each => exact ⟨⟨le, few⟩, each⟩
  | optional view inner, v, _, _, .optional shape, measured => by
    rcases measure_optional_ok.1 measured with ⟨rfl, rfl⟩ | ⟨x, grown, rfl, once, rfl⟩
    · refine ⟨.refl _, fun _ larger => iff_of_true larger ?_⟩
      cases larger with
      | optional larger => exact .absent
    · have least := measure_least inner shape once
      refine ⟨.optional least.grows, fun _ larger => ?_⟩
      cases larger with
      | optional larger =>
        rw [Layout.optional_le_optional, least.fits_iff _ larger]
        constructor
        · intro inside
          exact .present inside
        · intro room
          cases room with
          | present inside => exact inside

theorem measureMembers_least : (members : List Mapper) →
    ∀ {values : List Value} {slots grown : List Layout}, Layout.AllLe (layouts members) slots →
      measureMembers members values slots = (.ok (), grown) →
      LeastFrom Layout.AllLe (fun slots' => InPlaces HasRoom members values slots') slots grown
  | [], _, _, _, .nil, measured => by
    cases measured
    exact ⟨.nil, fun _ larger => iff_of_true larger inPlaces_nil⟩
  | _ :: _, [], _, _, .cons _ _, measured => by
    cases measured
    exact ⟨.refl _, fun _ larger => iff_of_true larger inPlaces_nil_values⟩
  | member :: rest, v :: values, _, _, .cons shape shapes, measured => by
    obtain ⟨_, _, one, more, rfl⟩ := measureMembers_cons_ok.1 measured
    have first := measure_least member shape one
    have others := measureMembers_least rest shapes more
    refine ⟨.cons first.grows others.grows, fun _ larger => ?_⟩
    cases larger with
    | cons larger largers =>
      rw [Layout.cons_allLe_cons, first.fits_iff _ larger, others.fits_iff _ largers,
        inPlaces_cons]

end

theorem measured_hasRoom {m : Mapper} {v : Value} (fits : (m.measure v m.layout).1 = .ok ()) :
    m.HasRoom v (m.measured v) := by
  have measured : m.measure v m.layout = (.ok (), m.measured v) := Prod.ext fits rfl
  exact (measure_least m (.refl _) measured).fits_least .refl

/-! ## Success does not depend on the layout -/

/-- A value is measured against a layout with success. -/
def Measures (m : Mapper) (v : Value) (L : Layout) : Prop :=
  ∃ grown, m.measure v L = (.ok (), grown)

/-- Values are measured one after the other if each of them is measured alone. -/
theorem measureEach_ok_iff {m : Mapper} {vs : List Value} {L : Layout}
    (anywhere : ∀ {v L L'}, m.layout.Le L → m.layout.Le L' → m.Measures v L → m.Measures v L')
    (shape : m.layout.Le L) :
    (∃ grown, measureEach (fun v l => m.measure v l) vs L = (.ok (), grown)) ↔
      ∀ v ∈ vs, m.Measures v m.layout := by
  induction vs generalizing L with
  | nil => exact iff_of_true ⟨L, rfl⟩ nofun
  | cons v rest ih =>
    simp only [measureEach_cons_ok, List.forall_mem_cons]
    have later {mid : Layout} (once : m.measure v L = (.ok (), mid)) : m.layout.Le mid :=
      shape.trans (measure_least m shape once).grows
    constructor
    · rintro ⟨grown, mid, once, more⟩
      exact ⟨anywhere shape (.refl _) ⟨mid, once⟩, (ih (later once)).1 ⟨grown, more⟩⟩
    · rintro ⟨alone, others⟩
      obtain ⟨mid, once⟩ := anywhere (.refl _) shape alone
      obtain ⟨grown, more⟩ := (ih (later once)).2 others
      exact ⟨grown, mid, once, more⟩

mutual

theorem measure_anywhere : (m : Mapper) → ∀ {v : Value} {L L' : Layout}, m.layout.Le L →
    m.layout.Le L' → m.Measures v L → m.Measures v L'
  | leaf node kind codec, v, .leaf _, .leaf _, shape, shape', ⟨_, measured⟩ => by
    obtain ⟨text, rendered, fits, rfl⟩ := (measure_leaf_ok_of_le (leafWidth_le shape)).1 measured
    exact ⟨_, (measure_leaf_ok_of_le (leafWidth_le shape')).2 ⟨text, rendered, fits, rfl⟩⟩
  | record node declared members, v, _, _, .record shapes, .record shapes', ⟨_, measured⟩ => by
    have same := shapes.length_eq.symm.trans (length_layouts members)
    have same' := shapes'.length_eq.symm.trans (length_layouts members)
    obtain ⟨values, _, found, each, rfl⟩ := (measure_record_ok same).1 measured
    obtain ⟨grown, each'⟩ := measureMembers_anywhere members shapes shapes' ⟨_, each⟩
    exact ⟨_, (measure_record_ok same').2 ⟨values, grown, found, each', rfl⟩⟩
  | repeated view element, v, .repeated _ slot, .repeated _ slot', shape, shape',
      ⟨_, measured⟩ => by
    obtain ⟨items, grown, rfl, few, each, rfl⟩ :=
      (measure_repeated_ok_of_le (occurs_le shape)).1 measured
    have alone := (measureEach_ok_iff (measure_anywhere element)
      (Layout.repeated_le_repeated.1 shape).2).1 ⟨grown, each⟩
    obtain ⟨grown', each'⟩ := (measureEach_ok_iff (measure_anywhere element)
      (Layout.repeated_le_repeated.1 shape').2).2 alone
    exact ⟨_, (measure_repeated_ok_of_le (occurs_le shape')).2
      ⟨items, grown', rfl, few, each', rfl⟩⟩
  | optional view inner, v, _, _, .optional shape, .optional shape', ⟨_, measured⟩ => by
    rcases measure_optional_ok.1 measured with ⟨rfl, rfl⟩ | ⟨x, _, rfl, once, rfl⟩
    · exact ⟨_, measure_optional_ok.2 (.inl ⟨rfl, rfl⟩)⟩
    · obtain ⟨grown, once'⟩ := measure_anywhere inner shape shape' ⟨_, once⟩
      exact ⟨_, measure_optional_ok.2 (.inr ⟨x, grown, rfl, once', rfl⟩)⟩

theorem measureMembers_anywhere : (members : List Mapper) →
    ∀ {values : List Value} {slots slots' : List Layout}, Layout.AllLe (layouts members) slots →
      Layout.AllLe (layouts members) slots' →
      (∃ grown, measureMembers members values slots = (.ok (), grown)) →
      ∃ grown, measureMembers members values slots' = (.ok (), grown)
  | [], _, _, _, .nil, .nil, measured => measured
  | _ :: _, [], _, _, .cons _ _, .cons _ _, _ => ⟨_, rfl⟩
  | member :: rest, v :: values, _, _, .cons shape shapes, .cons shape' shapes', ⟨_, measured⟩ => by
    obtain ⟨_, _, one, more, rfl⟩ := measureMembers_cons_ok.1 measured
    obtain ⟨grown, one'⟩ := measure_anywhere member shape shape' ⟨_, one⟩
    obtain ⟨others, more'⟩ := measureMembers_anywhere rest shapes shapes' ⟨_, more⟩
    exact ⟨_, measureMembers_cons_ok.2 ⟨grown, others, one', more', rfl⟩⟩

end

theorem measureEach_perm {m : Mapper} {vs ws : List Value} {L grown : Layout} (perm : vs.Perm ws)
    (shape : m.layout.Le L)
    (measured : measureEach (fun v l => m.measure v l) vs L = (.ok (), grown)) :
    measureEach (fun v l => m.measure v l) ws L = (.ok (), grown) := by
  have alone := (measureEach_ok_iff (measure_anywhere m) shape).1 ⟨grown, measured⟩
  obtain ⟨grown', measured'⟩ := (measureEach_ok_iff (measure_anywhere m) shape).2
    fun v hv => alone v (perm.mem_iff.2 hv)
  have least := measureEach_leastFrom (measure_least m) shape measured
  have least' := measureEach_leastFrom (measure_least m) shape measured'
  have same : grown = grown' := LeastFrom.unique .refl (fun h h' => h.antisymm h') least
    (least'.congr fun L' => by simp only [perm.mem_iff])
  rw [same]
  exact measured'

end Mapper

end Slotform
