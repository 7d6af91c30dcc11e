import Slotform.Proofs.Payload.Encoding

namespace Slotform

namespace Layout

mutual

/-- Every size is at most the corresponding size of a layout of the same shape. -/
inductive Le : Layout → Layout → Prop where
  | leaf {width width' : Nat} : width ≤ width' → Le (.leaf width) (.leaf width')
  | record {members members' : List Layout} : AllLe members members' →
      Le (.record members) (.record members')
  | repeated {occurs occurs' : Nat} {element element' : Layout} : occurs ≤ occurs' →
      Le element element' → Le (.repeated occurs element) (.repeated occurs' element')
  | optional {inner inner' : Layout} : Le inner inner' → Le (.optional inner) (.optional inner')

inductive AllLe : List Layout → List Layout → Prop where
  | nil : AllLe [] []
  | cons {member member' : Layout} {rest rest' : List Layout} : Le member member' →
      AllLe rest rest' → AllLe (member :: rest) (member' :: rest')

end

section Inversion

variable {width width' occurs occurs' : Nat} {inner inner' : Layout}
  {members members' rest rest' : List Layout}

theorem leaf_le_leaf : (leaf width).Le (leaf width') ↔ width ≤ width' :=
  ⟨fun | .leaf h => h, .leaf⟩

theorem record_le_record : (record members).Le (record members') ↔ AllLe members members' :=
  ⟨fun | .record h => h, .record⟩

theorem repeated_le_repeated :
    (repeated occurs inner).Le (repeated occurs' inner') ↔ occurs ≤ occurs' ∧ inner.Le inner' :=
  ⟨fun | .repeated n h => ⟨n, h⟩, fun ⟨n, h⟩ => .repeated n h⟩

theorem optional_le_optional : (optional inner).Le (optional inner') ↔ inner.Le inner' :=
  ⟨fun | .optional h => h, .optional⟩

theorem cons_allLe_cons :
    AllLe (inner :: rest) (inner' :: rest') ↔ inner.Le inner' ∧ AllLe rest rest' :=
  ⟨fun | .cons h t => ⟨h, t⟩, fun ⟨h, t⟩ => .cons h t⟩

end Inversion

mutual

theorem Le.refl : (L : Layout) → L.Le L
  | leaf _ => .leaf (Nat.le_refl _)
  | record members => .record (AllLe.refl members)
  | repeated _ element => .repeated (Nat.le_refl _) (Le.refl element)
  | optional inner => .optional (Le.refl inner)

theorem AllLe.refl : (members : List Layout) → AllLe members members
  | [] => .nil
  | member :: rest => .cons (Le.refl member) (AllLe.refl rest)

end

mutual

theorem Le.trans : {a b c : Layout} → a.Le b → b.Le c → a.Le c
  | _, _, _, .leaf h, .leaf h' => .leaf (Nat.le_trans h h')
  | _, _, _, .record h, .record h' => .record (h.trans h')
  | _, _, _, .repeated n h, .repeated n' h' => .repeated (Nat.le_trans n n') (h.trans h')
  | _, _, _, .optional h, .optional h' => .optional (h.trans h')

theorem AllLe.trans : {a b c : List Layout} → AllLe a b → AllLe b c → AllLe a c
  | _, _, _, .nil, .nil => .nil
  | _, _, _, .cons h t, .cons h' t' => .cons (h.trans h') (t.trans t')

end

mutual

theorem Le.antisymm : {a b : Layout} → a.Le b → b.Le a → a = b
  | _, _, .leaf h, .leaf h' => by rw [Nat.le_antisymm h h']
  | _, _, .record h, .record h' => by rw [h.antisymm h']
  | _, _, .repeated n h, .repeated n' h' => by rw [Nat.le_antisymm n n', h.antisymm h']
  | _, _, .optional h, .optional h' => by rw [h.antisymm h']

theorem AllLe.antisymm : {a b : List Layout} → AllLe a b → AllLe b a → a = b
  | _, _, .nil, .nil => rfl
  | _, _, .cons h t, .cons h' t' => by rw [h.antisymm h', t.antisymm t']

end

theorem AllLe.length_eq {a b : List Layout} (h : AllLe a b) : a.length = b.length := by
  induction a generalizing b with
  | nil =>
    cases h
    rfl
  | cons _ _ ih =>
    cases h with
    | cons _ rest => rw [List.length_cons, List.length_cons, ih rest]

end Layout

namespace Mapper

variable {codecs : CodecTable}

/-! ## Successful measuring -/

section Success

variable {node : Node} {kind : Kind} {codec : Codec} {view : Schema} {v : Value} {L grown : Layout}

/-- A slot that is wide enough from the start is left as it is. -/
theorem measure_leaf_ok_of_le {width : Nat} (fixed : ∀ one ∈ leafWidth? node codec, one ≤ width) :
    (leaf node kind codec).measure v (.leaf width) = (.ok (), grown) ↔
      ∃ text, renderLeaf node kind codec v = .ok text ∧
        (∀ one ∈ leafWidth? node codec, text.length ≤ one) ∧
        grown = .leaf (max width text.length) := by
  rw [measure]
  cases renderLeaf node kind codec v with
  | error e => simp
  | ok text =>
    cases known : leafWidth? node codec with
    | none => simp [@eq_comm _ grown]
    | some one =>
      by_cases fits : text.length ≤ one
      · have wide : text.length ≤ width := Nat.le_trans fits (fixed one known)
        simp [Nat.not_lt.2 fits, fits, wide, @eq_comm _ grown]
      · simp [Nat.not_le.1 fits, fits]

theorem measure_leaf_ok {width : Nat} (fixed : ∀ one ∈ leafWidth? node codec, width = one) :
    (leaf node kind codec).measure v (.leaf width) = (.ok (), grown) ↔
      ∃ text, renderLeaf node kind codec v = .ok text ∧
        (∀ one ∈ leafWidth? node codec, text.length ≤ one) ∧
        grown = .leaf (max width text.length) :=
  measure_leaf_ok_of_le fun one known => Nat.le_of_eq (fixed one known).symm

theorem measure_record_ok {declared : List Schema} {members : List Mapper} {slots : List Layout}
    (same : slots.length = members.length) :
    (record node declared members).measure v (.record slots) = (.ok (), grown) ↔
      ∃ values slots', recordValues node declared (members.map name) v = .ok values ∧
        measureMembers members values slots = (.ok (), slots') ∧ grown = .record slots' := by
  rw [measure]
  cases recordValues node declared (members.map name) v with
  | error e => simp
  | ok values =>
    cases measured : measureMembers members values slots with
    | mk outcome slots' => simp [same, measured, @eq_comm _ grown, and_comm]

theorem measure_repeated_ok_of_le {element : Mapper} {occurs : Nat} {slot : Layout}
    (fixed : ∀ one ∈ occurs? view, one ≤ occurs) :
    (repeated view element).measure v (.repeated occurs slot) = (.ok (), grown) ↔
      ∃ items slot', v = .list items ∧ (∀ one ∈ occurs? view, items.length ≤ one) ∧
        measureEach (fun v l => element.measure v l) items slot = (.ok (), slot') ∧
        grown = .repeated (max occurs items.length) slot' := by
  cases v with
  | list items =>
    rw [measure]
    cases measured : measureEach (fun v l => element.measure v l) items slot with
    | mk outcome slot' =>
      cases known : occurs? view with
      | none => simp [listItems, measured, @eq_comm _ grown]
      | some one =>
        by_cases fits : items.length ≤ one
        · have enough : items.length ≤ occurs := Nat.le_trans fits (fixed one known)
          simp [listItems, measured, Nat.not_lt.2 fits, fits, enough, @eq_comm _ grown]
        · simp [listItems, Nat.not_le.1 fits, fits]
  | _ => simp [measure, listItems]

theorem measure_repeated_ok {element : Mapper} {occurs : Nat} {slot : Layout}
    (fixed : ∀ one ∈ occurs? view, occurs = one) :
    (repeated view element).measure v (.repeated occurs slot) = (.ok (), grown) ↔
      ∃ items slot', v = .list items ∧ (∀ one ∈ occurs? view, items.length ≤ one) ∧
        measureEach (fun v l => element.measure v l) items slot = (.ok (), slot') ∧
        grown = .repeated (max occurs items.length) slot' :=
  measure_repeated_ok_of_le fun one known => Nat.le_of_eq (fixed one known).symm

theorem measure_optional_ok {inner : Mapper} {slot : Layout} :
    (optional view inner).measure v (.optional slot) = (.ok (), grown) ↔
      (v = .absent ∧ grown = .optional slot) ∨
        ∃ x slot', v = .present x ∧ inner.measure x slot = (.ok (), slot') ∧
          grown = .optional slot' := by
  cases v with
  | present x =>
    rw [measure]
    cases measured : inner.measure x slot with
    | mk outcome slot' => simp [measured, @eq_comm _ grown]
  | _ => simp [measure, @eq_comm _ grown]

theorem measureEach_cons_ok {measure : Value → Layout → Measured} {rest : List Value} :
    measureEach measure (v :: rest) L = (.ok (), grown) ↔
      ∃ mid, measure v L = (.ok (), mid) ∧ measureEach measure rest mid = (.ok (), grown) := by
  rw [measureEach]
  cases measured : measure v L with
  | mk outcome mid => cases outcome <;> simp

theorem measureMembers_cons_ok {member : Mapper} {members : List Mapper} {values : List Value}
    {slots all : List Layout} :
    measureMembers (member :: members) (v :: values) (L :: slots) = (.ok (), all) ↔
      ∃ grown others, member.measure v L = (.ok (), grown) ∧
        measureMembers members values slots = (.ok (), others) ∧ all = grown :: others := by
  rw [measureMembers]
  cases measured : member.measure v L with
  | mk outcome grown =>
    cases outcome with
    | error e => simp
    | ok _ =>
      cases more : measureMembers members values slots with
      | mk outcome' others => simp [@eq_comm _ all, and_comm]

end Success

/-- Values can be measured in the place of others, if each is measured as the one it stands for. -/
theorem measureEach_in_place {s : Schema} {m m' : Mapper} (keeps : KeepsShape codecs s m)
    {xs ys : List Value} (each : List.Forall₂ (fun v w => ∀ L grown, Shapes codecs s L →
      m.measure v L = (.ok (), grown) → m'.measure w L = (.ok (), grown)) xs ys)
    {slot grown : Layout} (shape : Shapes codecs s slot)
    (measured : measureEach (fun v l => m.measure v l) xs slot = (.ok (), grown)) :
    measureEach (fun v l => m'.measure v l) ys slot = (.ok (), grown) := by
  induction each generalizing slot with
  | nil => exact measured
  | @cons v _ _ _ first _ ih =>
    obtain ⟨mid, once, more⟩ := measureEach_cons_ok.1 measured
    have shape' : Shapes codecs s mid := by
      have kept := keeps v slot shape
      rwa [once] at kept
    exact measureEach_cons_ok.2 ⟨mid, first _ _ shape once, ih shape' more⟩

/-- Members can be measured in the place of others, if the first is measured as the first and the
rest as the rest. -/
theorem measureMembers_cons_in_place {s : Schema} {rest : List Schema} {m m' : Mapper}
    {members members' : List Mapper} {v v' : Value} {values values' : List Value}
    (first : ∀ L grown, Shapes codecs s L → m.measure v L = (.ok (), grown) →
      m'.measure v' L = (.ok (), grown))
    (others : ∀ slots grown, List.Forall₂ (Shapes codecs) rest slots →
      measureMembers members values slots = (.ok (), grown) →
      measureMembers members' values' slots = (.ok (), grown))
    {slots grown : List Layout} (shapes : List.Forall₂ (Shapes codecs) (s :: rest) slots)
    (measured : measureMembers (m :: members) (v :: values) slots = (.ok (), grown)) :
    measureMembers (m' :: members') (v' :: values') slots = (.ok (), grown) := by
  cases shapes with
  | cons shape shapes =>
    obtain ⟨_, _, once, more, rfl⟩ := measureMembers_cons_ok.1 measured
    exact measureMembers_cons_ok.2
      ⟨_, _, first _ _ shape once, others _ _ shapes more, rfl⟩

end Mapper

end Slotform
