import Slotform.Proofs.Payload.Filtering
import Slotform.Proofs.Payload.Padding
import Slotform.Proofs.Payload.Stability

namespace Slotform

namespace Decimal

/-- Numbers that one text begins with are equal if neither is followed by a digit. -/
theorem Denotes.unique {digits digits' rest rest' : List Char} {n n' : Nat} {x : Char}
    (h : Denotes digits n) (h' : Denotes digits' n') (ends : x.isDigit = false)
    (same : digits ++ x :: rest = digits' ++ x :: rest') : n = n' ∧ rest = rest' := by
  have other : ¬ x.isDigit = true := by rw [ends]; exact Bool.false_ne_true
  have taken {text tail : List Char} (all : ∀ c ∈ text, c.isDigit = true) :
      (text ++ x :: tail).takeWhile Char.isDigit = text := by
    rw [List.takeWhile_append_of_pos all, List.takeWhile_cons_of_neg other, List.append_nil]
  have equal : digits = digits' := by rw [← taken h.digits, same, taken h'.digits]
  subst equal
  exact ⟨h.value.symm.trans h'.value, (List.cons.inj (List.append_cancel_left same)).2⟩

end Decimal

/-! ## Headers -/

section Headers

variable {codecs : CodecTable} {l l' : Limits} {s : Schema} {L L' : Layout}

theorem SpellsMembers.unique {members : List Schema}
    (unique : ∀ m ∈ members, ∀ L L' header header' rest rest', Spells codecs l m L header →
      Spells codecs l' m L' header' → header ++ rest = header' ++ rest' → L = L' ∧ rest = rest')
    {slots slots' : List Layout} {text text' rest rest' : List Char}
    (h : SpellsMembers codecs l members slots text)
    (h' : SpellsMembers codecs l' members slots' text') (same : text ++ rest = text' ++ rest') :
    slots = slots' ∧ rest = rest' := by
  induction members generalizing slots slots' text text' with
  | nil => cases h
  | cons m members ih =>
    have first := unique m List.mem_cons_self
    cases h with
    | last spells =>
      cases h' with
      | last spells' =>
        simp only [List.append_assoc, List.cons_append, List.append_cancel_left_eq,
          List.cons.injEq, true_and] at same
        obtain ⟨rfl, rfl⟩ := first _ _ _ _ _ _ spells spells' same
        exact ⟨rfl, rfl⟩
      | more _ others => cases others
    | more spells others =>
      cases h' with
      | last => cases others
      | more spells' others' =>
        simp only [List.append_assoc, List.cons_append, List.append_cancel_left_eq,
          List.cons.injEq, true_and] at same
        obtain ⟨rfl, tails⟩ := first _ _ _ _ _ _ spells spells' same
        obtain ⟨rfl, rfl⟩ := ih (fun n hn => unique n (List.mem_cons_of_mem _ hn)) others others'
          (List.cons.inj tails).2
        exact ⟨rfl, rfl⟩

/-- A text begins with at most one header of a schema. -/
theorem Spells.unique {header header' rest rest' : List Char} (h : Spells codecs l s L header)
    (h' : Spells codecs l' s L' header') (same : header ++ rest = header' ++ rest') :
    L = L' ∧ rest = rest' := by
  induction s using Schema.byViews generalizing L L' header header' rest rest' with
  | leaf node kind bare =>
    obtain ⟨_, width, digits, _, denotes, _, _, rfl, rfl⟩ := (spells_leaf bare).1 h
    obtain ⟨_, width', digits', _, denotes', _, _, rfl, rfl⟩ := (spells_leaf bare).1 h'
    simp only [List.append_assoc, List.cons_append, List.nil_append, List.append_cancel_left_eq,
      List.cons.injEq, true_and] at same
    obtain ⟨rfl, rfl⟩ := denotes.unique denotes' (by decide) same
    exact ⟨rfl, rfl⟩
  | record node members bare ih =>
    obtain ⟨slots, inside, all, rfl, rfl⟩ := (spells_record bare).1 h
    obtain ⟨slots', inside', all', rfl, rfl⟩ := (spells_record bare).1 h'
    simp only [List.append_assoc, List.cons_append, List.cons.injEq, true_and] at same
    obtain ⟨rfl, tails⟩ := SpellsMembers.unique
      (fun m hm _ _ _ _ _ _ spells spells' same => ih m hm spells spells' same) all all' same
    exact ⟨rfl, (List.cons.inj tails).2⟩
  | repeated s ho hr ih =>
    obtain ⟨slot, occurs, inner, digits, spells, denotes, _, _, rfl, rfl⟩ :=
      (spells_repeated ho hr).1 h
    obtain ⟨slot', occurs', inner', digits', spells', denotes', _, _, rfl, rfl⟩ :=
      (spells_repeated ho hr).1 h'
    simp only [List.append_assoc, List.cons_append, List.nil_append] at same
    obtain ⟨rfl, tails⟩ := ih spells spells' same
    obtain ⟨rfl, rfl⟩ := denotes.unique denotes' (by decide) (List.cons.inj tails).2
    exact ⟨rfl, rfl⟩
  | optional s ho ih =>
    obtain ⟨slot, inner, spells, rfl, rfl⟩ := (spells_optional ho).1 h
    obtain ⟨slot', inner', spells', rfl, rfl⟩ := (spells_optional ho).1 h'
    rw [List.append_assoc, List.append_assoc inner'] at same
    obtain ⟨rfl, tails⟩ := ih spells spells' same
    exact ⟨rfl, (List.cons.inj tails).2⟩

end Headers

/-- Every layout is within some limits. -/
theorem Layout.exists_within (L : Layout) : ∃ l, L.Within l :=
  ⟨⟨0, 0, L.leafWidths.sum, L.occurrences.sum⟩,
    L.within_iff.2 ⟨fun _ => List.le_sum_of_mem, fun _ => List.le_sum_of_mem⟩⟩

namespace Mapper

/-- What a mapper encodes it decodes exactly if the text and its layout are within the limits; and
then into the normal form of the value. -/
theorem decode_encoded_iff {s : Schema} (proper : s.WellFormed) {m : Mapper}
    (assembled : CodecTable.assemble [] s = .ok m) {v : Value} {t : List Char}
    (encoded : m.encode v = .ok t) {l : Limits} (words : l.Words) {w : Value} :
    m.decode l t = .ok w ↔
      t.length ≤ l.maxPayloadLen ∧ (m.measured v).Within l ∧ w = s.normal v := by
  have normal (short : t.length ≤ l.maxPayloadLen) (within : (m.measured v).Within l) :
      m.decode l t = .ok (s.normal v) := by
    have narrow := encode_narrow encoded (Nat.le_trans short words.payloadLen)
    exact decode_encoded proper assembled encoded narrow words short within
  constructor
  · intro decoded
    obtain ⟨short, header, slots, L, split, spells, fills⟩ :=
      (decode_ok words proper assembled).1 decoded
    obtain ⟨_, header', slots', written, _, rfl⟩ := encode_ok.1 encoded
    -- The written header is one under some limits, and the text has no other.
    obtain ⟨l', within'⟩ := (m.measured v).exists_within
    have spelled : Spells [] l' s (m.measured v) header' :=
      writeHeader_spells proper assembled _ _ (measured_shapes assembled v) within' written
    obtain ⟨rfl, -⟩ := spells.unique spelled split.symm
    have within := spells.shapes_within.2
    exact ⟨short, within, Except.ok.inj (decoded.symm.trans (normal short within))⟩
  · rintro ⟨short, within, rfl⟩
    exact normal short within

end Mapper

end Slotform
