import Slotform.Limits
import Slotform.Payload.Layout

namespace Slotform.Limits

structure Words (l : Limits) : Prop where
  depth : l.maxDepth ≤ maxWord
  payloadLen : l.maxPayloadLen ≤ maxWord
  width : l.maxWidth ≤ maxWord
  occurs : l.maxOccurs ≤ maxWord

theorem words_standard : standard.Words := ⟨by decide, by decide, by decide, by decide⟩

end Slotform.Limits

namespace Slotform.Layout

mutual

/-- The width is not above the exact one, and not below it as far as words go. -/
theorem width_bounds : (L : Layout) →
    L.width ≤ L.exactWidth ∧ min L.exactWidth maxWord ≤ L.width
  | leaf width => ⟨Nat.le_refl _, Nat.min_le_left _ _⟩
  | record members => by
    have h := widthsFrom_bounds 0 members
    rwa [Nat.zero_add] at h
  | repeated occurs element => by
    obtain ⟨upper, lower⟩ := width_bounds element
    have product := Nat.mul_le_mul_left occurs upper
    have slots : min (occurs * element.exactWidth) maxWord ≤ occurs * element.width := by
      rcases Nat.eq_zero_or_pos occurs with rfl | some
      · simp
      rcases Nat.le_total element.exactWidth maxWord with small | large
      · rw [Nat.min_eq_left small] at lower
        exact Nat.le_trans (Nat.min_le_left _ _) (Nat.mul_le_mul_left occurs lower)
      · rw [Nat.min_eq_right large] at lower
        exact Nat.le_trans (Nat.min_le_right _ _)
          (Nat.le_trans lower (Nat.le_mul_of_pos_left _ some))
    simp only [width, exactWidth, saturatingAdd, saturatingMul]
    omega
  | optional inner => by
    obtain ⟨upper, lower⟩ := width_bounds inner
    simp only [width, exactWidth, saturatingAdd]
    omega

theorem widthsFrom_bounds (sum : Nat) : (members : List Layout) →
    widthsFrom sum members ≤ sum + exactWidths members ∧
      min (sum + exactWidths members) maxWord ≤ widthsFrom sum members
  | [] => ⟨Nat.le_refl _, Nat.min_le_left _ _⟩
  | member :: rest => by
    obtain ⟨upper, lower⟩ := width_bounds member
    obtain ⟨upper', lower'⟩ := widthsFrom_bounds (saturatingAdd sum member.width) rest
    simp only [widthsFrom, exactWidths]
    unfold saturatingAdd at upper' lower' ⊢
    omega

end

variable {L : Layout} {slots : Nat}

theorem width_eq (h : L.exactWidth < UInt64.size) : L.width = L.exactWidth := by
  have word : maxWord = UInt64.size - 1 := rfl
  obtain ⟨upper, lower⟩ := L.width_bounds
  omega

/-- A width below the largest word is exact. -/
theorem exactWidth_eq (h : L.width < maxWord) : L.exactWidth = L.width := by
  obtain ⟨upper, lower⟩ := L.width_bounds
  omega

/-- A width that is counted, or that need not be cut off, is exact. -/
theorem width_exact (counted : L.width < maxWord ∨ L.exactWidth < UInt64.size) :
    L.width = L.exactWidth :=
  counted.elim (fun narrow => (exactWidth_eq narrow).symm) width_eq

theorem blankWidth_ok {n : Nat} :
    blankWidth slots L = .ok n ↔ slots * L.width < UInt64.size ∧ n = slots * L.width := by
  by_cases small : slots * L.width < UInt64.size <;> simp [blankWidth, small, @eq_comm _ n]

theorem blankWidth_error {e : PayloadError} : blankWidth slots L = .error e ↔
    UInt64.size ≤ slots * L.width ∧ e = .wordOverflow slots L.width := by
  by_cases small : slots * L.width < UInt64.size
  · simp [blankWidth, small, Nat.not_le.2 small]
  · simp [blankWidth, small, Nat.not_lt.1 small, @eq_comm _ e]

/-- Where slots are counted, or need not be cut off, the widths of single ones are exact. -/
theorem mul_width_exact (counted : slots * L.width < maxWord ∨ slots * L.exactWidth < UInt64.size) :
    slots * L.width = slots * L.exactWidth := by
  by_cases some : 0 < slots
  · have one (width : Nat) : width ≤ slots * width := Nat.le_mul_of_pos_left width some
    rw [width_exact (counted.imp (Nat.lt_of_le_of_lt (one _)) (Nat.lt_of_le_of_lt (one _)))]
  · simp [Nat.eq_zero_of_not_pos some]

theorem blankWidth_eq (h : slots * L.exactWidth < UInt64.size) :
    blankWidth slots L = .ok (slots * L.exactWidth) := by
  have product := mul_width_exact (.inr h)
  exact blankWidth_ok.2 ⟨product ▸ h, product.symm⟩

/-- A member's slot is no wider than those of all members. -/
theorem exactWidth_le_exactWidths {members : List Layout} (h : L ∈ members) :
    L.exactWidth ≤ exactWidths members := by
  induction members with
  | nil => cases h
  | cons member rest ih =>
    rw [exactWidths]
    rcases List.mem_cons.1 h with rfl | h
    · exact Nat.le_add_right _ _
    · exact Nat.le_trans (ih h) (Nat.le_add_left _ _)

theorem sub_mul_lt (h : slots * L.exactWidth < UInt64.size) (used : Nat) :
    (slots - used) * L.exactWidth < UInt64.size :=
  Nat.lt_of_le_of_lt (Nat.mul_le_mul_right _ (Nat.sub_le _ _)) h

/-- The blanks of unused slots are counted exactly if those of all slots are. -/
theorem blankWidth_sub (h : slots * L.exactWidth < UInt64.size) (used : Nat) :
    blankWidth (slots - used) L = .ok ((slots - used) * L.exactWidth) :=
  blankWidth_eq (sub_mul_lt h used)

end Slotform.Layout
