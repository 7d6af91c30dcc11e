import Mathlib.Data.List.TakeWhile
import Slotform.Proofs.Binary.Rounding

namespace Slotform

variable {num num' den den' : Nat}

theorem roundHalfEven_bounds :
    num / den ≤ roundHalfEven num den ∧ roundHalfEven num den ≤ num / den + 1 := by
  unfold roundHalfEven
  dsimp only
  split
  · omega
  · split <;> omega

theorem roundHalfEven_mono (h : num ≤ num') : roundHalfEven num den ≤ roundHalfEven num' den := by
  have quotients : num / den ≤ num' / den := Nat.div_le_div_right h
  by_cases same : num / den = num' / den
  · have remainders : num % den ≤ num' % den := by
      have whole := Nat.div_add_mod num den
      have whole' := Nat.div_add_mod num' den
      rw [same] at whole
      omega
    unfold roundHalfEven
    rw [same]
    dsimp only
    split <;> split <;> (try split) <;> (try split) <;> omega
  · have lower : roundHalfEven num den ≤ num / den + 1 := roundHalfEven_bounds.2
    have upper : num' / den ≤ roundHalfEven num' den := roundHalfEven_bounds.1
    omega

namespace BinaryFormat

variable (f : BinaryFormat) {m k : Nat}

/-! ## Order -/

theorem round_mono (pos : 0 < den) (h : num ≤ num') : f.round num den ≤ f.round num' den := by
  have scaled : num * Nat.pow 2 f.scale ≤ num' * Nat.pow 2 f.scale := Nat.mul_le_mul_right _ h
  have quotients : num * Nat.pow 2 f.scale / den ≤ num' * Nat.pow 2 f.scale / den :=
    Nat.div_le_div_right scaled
  unfold round
  dsimp only
  generalize num * Nat.pow 2 f.scale = a at scaled quotients ⊢
  generalize num' * Nat.pow 2 f.scale = b at scaled quotients ⊢
  have logs : (a / den).log2 ≤ (b / den).log2 := by
    by_cases zero : a / den = 0
    · rw [zero, Nat.log2_zero]
      exact Nat.zero_le _
    · have nonzero : b / den ≠ 0 :=
        Nat.ne_of_gt (Nat.lt_of_lt_of_le (Nat.pos_of_ne_zero zero) quotients)
      exact (Nat.le_log2 nonzero).2 (Nat.le_trans (Nat.log2_self_le zero) quotients)
  refine Nat.le_min.2 ⟨Nat.le_trans (Nat.min_le_left _ _) ?_, Nat.min_le_right _ _⟩
  by_cases same : (a / den).log2 - f.fractionBits = (b / den).log2 - f.fractionBits
  · rw [same]
    exact Nat.add_le_add_left (roundHalfEven_mono scaled) _
  · -- The larger quotient has more bits: a power of two lies between the two.
    generalize shift : (a / den).log2 - f.fractionBits = i at same ⊢
    generalize shift' : (b / den).log2 - f.fractionBits = j at same ⊢
    have apart : i + 1 ≤ j := by omega
    have above : roundHalfEven a (den * Nat.pow 2 i) ≤ 2 * f.fractions := by
      have narrow : a / den < 2 ^ (f.fractionBits + i + 1) :=
        Nat.lt_of_lt_of_le Nat.lt_log2_self (Nat.pow_le_pow_right (by decide) (by omega))
      have bound : a ≤ 2 * f.fractions * (den * Nat.pow 2 i) := by
        have product := (Nat.div_lt_iff_lt_mul pos).1 narrow
        refine Nat.le_of_lt (Nat.lt_of_lt_of_eq product ?_)
        rw [fractions, Nat.pow_eq, Nat.pow_eq, Nat.pow_succ, Nat.pow_add]
        ac_rfl
      refine Nat.le_trans (roundHalfEven_mono bound) (Nat.le_of_eq ?_)
      exact roundHalfEven_whole (Nat.mul_pos pos (Nat.pow_pos (by decide)))
    have below : f.fractions ≤ roundHalfEven b (den * Nat.pow 2 j) := by
      have scaledPos : 0 < den * Nat.pow 2 j := Nat.mul_pos pos (Nat.pow_pos (by decide))
      refine Nat.le_trans ?_ roundHalfEven_bounds.1
      rw [Nat.le_div_iff_mul_le scaledPos]
      have wide : 2 ^ (f.fractionBits + j) ≤ b / den := by
        have nonzero : b / den ≠ 0 := by
          intro zero
          rw [zero, Nat.log2_zero] at shift'
          omega
        have bits : f.fractionBits + j = (b / den).log2 := by omega
        rw [bits]
        exact Nat.log2_self_le nonzero
      have product := (Nat.le_div_iff_mul_le pos).1 wide
      refine Nat.le_trans (Nat.le_of_eq ?_) product
      rw [fractions, Nat.pow_eq, Nat.pow_eq, Nat.pow_add]
      ac_rfl
    calc i * f.fractions + roundHalfEven a (den * Nat.pow 2 i)
        ≤ i * f.fractions + 2 * f.fractions := Nat.add_le_add_left above _
      _ = (i + 1) * f.fractions + f.fractions := by rw [Nat.add_mul]; omega
      _ ≤ j * f.fractions + f.fractions := Nat.add_le_add_right (Nat.mul_le_mul_right _ apart) _
      _ ≤ j * f.fractions + roundHalfEven b (den * Nat.pow 2 j) := Nat.add_le_add_left below _

/-- A larger quotient is not rounded to a smaller magnitude. -/
theorem round_le_round (pos : 0 < den) (pos' : 0 < den') (h : num * den' ≤ num' * den) :
    f.round num den ≤ f.round num' den' := by
  have left : f.round (den' * num) (den' * den) = f.round num den := f.round_mul pos'
  have right : f.round (den * num') (den * den') = f.round num' den' := f.round_mul pos
  rw [← left, ← right, Nat.mul_comm den den']
  refine f.round_mono (Nat.mul_pos pos' pos) ?_
  rwa [Nat.mul_comm den', Nat.mul_comm den]

theorem round_le_infinity : f.round num den ≤ f.infinity := Nat.min_le_right _ _

theorem round_units (bounded : m ≤ f.infinity) :
    f.round (f.units m) (Nat.pow 2 f.scale) = m :=
  f.round_exact (Nat.pow_pos (by decide)) bounded rfl

/-! ## Neighbours -/

/-- What is rounded to a number lies below the next larger one. -/
theorem lt_units_of_round (pos : 0 < den) (finite : m < f.infinity) (h : f.round num den = m) :
    num * Nat.pow 2 f.scale < f.units (m + 1) * den := by
  by_contra large
  have upper : f.round (f.units (m + 1)) (Nat.pow 2 f.scale) ≤ f.round num den :=
    f.round_le_round (Nat.pow_pos (by decide)) pos (Nat.not_lt.1 large)
  rw [f.round_units finite, h] at upper
  omega

/-- What is rounded to a number lies above the next smaller one. -/
theorem units_lt_of_round (pos : 0 < den) (h : f.round num den = m + 1) :
    f.units m * den < num * Nat.pow 2 f.scale := by
  by_contra small
  have bounded : m + 1 ≤ f.infinity := h ▸ f.round_le_infinity
  have lower : f.round num den ≤ f.round (f.units m) (Nat.pow 2 f.scale) :=
    f.round_le_round pos (Nat.pow_pos (by decide)) (Nat.not_lt.1 small)
  rw [f.round_units (by omega), h] at lower
  omega

/-- The step from a number to the next larger one. -/
theorem units_succ (m : Nat) :
    f.units (m + 1) = f.units m + Nat.pow 2 (m / f.fractions - 1) := by
  have pos := f.fractions_pos
  have whole := Nat.div_add_mod m f.fractions
  have below := Nat.mod_lt m pos
  by_cases last : m % f.fractions + 1 = f.fractions
  · obtain ⟨quotient, remainder⟩ : (m + 1) / f.fractions = m / f.fractions + 1 ∧
        (m + 1) % f.fractions = 0 := (Nat.div_mod_unique pos).2 ⟨by rw [Nat.mul_succ]; omega, pos⟩
    unfold units
    dsimp only
    rw [quotient, remainder, if_neg (Nat.succ_ne_zero _)]
    split
    next zero => simp [zero, last]
    next nonzero =>
      obtain ⟨e, he⟩ := Nat.exists_eq_succ_of_ne_zero nonzero
      have double : f.fractions + f.fractions = (f.fractions + m % f.fractions) + 1 := by omega
      simp only [he, Nat.succ_eq_add_one, Nat.add_sub_cancel, Nat.add_zero, Nat.pow_eq]
      rw [Nat.pow_succ, Nat.mul_comm _ 2, ← Nat.mul_assoc, Nat.mul_two, double, Nat.succ_mul]
  · obtain ⟨quotient, remainder⟩ : (m + 1) / f.fractions = m / f.fractions ∧
        (m + 1) % f.fractions = m % f.fractions + 1 :=
      (Nat.div_mod_unique pos).2 ⟨by omega, by omega⟩
    unfold units
    dsimp only
    rw [quotient, remainder]
    split
    next zero => simp [zero]
    next => rw [← Nat.add_assoc, Nat.succ_mul]

theorem step_le_units (small : k ≤ f.fractions) (h : k ≤ m) :
    k * Nat.pow 2 (m / f.fractions - 1) ≤ f.units m := by
  unfold units
  dsimp only
  split
  next zero =>
    have whole := Nat.div_add_mod m f.fractions
    rw [zero, Nat.mul_zero, Nat.zero_add] at whole
    rw [zero, whole]
    simpa using h
  next => exact Nat.mul_le_mul_right _ (by omega)

/-- From a number on, the next larger one is larger by a small part only. -/
theorem units_succ_le (small : k ≤ f.fractions) (h : k ≤ m) :
    k * f.units (m + 1) ≤ (k + 1) * f.units m := by
  rw [units_succ, Nat.mul_add, Nat.succ_mul]
  exact Nat.add_le_add_left (f.step_le_units small h) _

/-- The least numbers are those units themselves. -/
theorem units_small (h : m < f.fractions) : f.units m = m := by
  unfold units
  simp [Nat.div_eq_of_lt h, Nat.mod_eq_of_lt h]

end BinaryFormat

end Slotform
