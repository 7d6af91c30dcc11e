import Slotform.Binary.Text

namespace Slotform

variable {num den factor : Nat}

theorem roundHalfEven_mul (pos : 0 < factor) :
    roundHalfEven (factor * num) (factor * den) = roundHalfEven num den := by
  have twice : 2 * (factor * (num % den)) = factor * (2 * (num % den)) := Nat.mul_left_comm _ _ _
  unfold roundHalfEven
  simp only [Nat.mul_div_mul_left _ _ pos, Nat.mul_mod_mul_left, twice,
    Nat.mul_lt_mul_left pos, Nat.mul_right_inj (Nat.ne_of_gt pos)]

/-- A whole quotient is not rounded. -/
theorem roundHalfEven_whole (pos : 0 < den) : roundHalfEven (num * den) den = num := by
  unfold roundHalfEven
  simp [Nat.mul_div_cancel _ pos, pos]

theorem roundHalfEven_zero : roundHalfEven 0 den = 0 := by
  unfold roundHalfEven
  cases den <;> simp

namespace BinaryFormat

variable (f : BinaryFormat) {m : Nat}

theorem fractions_pos : 0 < f.fractions := Nat.pow_pos (by decide)

/-! ## Rounding a quotient -/

theorem round_mul (pos : 0 < factor) : f.round (factor * num) (factor * den) = f.round num den := by
  have scaled : factor * num * Nat.pow 2 f.scale = factor * (num * Nat.pow 2 f.scale) :=
    Nat.mul_assoc _ _ _
  have shifted (k : Nat) : factor * den * Nat.pow 2 k = factor * (den * Nat.pow 2 k) :=
    Nat.mul_assoc _ _ _
  unfold round
  simp only [scaled, shifted, Nat.mul_div_mul_left _ _ pos, roundHalfEven_mul pos]

theorem round_zero : f.round 0 den = 0 := by
  unfold round
  simp [Nat.log2_zero, roundHalfEven_zero]

/-- The significant bits of a number of the format are one more than its fraction has. -/
theorem log2_units (m : Nat) : (f.units m).log2 - f.fractionBits = m / f.fractions - 1 := by
  have below : m % f.fractions < Nat.pow 2 f.fractionBits := Nat.mod_lt _ f.fractions_pos
  have bits : f.fractions = 2 ^ f.fractionBits := rfl
  unfold units
  dsimp only
  split
  next subnormal =>
    rw [subnormal, Nat.zero_sub, Nat.sub_eq_zero_iff_le]
    rcases Nat.eq_zero_or_pos (m % f.fractions) with zero | pos
    · rw [zero, Nat.log2_zero]
      exact Nat.zero_le _
    · exact Nat.le_of_lt ((Nat.log2_lt (Nat.ne_of_gt pos)).2 below)
  next normal =>
    have log : ((f.fractions + m % f.fractions) * Nat.pow 2 (m / f.fractions - 1)).log2 =
        f.fractionBits + (m / f.fractions - 1) := by
      have pos : 0 < f.fractions + m % f.fractions := Nat.add_pos_left f.fractions_pos _
      rw [Nat.pow_eq, Nat.log2_eq_iff (Nat.ne_of_gt (Nat.mul_pos pos (Nat.pow_pos (by decide))))]
      rw [Nat.add_right_comm, Nat.pow_add, Nat.pow_add]
      refine ⟨Nat.mul_le_mul_right _ (Nat.le_add_right _ _),
        Nat.mul_lt_mul_of_pos_right ?_ (Nat.pow_pos (by decide))⟩
      rw [Nat.pow_succ, Nat.mul_two, bits]
      exact Nat.add_lt_add_left below _
    rw [log, Nat.add_sub_cancel_left]

/-- A number of the format is not rounded. -/
theorem round_exact (pos : 0 < den) (bounded : m ≤ f.infinity)
    (h : num * Nat.pow 2 f.scale = f.units m * den) : f.round num den = m := by
  unfold round
  simp only [h, Nat.mul_div_cancel _ pos, log2_units]
  have split := Nat.div_add_mod m f.fractions
  have significant : roundHalfEven (f.units m * den) (den * Nat.pow 2 (m / f.fractions - 1)) =
      if m / f.fractions = 0 then m % f.fractions else f.fractions + m % f.fractions := by
    have widened : 0 < den * Nat.pow 2 (m / f.fractions - 1) :=
      Nat.mul_pos pos (Nat.pow_pos (by decide))
    unfold units
    dsimp only
    by_cases subnormal : m / f.fractions = 0
    · simp only [subnormal, if_true, Nat.zero_sub, Nat.pow_eq, Nat.pow_zero, Nat.mul_one]
      exact roundHalfEven_whole pos
    · simp only [if_neg subnormal]
      rw [Nat.mul_assoc, Nat.mul_comm _ den]
      exact roundHalfEven_whole widened
  rw [significant]
  have whole : (m / f.fractions - 1) * f.fractions +
      (if m / f.fractions = 0 then m % f.fractions else f.fractions + m % f.fractions) = m := by
    by_cases subnormal : m / f.fractions = 0
    · simp only [subnormal, if_true, Nat.zero_sub, Nat.zero_mul, Nat.zero_add]
      simpa [subnormal] using split
    · have pos := Nat.pos_of_ne_zero subnormal
      rw [if_neg subnormal, ← Nat.add_assoc, ← Nat.succ_mul, Nat.succ_eq_add_one,
        Nat.sub_add_cancel pos, Nat.mul_comm]
      exact split
  rw [whole]
  exact Nat.min_eq_left bounded

/-- Far above the numbers of the format there is only infinity. -/
theorem round_overflow (pos : 0 < den) (large : den * Nat.pow 10 f.exponents ≤ num) :
    f.round num den = f.infinity := by
  have quotient : 2 ^ (f.exponents + f.scale) ≤ num * Nat.pow 2 f.scale / den := by
    rw [Nat.le_div_iff_mul_le pos, Nat.pow_add, Nat.mul_right_comm]
    refine Nat.mul_le_mul_right _ (Nat.le_trans ?_ large)
    rw [Nat.mul_comm]
    exact Nat.mul_le_mul_left _ (Nat.pow_le_pow_left (by decide) _)
  have log : f.exponents + f.scale ≤ (num * Nat.pow 2 f.scale / den).log2 :=
    (Nat.le_log2 (Nat.ne_of_gt (Nat.lt_of_lt_of_le (Nat.pow_pos (by decide)) quotient))).2 quotient
  have scaled : f.fractionBits ≤ f.scale := Nat.le_add_left _ _
  unfold round
  refine Nat.min_eq_right (Nat.le_trans (Nat.mul_le_mul_right _ ?_) (Nat.le_add_right _ _))
  omega

/-! ## Shortest decimals -/

theorem readsBack_decimalAt {place digits : Nat} (h : f.decimalAt m place = some digits) :
    f.readsBack m digits place = true := by
  unfold decimalAt at h
  dsimp only at h
  split at h
  next below above =>
    cases h
    split
    · exact above
    · exact below
  next below _ =>
    cases h
    exact below
  next _ above =>
    cases h
    exact above
  · cases h

/-- At the lowest place a decimal is exact. -/
theorem readsBack_decimalUnits (finite : m < f.infinity) :
    f.readsBack m (f.decimalUnits m) 0 = true := by
  have ten : Nat.pow 10 f.scale = Nat.pow 5 f.scale * Nat.pow 2 f.scale :=
    Nat.mul_pow 5 2 f.scale
  refine decide_eq_true (f.round_exact (Nat.pow_pos (by decide)) (Nat.le_of_lt finite) ?_)
  rw [decimalUnits, ten]
  simp only [Nat.pow_eq, Nat.pow_zero, Nat.mul_one, Nat.mul_assoc]

theorem readsBack_shortest (finite : m < f.infinity) :
    f.readsBack m (f.shortest m).digits (f.shortest m).place = true := by
  have found (place : Nat) :
      f.readsBack m (f.shortestFrom m place).digits (f.shortestFrom m place).place = true := by
    induction place with
    | zero => exact f.readsBack_decimalUnits finite
    | succ place ih =>
      rw [shortestFrom]
      split
      next digits at_place => exact f.readsBack_decimalAt at_place
      next => exact ih
  exact found _

/-- The shortest decimal of a number rounds to it. -/
theorem round_shortest (finite : m < f.infinity) :
    f.round ((f.shortest m).digits * Nat.pow 10 (f.shortest m).place) (Nat.pow 10 f.scale) = m :=
  of_decide_eq_true (f.readsBack_shortest finite)

end BinaryFormat

end Slotform
