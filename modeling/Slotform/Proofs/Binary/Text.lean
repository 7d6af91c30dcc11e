import Mathlib.Data.List.TakeWhile
import Slotform.Binary.Text
import Slotform.Proofs.Binary.Rounding
import Slotform.Proofs.Decimal

namespace Slotform

/-! ## Digits with a point -/

namespace Decimal

variable {text : List Char}

theorem value_zeros (n : Nat) : value (List.replicate n '0' ++ text) = value text := by
  rw [value, Nat.ofDigitChars_append, Nat.ofDigitChars_replicate_zero, Nat.mul_zero]
  rfl

theorem value_append_zeros (n : Nat) :
    value (text ++ List.replicate n '0') = value text * Nat.pow 10 n := by
  rw [value, Nat.ofDigitChars_append, Nat.ofDigitChars_replicate_zero, Nat.mul_comm]
  rfl

theorem isDigit_of_mem_zeros {n : Nat} {c : Char} (h : c ∈ List.replicate n '0') :
    c.isDigit = true := by
  rw [List.eq_of_mem_replicate h]
  decide

end Decimal

namespace BinaryFormat

variable (f : BinaryFormat)

section Reading

variable {whole fraction digits : List Char}

theorem splitDigits_whole (hw : ∀ c ∈ whole, c.isDigit = true) :
    splitDigits whole = (whole, [], []) := by
  have taken : whole.takeWhile Char.isDigit = whole := List.takeWhile_eq_self_iff.2 hw
  have dropped : whole.dropWhile Char.isDigit = [] := List.dropWhile_eq_nil_iff.2 hw
  rw [splitDigits, taken, dropped]

theorem splitDigits_pointed (hw : ∀ c ∈ whole, c.isDigit = true)
    (hf : ∀ c ∈ fraction, c.isDigit = true) :
    splitDigits (whole ++ '.' :: fraction) = (whole, fraction, []) := by
  have point : ('.' : Char).isDigit = false := by decide
  have taken : (whole ++ '.' :: fraction).takeWhile Char.isDigit = whole := by
    rw [List.takeWhile_append_of_pos hw, List.takeWhile_cons, point]
    simp
  have dropped : (whole ++ '.' :: fraction).dropWhile Char.isDigit = '.' :: fraction := by
    rw [List.dropWhile_append_of_pos hw, List.dropWhile_cons, point]
    rfl
  rw [splitDigits, taken, dropped]
  simp only [List.takeWhile_eq_self_iff.2 hf, List.dropWhile_eq_nil_iff.2 hf]

/-- A text that starts with a digit is none of the words. -/
theorem readMagnitude_of_digit {c : Char} {rest : List Char} (hc : c.isDigit = true) :
    f.readMagnitude (c :: rest) =
      match splitDigits (c :: rest) with
      | (whole, fraction, rest) =>
        if whole.isEmpty && fraction.isEmpty then none
        else (readExponent rest).map fun exponent =>
          f.ofDecimal (Decimal.value (whole ++ fraction)) (exponent - fraction.length) := by
  have lower : c.toLower = c := by
    simp only [Char.isDigit, Bool.and_eq_true, decide_eq_true_eq] at hc
    unfold Char.toLower
    rw [dif_neg]
    intro upper
    exact absurd (UInt32.le_trans upper.1 hc.2) (by decide)
  have no_word {first : Char} {word : List Char} (h : first.isDigit = false) :
      (c :: rest).map Char.toLower ≠ first :: word := by
    rintro ⟨⟩
    rw [lower] at h
    exact Bool.false_ne_true (h.symm.trans hc)
  unfold readMagnitude
  dsimp only
  rw [if_neg, if_neg]
  · exact no_word (by decide)
  · rw [not_or]
    exact ⟨no_word (by decide), no_word (by decide)⟩

theorem readMagnitude_whole (nonempty : whole ≠ []) (hw : ∀ c ∈ whole, c.isDigit = true) :
    f.readMagnitude whole = some (f.ofDecimal (Decimal.value whole) 0) := by
  obtain ⟨c, rest, rfl⟩ := List.exists_cons_of_ne_nil nonempty
  rw [f.readMagnitude_of_digit (hw c List.mem_cons_self), splitDigits_whole hw]
  simp [readExponent]

theorem readMagnitude_pointed (nonempty : whole ≠ []) (hw : ∀ c ∈ whole, c.isDigit = true)
    (hf : ∀ c ∈ fraction, c.isDigit = true) :
    f.readMagnitude (whole ++ '.' :: fraction) =
      some (f.ofDecimal (Decimal.value (whole ++ fraction)) (-(fraction.length : Int))) := by
  obtain ⟨c, rest, rfl⟩ := List.exists_cons_of_ne_nil nonempty
  have split := splitDigits_pointed hw hf
  rw [List.cons_append] at split ⊢
  rw [f.readMagnitude_of_digit (hw c List.mem_cons_self), split]
  simp [readExponent]

/-- A point moves into digits, or zeros fill up to it. -/
theorem pointed_eq (hd : ∀ c ∈ digits, c.isDigit = true) (n : Nat) :
    ∃ whole fraction, pointed digits n = whole ++ '.' :: fraction ∧ whole ≠ [] ∧
      (∀ c ∈ whole, c.isDigit = true) ∧ (∀ c ∈ fraction, c.isDigit = true) ∧
      fraction.length = n ∧ Decimal.value (whole ++ fraction) = Decimal.value digits := by
  unfold pointed
  split
  next inside =>
    refine ⟨_, _, rfl, ?_, fun c hc => hd c (List.mem_of_mem_take hc),
      fun c hc => hd c (List.mem_of_mem_drop hc), ?_, by rw [List.take_append_drop]⟩
    · intro none
      have length := congrArg List.length none
      rw [List.length_take, List.length_nil] at length
      omega
    · rw [List.length_drop]
      omega
  next outside =>
    refine ⟨['0'], _, rfl, by simp, by simp [show ('0' : Char).isDigit = true by decide], ?_, ?_, ?_⟩
    · intro c hc
      rcases List.mem_append.1 hc with hc | hc
      · exact Decimal.isDigit_of_mem_zeros hc
      · exact hd c hc
    · rw [List.length_append, List.length_replicate]
      omega
    · rw [← List.append_assoc]
      exact Decimal.value_zeros (n - digits.length + 1)

end Reading

/-! ## Decimals near the format's range -/

/-- Within the reach of the guards a decimal is rounded. -/
theorem ofDecimal_eq_round {n k : Nat} (nonzero : n ≠ 0) (scaled : k ≤ f.scale)
    (narrow : f.scale ≤ f.exponents) (finite : f.round n (Nat.pow 10 k) < f.infinity) :
    f.ofDecimal n (-(k : Int)) = f.round n (Nat.pow 10 k) := by
  have reach : 0 < f.exponents := Nat.pow_pos (by decide)
  have digit := Decimal.digitCount_pos n
  have below : Decimal.digitCount n ≤ k + f.exponents := by
    by_contra above
    have large : ¬ n < 10 ^ (k + f.exponents) := fun small => above
      ((Nat.length_toDigits_le_iff (by decide) (Nat.add_pos_right k reach)).2 small)
    rw [Nat.pow_add] at large
    exact Nat.ne_of_lt finite (f.round_overflow (Nat.pow_pos (by decide)) (Nat.not_lt.1 large))
  unfold ofDecimal
  dsimp only
  rw [if_neg nonzero, if_neg (by omega), if_neg (by omega)]
  rcases Nat.eq_zero_or_pos k with rfl | pos
  · simp
  · rw [if_neg (by omega), Int.neg_neg, Int.toNat_natCast]

/-- A decimal that rounds to a finite number other than zero reads back as that number. -/
theorem readMagnitude_plain (narrow : f.scale ≤ f.exponents) {d : Numeral} {m : Nat} (pos : 0 < m)
    (finite : m < f.infinity)
    (rounds : f.round (d.digits * Nat.pow 10 d.place) (Nat.pow 10 f.scale) = m) :
    f.readMagnitude (d.plain f) = some m := by
  have nonzero : d.digits ≠ 0 := by
    intro zero
    rw [zero, Nat.zero_mul, round_zero] at rounds
    omega
  have digits : ∀ c ∈ Decimal.digits d.digits, c.isDigit = true :=
    fun _ => Decimal.isDigit_of_mem_digits
  unfold Numeral.plain
  split
  next whole =>
    have scaled : f.round (d.digits * Nat.pow 10 (d.place - f.scale)) (Nat.pow 10 0) = m := by
      rw [← rounds, ← f.round_mul (Nat.pow_pos (by decide) : 0 < 10 ^ f.scale)]
      congr 1
      · rw [Nat.mul_left_comm, Nat.pow_eq, Nat.pow_eq, ← Nat.pow_add, Nat.add_sub_cancel' whole]
      · exact Nat.mul_one _
    rw [f.readMagnitude_whole]
    · rw [Decimal.value_append_zeros, Decimal.value_digits]
      have read := f.ofDecimal_eq_round (k := 0)
        (Nat.mul_ne_zero nonzero (Nat.ne_of_gt (Nat.pow_pos (by decide)))) (Nat.zero_le _) narrow
        (scaled.symm ▸ finite)
      exact congrArg some (read.trans scaled)
    · simp [Decimal.digits_ne_nil]
    · intro c hc
      rcases List.mem_append.1 hc with hc | hc
      · exact digits c hc
      · exact Decimal.isDigit_of_mem_zeros hc
  next broken =>
    have scaled : f.round d.digits (Nat.pow 10 (f.scale - d.place)) = m := by
      rw [← rounds, ← f.round_mul (Nat.pow_pos (by decide) : 0 < 10 ^ d.place)]
      congr 1
      · exact Nat.mul_comm _ _
      · rw [Nat.pow_eq, Nat.pow_eq, ← Nat.pow_add, Nat.add_sub_cancel' (by omega)]
    obtain ⟨whole, fraction, text, nonempty, hw, hf, length, value⟩ :=
      pointed_eq digits (f.scale - d.place)
    rw [text, f.readMagnitude_pointed nonempty hw hf, value, length, Decimal.value_digits,
      f.ofDecimal_eq_round nonzero (Nat.sub_le _ _) narrow (scaled.symm ▸ finite), scaled]

/-- The characters of a decimal. -/
theorem mem_plain {d : Numeral} {c : Char} (h : c ∈ d.plain f) : c.isDigit = true ∨ c = '.' := by
  have digits : ∀ c ∈ Decimal.digits d.digits, c.isDigit = true :=
    fun _ => Decimal.isDigit_of_mem_digits
  unfold Numeral.plain at h
  split at h
  · rcases List.mem_append.1 h with h | h
    · exact .inl (digits c h)
    · exact .inl (Decimal.isDigit_of_mem_zeros h)
  · obtain ⟨whole, fraction, text, _, hw, hf, _, _⟩ := pointed_eq digits (f.scale - d.place)
    rw [text] at h
    rcases List.mem_append.1 h with h | h
    · exact .inl (hw c h)
    · rcases List.mem_cons.1 h with h | h
      · exact .inr h
      · exact .inl (hf c h)

/-- A decimal starts with a digit. -/
theorem plain_eq_cons (d : Numeral) : ∃ c rest, d.plain f = c :: rest ∧ c.isDigit = true := by
  have digits : ∀ c ∈ Decimal.digits d.digits, c.isDigit = true :=
    fun _ => Decimal.isDigit_of_mem_digits
  unfold Numeral.plain
  split
  · obtain ⟨c, rest, h, hc⟩ := Decimal.digits_eq_cons d.digits
    exact ⟨c, _, by rw [h]; rfl, hc⟩
  · obtain ⟨whole, fraction, text, nonempty, hw, _⟩ := pointed_eq digits (f.scale - d.place)
    obtain ⟨c, rest, rfl⟩ := List.exists_cons_of_ne_nil nonempty
    exact ⟨c, _, by rw [text]; rfl, hw c List.mem_cons_self⟩

end BinaryFormat

namespace Binary

variable {f : BinaryFormat}

def magnitudeText (f : BinaryFormat) (m : Nat) : List Char :=
  if m = f.infinity then "inf".toList
  else if m = 0 then ['0']
  else (f.shortest m).plain f

theorem plain_eq (x : Binary f) : x.plain =
    if x.isNaN then "NaN".toList
    else if x.negative then '-' :: magnitudeText f x.magnitude
    else magnitudeText f x.magnitude := by
  have body : magnitudeText f x.magnitude = if x.isInfinite then "inf".toList
      else if x.isZero then ['0'] else (f.shortest x.magnitude).plain f := by
    simp only [magnitudeText, isInfinite, isZero, decide_eq_true_eq]
  rw [body]
  rfl

theorem readMagnitude_magnitudeText (narrow : f.scale ≤ f.exponents) {m : Nat}
    (number : m ≤ f.infinity) : f.readMagnitude (magnitudeText f m) = some m := by
  unfold magnitudeText
  split
  next infinite =>
    subst infinite
    rfl
  next finite =>
    split
    next zero =>
      subst zero
      rfl
    next nonzero =>
      have finite := Nat.lt_of_le_of_ne number finite
      exact f.readMagnitude_plain narrow (Nat.pos_of_ne_zero nonzero) finite
        (f.round_shortest finite)

/-- No sign is taken off the text of a magnitude. -/
theorem magnitudeText_eq_cons (f : BinaryFormat) (m : Nat) :
    ∃ c rest, magnitudeText f m = c :: rest ∧ c ≠ '-' ∧ c ≠ '+' := by
  unfold magnitudeText
  split
  · exact ⟨'i', ['n', 'f'], rfl, by decide, by decide⟩
  · split
    · exact ⟨'0', [], rfl, by decide, by decide⟩
    · obtain ⟨c, rest, h, hc⟩ := f.plain_eq_cons (f.shortest m)
      refine ⟨c, rest, h, ?_, ?_⟩ <;> rintro rfl <;> exact absurd hc (by decide)

theorem read?_of_unsigned {c : Char} {rest : List Char} (minus : c ≠ '-') (plus : c ≠ '+') :
    (read? (c :: rest) : Option (Binary f)) =
      (f.readMagnitude (c :: rest)).map (Binary.mk false) := by
  unfold read?
  split
  next h => exact absurd (List.cons.inj h).1 minus
  next h => exact absurd (List.cons.inj h).1 plus
  · rfl

/-- A number reads back from its plain text. -/
theorem read?_plain (narrow : f.scale ≤ f.exponents) (x : Binary f) (number : x.isNaN = false) :
    read? x.plain = some x := by
  have bounded : x.magnitude ≤ f.infinity := Nat.not_lt.1 (of_decide_eq_false number)
  have read := readMagnitude_magnitudeText narrow bounded
  rw [plain_eq, number]
  obtain ⟨negative, m⟩ := x
  cases negative with
  | true =>
    have signed : read? ('-' :: magnitudeText f m) =
        (f.readMagnitude (magnitudeText f m)).map (Binary.mk true) := rfl
    simp only [if_true, Bool.false_eq_true, if_false, signed, read, Option.map_some]
  | false =>
    obtain ⟨c, rest, h, minus, plus⟩ := magnitudeText_eq_cons f m
    simp only [Bool.false_eq_true, if_false]
    rw [h, read?_of_unsigned minus plus, ← h, read, Option.map_some]

/-- Whatever is not a number reads back as the least such magnitude without a sign. -/
theorem read?_plain_nan (x : Binary f) (nan : x.isNaN = true) :
    read? x.plain = some (⟨false, f.infinity + 1⟩ : Binary f) := by
  rw [plain_eq, nan]
  rfl

theorem space_not_mem_plain (x : Binary f) : ' ' ∉ x.plain := by
  have inside : ' ' ∉ magnitudeText f x.magnitude := by
    unfold magnitudeText
    split
    · decide
    · split
      · decide
      · intro h
        rcases f.mem_plain h with h | h <;> exact absurd h (by decide)
  rw [plain_eq]
  split
  · decide
  · split
    · simp [inside]
    · exact inside

end Binary

end Slotform
