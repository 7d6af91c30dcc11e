import Slotform.Proofs.Binary.Monotone
import Slotform.Proofs.Binary.Text

/-!
# How long the plain text of a number is

The shortest decimal of a number stands at the highest place that any decimal of the number has
(`BinaryFormat.place_le`), and it does not cross a power of ten that another decimal of the number
lies below (`BinaryFormat.shortest_le_pow`). So a number that was read from a decimal without an
exponent is written in at most one character more (`Binary.length_plain_le`); the one is for a
missing zero in front of the point, or for a carry out of nines that no point follows.
-/

namespace Slotform

namespace BinaryFormat

variable (f : BinaryFormat) {m : Nat}

/-! ## Decimals of one number -/

theorem round_between {low middle high den : Nat} (pos : 0 < den) (lower : low ≤ middle)
    (upper : middle ≤ high) (hlow : f.round low den = m) (hhigh : f.round high den = m) :
    f.round middle den = m :=
  Nat.le_antisymm (hhigh ▸ f.round_mono pos upper) (hlow ▸ f.round_mono pos lower)

theorem decimalUnits_scaled (m : Nat) :
    f.decimalUnits m * Nat.pow 2 f.scale = f.units m * Nat.pow 10 f.scale := by
  have ten : Nat.pow 10 f.scale = Nat.pow 5 f.scale * Nat.pow 2 f.scale := Nat.mul_pow 5 2 f.scale
  rw [decimalUnits, ten, Nat.mul_assoc]

theorem round_decimalUnits (bounded : m ≤ f.infinity) :
    f.round (f.decimalUnits m) (Nat.pow 10 f.scale) = m :=
  f.round_exact (Nat.pow_pos (by decide)) bounded (f.decimalUnits_scaled m)

theorem lt_decimalUnits {n : Nat} (finite : m < f.infinity)
    (h : f.round n (Nat.pow 10 f.scale) = m) : n < f.decimalUnits (m + 1) := by
  have scaled : n * Nat.pow 2 f.scale < f.units (m + 1) * Nat.pow 10 f.scale :=
    f.lt_units_of_round (Nat.pow_pos (by decide)) finite h
  rw [← decimalUnits_scaled] at scaled
  exact Nat.lt_of_mul_lt_mul_right scaled

theorem decimalUnits_lt {n : Nat} (h : f.round n (Nat.pow 10 f.scale) = m + 1) :
    f.decimalUnits m < n := by
  have scaled : f.units m * Nat.pow 10 f.scale < n * Nat.pow 2 f.scale :=
    f.units_lt_of_round (Nat.pow_pos (by decide)) h
  rw [← decimalUnits_scaled] at scaled
  exact Nat.lt_of_mul_lt_mul_right scaled

theorem decimalUnits_succ_le {k : Nat} (small : k ≤ f.fractions) (h : k ≤ m) :
    k * f.decimalUnits (m + 1) ≤ (k + 1) * f.decimalUnits m := by
  simp only [decimalUnits, ← Nat.mul_assoc]
  exact Nat.mul_le_mul_right _ (f.units_succ_le small h)

/-! ## The place of the shortest decimal -/

/-- Of the decimals at one place those around the number are the first to read back. -/
theorem decimalAt_ne_none {digits place : Nat} (finite : m < f.infinity)
    (h : f.round (digits * Nat.pow 10 place) (Nat.pow 10 f.scale) = m) :
    f.decimalAt m place ≠ none := by
  have pos : 0 < Nat.pow 10 f.scale := Nat.pow_pos (by decide)
  have step : 0 < Nat.pow 10 place := Nat.pow_pos (by decide)
  have exact := f.round_decimalUnits (Nat.le_of_lt finite)
  have below : f.decimalUnits m / Nat.pow 10 place * Nat.pow 10 place ≤ f.decimalUnits m :=
    Nat.div_mul_le_self _ _
  have above : f.decimalUnits m ≤ (f.decimalUnits m / Nat.pow 10 place + 1) * Nat.pow 10 place :=
    Nat.le_of_lt (Nat.lt_mul_of_div_lt (Nat.lt_succ_self _) step)
  have around : f.readsBack m (f.decimalUnits m / Nat.pow 10 place) place = true ∨
      f.readsBack m (f.decimalUnits m / Nat.pow 10 place + 1) place = true := by
    by_cases under : digits * Nat.pow 10 place ≤ f.decimalUnits m
    · refine .inl (decide_eq_true (f.round_between pos ?_ below h exact))
      exact Nat.mul_le_mul_right _ ((Nat.le_div_iff_mul_le step).2 under)
    · refine .inr (decide_eq_true (f.round_between pos above ?_ exact h))
      exact Nat.mul_le_mul_right _ ((Nat.div_lt_iff_lt_mul step).2 (Nat.not_le.1 under))
  unfold decimalAt
  dsimp only
  split <;> simp_all

theorem place_shortestFrom {place : Nat} (found : f.decimalAt m place ≠ none) {start : Nat}
    (h : place ≤ start) : place ≤ (f.shortestFrom m start).place := by
  induction start with
  | zero => exact h
  | succ start ih =>
    unfold shortestFrom
    split
    · exact h
    next absent =>
      apply ih
      by_contra above
      have top : place = start + 1 := by omega
      exact found (top ▸ absent)

/-- No decimal of a number has a higher place than the shortest. -/
theorem place_le {digits place : Nat} (positive : 0 < m) (finite : m < f.infinity)
    (h : f.round (digits * Nat.pow 10 place) (Nat.pow 10 f.scale) = m) :
    place ≤ (f.shortest m).place := by
  refine f.place_shortestFrom (f.decimalAt_ne_none finite h) ?_
  by_contra above
  generalize length : (Nat.toDigits 10 (f.decimalUnits m)).length = top at above
  have short : f.decimalUnits m < 10 ^ top :=
    (Nat.length_toDigits_le_iff (by decide)
      (length ▸ List.length_pos_iff.2 (Decimal.digits_ne_nil _))).1 (Nat.le_of_eq length)
  have nonzero : 1 ≤ digits := by
    by_contra zero
    rw [show digits = 0 by omega, Nat.zero_mul, round_zero] at h
    omega
  have close := f.decimalUnits_succ_le (k := 1) f.fractions_pos positive
  have far : 10 ^ (top + 1) ≤ digits * Nat.pow 10 place :=
    Nat.le_trans (Nat.pow_le_pow_right (by decide) (by omega)) (Nat.le_mul_of_pos_left _ nonzero)
  have bound := f.lt_decimalUnits finite h
  rw [Nat.pow_succ] at far
  omega

/-! ## Powers of ten -/

/-- Of two decimals of a number that is not below one, neither is twice the other. -/
theorem lt_double (wide : 3 ≤ f.fractionBits) (finite : m < f.infinity) {n n' : Nat}
    (one : 10 ^ f.scale ≤ n) (h : f.round n (Nat.pow 10 f.scale) = m)
    (h' : f.round n' (Nat.pow 10 f.scale) = m) : n' < 2 * n := by
  by_contra double
  have upper := f.lt_decimalUnits finite h'
  have fractions : 2 ^ 3 ≤ f.fractions := Nat.pow_le_pow_right (by decide) wide
  -- Numbers that are so far apart are the least ones, and these lie far below one.
  by_cases large : 5 ≤ m
  · obtain ⟨k, rfl⟩ : ∃ k, m = k + 1 := ⟨m - 1, by omega⟩
    have lower := f.decimalUnits_lt h
    have first := f.decimalUnits_succ_le (m := k) (k := 4) (by omega) (by omega)
    have second := f.decimalUnits_succ_le (m := k + 1) (k := 4) (by omega) (by omega)
    omega
  · have small : f.decimalUnits (m + 1) ≤ 5 * 5 ^ f.scale := by
      rw [decimalUnits, f.units_small (by omega), ← Nat.pow_eq]
      exact Nat.mul_le_mul_right _ (by omega)
    have far : 2 ^ 3 * 5 ^ f.scale ≤ 10 ^ f.scale := by
      have bits : 3 ≤ f.scale := Nat.le_trans wide (Nat.le_add_left _ _)
      calc 2 ^ 3 * 5 ^ f.scale
          ≤ 2 ^ f.scale * 5 ^ f.scale :=
            Nat.mul_le_mul_right _ (Nat.pow_le_pow_right (by decide) bits)
        _ = 10 ^ f.scale := (Nat.mul_pow 2 5 f.scale).symm
    omega

/-- A number whose decimals lie on both sides of a power of ten is not written beyond it. -/
theorem shortest_le_pow (wide : 3 ≤ f.fractionBits) (positive : 0 < m) (finite : m < f.infinity)
    {digits fraction whole : Nat} (h : f.round digits (Nat.pow 10 fraction) = m)
    (below : digits < 10 ^ (whole + fraction)) :
    (f.shortest m).digits * Nat.pow 10 (f.shortest m).place ≤ 10 ^ (f.scale + whole) := by
  by_contra beyond
  have pos : 0 < Nat.pow 10 f.scale := Nat.pow_pos (by decide)
  have shortest := f.round_shortest finite
  -- The power lies between two decimals of the number, so it is one itself.
  have power : f.round (1 * Nat.pow 10 (f.scale + whole)) (Nat.pow 10 f.scale) = m := by
    rw [Nat.one_mul]
    refine Nat.le_antisymm ?_ ?_
    · rw [← shortest]
      exact f.round_mono pos (by rw [Nat.pow_eq]; omega)
    · rw [← h]
      refine f.round_le_round (Nat.pow_pos (by decide)) pos ?_
      have scaled := Nat.mul_le_mul_right (10 ^ f.scale) (Nat.le_of_lt below)
      rw [← Nat.pow_add] at scaled
      rw [Nat.pow_eq, Nat.pow_eq, Nat.pow_eq, ← Nat.pow_add]
      refine Nat.le_trans scaled (Nat.le_of_eq ?_)
      congr 1
      omega
  -- So the shortest decimal has no lower place, and is twice the power at least.
  obtain ⟨extra, split⟩ := Nat.exists_eq_add_of_le (f.place_le positive finite power)
  have factored : (f.shortest m).digits * Nat.pow 10 (f.shortest m).place =
      (f.shortest m).digits * 10 ^ extra * 10 ^ (f.scale + whole) := by
    rw [split, Nat.pow_eq, Nat.pow_add]
    ac_rfl
  rw [Nat.one_mul, Nat.pow_eq] at power
  have single := f.lt_double wide finite
    (Nat.pow_le_pow_right (by decide) (Nat.le_add_right _ _)) power shortest
  rw [factored] at beyond single
  apply beyond
  have few : (f.shortest m).digits * 10 ^ extra < 2 := Nat.lt_of_mul_lt_mul_right single
  exact Nat.le_trans (Nat.mul_le_mul_right _ (Nat.le_of_lt_succ few)) (Nat.le_of_eq (Nat.one_mul _))

/-! ## Lengths -/

theorem digitCount_le {n count : Nat} (pos : 0 < count) (h : n < 10 ^ count) :
    Decimal.digitCount n ≤ count :=
  (Nat.length_toDigits_le_iff (by decide) pos).2 h

theorem length_pointed (digits : List Char) (n : Nat) :
    (pointed digits n).length = max (digits.length - n) 1 + 1 + n := by
  unfold pointed
  split
  · rw [List.length_append, List.length_take, List.length_cons, List.length_drop]
    omega
  · simp only [List.length_cons, List.length_append, List.length_replicate]
    omega

/-- The whole part of a number is no longer than that of a decimal it was read from, and neither is
the fraction. A carry that lengthens the whole part leaves no fraction. -/
theorem length_plain_shortest_le (wide : 3 ≤ f.fractionBits) (positive : 0 < m)
    (finite : m < f.infinity) {digits fraction whole : Nat}
    (h : f.round digits (Nat.pow 10 fraction) = m) (below : digits < 10 ^ (whole + fraction)) :
    ((f.shortest m).plain f).length ≤ max whole 1 + 1 + fraction := by
  have bound := f.shortest_le_pow wide positive finite h below
  have place {d p : Nat} (h : f.round (d * Nat.pow 10 p) (Nat.pow 10 f.scale) = m) :
      p ≤ (f.shortest m).place := f.place_le positive finite h
  have shortest := f.round_shortest finite
  generalize f.shortest m = least at bound place shortest ⊢
  unfold Numeral.plain
  split
  next large =>
    obtain ⟨zeros, split⟩ := Nat.exists_eq_add_of_le large
    have inside : least.digits * 10 ^ zeros ≤ 10 ^ whole := by
      rw [split, Nat.pow_eq, Nat.pow_add, Nat.pow_add, Nat.mul_left_comm] at bound
      exact Nat.le_of_mul_le_mul_left bound (Nat.pow_pos (by decide))
    have nonzero : 0 < least.digits := by
      apply Nat.pos_of_ne_zero
      intro zero
      rw [zero, Nat.zero_mul, round_zero] at shortest
      omega
    have few : zeros ≤ whole := (Nat.pow_le_pow_iff_right (by decide : 1 < 10)).1
      (Nat.le_trans (Nat.le_mul_of_pos_left _ nonzero) inside)
    have narrow : Decimal.digitCount least.digits ≤ whole + 1 - zeros := by
      refine digitCount_le (by omega) (Nat.lt_of_mul_lt_mul_right (a := 10 ^ zeros) ?_)
      rw [← Nat.pow_add, Nat.sub_add_cancel (by omega)]
      exact Nat.lt_of_le_of_lt inside (Nat.pow_lt_pow_right (by decide) (Nat.lt_succ_self _))
    rw [List.length_append, List.length_replicate, split]
    unfold Decimal.digitCount at narrow
    omega
  next small =>
    obtain ⟨places, split⟩ := Nat.exists_eq_add_of_lt (Nat.not_le.1 small)
    have places_le : places + 1 ≤ fraction := by
      by_contra more
      have exact : f.round (digits * Nat.pow 10 (f.scale - fraction)) (Nat.pow 10 f.scale) = m := by
        have scale : Nat.pow 10 (f.scale - fraction) * Nat.pow 10 fraction = Nat.pow 10 f.scale := by
          rw [Nat.pow_eq, Nat.pow_eq, ← Nat.pow_add, Nat.sub_add_cancel (by omega), Nat.pow_eq]
        rw [Nat.mul_comm, ← scale]
        exact (f.round_mul (Nat.pow_pos (by decide))).trans h
      have higher := place exact
      omega
    have inside : least.digits < 10 ^ (places + 1 + whole) := by
      have exponent : f.scale + whole = least.place + (places + 1 + whole) := by omega
      have factored := bound
      rw [exponent, Nat.pow_add, Nat.mul_comm, Nat.pow_eq] at factored
      refine Nat.lt_of_le_of_ne (Nat.le_of_mul_le_mul_left factored (Nat.pow_pos (by decide))) ?_
      intro power
      rw [power, Nat.pow_eq, ← Nat.pow_add, Nat.add_comm, ← exponent,
        ← Nat.one_mul (10 ^ _)] at shortest
      have higher := place shortest
      omega
    have narrow : Decimal.digitCount least.digits ≤ places + 1 + whole :=
      digitCount_le (by omega) inside
    rw [length_pointed, split]
    unfold Decimal.digitCount at narrow
    omega

/-! ## Decimals that are read -/

/-- A decimal is far above the format, or far below it, or is rounded. -/
theorem ofDecimal_cases (n k : Nat) :
    f.ofDecimal n (-(k : Int)) = f.infinity ∧ k + f.exponents < Decimal.digitCount n ∨
      f.ofDecimal n (-(k : Int)) = 0 ∨
      f.ofDecimal n (-(k : Int)) = f.round n (Nat.pow 10 k) := by
  unfold ofDecimal
  dsimp only
  split
  · exact .inr (.inl rfl)
  · split
    next far => exact .inl ⟨rfl, by omega⟩
    next =>
      split
      · exact .inr (.inl rfl)
      · refine .inr (.inr ?_)
        split
        next whole =>
          obtain rfl : k = 0 := by omega
          simp
        next => rw [Int.neg_neg, Int.toNat_natCast]

theorem splitDigits_cases {text whole fraction rest : List Char}
    (h : splitDigits text = (whole, fraction, rest)) :
    (∀ c ∈ whole, c.isDigit = true) ∧ (∀ c ∈ fraction, c.isDigit = true) ∧
      (text = whole ++ rest ∧ fraction = [] ∨ text = whole ++ '.' :: (fraction ++ rest)) := by
  have digits {text : List Char} : ∀ c ∈ text.takeWhile Char.isDigit, c.isDigit = true :=
    fun _ => List.mem_takeWhile_imp
  have parts := List.takeWhile_append_dropWhile (p := Char.isDigit) (l := text)
  unfold splitDigits at h
  dsimp only at h
  split at h
  next tail point =>
    cases h
    refine ⟨digits, digits, .inr ?_⟩
    rw [List.takeWhile_append_dropWhile, ← point, parts]
  next =>
    cases h
    exact ⟨digits, by simp, .inl ⟨parts.symm, rfl⟩⟩

/-- A text without an exponent is a word for infinity, or digits with at most one point. -/
theorem readMagnitude_positional {text : List Char} (h : f.readMagnitude text = some m)
    (bounded : m ≤ f.infinity) (lower : 'e' ∉ text) (upper : 'E' ∉ text) :
    m = f.infinity ∧ 3 ≤ text.length ∧ ' ' ∉ text ∨
      ∃ whole fraction : List Char,
        (∀ c ∈ whole, c.isDigit = true) ∧ (∀ c ∈ fraction, c.isDigit = true) ∧
        (text = whole ∧ fraction = [] ∨ text = whole ++ '.' :: fraction) ∧
        0 < whole.length + fraction.length ∧
        f.ofDecimal (Decimal.value (whole ++ fraction)) (-(fraction.length : Int)) = m := by
  have spaceless {word : List Char} (same : text.map Char.toLower = word)
      (bare : (' ' : Char).toLower ∉ word) : ' ' ∉ text :=
    fun inside => bare (same ▸ List.mem_map_of_mem inside)
  unfold readMagnitude at h
  dsimp only at h
  split at h
  next word =>
    refine .inl ⟨(Option.some.inj h).symm, ?_⟩
    rw [← List.length_map (f := Char.toLower)]
    rcases word with word | word
    · exact ⟨by rw [word]; decide, spaceless word (by decide)⟩
    · exact ⟨by rw [word]; decide, spaceless word (by decide)⟩
  next =>
    split at h
    next =>
      have above := Option.some.inj h
      omega
    next =>
      generalize parts : splitDigits text = triple at h
      obtain ⟨whole, fraction, rest⟩ := triple
      obtain ⟨hw, hf, shape⟩ := splitDigits_cases parts
      obtain ⟨nonempty, h⟩ := Option.ite_none_left_eq_some.1 h
      obtain ⟨exponent, follows, value⟩ := Option.map_eq_some_iff.1 h
      obtain ⟨rfl, rfl⟩ : rest = [] ∧ exponent = 0 := by
        cases rest with
        | nil => exact ⟨rfl, (Option.some.inj follows).symm⟩
        | cons mark rest =>
          have inside : mark ∈ text := by
            rcases shape with ⟨shape, _⟩ | shape <;> simp [shape]
          unfold readExponent at follows
          dsimp only at follows
          rw [if_neg] at follows
          · cases follows
          · rintro (rfl | rfl)
            · exact lower inside
            · exact upper inside
      rw [List.append_nil, List.append_nil] at shape
      refine .inr ⟨whole, fraction, hw, hf, shape, ?_, by rwa [Int.zero_sub] at value⟩
      by_contra empty
      have both : whole = [] ∧ fraction = [] :=
        ⟨List.eq_nil_of_length_eq_zero (by omega), List.eq_nil_of_length_eq_zero (by omega)⟩
      exact nonempty (by simp [both])

end BinaryFormat

namespace Binary

open BinaryFormat

variable {f : BinaryFormat} {m : Nat} {text : List Char}

/-- The text of a magnitude that was read from so many digits before and behind a point. -/
theorem length_magnitudeText_le (wide : 3 ≤ f.fractionBits) (modest : f.round 10 1 < f.infinity)
    {n whole fraction : Nat} (below : n < 10 ^ (whole + fraction)) (some : 0 < whole + fraction)
    (bounded : m ≤ f.infinity) (h : f.ofDecimal n (-(fraction : Int)) = m) :
    (magnitudeText f m).length ≤ max whole 1 + 1 + fraction := by
  unfold magnitudeText
  split
  next infinite =>
    -- Infinity takes more than one digit before the point.
    have tens : 2 ≤ whole := by
      by_contra few
      have small : n < 10 ^ (1 + fraction) :=
        Nat.lt_of_lt_of_le below (Nat.pow_le_pow_right (by decide) (by omega))
      rcases f.ofDecimal_cases n fraction with ⟨_, far⟩ | zero | rounded
      · have count := digitCount_le (by omega) small
        have exponents : 0 < f.exponents := Nat.pow_pos (by decide)
        omega
      · omega
      · have least : f.round n (Nat.pow 10 fraction) ≤ f.round 10 1 := by
          refine f.round_le_round (Nat.pow_pos (by decide)) Nat.one_pos ?_
          rw [Nat.pow_add] at small
          rw [Nat.mul_one]
          exact Nat.le_of_lt small
        omega
    have three : "inf".toList.length = 3 := by decide
    omega
  next finite =>
    split
    next => exact Nat.le_trans (Nat.le_max_right whole 1) (by omega)
    next nonzero =>
      refine f.length_plain_shortest_le wide (Nat.pos_of_ne_zero nonzero)
        (Nat.lt_of_le_of_ne bounded finite) ?_ below
      rcases f.ofDecimal_cases n fraction with ⟨far, _⟩ | zero | rounded
      · exact absurd (h.symm.trans far) finite
      · exact absurd (h.symm.trans zero) nonzero
      · exact rounded.symm.trans h

/-- A magnitude is written in at most one character more than a text without an exponent that it
was read from, and in no more characters if a point stands right behind a digit in that text. -/
theorem length_magnitudeText_read_le (wide : 3 ≤ f.fractionBits)
    (modest : f.round 10 1 < f.infinity) (h : f.readMagnitude text = some m)
    (bounded : m ≤ f.infinity) (lower : 'e' ∉ text) (upper : 'E' ∉ text) :
    ' ' ∉ text ∧ (magnitudeText f m).length ≤ text.length + 1 ∧
      ((∃ c : Char, c.isDigit = true ∧ [c, '.'] <:+: text) →
        (magnitudeText f m).length ≤ text.length) := by
  rcases f.readMagnitude_positional h bounded lower upper with
    ⟨infinite, long, bare⟩ | ⟨whole, fraction, hw, hf, shape, some, value⟩
  · have three : (magnitudeText f m).length = 3 := by
      rw [magnitudeText, if_pos infinite]
      decide
    exact ⟨bare, by omega, fun _ => by omega⟩
  · have digits : ∀ c ∈ whole ++ fraction, c.isDigit = true :=
      fun c hc => (List.mem_append.1 hc).elim (hw c) (hf c)
    have below : Decimal.value (whole ++ fraction) < 10 ^ (whole.length + fraction.length) := by
      have bound := Decimal.ofDigitChars_lt digits 0
      rwa [Nat.zero_add, Nat.one_mul, List.length_append] at bound
    have length := length_magnitudeText_le wide modest below some bounded value
    have noDigit {c : Char} (hc : c.isDigit = false) : c ∉ whole ∧ c ∉ fraction :=
      ⟨fun inside => by simp [hw c inside] at hc, fun inside => by simp [hf c inside] at hc⟩
    have space := noDigit (c := ' ') (by decide)
    have point := noDigit (c := '.') (by decide)
    rcases shape with ⟨rfl, rfl⟩ | rfl
    · simp only [List.length_nil] at length some
      refine ⟨space.1, by omega, ?_⟩
      rintro ⟨c, _, inside⟩
      exact absurd (inside.subset (by simp)) point.1
    · rw [List.length_append, List.length_cons]
      refine ⟨by simp [space], by omega, ?_⟩
      rintro ⟨c, hc, inside⟩
      have nonempty : whole ≠ [] := by
        rintro rfl
        rcases List.infix_cons_iff.1 inside with first | later
        · rw [(List.cons_prefix_cons.1 first).1] at hc
          exact absurd hc (by decide)
        · exact point.2 (later.subset (by simp))
      have some := List.length_pos_iff.2 nonempty
      omega

theorem length_plain (x : Binary f) (number : x.isNaN = false) :
    x.plain.length = (magnitudeText f x.magnitude).length + if x.negative then 1 else 0 := by
  rw [plain_eq, number]
  cases x.negative <;> simp

/-- A number is written in at most one character more than a text without an exponent that it was
read from, and in no more characters if a point stands right behind a digit in that text. -/
theorem length_plain_le (wide : 3 ≤ f.fractionBits) (modest : f.round 10 1 < f.infinity)
    {x : Binary f} (number : x.isNaN = false) (h : read? text = some x) (lower : 'e' ∉ text)
    (upper : 'E' ∉ text) :
    ' ' ∉ text ∧ x.plain.length ≤ text.length + 1 ∧
      ((∃ c : Char, c.isDigit = true ∧ [c, '.'] <:+: text) → x.plain.length ≤ text.length) := by
  have bounded : x.magnitude ≤ f.infinity := Nat.not_lt.1 (of_decide_eq_false number)
  have signed {sign : Char} {rest : List Char} (hs : sign = '-' ∨ sign = '+')
      (shape : text = sign :: rest) (read : f.readMagnitude rest = some x.magnitude) :
      ' ' ∉ text ∧ x.plain.length ≤ text.length + 1 ∧
        ((∃ c : Char, c.isDigit = true ∧ [c, '.'] <:+: text) → x.plain.length ≤ text.length) := by
    subst shape
    obtain ⟨bare, length, pointed⟩ := length_magnitudeText_read_le wide modest read bounded
      (fun inside => lower (List.mem_cons_of_mem _ inside))
      (fun inside => upper (List.mem_cons_of_mem _ inside))
    have room : (if x.negative then 1 else 0) ≤ 1 := by split <;> omega
    rw [length_plain x number, List.length_cons]
    refine ⟨?_, by omega, ?_⟩
    · rcases hs with rfl | rfl <;> simp [bare]
    · rintro ⟨c, hc, inside⟩
      rcases List.infix_cons_iff.1 inside with first | later
      · rw [(List.cons_prefix_cons.1 first).1] at hc
        rcases hs with rfl | rfl <;> exact absurd hc (by decide)
      · have short := pointed ⟨c, hc, later⟩
        omega
  unfold read? at h
  split at h
  next rest =>
    obtain ⟨m, read, rfl⟩ := Option.map_eq_some_iff.1 h
    exact signed (.inl rfl) rfl read
  next rest =>
    obtain ⟨m, read, rfl⟩ := Option.map_eq_some_iff.1 h
    exact signed (.inr rfl) rfl read
  next =>
    obtain ⟨m, read, rfl⟩ := Option.map_eq_some_iff.1 h
    rw [length_plain _ number]
    exact length_magnitudeText_read_le wide modest read bounded lower upper

end Binary

end Slotform
