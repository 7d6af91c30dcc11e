import Mathlib.Algebra.Group.Nat.Defs
import Slotform.Decimal

namespace Slotform.Decimal

variable {text : List Char} {n m size : Nat}

/-- A number in decimal, with any number of leading zeros. -/
structure Denotes (text : List Char) (n : Nat) : Prop where
  nonempty : text ≠ []
  digits : ∀ c ∈ text, c.isDigit = true
  value : Decimal.value text = n

theorem denotes_iff_readDigits : Denotes text n ↔ readDigits text = some n := by
  unfold readDigits
  constructor
  · rintro ⟨nonempty, digits, rfl⟩
    rw [if_neg (by simpa using nonempty), if_pos (by simpa using digits)]
  · intro h
    split at h
    · cases h
    next nonempty =>
      split at h
      next digits => exact ⟨by simpa using nonempty, by simpa using digits, by simpa using h⟩
      · cases h

theorem denotes_digits (n : Nat) : Denotes (digits n) n :=
  denotes_iff_readDigits.2 (readDigits_digits n)

/-! ## Numbers of a given width -/

theorem digitCount_pos (n : Nat) : 0 < digitCount n := List.length_pos_iff.2 (digits_ne_nil n)

theorem digitCount_mono (h : m ≤ n) : digitCount m ≤ digitCount n := by
  have bound := (Nat.length_toDigits_le_iff (n := n) (k := digitCount n) (by decide : 1 < 10)
    (digitCount_pos n)).1 (Nat.le_refl _)
  exact (Nat.length_toDigits_le_iff (by decide) (digitCount_pos n)).2 (Nat.lt_of_le_of_lt h bound)

theorem length_padded (h : m ≤ n) : (padded (digitCount n) m).length = digitCount n := by
  have fits := digitCount_mono h
  rw [padded, List.length_append, List.length_replicate]
  exact Nat.sub_add_cancel fits

theorem denotes_padded (width n : Nat) : Denotes (padded width n) n := by
  refine ⟨?_, ?_, ?_⟩
  · simp [padded, digits_ne_nil]
  · intro c hc
    rcases List.mem_append.1 hc with hc | hc
    · rw [List.eq_of_mem_replicate hc]
      decide
    · exact isDigit_of_mem_digits hc
  · rw [padded, value, Nat.ofDigitChars_append, Nat.ofDigitChars_replicate_zero, Nat.mul_zero]
    exact value_digits n

/-! ## Signs -/

/-- The notation of a natural number starts with a digit, so that no sign is taken off it. -/
theorem digits_eq_cons (n : Nat) : ∃ c rest, digits n = c :: rest ∧ c.isDigit = true := by
  obtain ⟨c, rest, h⟩ := List.exists_cons_of_ne_nil (digits_ne_nil n)
  exact ⟨c, rest, h, isDigit_of_mem_digits (h ▸ List.mem_cons_self)⟩

theorem readUnsigned_digits (size : Nat) (h : n < size) : readUnsigned size (digits n) = some n := by
  obtain ⟨c, rest, hd, hc⟩ := digits_eq_cons n
  have body : readUnsigned size (digits n) = (readDigits (digits n)).filter (· < size) := by
    rw [hd, readUnsigned]
    rintro _ ⟨⟩
    exact absurd hc (by decide)
  simp [body, readDigits_digits, h]

theorem readSigned_signed (size : Nat) {i : Int} (lower : -(size / 2 : Nat) ≤ i)
    (upper : i < (size / 2 : Nat)) : readSigned size (signed i) = some i := by
  cases i with
  | ofNat n =>
    obtain ⟨c, rest, hd, hc⟩ := digits_eq_cons n
    have body : readSigned size (signed (.ofNat n)) =
        ((readDigits (digits n)).filter (· < size / 2)).map Int.ofNat := by
      rw [signed, hd, readSigned]
      all_goals
        rintro _ ⟨⟩
        exact absurd hc (by decide)
    have small : n < size / 2 := Int.ofNat_lt.1 upper
    rw [body, readDigits_digits, Option.filter_some, if_pos (by simpa using small)]
    rfl
  | negSucc n =>
    have small : n + 1 ≤ size / 2 := by omega
    rw [signed, readSigned, readDigits_digits, Option.filter_some, if_pos (by simpa using small)]
    rfl

/-! ## Lengths -/

theorem ofDigitChars_lt (digits : ∀ c ∈ text, c.isDigit = true) (start : Nat) :
    Nat.ofDigitChars 10 text start < (start + 1) * 10 ^ text.length := by
  induction text generalizing start with
  | nil => simp
  | cons c rest ih =>
    obtain ⟨_, upper⟩ := Char.isDigit_iff_toNat.1 (digits c List.mem_cons_self)
    have shifted := ih (fun d hd => digits d (List.mem_cons_of_mem _ hd))
      (10 * start + (c.toNat - '0'.toNat))
    rw [Nat.ofDigitChars_cons, List.length_cons, Nat.pow_succ', ← Nat.mul_assoc]
    refine Nat.lt_of_lt_of_le shifted (Nat.mul_le_mul_right _ ?_)
    have zero : '0'.toNat = 48 := rfl
    have nine : '9'.toNat = 57 := rfl
    omega

/-- No notation of a number is shorter than its digits. -/
theorem Denotes.digitCount_le (h : Denotes text n) : digitCount n ≤ text.length := by
  have some : 0 < text.length := List.length_pos_iff.2 h.nonempty
  have below := ofDigitChars_lt h.digits 0
  rw [Nat.zero_add, Nat.one_mul] at below
  exact (Nat.length_toDigits_le_iff (by decide) some).2 (h.value ▸ below)

theorem digitCount_le_of_readDigits (h : readDigits text = some n) : digitCount n ≤ text.length :=
  (denotes_iff_readDigits.2 h).digitCount_le

/-- A number that is read is in range, and its shortest notation is no longer. -/
theorem readUnsigned_le (h : readUnsigned size text = some n) :
    n < size ∧ digitCount n ≤ text.length := by
  unfold readUnsigned at h
  obtain ⟨read, small⟩ := Option.filter_eq_some_iff.1 h
  refine ⟨by simpa using small, Nat.le_trans (digitCount_le_of_readDigits read) ?_⟩
  split
  · exact Nat.le_succ _
  · exact Nat.le_refl _

theorem length_signed_neg_le (n : Nat) : (signed (-(n : Int))).length ≤ digitCount n + 1 := by
  cases n with
  | zero => exact Nat.le_succ _
  | succ n => exact Nat.le_refl _

theorem readSigned_le {i : Int} (positive : 0 < size / 2) (h : readSigned size text = some i) :
    (-(size / 2 : Nat) ≤ i ∧ i < (size / 2 : Nat)) ∧ (signed i).length ≤ text.length := by
  have natural {body : List Char} {n : Nat}
      (found : (readDigits body).filter (· < size / 2) = Option.some n) :
      (-(size / 2 : Nat) ≤ (n : Int) ∧ (n : Int) < (size / 2 : Nat)) ∧
        (signed n).length ≤ body.length := by
    obtain ⟨read, small⟩ := Option.filter_eq_some_iff.1 found
    have small : n < size / 2 := by simpa using small
    exact ⟨by omega, digitCount_le_of_readDigits read⟩
  unfold readSigned at h
  split at h
  next rest =>
    obtain ⟨n, found, rfl⟩ := Option.map_eq_some_iff.1 h
    obtain ⟨range, short⟩ := natural found
    exact ⟨range, Nat.le_succ_of_le short⟩
  next rest =>
    obtain ⟨_, cast, rfl⟩ := Option.map_eq_some_iff.1 h
    obtain ⟨n, found, ⟨⟩⟩ := Option.bind_eq_some_iff.1 cast
    obtain ⟨read, small⟩ := Option.filter_eq_some_iff.1 found
    have small : n ≤ size / 2 := by simpa using small
    refine ⟨by omega, Nat.le_trans (length_signed_neg_le n) ?_⟩
    exact Nat.succ_le_succ (digitCount_le_of_readDigits read)
  next =>
    obtain ⟨n, found, rfl⟩ := Option.map_eq_some_iff.1 h
    exact natural found

end Slotform.Decimal
