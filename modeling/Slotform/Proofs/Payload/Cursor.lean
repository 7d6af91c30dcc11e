import Mathlib.Data.List.TakeWhile
import Slotform.Payload.Decode
import Slotform.Proofs.Decimal
import Slotform.Proofs.Success

namespace Slotform

namespace Cursor

variable {c c' c₁ c₂ : Cursor} {text : List Char} {n : Nat}

/-- From `c` the text leads to `c'`. -/
def Passes (c : Cursor) (text : List Char) (c' : Cursor) : Prop :=
  c.rest = text ++ c'.rest ∧ c'.position = c.position + text.length

/-- The text ahead does not go on with a character that passes the test. -/
def Stops (test : Char → Bool) (c : Cursor) : Prop := ∀ x ∈ c.rest.head?, test x = false

theorem passes_nil : c.Passes [] c' ↔ c' = c := by
  constructor
  · rintro ⟨hr, hp⟩
    cases c
    cases c'
    simp_all
  · rintro rfl
    exact ⟨rfl, rfl⟩

theorem Passes.trans {a b : List Char} (h₁ : c.Passes a c₁) (h₂ : c₁.Passes b c') :
    c.Passes (a ++ b) c' := by
  refine ⟨by rw [h₁.1, h₂.1, List.append_assoc], ?_⟩
  rw [h₂.2, h₁.2, List.length_append, Nat.add_assoc]

theorem passes_append {a b : List Char} :
    c.Passes (a ++ b) c' ↔ ∃ c₁, c.Passes a c₁ ∧ c₁.Passes b c' := by
  constructor
  · rintro ⟨hr, hp⟩
    refine ⟨⟨b ++ c'.rest, c.position + a.length⟩, ⟨by rw [hr, List.append_assoc], rfl⟩, rfl, ?_⟩
    rw [hp, List.length_append, Nat.add_assoc]
  · rintro ⟨c₁, h₁, h₂⟩
    exact h₁.trans h₂

theorem passes_cons {x : Char} :
    c.Passes (x :: text) c' ↔ ∃ c₁, c.Passes [x] c₁ ∧ c₁.Passes text c' :=
  passes_append (a := [x])

theorem Passes.unique (h₁ : c.Passes text c₁) (h₂ : c.Passes text c₂) : c₁ = c₂ := by
  have hr : c₁.rest = c₂.rest := List.append_cancel_left (h₁.1.symm.trans h₂.1)
  have hp : c₁.position = c₂.position := h₁.2.trans h₂.2.symm
  cases c₁
  cases c₂
  simp_all

theorem passes_skip (h : c.rest.take n = text) (hn : text.length = n) : c.Passes text (c.skip n) :=
  ⟨by rw [← h]; exact (List.take_append_drop n c.rest).symm, by rw [hn]; rfl⟩

theorem Passes.eq_skip (h : c.Passes text c') : c' = c.skip text.length := by
  refine h.unique (passes_skip ?_ rfl)
  rw [h.1, List.take_left]

theorem Passes.remaining (h : c.Passes text c') : c.remaining = text.length + c'.remaining := by
  rw [Cursor.remaining, h.1, List.length_append]
  rfl

theorem Passes.peek? {x : Char} (h : c.Passes (x :: text) c') : c.peek? = some x := by
  rw [Cursor.peek?, h.1]
  rfl

/-! ## Single moves -/

theorem passes_singleton {x : Char} : c.Passes [x] c' ↔ c.peek? = some x ∧ c' = c.skip 1 := by
  constructor
  · intro h
    exact ⟨h.peek?, h.eq_skip⟩
  · rintro ⟨hp, rfl⟩
    obtain ⟨rest, hr⟩ := List.head?_eq_some_iff.1 hp
    exact passes_skip (by rw [hr]; rfl) rfl

theorem expect_ok {x : Char} {u : Unit} :
    (c.expect x).require = .ok (u, c') ↔ c.Passes [x] c' := by
  rw [passes_singleton, expect]
  split
  next h => simp [Move.require, Except.map, h, @eq_comm _ c']
  next h => simp [Move.require, Except.map, h]

theorem next_ok {x : Char} : c.next.require = .ok (x, c') ↔ c.Passes [x] c' := by
  rw [passes_singleton, next, Cursor.peek?]
  cases c.rest with
  | nil => simp [Move.require, Except.map]
  | cons first rest => simp [Move.require, Except.map, @eq_comm _ c']

theorem take_ok {run : List Char} :
    (c.take n).require = .ok (run, c') ↔ run.length = n ∧ c.Passes run c' := by
  unfold take
  dsimp only
  split
  next full =>
    simp only [Move.require, Except.map, Except.ok.injEq, Prod.mk.injEq]
    constructor
    · rintro ⟨rfl, rfl⟩
      exact ⟨full, passes_skip rfl full⟩
    · rintro ⟨rfl, h⟩
      exact ⟨by rw [h.1, List.take_left], h.eq_skip.symm⟩
  next short =>
    simp only [Move.require, Except.map, reduceCtorEq, false_iff, not_and]
    rintro rfl h
    exact short (by rw [h.1, List.take_left])

theorem blank_ok {u : Unit} :
    (c.blank n).require = .ok (u, c') ↔ c.Passes (Slot.blanks n) c' := by
  have spaces (run : List Char) (hn : run.length = n) :
      (run.takeWhile (· = ' ')).length = run.length ↔ run = Slot.blanks n := by
    have whole : run.takeWhile (· = ' ') = run ↔ run = Slot.blanks n := by
      rw [Slot.blanks, List.eq_replicate_iff, List.takeWhile_eq_self_iff]
      simp [hn]
    rw [← whole]
    exact ⟨(List.takeWhile_prefix _).eq_of_length, congrArg List.length⟩
  constructor
  · intro h
    unfold blank at h
    split at h
    · cases h
    next run after taken =>
      dsimp only at h
      split at h
      · cases h
      next all =>
        cases h
        obtain ⟨hn, passes⟩ := take_ok.1 (by rw [taken]; rfl : (c.take n).require = .ok (run, after))
        have hle := (List.takeWhile_prefix (l := run) (· = ' ')).length_le
        rw [← (spaces run hn).1 (by omega)]
        exact passes
  · intro passes
    have hn : (Slot.blanks n).length = n := List.length_replicate
    have taken : c.take n = (.ok (Slot.blanks n), c') := by
      have h := take_ok.2 ⟨hn, passes⟩
      unfold Move.require at h
      rcases hm : c.take n with ⟨_ | _, _⟩ <;> rw [hm] at h <;> cases h
      rfl
    unfold blank
    rw [taken]
    dsimp only
    rw [(spaces _ hn).2 rfl, if_neg (Nat.lt_irrefl _)]
    rfl

theorem takeWhile_eq {test : Char → Bool} {run : List Char} :
    c.takeWhile test = (run, c') ↔
      c.Passes run c' ∧ (∀ x ∈ run, test x = true) ∧ c'.Stops test := by
  unfold takeWhile
  constructor
  · intro h
    cases h
    have passes := passes_skip (List.prefix_iff_eq_take.1 (List.takeWhile_prefix test)).symm
      (rfl : (c.rest.takeWhile test).length = _)
    refine ⟨passes, fun _ => List.mem_takeWhile_imp, ?_⟩
    intro x hx
    have rest : (c.skip (c.rest.takeWhile test).length).rest = c.rest.dropWhile test :=
      List.append_cancel_left (passes.1.symm.trans List.takeWhile_append_dropWhile.symm)
    have fails := List.head?_dropWhile_not test c.rest
    rw [rest, Option.mem_def] at hx
    rw [hx] at fails
    exact fails
  · rintro ⟨passes, inside, stops⟩
    have run_eq : c.rest.takeWhile test = run := by
      rw [passes.1, List.takeWhile_append_of_pos inside]
      cases hr : c'.rest with
      | nil => simp
      | cons x rest => simp [stops x (by rw [hr]; rfl)]
    dsimp only
    rw [run_eq, passes.eq_skip]

theorem number_ok :
    c.number.require = .ok (n, c') ↔ n ≤ maxWord ∧
      ∃ digits, Decimal.Denotes digits n ∧ c.Passes digits c' ∧ c'.Stops Char.isDigit := by
  unfold number
  constructor
  · intro h
    split at h
    next digits after taken =>
      obtain ⟨passes, inside, stops⟩ := takeWhile_eq.1 taken
      split at h
      · cases h
      next nonempty =>
        split at h
        · cases h
        next small =>
          cases h
          exact ⟨Nat.le_of_not_lt small, digits, ⟨by simpa using nonempty, inside, rfl⟩, passes,
            stops⟩
  · rintro ⟨small, digits, denotes, passes, stops⟩
    rw [takeWhile_eq.2 ⟨passes, denotes.digits, stops⟩]
    dsimp only
    rw [if_neg (by simpa using denotes.nonempty), denotes.value, if_neg (Nat.not_lt.2 small)]
    rfl

end Cursor

/-! ## Numbers between brackets -/

namespace Mapper

variable {c c' : Cursor} {n : Nat}

/-- The number takes all digits there are, so the bracket behind it ends it. -/
theorem bracketed_ok {opening closing : Char} (h : closing.isDigit = false) :
    (do
      let ((), c) ← (c.expect opening).require
      let (n, c) ← c.number.require
      let ((), c) ← (c.expect closing).require
      .ok (n, c)) = Except.ok (n, c') ↔
    n ≤ maxWord ∧ ∃ digits, Decimal.Denotes digits n ∧
      c.Passes (opening :: digits ++ [closing]) c' := by
  simp only [bind_eq_ok, Prod.exists, Cursor.expect_ok, Cursor.number_ok, Except.ok.injEq,
    Prod.mk.injEq]
  constructor
  · rintro ⟨_, c₁, opened, n, c₂, ⟨small, digits, denotes, passes, _⟩, _, c₃, closed, rfl, rfl⟩
    exact ⟨small, digits, denotes, opened.trans (passes.trans closed)⟩
  · rintro ⟨small, digits, denotes, passes⟩
    rw [List.cons_append, Cursor.passes_cons] at passes
    obtain ⟨c₁, opened, passes⟩ := passes
    obtain ⟨c₂, passes, closed⟩ := Cursor.passes_append.1 passes
    refine ⟨(), c₁, opened, n, c₂, ⟨small, digits, denotes, passes, ?_⟩, (), c', closed, rfl, rfl⟩
    intro x hx
    cases closed.peek?.symm.trans hx
    exact h

theorem readWidth_ok : readWidth c = .ok (n, c') ↔ n ≤ maxWord ∧
    ∃ digits, Decimal.Denotes digits n ∧ c.Passes ('(' :: digits ++ [')']) c' :=
  bracketed_ok (by decide)

theorem readOccurs_ok : readOccurs c = .ok (n, c') ↔ n ≤ maxWord ∧
    ∃ digits, Decimal.Denotes digits n ∧ c.Passes ('[' :: digits ++ [']']) c' :=
  bracketed_ok (by decide)

theorem checkLimit_ok {quantity : Quantity} {value max : Nat} {u : Unit} :
    checkLimit quantity value max = .ok u ↔ value ≤ max := by
  simp [checkLimit]

end Mapper

end Slotform
