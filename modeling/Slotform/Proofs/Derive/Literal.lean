import Mathlib.Data.List.Nodup
import Slotform.Derive.Literal

namespace Slotform.Derive.Literal

open Text

variable {c : Char} {text rest : List Char} {bound : Nat}

/-! ## Code points -/

theorem digit?_digitChar {n : Nat} (small : n < 16) : digit? 16 n.digitChar = some n := by
  have all : ∀ m < 16, digit? 16 (Nat.digitChar m) = some m := by decide
  exact all n small

theorem hexNumber_append (c : Char) :
    hexNumber (text ++ [c]) = (digit? 16 c).elim (hexNumber text) (hexNumber text * 16 + ·) := by
  rw [hexNumber, List.foldl_append]
  rfl

theorem hexNumber_hexDigits (n : Nat) : hexNumber (hexDigits n) = n := by
  induction n using Nat.strongRecOn with
  | _ n ih =>
    rw [hexDigits, Nat.toDigits_eq_if (by decide)]
    split
    next small =>
      have single : hexNumber ([] ++ [n.digitChar]) = _ := hexNumber_append n.digitChar
      rw [digit?_digitChar small] at single
      simpa [hexNumber] using single
    next large =>
      have before := ih (n / 16) (by omega)
      rw [hexDigits] at before
      rw [hexNumber_append, digit?_digitChar (Nat.mod_lt n (by decide)), before]
      exact Nat.div_add_mod' n 16

theorem digitChar_ne_brace (n : Nat) : n.digitChar ≠ '\x7d' := by
  by_cases small : n < 36
  · have all : ∀ m < 36, Nat.digitChar m ≠ '\x7d' := by decide
    exact all n small
  · unfold Nat.digitChar
    repeat rw [if_neg (by omega)]
    decide

theorem brace_not_mem_hexDigits (n : Nat) : '\x7d' ∉ hexDigits n := by
  induction n using Nat.strongRecOn with
  | _ n ih =>
    rw [hexDigits, Nat.toDigits_eq_if (by decide)]
    split
    · simp [(digitChar_ne_brace n).symm]
    · have before := ih (n / 16) (by omega)
      rw [hexDigits] at before
      simp [before, (digitChar_ne_brace (n % 16)).symm]

/-! ## Characters -/

theorem unescape_point :
    unescape (bound + 1) (['\\', 'u', '\x7b'] ++ hexDigits c.toNat ++ ['\x7d'] ++ rest) =
      (unescape bound rest).map (c :: ·) := by
  have inside : ∀ d ∈ hexDigits c.toNat, decide (d ≠ '\x7d') = true := by
    intro d hd
    have other : d ≠ '\x7d' := fun same => brace_not_mem_hexDigits _ (same ▸ hd)
    simpa using other
  have code : (hexDigits c.toNat ++ '\x7d' :: rest).takeWhile (fun d => decide (d ≠ '\x7d')) =
      hexDigits c.toNat := by
    rw [List.takeWhile_append_of_pos inside, List.takeWhile_cons_of_neg (by simp), List.append_nil]
  have after : (hexDigits c.toNat ++ '\x7d' :: rest).drop ((hexDigits c.toNat).length + 1) =
      rest := by
    rw [← List.drop_drop, List.drop_left]
    rfl
  rw [List.append_assoc, List.append_assoc]
  change unescape (bound + 1) ('\\' :: 'u' :: '\x7b' :: (hexDigits c.toNat ++ '\x7d' :: rest)) = _
  rw [unescape, code, after, hexNumber_hexDigits, Char.ofNat_toNat]

theorem unescape_bare (quote : c ≠ '"') (backslash : c ≠ '\\') (carriage : c ≠ '\r') :
    unescape (bound + 1) (c :: rest) = (unescape bound rest).map (c :: ·) := by
  rw [unescape]
  all_goals intros; simp_all

/-- The characters with an escape of their own, after the letter of the escape. -/
def named : List (Char × Char) :=
  [('t', '\t'), ('r', '\r'), ('n', '\n'), ('0', Char.ofNat 0), ('\\', '\\'), ('"', '"')]

theorem unescape_named {e : Char} (h : (e, c) ∈ named) :
    unescape (bound + 1) ('\\' :: e :: rest) = (unescape bound rest).map (c :: ·) := by
  simp only [named, List.mem_cons, Prod.mk.injEq, List.not_mem_nil, or_false] at h
  rcases h with ⟨rfl, rfl⟩ | ⟨rfl, rfl⟩ | ⟨rfl, rfl⟩ | ⟨rfl, rfl⟩ | ⟨rfl, rfl⟩ | ⟨rfl, rfl⟩ <;> rfl

/-- A character is written by its own escape, or as it is, or by its code point. -/
theorem quoteChar_cases (c : Char) :
    (∃ e, (e, c) ∈ named ∧ quoteChar '"' c = ['\\', e]) ∨
      (c ≠ '"' ∧ c ≠ '\\' ∧ c ≠ '\r' ∧ quoteChar '"' c = [c]) ∨
      quoteChar '"' c = ['\\', 'u', '\x7b'] ++ hexDigits c.toNat ++ ['\x7d'] := by
  by_cases escaped : ∃ e, (e, c) ∈ named
  · refine .inl ?_
    obtain ⟨e, h⟩ := escaped
    refine ⟨e, h, ?_⟩
    simp only [named, List.mem_cons, Prod.mk.injEq, List.not_mem_nil, or_false] at h
    rcases h with ⟨rfl, rfl⟩ | ⟨rfl, rfl⟩ | ⟨rfl, rfl⟩ | ⟨rfl, rfl⟩ | ⟨rfl, rfl⟩ | ⟨rfl, rfl⟩ <;> rfl
  · have apart {e d : Char} (h : (e, d) ∈ named) : c ≠ d := fun same => escaped ⟨e, same ▸ h⟩
    have carriage : c ≠ '\r' := apart (e := 'r') (by decide)
    have backslash : c ≠ '\\' := apart (e := '\\') (by decide)
    have quote : c ≠ '"' := apart (e := '"') (by decide)
    refine .inr ?_
    rw [quoteChar, if_neg (apart (e := 't') (by decide)), if_neg carriage,
      if_neg (apart (e := 'n') (by decide)), if_neg (apart (e := '0') (by decide)),
      if_neg backslash, if_neg quote]
    split
    · exact .inl ⟨quote, backslash, carriage, rfl⟩
    · exact .inr rfl

theorem unescape_quoteChar (c : Char) : quoteChar '"' c ≠ [] ∧ ∀ bound rest,
    unescape (bound + 1) (quoteChar '"' c ++ rest) = (unescape bound rest).map (c :: ·) := by
  rcases quoteChar_cases c with ⟨e, h, written⟩ | ⟨quote, backslash, carriage, written⟩ | written
  · rw [written]
    exact ⟨List.cons_ne_nil _ _, fun _ _ => unescape_named h⟩
  · rw [written]
    exact ⟨List.cons_ne_nil _ _, fun _ _ => unescape_bare quote backslash carriage⟩
  · rw [written]
    exact ⟨List.cons_ne_nil _ _, fun _ _ => unescape_point⟩

/-! ## Texts -/

theorem escape_cons (c : Char) (text : List Char) :
    ∃ piece, escape (c :: text) = piece ++ escape text ∧ piece ≠ [] ∧ ∀ bound rest,
      unescape (bound + 1) (piece ++ rest) = (unescape bound rest).map (c :: ·) := by
  rw [escape]
  split
  next octal =>
    refine ⟨_, rfl, List.cons_ne_nil _ _, fun bound rest => ?_⟩
    rw [octal.1]
    rfl
  next =>
    obtain ⟨nonempty, reads⟩ := unescape_quoteChar c
    exact ⟨_, rfl, nonempty, reads⟩

theorem unescape_escape (enough : (escape text).length < bound) :
    unescape bound (escape text ++ '"' :: rest) = some text := by
  induction text generalizing bound with
  | nil =>
    obtain ⟨bound, rfl⟩ := Nat.exists_eq_succ_of_ne_zero (Nat.ne_of_gt enough)
    rfl
  | cons c text ih =>
    obtain ⟨piece, written, nonempty, reads⟩ := escape_cons c text
    have some := List.length_pos_iff.2 nonempty
    rw [written, List.length_append] at enough
    obtain ⟨bound, rfl⟩ : ∃ more, bound = more + 1 := ⟨bound - 1, by omega⟩
    rw [written, List.append_assoc, reads, ih (by omega), Option.map_some]

/-- The literal of a text denotes the text. -/
theorem string?_ofString (text : String) : string? (ofString text) = some text := by
  have inside : unescape ((escape text.toList ++ ['"']).length + 1)
      (escape text.toList ++ ['"']) = some text.toList := by
    apply unescape_escape
    rw [List.length_append]
    omega
  change (unescape ((escape text.toList ++ ['"']).length + 1) (escape text.toList ++ ['"'])).map
    String.ofList = _
  rw [inside, Option.map_some, String.ofList_toList]

theorem ofString_injective : Function.Injective ofString := by
  intro a b same
  have denoted := congrArg string? same
  rw [string?_ofString, string?_ofString] at denoted
  exact Option.some.inj denoted

end Slotform.Derive.Literal
