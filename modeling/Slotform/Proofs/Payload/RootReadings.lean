import Slotform.Proofs.Payload.Exactness
import Slotform.Proofs.Payload.Header

/-!
# The readings of a root

A payload follows its header without a separator, so what stands behind the item of a root may be
read with or without suffixes. The readings are those whose suffixes the text spells
(`mem_rootReadings`, `Reading.Follows.mem`). Each leaves less text than the one before, and
announces no less, unless it makes a list without slots out of the item (`rootReadings_ordered`).
So two readings fit at once only if one has no suffix and the other says that there are no slots;
otherwise the one that fits is the one that holds (`readRoot_readings`).
-/

namespace Slotform.Header

open Cursor

variable {l : Limits} {item : Item} {c c' : Cursor}

/-- The readings of what follows the item of a root, from the shortest to the longest. -/
def rootReadings (limits : Limits) (c : Cursor) : List Reading :=
  plainReading c :: suffixedReadings limits c

namespace Reading

/-- The text spells the suffixes of the reading, and the reading goes on behind them. -/
def Follows (l : Limits) (c : Cursor) (r : Reading) : Prop :=
  ∃ suffix, SpellsOccurs l r.occurs suffix ∧ c.Passes (suffix ++ markText r.optional) r.after

def width (item : Item) (r : Reading) : Nat := (wrap item r.occurs r.optional).2.width

theorem fits_iff {r : Reading} : r.fits item = true ↔ r.width item = r.after.remaining :=
  decide_eq_true_iff

/-- A reading that leaves less text than another and announces no less does not fit as well. -/
theorem not_both_fit {r r' : Reading} (shorter : r'.after.remaining < r.after.remaining)
    (wider : r.width item ≤ r'.width item) (fits : r.fits item = true) : ¬ r'.fits item = true := by
  rw [fits_iff] at fits ⊢
  omega

end Reading

/-! ## What the readings are -/

theorem readSuffix_spells {n : Nat} {after : Cursor} (h : readSuffix l c = .ok (some n, after)) :
    ∃ suffix, SpellsOccurs l (some n) suffix ∧ c.Passes suffix after := by
  unfold readSuffix at h
  split at h
  · simp only [bind_eq_ok, Prod.exists, Except.ok.injEq, Prod.mk.injEq, Option.some.injEq] at h
    obtain ⟨_, _, read, _, within, rfl, rfl⟩ := h
    obtain ⟨-, digits, denotes, passes⟩ := Mapper.readOccurs_ok.1 read
    exact ⟨_, .some denotes (Mapper.checkLimit_ok.1 within), passes⟩
  · cases h

theorem follows_marked {occurs : Option Nat} {suffix : List Char} {after : Cursor}
    (spells : SpellsOccurs l occurs suffix) (passes : c.Passes suffix after) {r : Reading}
    (h : r ∈ markedReading occurs after) : r.Follows l c := by
  obtain ⟨mark, rfl, optional⟩ := mem_markedReading h
  refine ⟨suffix, spells, ?_⟩
  rw [optional]
  exact passes.trans mark

/-- The text spells every reading. -/
theorem mem_rootReadings {r : Reading} (h : r ∈ rootReadings l c) : r.Follows l c := by
  rcases List.mem_cons.1 h with rfl | h
  · exact ⟨[], .none, passes_nil.2 rfl⟩
  · unfold suffixedReadings at h
    split at h
    next n after found =>
      obtain ⟨suffix, spells, passes⟩ := readSuffix_spells found
      rcases List.mem_cons.1 h with rfl | h
      · exact ⟨suffix, spells, by rwa [markText, if_neg Bool.false_ne_true, List.append_nil]⟩
      · exact follows_marked spells passes h
    · exact follows_marked .none (passes_nil.2 rfl) h

/-- Whatever suffixes the text spells are read. -/
theorem Reading.Follows.mem {r : Reading} (h : r.Follows l c) (words : l.Words) :
    r ∈ rootReadings l c := by
  obtain ⟨occurs, optional, after⟩ := r
  obtain ⟨suffix, spells, passes⟩ := h
  obtain ⟨c₁, before, mark⟩ := passes_append.1 passes
  cases spells with
  | none =>
    cases passes_nil.1 before
    cases optional with
    | false =>
      cases passes_nil.1 mark
      exact List.mem_cons_self
    | true =>
      have unnumbered : readSuffix l c = .ok (none, c) :=
        readSuffix_ok words .none before fun _ => by
          rw [Passes.peek? mark]
          decide
      rw [rootReadings, suffixedReadings_plain unnumbered, markedReading_mark mark]
      simp
  | some denotes within =>
    have numbered := readSuffix_ok words (.some denotes within) before nofun
    rw [rootReadings, suffixedReadings_number numbered]
    cases optional with
    | false =>
      cases passes_nil.1 mark
      simp
    | true =>
      rw [markedReading_mark mark]
      simp

/-! ## Widths -/

/-- The layout of an item that was read is as wide as a word can say. -/
theorem readItem_width {allowance : Nat} {name : String}
    (read : readItem l allowance name c = .ok (item, c')) : item.2.width ≤ maxWord := by
  cases allowance with
  | zero => cases read
  | succ allowance =>
    unfold readItem at read
    split at read
    · simp only [bind_eq_ok, Prod.exists, Except.ok.injEq, Prod.mk.injEq] at read
      obtain ⟨_, _, _, _, _, _, rfl, rfl⟩ := read
      exact Layout.widthsFrom_le (Nat.zero_le _) _
    · unfold readLeaf at read
      simp only [ite_error_eq_ok, bind_eq_ok, Prod.exists, Except.ok.injEq, Prod.mk.injEq] at read
      obtain ⟨_, width, _, found, _, _, rfl, rfl⟩ := read
      exact (Mapper.readWidth_ok.1 found).1

theorem le_width_optional {L : Layout} (word : L.width ≤ maxWord) : L.width ≤ L.optional.width :=
  Nat.le_min.2 ⟨Nat.le_add_right _ 1, word⟩

/-- A mark makes a layout no narrower. -/
theorem le_width_marked {occurs : Option Nat} (word : (wrap item occurs false).2.width ≤ maxWord) :
    (wrap item occurs false).2.width ≤ (wrap item occurs true).2.width :=
  le_width_optional word

/-- An occurrence number makes a layout no narrower, unless it is zero. -/
theorem le_width_numbered (word : item.2.width ≤ maxWord) {n : Nat} (slots : 0 < n) :
    item.2.width ≤ (wrap item (some n) false).2.width :=
  le_width_repeated word slots

theorem width_numbered_le {n : Nat} : (wrap item (some n) false).2.width ≤ maxWord :=
  Nat.min_le_right _ _

/-! ## Readings that fit at once -/

/-- The later reading leaves less text than the earlier one, and announces no less unless it is
that of a list without slots. -/
def Ordered (item : Item) (c : Cursor) (r r' : Reading) : Prop :=
  r'.after.remaining < r.after.remaining ∧
    (r.width item ≤ r'.width item ∨ r = plainReading c ∧ r'.occurs = some 0)

/-- The reading with a mark comes behind the one that lacks nothing but the mark. -/
theorem ordered_marked {occurs : Option Nat} {after : Cursor}
    (word : (wrap item occurs false).2.width ≤ maxWord) {r : Reading}
    (h : r ∈ markedReading occurs after) : Ordered item c ⟨occurs, false, after⟩ r := by
  obtain ⟨mark, rfl, optional⟩ := mem_markedReading h
  refine ⟨mark.shorter, .inl ?_⟩
  rw [Reading.width, Reading.width, optional]
  exact le_width_marked word

/-- A reading with an occurrence number comes behind the one without suffix. -/
theorem ordered_numbered (word : item.2.width ≤ maxWord) {n : Nat} {r : Reading}
    (occurs : r.occurs = some n) (shorter : r.after.remaining < c.remaining)
    (wider : (wrap item (some n) false).2.width ≤ r.width item) :
    Ordered item c (plainReading c) r := by
  refine ⟨shorter, ?_⟩
  rcases Nat.eq_zero_or_pos n with rfl | slots
  · exact .inr ⟨rfl, occurs⟩
  · exact .inl (Nat.le_trans (le_width_numbered word slots) wider)

theorem rootReadings_ordered (word : item.2.width ≤ maxWord) :
    (rootReadings l c).Pairwise (Ordered item c) := by
  have alone (occurs : Option Nat) (after : Cursor) :
      (markedReading occurs after).Pairwise (Ordered item c) := by
    unfold markedReading
    split
    · exact List.pairwise_singleton _ _
    · exact .nil
  unfold rootReadings suffixedReadings
  split
  next n after found =>
    obtain ⟨digits, -, passes⟩ := readSuffix_some found
    have shorter : after.remaining < c.remaining := passes.shorter
    refine .cons (fun r h => ?_) (.cons (fun r h => ordered_marked width_numbered_le h) (alone _ _))
    rcases List.mem_cons.1 h with rfl | h
    · exact ordered_numbered word rfl shorter (Nat.le_refl _)
    · obtain ⟨mark, occurs, optional⟩ := mem_markedReading h
      refine ordered_numbered word occurs (Nat.lt_trans mark.shorter shorter) ?_
      rw [Reading.width, occurs, optional]
      exact le_width_marked width_numbered_le
  · have plain : (wrap item none false).2.width ≤ maxWord := word
    exact .cons (fun r h => ordered_marked plain h) (alone _ _)

/-- Of two readings that fit, one has no suffix and the other is that of a list without slots. -/
theorem Ordered.clash {r r' : Reading} (h : Ordered item c r r') (fits : r.fits item = true)
    (fits' : r'.fits item = true) : r = plainReading c ∧ r'.occurs = some 0 := by
  obtain ⟨shorter, wider | clash⟩ := h
  · exact absurd fits' (Reading.not_both_fit shorter wider fits)
  · exact clash

/-- If some reading fits, then the last one that does is chosen. -/
theorem choose_fits {plain r : Reading} {suffixed : List Reading} (h : r ∈ plain :: suffixed)
    (fits : r.fits item = true) : (choose item plain suffixed).fits item = true ∧
      ∃ before after, plain :: suffixed = before ++ choose item plain suffixed :: after ∧
        ∀ r' ∈ after, r'.fits item = false := by
  have some := List.find?_isSome (p := (·.fits item)).2 ⟨r, List.mem_reverse.2 h, fits⟩
  obtain ⟨chosen, found⟩ := Option.isSome_iff_exists.1 some
  have same : choose item plain suffixed = chosen := by
    rw [choose, found]
    rfl
  obtain ⟨holds, after, before, split, others⟩ := List.find?_eq_some_iff_append.1 found
  rw [same]
  refine ⟨holds, before.reverse, after.reverse, ?_, fun r' h' => ?_⟩
  · rw [← List.reverse_inj, split]
    simp
  · simpa using others r' (List.mem_reverse.1 h')

/-- A reading that fits is chosen, or it is the one without suffix and a list without slots fits
as well. -/
theorem choose_eq_or_clash (word : item.2.width ≤ maxWord) {r : Reading}
    (h : r ∈ rootReadings l c) (fits : r.fits item = true) :
    let chosen := choose item (plainReading c) (suffixedReadings l c)
    chosen.fits item = true ∧ (r = chosen ∨ r = plainReading c ∧ chosen.occurs = some 0) := by
  intro chosen
  obtain ⟨holds, before, after, split, others⟩ := choose_fits h fits
  refine ⟨holds, ?_⟩
  have ordered := rootReadings_ordered (l := l) (c := c) word
  rw [rootReadings] at h ordered
  rw [split] at h ordered
  rcases List.mem_append.1 h with earlier | later
  · exact .inr (Ordered.clash
      ((List.pairwise_append.1 ordered).2.2 r earlier _ List.mem_cons_self) fits holds)
  · rcases List.mem_cons.1 later with same | later
    · exact .inl same
    · exact absurd fits (Bool.not_eq_true _ ▸ others r later)

theorem readRoot_eq (read : readItem l (l.maxDepth + 1) rootName c = .ok (item, c')) :
    let chosen := choose item (plainReading c') (suffixedReadings l c')
    readRoot l c = .ok (wrap item chosen.occurs chosen.optional, chosen.after) := by
  simp only [readRoot, read, bind, Except.bind]

theorem choose_mem (plain : Reading) (suffixed : List Reading) :
    choose item plain suffixed ∈ plain :: suffixed := by
  unfold choose
  cases found : (plain :: suffixed).reverse.find? (·.fits item) with
  | some chosen => exact List.mem_reverse.1 (List.mem_of_find?_eq_some found)
  | none => exact List.getLastD_mem_cons

/-- Where a text begins with the item of a root, the readings of what follows are those whose
suffixes the text spells. Two readings fit at once only if the one has no suffix and the other says
that there are no slots. One reading holds: the one that fits, and if two do, then the one with
suffixes. -/
theorem readRoot_readings (read : readItem l (l.maxDepth + 1) rootName c = .ok (item, c')) :
    (∀ r ∈ rootReadings l c', r.Follows l c') ∧
      (l.Words → ∀ r : Reading, r.Follows l c' → r ∈ rootReadings l c') ∧
      (rootReadings l c').Pairwise (fun r r' => r.fits item = true → r'.fits item = true →
        r = plainReading c' ∧ r'.occurs = some 0) ∧
      ∃ chosen ∈ rootReadings l c',
        readRoot l c = .ok (wrap item chosen.occurs chosen.optional, chosen.after) ∧
        ∀ r ∈ rootReadings l c', r.fits item = true → chosen.fits item = true ∧
          (r = chosen ∨ r = plainReading c' ∧ chosen.occurs = some 0) := by
  have word := readItem_width read
  refine ⟨fun r h => mem_rootReadings h, fun words r follows => follows.mem words, ?_, ?_⟩
  · exact (rootReadings_ordered word).imp fun ordered => ordered.clash
  · exact ⟨_, choose_mem _ _, readRoot_eq read, fun r h fits => choose_eq_or_clash word h fits⟩

/-- A string that says `[0]0` may be read as an empty list behind the suffix `[0]`, and is. -/
theorem readRoot_readings_clash :
    let c : Cursor := .ofText "string(4)[0]0".toList
    let item : Item := (.ofKind rootName (.primitive .string), .leaf 4)
    let plain : Reading := ⟨none, false, c.skip 9⟩
    let empty : Reading := ⟨some 0, false, c.skip 12⟩
    readItem .standard (Limits.standard.maxDepth + 1) rootName c = .ok (item, c.skip 9) ∧
      rootReadings .standard (c.skip 9) = [plain, empty] ∧
      (∀ r : Reading, r.Follows .standard (c.skip 9) → r = plain ∨ r = empty) ∧
      plain.fits item = true ∧ empty.fits item = true ∧
      readRoot .standard c = .ok ((item.1.repeated, .repeated 0 item.2), empty.after) := by
  intro c item plain empty
  have read : readItem .standard (Limits.standard.maxDepth + 1) rootName c =
      .ok (item, c.skip 9) := by rfl
  have readings : rootReadings .standard (c.skip 9) = [plain, empty] := by rfl
  have fits : plain.fits item = true ∧ empty.fits item = true := ⟨by rfl, by rfl⟩
  obtain ⟨-, spelled, -, chosen, -, root, holds⟩ := readRoot_readings read
  have only : ∀ r : Reading, r.Follows .standard (c.skip 9) → r = plain ∨ r = empty := by
    intro r follows
    have known := spelled Limits.words_standard r follows
    rw [readings] at known
    simpa using known
  have empty_mem : empty ∈ rootReadings .standard (c.skip 9) := by
    rw [readings]
    exact List.mem_cons_of_mem _ List.mem_cons_self
  obtain ⟨-, rfl | ⟨plain, -⟩⟩ := holds empty empty_mem fits.2
  · exact ⟨read, readings, only, fits.1, fits.2, root⟩
  · exact nomatch congrArg Reading.occurs plain

end Slotform.Header
