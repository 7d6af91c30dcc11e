import Slotform.Memo

/-!
# What a memo table keeps

A table is sound for a relation between keys and values when every value in it is related to its
key, and when tickets tell computations apart:

* `Memo.request_known`, `Memo.request_missing`: an answer out of a sound table is related to the
  key, and a missing key gets a ticket that belongs to no other key;
* `Memo.settle_sound`: a computation that settles its own slot keeps the table sound;
* `Memo.getOrCompute_cases`: a request either finds a related value or answers what the computation
  answers, and the table stays sound although the computation may use it.
-/

namespace Slotform.Memo

variable {κ α ε : Type} {P : κ → α → Prop}

/-- Tickets have been issued, belong to one key each, and every value is right for its key. -/
structure Sound (P : κ → α → Prop) (m : Memo κ α) : Prop where
  issued : ∀ s ∈ m.slots, s.ticket < m.nextTicket
  keyed : ∀ s ∈ m.slots, ∀ t ∈ m.slots, s.ticket = t.ticket → s.key = t.key
  right : ∀ s ∈ m.slots, ∀ v, s.value? = some v → P s.key v

theorem Sound.mono {Q : κ → α → Prop} {m : Memo κ α} (sound : m.Sound P)
    (imp : ∀ key v, P key v → Q key v) : m.Sound Q :=
  ⟨sound.issued, sound.keyed, fun s hs v hv => imp _ _ (sound.right s hs v hv)⟩

/-- A later state of a table: a ticket that was issued before still has the key it had. -/
structure Later (m n : Memo κ α) : Prop where
  nextTicket_le : m.nextTicket ≤ n.nextTicket
  keyed : ∀ t ∈ n.slots, t.ticket < m.nextTicket →
    ∃ s ∈ m.slots, s.ticket = t.ticket ∧ s.key = t.key

theorem Later.refl (m : Memo κ α) : m.Later m :=
  ⟨Nat.le_refl _, fun t ht _ => ⟨t, ht, rfl, rfl⟩⟩

theorem Later.trans {a b c : Memo κ α} (hab : a.Later b) (hbc : b.Later c) : a.Later c := by
  refine ⟨Nat.le_trans hab.nextTicket_le hbc.nextTicket_le, ?_⟩
  intro t ht hlt
  obtain ⟨s, hs, hst, hkey⟩ := hbc.keyed t ht (Nat.lt_of_lt_of_le hlt hab.nextTicket_le)
  obtain ⟨r, hr, hrs, hkey'⟩ := hab.keyed s hs (hst ▸ hlt)
  exact ⟨r, hr, hrs.trans hst, hkey'.trans hkey⟩

theorem sound_empty : (empty : Memo κ α).Sound P :=
  ⟨nofun, nofun, nofun⟩

theorem sound_clear (m : Memo κ α) : m.clear.Sound P :=
  ⟨nofun, nofun, nofun⟩

section Settle

variable {m : Memo κ α} {ticket : Nat} {key : κ} {result : Except ε α}

/-- Settling never moves a ticket to another key. -/
theorem mem_settle {t : Slot κ α} (ht : t ∈ (m.settle ticket result).slots) :
    ∃ s ∈ m.slots, s.ticket = t.ticket ∧ s.key = t.key := by
  cases result with
  | ok value =>
    obtain ⟨s, hs, rfl⟩ := List.mem_map.1 ht
    refine ⟨s, hs, ?_⟩
    split <;> exact ⟨rfl, rfl⟩
  | error e => exact ⟨t, (List.mem_filter.1 ht).1, rfl, rfl⟩

theorem settle_nextTicket : (m.settle ticket result).nextTicket = m.nextTicket := by
  cases result <;> rfl

theorem settle_later : m.Later (m.settle ticket result) :=
  ⟨Nat.le_of_eq settle_nextTicket.symm, fun _ ht _ => mem_settle ht⟩

theorem settle_sound (sound : m.Sound P)
    (own : ∀ s ∈ m.slots, s.ticket = ticket → s.key = key)
    (right : ∀ v, result = .ok v → P key v) : (m.settle ticket result).Sound P := by
  refine ⟨?_, ?_, ?_⟩
  · intro t ht
    obtain ⟨s, hs, hst, _⟩ := mem_settle ht
    rw [settle_nextTicket, ← hst]
    exact sound.issued s hs
  · intro t ht t' ht' heq
    obtain ⟨s, hs, hst, hkey⟩ := mem_settle ht
    obtain ⟨s', hs', hst', hkey'⟩ := mem_settle ht'
    rw [← hkey, ← hkey']
    exact sound.keyed s hs s' hs' (by rw [hst, hst', heq])
  · cases result with
    | ok value =>
      intro t ht v hv
      obtain ⟨s, hs, rfl⟩ := List.mem_map.1 ht
      split at hv
      next unfilled =>
        cases hv
        rw [if_pos unfilled, own s hs unfilled.1]
        exact right value rfl
      next filled =>
        rw [if_neg filled]
        exact sound.right s hs v hv
    | error e =>
      intro t ht v hv
      exact sound.right t (List.mem_filter.1 ht).1 v hv

end Settle

section Request

variable [DecidableEq κ] {m m' : Memo κ α} {key : κ}

theorem request_known (sound : m.Sound P) {kept : Kept α}
    (h : m.request key = (.known kept, m')) : m' = m ∧ P key kept.value := by
  unfold request at h
  split at h
  next k ticket value found =>
    cases h
    have hk : k = key := by simpa using List.find?_some found
    have hp := sound.right _ (List.mem_of_find?_eq_some found) value rfl
    exact ⟨rfl, hk ▸ hp⟩
  next => cases h
  next => cases h

/-- A missing key's ticket belongs to that key alone. -/
theorem request_missing (sound : m.Sound P) {ticket : Nat}
    (h : m.request key = (.missing ticket, m')) :
    m'.Sound P ∧ m.Later m' ∧ ticket < m'.nextTicket ∧
      ∀ s ∈ m'.slots, s.ticket = ticket → s.key = key := by
  unfold request at h
  split at h
  next => cases h
  next k t found =>
    cases h
    have hk : k = key := by simpa using List.find?_some found
    have hmem := List.mem_of_find?_eq_some found
    refine ⟨sound, Later.refl _, sound.issued _ hmem, ?_⟩
    intro s hs hst
    exact (sound.keyed s hs _ hmem hst).trans hk
  next =>
    cases h
    have old {s : Slot κ α} (hs : s ∈ m.slots ++ [⟨key, m.nextTicket, none⟩]) :
        s ∈ m.slots ∧ s.ticket < m.nextTicket ∨ s = ⟨key, m.nextTicket, none⟩ := by
      rcases List.mem_append.1 hs with hs | hs
      · exact Or.inl ⟨hs, sound.issued s hs⟩
      · exact Or.inr (List.mem_singleton.1 hs)
    refine ⟨⟨?_, ?_, ?_⟩, ⟨Nat.le_succ _, ?_⟩, Nat.lt_succ_self _, ?_⟩
    · intro s hs
      rcases old hs with ⟨_, hlt⟩ | rfl
      · exact Nat.lt_succ_of_lt hlt
      · exact Nat.lt_succ_self _
    · intro s hs t ht heq
      rcases old hs with ⟨hs, hlt⟩ | rfl <;> rcases old ht with ⟨ht, hlt'⟩ | rfl
      · exact sound.keyed s hs t ht heq
      · exact absurd heq (Nat.ne_of_lt hlt)
      · exact absurd heq.symm (Nat.ne_of_lt hlt')
      · rfl
    · intro s hs v hv
      rcases old hs with ⟨hs, _⟩ | rfl
      · exact sound.right s hs v hv
      · cases hv
    · intro t ht hlt
      rcases old ht with ⟨ht, _⟩ | rfl
      · exact ⟨t, ht, rfl, rfl⟩
      · exact absurd hlt (Nat.lt_irrefl _)
    · intro s hs hst
      rcases old hs with ⟨_, hlt⟩ | rfl
      · exact absurd hst (Nat.ne_of_lt hlt)
      · rfl

section Compute

variable {ticket : Nat} {compute : Memo κ α → Except ε α × Memo κ α}

theorem getOrCompute_known {kept : Kept α} (h : m.request key = (.known kept, m')) :
    m.getOrCompute key compute = (.ok kept, m') := by
  rw [getOrCompute, h]

theorem getOrCompute_missing (h : m.request key = (.missing ticket, m')) :
    m.getOrCompute key compute =
      ((compute m').1.map (Kept.mk ticket), (compute m').2.settle ticket (compute m').1) := by
  rw [getOrCompute, h]

end Compute

/-- A request answers with a value that is right for its key, or with what the computation answers
on some sound table. In between, the computation may request other keys, and even its own. -/
theorem getOrCompute_cases (sound : m.Sound P) (key : κ)
    (compute : Memo κ α → Except ε α × Memo κ α)
    (computes : ∀ n : Memo κ α, n.Sound P →
      (compute n).2.Sound P ∧ n.Later (compute n).2 ∧ ∀ v, (compute n).1 = .ok v → P key v) :
    (m.getOrCompute key compute).2.Sound P ∧ m.Later (m.getOrCompute key compute).2 ∧
      ((∃ kept, (m.getOrCompute key compute).1 = .ok kept ∧ P key kept.value) ∨
        ∃ n : Memo κ α, n.Sound P ∧
          (m.getOrCompute key compute).1.map Kept.value = (compute n).1) := by
  cases asked : m.request key with
  | mk request n =>
    cases request with
    | known kept =>
      obtain ⟨rfl, right⟩ := request_known sound asked
      rw [getOrCompute_known asked]
      exact ⟨sound, Later.refl _, Or.inl ⟨kept, rfl, right⟩⟩
    | missing ticket =>
      obtain ⟨sound', later, issued, own⟩ := request_missing sound asked
      obtain ⟨computed, after, right⟩ := computes n sound'
      have own' : ∀ s ∈ (compute n).2.slots, s.ticket = ticket → s.key = key := by
        intro s hs hst
        obtain ⟨r, hr, hrs, hkey⟩ := after.keyed s hs (hst ▸ issued)
        rw [← hkey]
        exact own r hr (hrs.trans hst)
      rw [getOrCompute_missing asked]
      refine ⟨settle_sound computed own' right, (later.trans after).trans settle_later,
        Or.inr ⟨n, sound', ?_⟩⟩
      cases (compute n).1 <;> rfl

end Request

end Slotform.Memo
