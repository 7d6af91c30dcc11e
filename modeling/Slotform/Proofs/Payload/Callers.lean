import Slotform.Proofs.Payload.Plans

/-!
# Callers of one factory

Several callers may ask one factory for mappers at a time. Each of them carries out plans, and takes
turns with the others: it finds a mapper in the table, or it opens the mapper's slot and starts on
the plan of the mapper, or it finishes the mapper under construction (`Caller.Turn`). A slot belongs
to the caller that opened it until the mapper is finished, and a caller that asks for the key of
such a slot has to wait, be it for itself.

* `Caller.Orderly.not_mem_keys`: no caller waits for itself, where fingerprints discern schemas;
* `Workshop.exists_step`: some caller has a turn to take, unless all of them are answered;
* `Workshop.Runs.allOrderly`: every turn is paid for out of a number that bounds all of them;
* `Workshop.runs_outcome`: a caller that is alone ends with what a plan amounts to.

What carries all of this is the rank of schemas: whatever a construction asks for has a smaller one
(`Caller.Orderly.asks_less`), and a fingerprint tells the rank. Together it makes
`Factory.create_reentry_free`.
-/

namespace Slotform

/-- A mapper under construction, and how the plan goes on that asked for it. -/
structure Construction where
  schema : Schema
  ticket : Nat
  next : Mapper → Plan

/-- A caller with the plan that it carries out. That is the plan of the innermost mapper under
construction, which comes first, or the caller's own if there is none. -/
structure Caller where
  plan : Plan
  opened : List Construction

namespace Caller

def ofRequest (s : Schema) : Caller := ⟨.ask s fun mapper => .done (.ok mapper), []⟩

/-- The keys of the mappers that the caller has under construction. -/
def keys (c : Caller) : List Fingerprint := c.opened.map fun made => made.schema.fingerprint

/-- Nothing is left to do for the caller. -/
def Answered (c : Caller) : Prop := ∃ answer, c = ⟨.done answer, []⟩

/-- A turn of a caller at the table, while the mappers of the busy keys are under construction.
There is no turn for a caller that asks for a busy key whose mapper is not in the table. -/
inductive Turn (codecs : CodecTable) (busy : List Fingerprint) :
    Mappers → Caller → Mappers → Caller → Prop where
  | find {table table' : Mappers} {s : Schema} {next : Mapper → Plan} {kept : Kept Mapper}
      {opened : List Construction} : table.request s.fingerprint = (.known kept, table') →
      Turn codecs busy table ⟨.ask s next, opened⟩ table' ⟨next kept.value, opened⟩
  | start {table table' : Mappers} {s : Schema} {next : Mapper → Plan} {ticket : Nat}
      {opened : List Construction} : table.request s.fingerprint = (.missing ticket, table') →
      s.fingerprint ∉ busy →
      Turn codecs busy table ⟨.ask s next, opened⟩ table'
        ⟨codecs.plan s, ⟨s, ticket, next⟩ :: opened⟩
  | finish {table : Mappers} {answer : Except MappingError Mapper} {made : Construction}
      {opened : List Construction} :
      Turn codecs busy table ⟨.done answer, made :: opened⟩ (table.settle made.ticket answer)
        ⟨.after answer made.next, opened⟩

variable {codecs : CodecTable} {busy : List Fingerprint} {table table' : Mappers} {c c' : Caller}

theorem turn_or_wait (codecs : CodecTable) (busy : List Fingerprint) (table : Mappers)
    (c : Caller) : c.Answered ∨ (∃ table' c', Turn codecs busy table c table' c') ∨
      ∃ s next, c.plan = .ask s next ∧ s.fingerprint ∈ busy := by
  obtain ⟨answer | ⟨s, next⟩, opened⟩ := c
  · cases opened with
    | nil => exact .inl ⟨answer, rfl⟩
    | cons made opened => exact .inr (.inl ⟨_, _, .finish⟩)
  · right
    cases asked : table.request s.fingerprint with
    | mk request table' =>
      cases request with
      | known kept => exact .inl ⟨_, _, .find asked⟩
      | missing ticket =>
        by_cases waits : s.fingerprint ∈ busy
        · exact .inr ⟨s, next, rfl, waits⟩
        · exact .inl ⟨_, _, .start asked waits⟩

theorem Turn.unique {table₁ table₂ : Mappers} {c₁ c₂ : Caller}
    (h₁ : Turn codecs busy table c table₁ c₁) (h₂ : Turn codecs busy table c table₂ c₂) :
    table₁ = table₂ ∧ c₁ = c₂ := by
  cases h₁ with
  | find found =>
    cases h₂ with
    | find found' =>
      cases found.symm.trans found'
      exact ⟨rfl, rfl⟩
    | start missing => cases found.symm.trans missing
  | start missing =>
    cases h₂ with
    | find found => cases missing.symm.trans found
    | start missing' =>
      cases missing.symm.trans missing'
      exact ⟨rfl, rfl⟩
  | finish =>
    cases h₂
    exact ⟨rfl, rfl⟩

/-! ## What constructions ask for -/

variable {asked : List Schema} {opened : List Construction} {n : Nat} {s : Schema}

/-- What the innermost construction needs, or what callers ask for of their own. -/
def Wanted (asked : List Schema) : List Construction → Schema → Prop
  | [], s => s ∈ asked
  | made :: _, s => made.schema.Needs s

/-- Every construction was wanted by the one around it, whose plan goes on with what is wanted. The
number bounds the turns that are left once the innermost mapper is answered. -/
inductive Stacked (asked : List Schema) : Nat → List Construction → Prop where
  | nil : Stacked asked 0 []
  | cons {n k : Nat} {made : Construction} {opened : List Construction} :
      Wanted asked opened made.schema →
      (∀ mapper, (made.next mapper).Keeps (Wanted asked opened) k) → Stacked asked n opened →
      Stacked asked (2 * k + n + 1) (made :: opened)

/-- The caller asks for nothing but what is wanted, and has no more turns left than the number. -/
inductive Orderly (asked : List Schema) : Nat → Caller → Prop where
  | mk {n k : Nat} {plan : Plan} {opened : List Construction} :
      plan.Keeps (Wanted asked opened) k → Stacked asked n opened →
      Orderly asked (2 * k + n) ⟨plan, opened⟩

theorem orderly_ofRequest (hs : s ∈ asked) : Orderly asked (2 * s.parts.length) (ofRequest s) := by
  have plan : (ofRequest s).plan.Keeps (Wanted asked []) s.parts.length :=
    ⟨hs, 0, Nat.le_refl _, fun _ => trivial⟩
  exact .mk plan .nil

/-- A turn asks for nothing else than what is wanted, and leaves fewer turns. -/
theorem Turn.orderly (turn : Turn codecs busy table c table' c') (h : c.Orderly asked n) :
    ∃ k < n, c'.Orderly asked k := by
  cases turn with
  | @find _ s next kept =>
    cases h with
    | mk keeps stacked =>
      obtain ⟨_, k, enough, rest⟩ := keeps
      have parts := s.length_parts_pos
      exact ⟨_, by omega, .mk (rest kept.value) stacked⟩
  | @start _ s next ticket opened =>
    cases h with
    | mk keeps stacked =>
      obtain ⟨wanted, k, enough, rest⟩ := keeps
      obtain ⟨below, parts⟩ := Nat.exists_eq_succ_of_ne_zero s.length_parts_pos.ne'
      have inside : Stacked asked _ (⟨s, ticket, next⟩ :: opened) := .cons wanted rest stacked
      exact ⟨_, by omega, .mk (CodecTable.plan_keeps parts) inside⟩
  | finish =>
    cases h with
    | mk _ stacked =>
      cases stacked with
      | cons _ rest stacked => exact ⟨_, by omega, .mk (Plan.keeps_after rest) stacked⟩

theorem Orderly.done (h : c.Orderly asked n) (answer : Except MappingError Mapper) :
    ∃ k ≤ n, Orderly asked k ⟨.done answer, c.opened⟩ := by
  cases h with
  | @mk _ k _ opened _ stacked =>
    have plan : (Plan.done answer).Keeps (Wanted asked opened) 0 := trivial
    exact ⟨_, by omega, .mk plan stacked⟩

/-! ## No caller waits for itself -/

/-- Something that callers ask for of their own needs what is wanted. -/
theorem Stacked.reached (h : Stacked asked n opened) (wanted : Wanted asked opened s) :
    ∃ r ∈ asked, Relation.ReflTransGen Schema.Needs r s := by
  induction h generalizing s with
  | nil => exact ⟨s, wanted, .refl⟩
  | cons outer _ _ ih =>
    obtain ⟨r, hr, path⟩ := ih outer
    exact ⟨r, hr, path.tail wanted⟩

/-- So does everything that is under construction. -/
theorem Stacked.needs (h : Stacked asked n opened) (wanted : Wanted asked opened s) :
    ∀ made ∈ opened, (∃ r ∈ asked, Relation.ReflTransGen Schema.Needs r made.schema) ∧
      Relation.TransGen Schema.Needs made.schema s := by
  induction h generalizing s with
  | nil => exact nofun
  | cons outer _ stacked ih =>
    intro made hm
    rcases List.mem_cons.1 hm with rfl | hm
    · exact ⟨stacked.reached outer, .single wanted⟩
    · obtain ⟨reached, path⟩ := ih outer made hm
      exact ⟨reached, path.tail wanted⟩

/-- What a caller asks for has a smaller rank than all that it has under construction, and all of
this is among the parts of what callers ask for of their own. -/
theorem Orderly.asks_less {next : Mapper → Plan} (h : c.Orderly asked n)
    (asks : c.plan = .ask s next) : s ∈ asked.flatMap Schema.parts ∧ ∀ made ∈ c.opened,
      made.schema ∈ asked.flatMap Schema.parts ∧ s.rank < made.schema.rank := by
  have part {t : Schema} (reached : ∃ r ∈ asked, Relation.ReflTransGen Schema.Needs r t) :
      t ∈ asked.flatMap Schema.parts := by
    obtain ⟨r, hr, path⟩ := reached
    exact List.mem_flatMap.2 ⟨r, hr, Schema.mem_parts_of_needs path⟩
  cases h with
  | mk keeps stacked =>
    obtain rfl := asks
    have wanted := keeps.1
    refine ⟨part (stacked.reached wanted), fun made hm => ?_⟩
    obtain ⟨reached, path⟩ := stacked.needs wanted made hm
    exact ⟨part reached, Schema.rank_lt_of_needs path⟩

/-- A caller never asks for the key of a mapper that it has under construction itself. -/
theorem Orderly.not_mem_keys {next : Mapper → Plan} (discerns : Fingerprint.Discerns asked)
    (h : c.Orderly asked n) (asks : c.plan = .ask s next) : s.fingerprint ∉ c.keys := by
  intro waits
  obtain ⟨made, hm, same⟩ := List.mem_map.1 waits
  obtain ⟨part, less⟩ := h.asks_less asks
  obtain ⟨part', smaller⟩ := less made hm
  exact Nat.ne_of_lt smaller (discerns.rank_eq part part' same.symm)

end Caller

/-! ## Callers that take turns -/

/-- The table of a factory, and all who ask it for mappers. -/
structure Workshop where
  table : Mappers
  callers : List Caller

namespace Workshop

/-- Callers that ask for one mapper each, and have not had a turn yet. -/
def ofRequests (table : Mappers) (asked : List Schema) : Workshop :=
  ⟨table, asked.map Caller.ofRequest⟩

/-- The keys of all mappers under construction. -/
def busy (w : Workshop) : List Fingerprint := w.callers.flatMap Caller.keys

/-- One of the callers takes a turn. -/
inductive Step (codecs : CodecTable) : Workshop → Workshop → Prop where
  | turn {table table' : Mappers} {before behind : List Caller} {c c' : Caller} :
      c.Turn codecs (busy ⟨table, before ++ c :: behind⟩) table table' c' →
      Step codecs ⟨table, before ++ c :: behind⟩ ⟨table', before ++ c' :: behind⟩

/-- As many turns as the number says. -/
inductive Runs (codecs : CodecTable) : Nat → Workshop → Workshop → Prop where
  | stay (w : Workshop) : Runs codecs 0 w w
  | step {n : Nat} {w w' w'' : Workshop} : Step codecs w w' → Runs codecs n w' w'' →
      Runs codecs (n + 1) w w''

/-- Every caller is orderly, and the number bounds the turns that are left to all of them. -/
inductive AllOrderly (asked : List Schema) : Nat → List Caller → Prop where
  | nil : AllOrderly asked 0 []
  | cons {n k : Nat} {c : Caller} {callers : List Caller} : c.Orderly asked n →
      AllOrderly asked k callers → AllOrderly asked (n + k) (c :: callers)

variable {codecs : CodecTable} {asked : List Schema} {w w' : Workshop} {n k : Nat}

theorem allOrderly_ofRequests {requests : List Schema} (known : requests ⊆ asked) :
    AllOrderly asked (2 * (requests.flatMap Schema.parts).length)
      (requests.map Caller.ofRequest) := by
  induction requests with
  | nil => exact .nil
  | cons s rest ih =>
    obtain ⟨hs, known⟩ := List.cons_subset.1 known
    rw [List.flatMap_cons, List.length_append, Nat.mul_add]
    exact .cons (Caller.orderly_ofRequest hs) (ih known)

theorem AllOrderly.mem {callers : List Caller} (h : AllOrderly asked n callers) {c : Caller}
    (hc : c ∈ callers) : ∃ k, c.Orderly asked k := by
  induction h with
  | nil => cases hc
  | cons first _ ih =>
    rcases List.mem_cons.1 hc with rfl | hc
    · exact ⟨_, first⟩
    · exact ih hc

/-- Where one caller is replaced by one with fewer turns left, fewer turns are left to all. -/
theorem AllOrderly.replace {before behind : List Caller} {c c' : Caller}
    (h : AllOrderly asked n (before ++ c :: behind))
    (fewer : ∀ k, c.Orderly asked k → ∃ l < k, c'.Orderly asked l) :
    ∃ k < n, AllOrderly asked k (before ++ c' :: behind) := by
  induction before generalizing n with
  | nil =>
    cases h with
    | cons first others =>
      obtain ⟨l, less, first⟩ := fewer _ first
      exact ⟨_, by omega, .cons first others⟩
  | cons b before ih =>
    cases h with
    | cons first others =>
      obtain ⟨l, less, others⟩ := ih others
      exact ⟨_, by omega, .cons first others⟩

theorem Step.allOrderly (step : w.Step codecs w') (h : AllOrderly asked n w.callers) :
    ∃ k < n, AllOrderly asked k w'.callers := by
  cases step with
  | turn turn => exact h.replace fun k orderly => turn.orderly orderly

/-- Every turn is paid for out of those that are left. -/
theorem Runs.allOrderly (runs : Runs codecs n w w') (h : AllOrderly asked k w.callers) :
    ∃ left, n + left ≤ k ∧ AllOrderly asked left w'.callers := by
  induction runs generalizing k with
  | stay w => exact ⟨k, by omega, h⟩
  | step step _ ih =>
    obtain ⟨fewer, less, orderly⟩ := step.allOrderly h
    obtain ⟨left, enough, orderly'⟩ := ih orderly
    exact ⟨left, by omega, orderly'⟩

/-! ## Some caller can go on -/

/-- A caller asks for a mapper while it is under construction, and so waits for whoever makes it. -/
def Waits (w : Workshop) (c : Caller) (s : Schema) : Prop :=
  (∃ next, c.plan = .ask s next) ∧ s.fingerprint ∈ w.busy

theorem answered_or_waits (stuck : ¬ ∃ w', w.Step codecs w') {c : Caller} (hc : c ∈ w.callers) :
    c.Answered ∨ ∃ s, w.Waits c s := by
  obtain ⟨table, callers⟩ := w
  obtain ⟨before, behind, rfl⟩ := List.append_of_mem hc
  rcases c.turn_or_wait codecs (busy ⟨table, before ++ c :: behind⟩) table with
    answered | ⟨table', c', turn⟩ | ⟨s, next, asks, waits⟩
  · exact .inl answered
  · exact absurd ⟨_, .turn turn⟩ stuck
  · exact .inr ⟨s, ⟨next, asks⟩, waits⟩

/-- A caller that is waited for waits itself, and for something of a smaller rank. -/
theorem Waits.smaller (stuck : ¬ ∃ w', w.Step codecs w') (discerns : Fingerprint.Discerns asked)
    (h : AllOrderly asked n w.callers) {c : Caller} (hc : c ∈ w.callers) {s : Schema}
    (waits : w.Waits c s) : ∃ c' ∈ w.callers, ∃ t, w.Waits c' t ∧ t.rank < s.rank := by
  obtain ⟨⟨next, asks⟩, busy⟩ := waits
  obtain ⟨maker, hm, inside⟩ := List.mem_flatMap.1 busy
  obtain ⟨made, opened, same⟩ := List.mem_map.1 inside
  refine ⟨maker, hm, ?_⟩
  rcases answered_or_waits stuck hm with ⟨answer, rfl⟩ | ⟨t, ⟨next', asks'⟩, busy'⟩
  · cases opened
  · obtain ⟨_, orderly⟩ := h.mem hc
    obtain ⟨_, orderly'⟩ := h.mem hm
    obtain ⟨part, less⟩ := (orderly'.asks_less asks').2 made opened
    have ranks : made.schema.rank = s.rank := discerns.rank_eq part (orderly.asks_less asks).1 same
    exact ⟨t, ⟨⟨next', asks'⟩, busy'⟩, ranks ▸ less⟩

/-- The callers never all wait for each other: ranks would get smaller for ever. -/
theorem exists_step (codecs : CodecTable) (discerns : Fingerprint.Discerns asked)
    (h : AllOrderly asked n w.callers) :
    (∃ w', w.Step codecs w') ∨ ∀ c ∈ w.callers, c.Answered := by
  by_cases moves : ∃ w', w.Step codecs w'
  · exact .inl moves
  have waits {c : Caller} (hc : c ∈ w.callers) {s : Schema} : ¬ w.Waits c s := by
    intro waits
    induction r : s.rank using Nat.strong_induction_on generalizing c s with
    | h _ ih =>
      obtain ⟨c', hc', t, waits', less⟩ := waits.smaller moves discerns h hc
      exact ih t.rank (r ▸ less) hc' waits' rfl
  refine .inr fun c hc => ?_
  rcases answered_or_waits moves hc with answered | ⟨s, waiting⟩
  · exact answered
  · exact absurd waiting (waits hc)

/-! ## A caller that is alone -/

theorem Runs.trans {w'' : Workshop} (h : Runs codecs n w w') (h' : Runs codecs k w' w'') :
    Runs codecs (k + n) w w'' := by
  induction h with
  | stay => exact h'
  | step first _ ih => exact .step first (ih h')

section Alone

variable {table table' : Mappers} {c c' : Caller}

theorem step_alone : Step codecs ⟨table, [c]⟩ w ↔
    ∃ table' c', w = ⟨table', [c']⟩ ∧ c.Turn codecs c.keys table table' c' := by
  have busy_alone : busy ⟨table, [c]⟩ = c.keys := List.append_nil _
  constructor
  · intro step
    generalize same : (⟨table, [c]⟩ : Workshop) = start at step
    cases step with
    | @turn _ table' before behind c₀ c' turn =>
      obtain ⟨rfl, callers⟩ := Workshop.mk.inj same
      obtain ⟨rfl, rfl, rfl⟩ : before = [] ∧ c₀ = c ∧ behind = [] := by
        cases before <;> simp_all
      exact ⟨table', c', rfl, busy_alone ▸ turn⟩
  · rintro ⟨table', c', rfl, turn⟩
    have step : Step codecs ⟨table, [] ++ c :: []⟩ ⟨table', [] ++ c' :: []⟩ :=
      .turn (busy_alone.symm ▸ turn)
    exact step

theorem Runs.turn (turn : c.Turn codecs c.keys table table' c')
    (rest : Runs codecs n ⟨table', [c']⟩ w) : Runs codecs (n + 1) ⟨table, [c]⟩ w :=
  .step (step_alone.2 ⟨table', c', rfl, turn⟩) rest

end Alone

/-- A caller that is alone never waits, and ends with what its plan amounts to. -/
theorem runs_outcome (discerns : Fingerprint.Discerns asked) {plan : Plan}
    {opened : List Construction} (orderly : Caller.Orderly asked n ⟨plan, opened⟩)
    {table left : Mappers} {answer : Except MappingError Mapper}
    (ends : plan.outcome codecs table = (answer, left)) :
    ∃ k, Runs codecs k ⟨table, [⟨plan, opened⟩]⟩ ⟨left, [⟨.done answer, opened⟩]⟩ := by
  -- The induction is on the turns that are left: an inner plan is no part of the outer one.
  induction n using Nat.strong_induction_on generalizing plan opened table left answer with
  | h n ih =>
    cases plan with
    | done result =>
      obtain ⟨rfl, rfl⟩ := Prod.mk.inj ((Plan.outcome_done result).symm.trans ends)
      exact ⟨0, .stay _⟩
    | ask s next =>
      let c : Caller := ⟨.ask s next, opened⟩
      cases requested : table.request s.fingerprint with
      | mk request table' =>
        cases request with
        | known kept =>
          have found : c.Turn codecs c.keys table table' ⟨next kept.value, opened⟩ :=
            .find requested
          obtain ⟨k, less, orderly'⟩ := found.orderly orderly
          rw [Plan.outcome_find requested] at ends
          obtain ⟨l, rest⟩ := ih k less orderly' ends
          exact ⟨_, .turn found rest⟩
        | missing ticket =>
          let made : Construction := ⟨s, ticket, next⟩
          have started : c.Turn codecs c.keys table table' ⟨codecs.plan s, made :: opened⟩ :=
            .start requested (orderly.not_mem_keys discerns rfl)
          obtain ⟨k, less, orderly'⟩ := started.orderly orderly
          cases inner : (codecs.plan s).outcome codecs table' with
          | mk result table'' =>
            obtain ⟨l, inside⟩ := ih k less orderly' inner
            let c' : Caller := ⟨.done result, made :: opened⟩
            have finished : c'.Turn codecs c'.keys table'' (table''.settle ticket result)
                ⟨.after result next, opened⟩ := .finish
            obtain ⟨k', le, ended⟩ := orderly'.done result
            obtain ⟨k'', less', orderly''⟩ := finished.orderly ended
            rw [Plan.outcome_start requested inner] at ends
            obtain ⟨l', rest⟩ := ih k'' (by omega) orderly'' ends
            exact ⟨_, .turn started (inside.trans (.turn finished rest))⟩

/-- Where there is one caller only, every run to its answer goes through all that it may come to. -/
theorem Runs.continues {table : Mappers} {c : Caller} (h : Runs codecs n ⟨table, [c]⟩ w)
    (ends : Runs codecs k ⟨table, [c]⟩ w') (last : ∀ w'', ¬ w'.Step codecs w'') :
    ∃ l, Runs codecs l w w' := by
  generalize same : (⟨table, [c]⟩ : Workshop) = start at h
  induction h generalizing table c k with
  | stay => exact ⟨k, same ▸ ends⟩
  | step first _ ih =>
    subst same
    cases ends with
    | stay => exact absurd first (last _)
    | step first' ends =>
      obtain ⟨table₁, c₁, rfl, turn⟩ := step_alone.1 first
      obtain ⟨table₂, c₂, rfl, turn'⟩ := step_alone.1 first'
      obtain ⟨rfl, rfl⟩ := turn.unique turn'
      exact ih ends rfl

end Workshop

namespace Factory

theorem create_outcome (f : Factory) (s : Schema) :
    (Caller.ofRequest s).plan.outcome f.codecs f.mappers =
      ((f.create s).1.map Kept.value, (f.create s).2.mappers) := by
  have created : (f.codecs.create s).run.run f.mappers =
      ((f.create s).1, (f.create s).2.mappers) := rfl
  rw [Caller.ofRequest, Plan.outcome_ask created]
  cases (f.create s).1 <;> rfl

/-- Several callers ask a factory for mappers, whatever its table holds, and take turns in any
order. No caller asks for the key of a mapper that it has under construction itself. Some caller
has a turn until all are answered, which they are after no more turns than it takes to open and to
finish every part of what they asked for. A caller that is alone ends with the answer and the table
of `create`. All this takes the digest not to collide on the byte strings that go into fingerprints
of parts. -/
theorem create_reentry_free (f : Factory) {asked : List Schema} (small : ∀ s ∈ asked, s.Small)
    (free : ¬ Sha256.Collision (Fingerprint.messages asked)) :
    (∀ n w, Workshop.Runs f.codecs n (.ofRequests f.mappers asked) w →
      (∀ c ∈ w.callers, ∀ s next, c.plan = .ask s next → s.fingerprint ∉ c.keys) ∧
      ((∃ w', w.Step f.codecs w') ∨ ∀ c ∈ w.callers, c.Answered) ∧
      n ≤ 2 * (asked.flatMap Schema.parts).length) ∧
    ∀ s ∈ asked, ∀ n w, Workshop.Runs f.codecs n (.ofRequests f.mappers [s]) w →
      ∃ k, Workshop.Runs f.codecs k w
        ⟨(f.create s).2.mappers, [⟨.done ((f.create s).1.map Kept.value), []⟩]⟩ := by
  have discerns := Fingerprint.discerns_of_free small free
  refine ⟨fun n w runs => ?_, fun s hs n w runs => ?_⟩
  · obtain ⟨left, enough, orderly⟩ :=
      runs.allOrderly (Workshop.allOrderly_ofRequests (List.Subset.refl asked))
    refine ⟨fun c hc s next asks => ?_, Workshop.exists_step f.codecs discerns orderly, by omega⟩
    obtain ⟨_, h⟩ := orderly.mem hc
    exact h.not_mem_keys discerns asks
  · obtain ⟨k, ends⟩ := Workshop.runs_outcome discerns (Caller.orderly_ofRequest hs)
      (f.create_outcome s)
    refine runs.continues ends fun w' step => ?_
    obtain ⟨_, _, _, turn⟩ := Workshop.step_alone.1 step
    cases turn

end Factory

/-! ## A sample

Somebody asks for the sample record, and somebody else for a list of its texts. -/

namespace Sample

def requests : List Schema := [person, name.repeated]

theorem small_requests : ∀ s ∈ requests, s.Small := by
  intro s hs
  simp only [requests, List.mem_cons, List.not_mem_nil, or_false] at hs
  rcases hs with rfl | rfl
  · exact small_person
  · exact .leaf ⟨by decide, by decide⟩ (by decide)

theorem free_requests : ¬ Sha256.Collision (Fingerprint.messages requests) := by
  unfold Sha256.Collision
  decide +kernel

end Sample

namespace Factory

/-- The mapper of the texts is in the table already. -/
theorem create_reentry_free_person :
    (∀ s ∈ Sample.requests, s.Small) ∧
    ¬ Sha256.Collision (Fingerprint.messages Sample.requests) ∧
    (∀ n w, Workshop.Runs [] n (.ofRequests (after [] [Sample.name]).mappers Sample.requests) w →
      (∀ c ∈ w.callers, ∀ s next, c.plan = .ask s next → s.fingerprint ∉ c.keys) ∧
      ((∃ w', w.Step [] w') ∨ ∀ c ∈ w.callers, c.Answered) ∧
      n ≤ 2 * (Sample.requests.flatMap Schema.parts).length) ∧
    ∀ s ∈ Sample.requests, ∀ n w,
      Workshop.Runs [] n (.ofRequests (after [] [Sample.name]).mappers [s]) w →
      ∃ k, Workshop.Runs [] k w ⟨((after [] [Sample.name]).create s).2.mappers,
        [⟨.done (((after [] [Sample.name]).create s).1.map Kept.value), []⟩]⟩ :=
  ⟨Sample.small_requests, Sample.free_requests,
    create_reentry_free (after [] [Sample.name]) Sample.small_requests Sample.free_requests⟩

end Factory

end Slotform
