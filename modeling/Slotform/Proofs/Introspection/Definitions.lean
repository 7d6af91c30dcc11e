import Slotform.Proofs.Introspection.Expansion
import Slotform.Proofs.Introspection.Runs
import Slotform.Proofs.Registry.Claims

/-!
# Definitions that arrive

Definitions arrive all together or not at all, although they are taken over one by one: whatever
can fail comes before the first that is taken over (`Move.run_moves`). Two sets of definitions can
arrive one after the other exactly if the registries agree pairwise on the names that they share
(`Registry.merges_iff`), which does not depend on the order. The order does remain visible in the
list of definitions, but no reader looks at that: what it answers depends only on what each name
stands for (`Reader.answers_alike`).
-/

namespace Slotform

namespace Registry

variable {r r' r₁ r₂ a b : Registry}

/-! ## Agreement on shared names -/

/-- No name stands for two different things. -/
def Agrees (a b : Registry) : Prop :=
  ∀ name d e, a.get? name = some d → b.get? name = some e → d = e

theorem Agrees.symm (agrees : a.Agrees b) : b.Agrees a :=
  fun name d e found found' => (agrees name e d found' found).symm

theorem admits_iff_agrees (distinct : a.names.Nodup) : r.Admits a ↔ r.Agrees a := by
  constructor
  · intro admits name d e here there
    have own := name_of_get? there
    exact admits e (List.mem_of_find?_eq_some there) d (own ▸ here)
  · intro agrees d mem present found
    exact agrees d.name present d found ((get?_eq_some_iff distinct).2 mem)

theorem merge_ok_iff_agrees (distinct : a.names.Nodup) :
    (∃ r', r.merge a = .ok r') ↔ a.conflicts = [] ∧ r.Agrees a := by
  rw [merge_ok_iff, admits_iff_agrees distinct]

/-- Whatever a merged registry knows, one of the two has known. -/
theorem agrees_merge (distinct : a.names.Nodup) (h : r.merge a = .ok r₁) :
    r₁.Agrees b ↔ r.Agrees b ∧ a.Agrees b := by
  have grows : a.GrowsTo r₁ := (merge_knows distinct h).growsTo
  constructor
  · intro agrees
    constructor
    · exact fun name d e found => agrees name d e (merge_growsTo h name d found)
    · exact fun name d e found => agrees name d e (grows name d found)
  · rintro ⟨own, brought⟩ name d e found
    rw [get?_merge h, Option.or_eq_some_iff] at found
    rcases found with known | ⟨-, new⟩
    · exact own name d e known
    · exact brought name d e new

/-- Two merges in a row succeed where nothing conflicts and any two of the three registries
agree. -/
theorem merges_iff (distinct : a.names.Nodup) (distinct' : b.names.Nodup) :
    (∃ r₁ r₂, r.merge a = .ok r₁ ∧ r₁.merge b = .ok r₂) ↔
      (a.conflicts = [] ∧ b.conflicts = []) ∧ r.Agrees a ∧ r.Agrees b ∧ a.Agrees b := by
  constructor
  · rintro ⟨r₁, r₂, first, second⟩
    have ⟨quiet, agrees⟩ := (merge_ok_iff_agrees distinct).1 ⟨r₁, first⟩
    have ⟨quiet', agrees'⟩ := (merge_ok_iff_agrees distinct').1 ⟨r₂, second⟩
    exact ⟨⟨quiet, quiet'⟩, agrees, (agrees_merge distinct first).1 agrees'⟩
  · rintro ⟨⟨quiet, quiet'⟩, agrees, agrees'⟩
    obtain ⟨r₁, first⟩ := (merge_ok_iff_agrees distinct).2 ⟨quiet, agrees⟩
    have later := (agrees_merge distinct first).2 agrees'
    obtain ⟨r₂, second⟩ := (merge_ok_iff_agrees distinct').2 ⟨quiet', later⟩
    exact ⟨r₁, r₂, first, second⟩

/-- Where registries agree, the order in which their definitions are looked up does not matter. -/
theorem Agrees.or_comm (agrees : a.Agrees b) (name : String) :
    (a.get? name).or (b.get? name) = (b.get? name).or (a.get? name) := by
  cases here : a.get? name with
  | none => exact Option.or_none.symm
  | some d =>
    cases there : b.get? name with
    | none => rfl
    | some e => exact congrArg some (agrees name d e here there)

/-- After two merges in either order every name stands for the same. -/
theorem get?_merges_comm {s₁ s₂ : Registry} (agrees : a.Agrees b) (first : r.merge a = .ok r₁)
    (second : r₁.merge b = .ok r₂) (first' : r.merge b = .ok s₁) (second' : s₁.merge a = .ok s₂) :
    r₂.get? = s₂.get? := by
  funext name
  calc r₂.get? name = (r.get? name).or ((a.get? name).or (b.get? name)) := by
        rw [get?_merge second, get?_merge first, Option.or_assoc]
    _ = (r.get? name).or ((b.get? name).or (a.get? name)) := by rw [agrees.or_comm]
    _ = s₂.get? name := by rw [get?_merge second', get?_merge first', Option.or_assoc]

/-- A merge fails with the same conflict, or succeeds, in registries with the same lookups, and
leaves the same lookups. -/
theorem merge_lookups (same : r.get? = r'.get?) :
    (r.merge a).map get? = (r'.merge a).map get? := by
  have differing : r.differing? a.definitions = r'.differing? a.definitions := by
    simp only [differing?, same]
  simp only [merge, differing, bind, Except.bind]
  cases a.check with
  | error e => rfl
  | ok =>
    cases r'.differing? a.definitions with
    | some d => rfl
    | none =>
      refine congrArg Except.ok (funext fun name => ?_)
      rw [get?_fill, get?_fill, same]

theorem sameAliases_of_lookups (same : r.get? = r'.get?) : r.SameAliases r' :=
  fun name => by rw [same]

end Registry

namespace Walk

variable {w : Walk} {r : Registry}

/-- A walk depends on what names stand for, not on how the definitions are listed. -/
theorem member_lookups (same : r.get? = w.registry.get?) (allowance : Nat) (path : List String)
    (name : String) (ty : Ty) (format : Format) :
    (w.withRegistry r).member allowance path name ty format =
      w.member allowance path name ty format := by
  have aliases := Registry.sameAliases_of_lookups same.symm
  induction allowance generalizing path name ty format with
  | zero => rfl
  | succ allowance ih =>
    apply member_congr
    · simp only [splitOption, withRegistry, aliases.resolve]
    · intro optional inner _
      simp only [splitList, withRegistry, aliases.resolve]
    · intro _ _ _ owner node _ _ _
      have fields : (w.withRegistry r).splitFields owner = w.splitFields owner := by
        rw [splitFields, splitFields, withRegistry, same]
      exact expandRecord_congr fields fun _ _ _ f _ => ih (owner :: path) f.name f.ty f.format

theorem root_lookups (same : r.get? = w.registry.get?) (ty : Ty) :
    (w.withRegistry r).root ty = w.root ty :=
  member_lookups same _ _ _ _ _

end Walk

namespace Reader

variable {r r' r₁ r₂ : Reader} {a b : Registry}

/-! ## Readers that answer alike -/

/-- The readers differ at most in how their definitions are listed. -/
structure Alike (r r' : Reader) : Prop where
  lookups : r.registry.get? = r'.registry.get?
  skip : r.skip = r'.skip
  limits : r.limits = r'.limits
  memo : r.memo = r'.memo

theorem Alike.compute (alike : r.Alike r') (ty : Ty) (element : Option Ty) :
    r.compute ty element = r'.compute ty element := by
  obtain ⟨registry, skip, limits, memo⟩ := r
  obtain ⟨registry', skip', limits', memo'⟩ := r'
  obtain ⟨lookups, rfl, rfl, rfl⟩ := alike
  have aliases := Registry.sameAliases_of_lookups lookups.symm
  have walks (ty : Ty) := Walk.root_lookups (w := ⟨registry', skip, limits.maxDepth⟩) lookups ty
  cases element with
  | none => exact walks ty
  | some element =>
    simp only [Reader.compute, aliases.applyElement]
    exact bind_congr walks

/-- Alike readers answer a request alike, and stay alike. -/
theorem Alike.remembering (alike : r.Alike r') (ty : Ty) (element : Option Ty) :
    (remembering r ty element).1 = (Reader.remembering r' ty element).1 ∧
      (Reader.remembering r ty element).2.Alike (Reader.remembering r' ty element).2 := by
  have same : r.memo.getOrCompute (ty, element) (fun memo => (r.compute ty element, memo)) =
      r'.memo.getOrCompute (ty, element) (fun memo => (r'.compute ty element, memo)) := by
    rw [alike.memo, alike.compute]
  rw [Reader.remembering, Reader.remembering, request, request, same]
  exact ⟨rfl, alike.lookups, alike.skip, alike.limits, rfl⟩

/-- Definitions arrive at alike readers alike, and leave them alike. -/
theorem Alike.extend (alike : r.Alike r') (a : Registry) :
    (r.extend a).1 = (r'.extend a).1 ∧ (r.extend a).2.Alike (r'.extend a).2 := by
  have lookups := Registry.merge_lookups (a := a) alike.lookups
  simp only [Reader.extend, define]
  cases checkNames a.definitions with
  | error e => exact ⟨rfl, alike⟩
  | ok =>
    cases h : r.registry.merge a <;> cases h' : r'.registry.merge a <;>
      simp only [h, h', Except.map, reduceCtorEq, Except.error.injEq, Except.ok.injEq] at lookups
    · subst lookups
      exact ⟨rfl, alike⟩
    · exact ⟨rfl, lookups, alike.skip, alike.limits, alike.memo⟩

theorem Alike.perform (alike : r.Alike r') (call : Call) :
    (r.perform Reader.remembering call).1 = (r'.perform Reader.remembering call).1 ∧
      (r.perform Reader.remembering call).2.Alike (r'.perform Reader.remembering call).2 := by
  cases call with
  | define a =>
    obtain ⟨same, after⟩ := alike.extend a
    exact ⟨congrArg Answer.defined same, after⟩
  | register description =>
    obtain ⟨ty, a⟩ := description
    obtain ⟨same, after⟩ := alike.extend a
    refine ⟨?_, after⟩
    simp only [Reader.perform, same]
  | read ty =>
    obtain ⟨same, after⟩ := alike.remembering ty none
    exact ⟨congrArg Answer.schema same, after⟩
  | readWithElement ty element =>
    obtain ⟨same, after⟩ := alike.remembering ty (some element)
    exact ⟨congrArg Answer.schema same, after⟩

/-- Alike readers answer any sequence of calls alike. -/
theorem answers_alike (alike : r.Alike r') (calls : List Call) :
    r.answers remembering calls = r'.answers remembering calls := by
  induction calls generalizing r r' with
  | nil => rfl
  | cons call rest ih =>
    obtain ⟨same, after⟩ := alike.perform call
    simp only [answers, same, ih after]

/-! ## Defining step by step -/

/-- A step of a definition that works on the registry itself. -/
inductive Move where
  | checkName (name : String)
  | checkClaims (incoming : Registry)
  | compare (d : Definition)
  | copy (d : Definition)

/-- What a step makes of the registry, if it does not fail. -/
def Move.make (registry : Registry) : Move → Except IntrospectionError Registry
  | checkName name => (Slotform.checkName name).map fun _ => registry
  | checkClaims incoming =>
    (incoming.check.mapError .conflictingDefinition).map fun _ => registry
  | compare d =>
    match registry.get? d.name with
    | some present =>
      if present = d then .ok registry else .error (.conflictingDefinition ⟨d.name⟩)
    | none => .ok registry
  | copy d => .ok (if registry.contains d.name then registry else registry.define d)

/-- Takes steps in order. At the first fault the rest is left out, and the registry stays as the
steps before have left it. -/
def Move.run : List Move → Registry → Except IntrospectionError Unit × Registry
  | [], registry => (.ok (), registry)
  | move :: rest, registry =>
    match move.make registry with
    | .ok registry => run rest registry
    | .error e => (.error e, registry)

/-- The steps by which definitions arrive. -/
def moves (incoming : Registry) : List Move :=
  incoming.definitions.map (fun d => .checkName d.name) ++
    .checkClaims incoming ::
      (incoming.definitions.map .compare ++ incoming.definitions.map .copy)

namespace Move

variable (registry : Registry) (definitions : List Definition)

theorem run_append (first second : List Move) : run (first ++ second) registry =
    match run first registry with
    | (.ok (), registry) => run second registry
    | (.error e, registry) => (.error e, registry) := by
  induction first generalizing registry with
  | nil => rfl
  | cons move rest ih =>
    rw [List.cons_append, run, run]
    cases move.make registry with
    | error e => rfl
    | ok registry => exact ih registry

theorem run_checkNames :
    run (definitions.map fun d => .checkName d.name) registry =
      (checkNames definitions, registry) := by
  induction definitions with
  | nil => rfl
  | cons d rest ih =>
    rw [List.map_cons, run, make, checkNames]
    cases Slotform.checkName d.name with
    | error e => rfl
    | ok => exact ih

theorem run_compares :
    run (definitions.map .compare) registry =
      (match registry.differing? definitions with
        | none => .ok ()
        | some d => .error (.conflictingDefinition ⟨d.name⟩), registry) := by
  induction definitions with
  | nil => rfl
  | cons d rest ih =>
    rw [List.map_cons, run, make, Registry.differing?, List.find?_cons]
    cases registry.get? d.name with
    | none => exact ih
    | some present =>
      by_cases same : present = d
      · simp only [same, ne_eq, not_true, decide_false]
        exact ih
      · simp only [same, ne_eq, not_false_iff, decide_true, if_false]

theorem run_copies :
    run (definitions.map .copy) registry =
      (.ok (), definitions.foldl
        (fun acc d => if acc.contains d.name then acc else acc.define d) registry) := by
  induction definitions generalizing registry with
  | nil => rfl
  | cons d rest ih => exact ih _

end Move

/-- Step by step, definitions arrive as they do at once. Every step that can fail comes before the
first that changes the registry. -/
theorem run_moves (r : Reader) (a : Registry) :
    Move.run (moves a) r.registry = ((r.extend a).1, (r.extend a).2.registry) := by
  rw [moves, Move.run_append, Move.run_checkNames, extend, define]
  cases checkNames a.definitions with
  | error e => rfl
  | ok =>
    simp only [Move.run, Move.make, Registry.merge]
    cases a.check with
    | error e => rfl
    | ok =>
      simp only [Except.mapError, Except.map, Move.run_append, Move.run_compares, bind, Except.bind]
      cases r.registry.differing? a.definitions with
      | some d => rfl
      | none => exact Move.run_copies r.registry a.definitions

/-! ## When definitions are accepted -/

/-- All names may appear in a header. -/
def Named (a : Registry) : Prop :=
  ∀ d ∈ a.definitions, nameFault? d.name = none

theorem checkNames_eq_ok {definitions : List Definition} :
    checkNames definitions = .ok () ↔ ∀ d ∈ definitions, nameFault? d.name = none := by
  induction definitions with
  | nil => simp [checkNames]
  | cons d rest ih =>
    rw [List.forall_mem_cons, ← ih, checkNames, checkName]
    cases nameFault? d.name <;> simp

theorem define_eq_ok : r.define a = .ok r' ↔
    Named a ∧ ∃ registry, r.registry.merge a = .ok registry ∧ r' = { r with registry } := by
  constructor
  · intro h
    refine ⟨?_, define_ok h⟩
    simp only [define, bind_eq_ok] at h
    obtain ⟨⟨⟩, named, -⟩ := h
    exact checkNames_eq_ok.1 named
  · rintro ⟨named, registry, merged, rfl⟩
    simp only [define, bind_eq_ok, mapError_eq_ok]
    exact ⟨(), checkNames_eq_ok.2 named, registry, merged, rfl⟩

/-- Definitions are refused for a faulty name, for a conflict among them, or because one of them
differs from the definition that its name has already. -/
theorem define_eq_error : (∃ e, r.define a = .error e) ↔
    (∃ d ∈ a.definitions, nameFault? d.name ≠ none) ∨ a.conflicts ≠ [] ∨
      ∃ d ∈ a.definitions, ∃ present, r.registry.get? d.name = some present ∧ present ≠ d := by
  have refused : (∃ e, r.define a = .error e) ↔ ¬ ∃ r', r.define a = .ok r' := by
    cases r.define a <;> simp
  have accepted : (∃ r', r.define a = .ok r') ↔
      Named a ∧ a.conflicts = [] ∧ r.registry.Admits a := by
    rw [← Registry.merge_ok_iff]
    simp only [define_eq_ok]
    constructor
    · rintro ⟨r', named, registry, merged, -⟩
      exact ⟨named, registry, merged⟩
    · rintro ⟨named, registry, merged⟩
      exact ⟨_, named, registry, merged, rfl⟩
  rw [refused, accepted]
  simp only [Named, Registry.Admits, not_and_or, not_forall, exists_prop, ne_eq]

/-- Definitions arrive in a row where they could be merged in a row. -/
theorem defines_iff : (∃ r₁ r₂, r.define a = .ok r₁ ∧ r₁.define b = .ok r₂) ↔
    (Named a ∧ Named b) ∧
      ∃ s₁ s₂, r.registry.merge a = .ok s₁ ∧ s₁.merge b = .ok s₂ := by
  constructor
  · rintro ⟨r₁, r₂, first, second⟩
    obtain ⟨named, s₁, merged, rfl⟩ := define_eq_ok.1 first
    obtain ⟨named', s₂, merged', rfl⟩ := define_eq_ok.1 second
    exact ⟨⟨named, named'⟩, s₁, s₂, merged, merged'⟩
  · rintro ⟨⟨named, named'⟩, s₁, s₂, merged, merged'⟩
    have first : r.define a = .ok { r with registry := s₁ } :=
      define_eq_ok.2 ⟨named, s₁, merged, rfl⟩
    exact ⟨_, _, first, define_eq_ok.2 ⟨named', s₂, merged', rfl⟩⟩

/-- Definitions that can arrive in one order can arrive in the other. -/
theorem defines_swap (distinct : a.names.Nodup) (distinct' : b.names.Nodup)
    (h : ∃ r₁ r₂, r.define a = .ok r₁ ∧ r₁.define b = .ok r₂) :
    ∃ s₁ s₂, r.define b = .ok s₁ ∧ s₁.define a = .ok s₂ := by
  obtain ⟨⟨named, named'⟩, merges⟩ := defines_iff.1 h
  obtain ⟨⟨quiet, quiet'⟩, agrees, agrees', shared⟩ :=
    (Registry.merges_iff distinct distinct').1 merges
  apply defines_iff.2
  refine ⟨⟨named', named⟩, ?_⟩
  exact (Registry.merges_iff distinct' distinct).2
    ⟨⟨quiet', quiet⟩, agrees', agrees, shared.symm⟩

/-- Readers that two sets of definitions have reached in either order are alike. -/
theorem alike_of_defines {s₁ s₂ : Reader} (distinct : a.names.Nodup) (distinct' : b.names.Nodup)
    (first : r.define a = .ok r₁) (second : r₁.define b = .ok r₂) (first' : r.define b = .ok s₁)
    (second' : s₁.define a = .ok s₂) : r₂.Alike s₂ := by
  obtain ⟨_, merged₁, rfl⟩ := define_ok first
  obtain ⟨_, merged₂, rfl⟩ := define_ok second
  obtain ⟨_, merged₁', rfl⟩ := define_ok first'
  obtain ⟨_, merged₂', rfl⟩ := define_ok second'
  obtain ⟨-, -, -, agrees⟩ :=
    (Registry.merges_iff distinct distinct').1 ⟨_, _, merged₁, merged₂⟩
  exact ⟨Registry.get?_merges_comm agrees merged₁ merged₂ merged₁' merged₂', rfl, rfl, rfl⟩

/-- Defining is atomic, and its order does not matter. Definitions are refused for one of three
reasons; then the registry on which the steps have worked is the one from before, and the reader
answers every later call as if it had not been asked. Two sets of definitions are both accepted in
one order exactly if they are in the other. Then every name stands for the same, and every sequence
of calls gets the same answers. However registries come about, their names are distinct
(`Registry.nodup_names_run`). -/
theorem define_atomic_comm (r : Reader) {a b : Registry} (distinct : a.names.Nodup)
    (distinct' : b.names.Nodup) :
    ((∃ e, r.define a = .error e) ↔
      (∃ d ∈ a.definitions, nameFault? d.name ≠ none) ∨ a.conflicts ≠ [] ∨
        ∃ d ∈ a.definitions, ∃ present, r.registry.get? d.name = some present ∧ present ≠ d) ∧
    (∀ e, r.define a = .error e →
      Move.run (moves a) r.registry = (.error e, r.registry) ∧
        ∀ calls, r.answers remembering (.define a :: calls) =
          .defined (.error e) :: r.answers remembering calls) ∧
    ((∃ r₁ r₂, r.define a = .ok r₁ ∧ r₁.define b = .ok r₂) ↔
      ∃ s₁ s₂, r.define b = .ok s₁ ∧ s₁.define a = .ok s₂) ∧
    ∀ r₁ r₂ s₁ s₂, r.define a = .ok r₁ → r₁.define b = .ok r₂ →
      r.define b = .ok s₁ → s₁.define a = .ok s₂ →
        (∀ name, r₂.registry.get? name = s₂.registry.get? name) ∧
          ∀ calls, r₂.answers remembering calls = s₂.answers remembering calls := by
  refine ⟨define_eq_error, ?_, ?_, ?_⟩
  · intro e refused
    have extended : r.extend a = (.error e, r) := by rw [extend, refused]
    constructor
    · rw [run_moves, extended]
    · intro calls
      rw [answers, perform, extended]
  · exact ⟨defines_swap distinct distinct', defines_swap distinct' distinct⟩
  · intro r₁ r₂ s₁ s₂ first second first' second'
    have alike := alike_of_defines distinct distinct' first second first' second'
    exact ⟨fun name => congrFun alike.lookups name, answers_alike alike⟩

namespace Sample

/-- People have phones, which are defined elsewhere. -/
def people : Registry := .ofDefinitions
  [.record "Person" [⟨"name", .primitive .string, .unset, false⟩,
    ⟨"phones", .list (.named "Phone"), .unset, false⟩]]

def phones : Registry := .ofDefinitions
  [.record "Phone" [⟨"number", .primitive .string, .unset, false⟩]]

/-- Whichever arrives first, a reader ends up with the same answers, although its definitions are
listed in another order. -/
theorem define_people_phones : people.names.Nodup ∧ phones.names.Nodup ∧
    ∃ r₁ r₂ s₁ s₂, (ofRegistry .empty).define people = .ok r₁ ∧ r₁.define phones = .ok r₂ ∧
      (ofRegistry .empty).define phones = .ok s₁ ∧ s₁.define people = .ok s₂ ∧
      r₂.registry ≠ s₂.registry ∧
      ∀ calls, r₂.answers remembering calls = s₂.answers remembering calls := by
  have distinct : people.names.Nodup := by decide
  have distinct' : phones.names.Nodup := by decide
  obtain ⟨-, -, -, same⟩ := define_atomic_comm (ofRegistry .empty) distinct distinct'
  refine ⟨distinct, distinct', _, _, _, _, rfl, rfl, rfl, rfl, by decide, ?_⟩
  exact (same _ _ _ _ rfl rfl rfl rfl).2

end Sample

end Reader

end Slotform
