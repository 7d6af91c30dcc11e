import Mathlib.Data.List.Nodup
import Slotform.Proofs.Registry.Claims
import Slotform.Registry.Indexed

/-!
# Registries with an index

A registry that is searched and one that looks names up in an index are the same registry: the index
has the place of every definition under its name, and nothing else (`IndexedRegistry.Coherent`), and
every operation keeps this and does what it does without the index (`IndexedRegistry.Refines`).

What a run makes of a registry is the map that the log of its definitions describes
(`Registry.reflects_run`). A merge puts the other registry's definitions into the log, since to
define the same thing once more changes nothing. `IndexedRegistry.run_maps` says for every run what
an index, a lookup and a merge come to.
-/

namespace Slotform

namespace Registry

variable {r r' : Registry} {d : Definition} {put : List Definition} {i : Nat}

/-! ## What has been defined -/

/-- The definitions that an operation puts into its registry. A merge that succeeds puts in all of
the other registry's, and one that fails none. -/
def Operation.puts (rs : Nat → Registry) : Operation → List Definition
  | .claim .. => []
  | .define _ d => [d]
  | .merge i j => if ((rs i).merge (rs j)).toOption.isSome then (rs j).definitions else []

/-- The definitions that operations put into a registry, one after the other. -/
def logFrom (i : Nat) : (Nat → Registry) → List Operation → List Definition
  | _, [] => []
  | rs, operation :: rest =>
    (if operation.place = i then operation.puts rs else []) ++ logFrom i (operation.apply rs) rest

def log (operations : List Operation) (i : Nat) : List Definition :=
  logFrom i (fun _ => .empty) operations

theorem log_concat (past : List Operation) (operation : Operation) (i : Nat) :
    log (past ++ [operation]) i =
      log past i ++ if operation.place = i then operation.puts (run past) else [] := by
  suffices from_any : ∀ rs, logFrom i rs (past ++ [operation]) = logFrom i rs past ++
      if operation.place = i then operation.puts (past.foldl Operation.apply rs) else [] from
    from_any _
  induction past with
  | nil => simp [logFrom]
  | cons first rest ih =>
    intro rs
    rw [List.cons_append, logFrom, logFrom, ih, List.append_assoc, List.foldl_cons]

/-- The registry is the map that a log of definitions describes: names stand in the order in which
they were first defined, and each for what it was last defined as. -/
structure Reflects (r : Registry) (put : List Definition) : Prop where
  names : r.names = (put.map Definition.name).eraseDups
  latest : ∀ name, r.get? name = put.reverse.find? (·.name == name)

theorem reflects_empty : empty.Reflects [] := ⟨rfl, fun _ => rfl⟩

theorem eraseDups_concat (names : List String) (name : String) : (names ++ [name]).eraseDups =
    if name ∈ names.eraseDups then names.eraseDups else names.eraseDups ++ [name] := by
  rw [List.eraseDups_append]
  by_cases known : name ∈ names <;> simp [List.removeAll, List.eraseDups_cons, known]

namespace Reflects

theorem concat_latest (reflects : r.Reflects put) (names : r'.names = if d.name ∈ r.names then
      r.names else r.names ++ [d.name])
    (own : r'.get? d.name = some d) (others : ∀ name, name ≠ d.name → r'.get? name = r.get? name) :
    r'.Reflects (put ++ [d]) := by
  constructor
  · rw [names, List.map_append, List.map_singleton, eraseDups_concat, ← reflects.names]
  · intro name
    rw [List.reverse_append, List.reverse_singleton, List.singleton_append, List.find?_cons]
    by_cases same : name = d.name
    · simp [same, own]
    · have differs : (d.name == name) = false := by simpa using fun h => same h.symm
      rw [differs, others name same]
      exact reflects.latest name

theorem define (reflects : r.Reflects put) (d : Definition) :
    (r.define d).Reflects (put ++ [d]) :=
  reflects.concat_latest (names_define r d) (get?_define_self r d) fun _ => get?_define_of_ne

/-- What is defined already may be defined once more. -/
theorem again (reflects : r.Reflects put) (known : r.get? d.name = some d) :
    r.Reflects (put ++ [d]) := by
  refine reflects.concat_latest ?_ known fun _ _ => rfl
  rw [if_pos (contains_iff_mem.1 (contains_iff_get?.2 ⟨d, known⟩))]

/-- Filling in what is missing is defining everything, if nothing differs. -/
theorem fill (reflects : r.Reflects put) {definitions : List Definition}
    (distinct : (definitions.map Definition.name).Nodup)
    (admits : ∀ d ∈ definitions, ∀ present, r.get? d.name = some present → present = d) :
    (definitions.foldl (fun acc d => if acc.contains d.name then acc else acc.define d) r).Reflects
      (put ++ definitions) := by
  induction definitions generalizing r put with
  | nil => simpa using reflects
  | cons d rest ih =>
    obtain ⟨fresh, distinct⟩ := List.nodup_cons.1 distinct
    have admits' := List.forall_mem_cons.1 admits
    rw [List.foldl_cons, ← List.singleton_append, ← List.append_assoc]
    split
    next known =>
      obtain ⟨present, found⟩ := contains_iff_get?.1 known
      have same : present = d := admits'.1 present found
      exact ih (reflects.again (same ▸ found)) distinct admits'.2
    · refine ih (reflects.define d) distinct fun e he present found => ?_
      have apart : e.name ≠ d.name := fun same => fresh (same ▸ List.mem_map_of_mem he)
      rw [get?_define_of_ne apart] at found
      exact admits'.2 e he present found

theorem of_definitions (reflects : r.Reflects put) (same : r'.definitions = r.definitions) :
    r'.Reflects put := by
  obtain ⟨names, latest⟩ := reflects
  exact ⟨by rw [← names, Registry.names, same, Registry.names],
    fun name => by rw [← latest, get?, same, get?]⟩

end Reflects

theorem definitions_addConflict (r : Registry) (name : String) :
    (r.addConflict name).definitions = r.definitions := by
  unfold addConflict
  split <;> rfl

theorem definitions_claim (r : Registry) (name : String) (owner : Owner) :
    (r.claim name owner).2.definitions = r.definitions := by
  rcases r.claim_cases name owner with ⟨-, claim⟩ | ⟨-, claim⟩ | ⟨-, -, claim⟩
  · rw [claim]
  · rw [claim, definitions_addConflict]
  · rw [claim]

/-- A registry reflects what operations have put into it. -/
theorem reflects_run (operations : List Operation) (i : Nat) :
    (run operations i).Reflects (log operations i) := by
  induction operations using List.reverseRecOn generalizing i with
  | nil => exact reflects_empty
  | append_singleton past operation ih =>
    rw [run_concat, log_concat]
    by_cases here : operation.place = i
    · subst here
      rw [apply_self, if_pos rfl]
      cases operation with
      | claim i name owner =>
        rw [Operation.puts, List.append_nil]
        exact (ih i).of_definitions (definitions_claim _ name owner)
      | define i d => exact (ih i).define d
      | merge i j =>
        rw [Operation.puts, Operation.outcome, Operation.place]
        cases h : (run past i).merge (run past j) with
        | error e => simpa [Except.toOption] using ih i
        | ok merged =>
          have filled := (ih i).fill (nodup_names_run past j) (merge_ok_iff.1 ⟨merged, h⟩).2
          rw [← merge_ok h] at filled
          exact filled
    · rw [apply_of_ne (Ne.symm here), if_neg here, List.append_nil]
      exact ih i

/-! ## Conflicts and owners -/

theorem nodup_conflicts_addConflict (distinct : r.conflicts.Nodup) (name : String) :
    (r.addConflict name).conflicts.Nodup := by
  unfold addConflict
  split
  · exact distinct
  next fresh =>
    have fresh : name ∉ r.conflicts := by simpa using fresh
    exact List.nodup_append.2 ⟨distinct, List.nodup_singleton _, by
      rintro _ hn _ hm rfl
      exact fresh (List.mem_singleton.1 hm ▸ hn)⟩

/-- No operation lists a conflict twice. -/
theorem nodup_conflicts_run (operations : List Operation) (i : Nat) :
    (run operations i).conflicts.Nodup := by
  induction operations using List.reverseRecOn generalizing i with
  | nil => exact List.nodup_nil
  | append_singleton past operation ih =>
    rw [run_concat]
    by_cases here : i = operation.place
    · subst here
      rw [apply_self]
      cases operation with
      | claim i name owner =>
        rw [Operation.outcome]
        rcases (run past i).claim_cases name owner with ⟨-, claim⟩ | ⟨-, claim⟩ | ⟨-, -, claim⟩
        · rw [claim]
          exact ih i
        · rw [claim]
          exact nodup_conflicts_addConflict (ih i) name
        · rw [claim]
          exact ih i
      | define i d =>
        rw [Operation.outcome, conflicts_define]
        exact ih i
      | merge i j =>
        rw [Operation.outcome, (merge_frame (run past i) (run past j)).2]
        exact ih i
    · rw [apply_of_ne here]
      exact ih i

/-- A holder keeps a name for good. -/
theorem owner?_apply {rs : Nat → Registry} {operation : Operation} {name : String} {owner : Owner}
    (held : (rs i).owner? name = some owner) :
    (operation.apply rs i).owner? name = some owner := by
  by_cases claims : operation.Claims i name
  · cases operation with
    | claim k n other =>
      obtain ⟨rfl, rfl⟩ := claims
      rw [apply_claim]
      rcases (rs k).claim_cases n other with ⟨-, claim⟩ | ⟨-, claim⟩ | ⟨missing, -, claim⟩
      · rw [claim]
        exact held
      · rw [claim, owner?_addConflict]
        exact held
      · cases missing.symm.trans held
    | define => cases claims
    | merge => cases claims
  · rw [(apply_frame rs claims).1]
    exact held

theorem owner?_run {past : List Operation} {name : String} {owner : Owner}
    (held : (run past i).owner? name = some owner) (future : List Operation) :
    (run (past ++ future) i).owner? name = some owner := by
  induction future using List.reverseRecOn with
  | nil => simpa using held
  | append_singleton future operation ih =>
    rw [← List.append_assoc, run_concat]
    exact owner?_apply ih

/-- A name that is held is not granted again. -/
theorem claim_held {name : String} {owner : Owner} (held : r.owner? name = some owner)
    (other : Owner) : (r.claim name other).1 = false := by
  rcases r.claim_cases name other with ⟨-, claim⟩ | ⟨-, claim⟩ | ⟨missing, -, -⟩
  · rw [claim]
  · rw [claim]
  · cases missing.symm.trans held

/-- A name is granted once at most. -/
theorem granted_once {past : List Operation} {name : String} {owner : Owner}
    (granted : ((run past i).claim name owner).1 = true) (later : List Operation) (other : Owner) :
    ((run (past ++ .claim i name owner :: later) i).claim name other).1 = false := by
  have held : (run (past ++ [.claim i name owner]) i).owner? name = some owner := by
    rw [run_concat, apply_claim]
    rcases (run past i).claim_cases name owner with ⟨held, claim⟩ | ⟨-, claim⟩ | ⟨missing, -, claim⟩
    · rw [claim]
      exact held
    · cases (congrArg Prod.fst claim).symm.trans granted
    · rw [claim, owner?_claimed missing, if_pos rfl]
  have kept := owner?_run held later
  rw [List.append_assoc, List.singleton_append] at kept
  exact claim_held kept other

/-! ## Merging -/

/-- Filling in appends what is missing and leaves everything else. -/
theorem definitions_fill {definitions : List Definition}
    (distinct : (definitions.map Definition.name).Nodup) (r : Registry) :
    (definitions.foldl
      (fun acc d => if acc.contains d.name then acc else acc.define d) r).definitions =
        r.definitions ++ definitions.filter fun d => !r.contains d.name := by
  induction definitions generalizing r with
  | nil => exact (List.append_nil _).symm
  | cons d rest ih =>
    obtain ⟨fresh, distinct⟩ := List.nodup_cons.1 distinct
    rw [List.foldl_cons, List.filter_cons]
    by_cases known : r.contains d.name = true
    · simp only [known, if_true, Bool.not_true, Bool.false_eq_true, if_false]
      exact ih distinct r
    · have added : (r.define d).definitions = r.definitions ++ [d] := by
        rw [define, if_neg known]
      have same : rest.filter (fun e => !(r.define d).contains e.name) =
          rest.filter fun e => !r.contains e.name := by
        refine List.filter_congr fun e he => ?_
        rw [contains_define_of_ne fun same => fresh (same ▸ List.mem_map_of_mem he)]
      rw [if_neg known, ih distinct, added, same]
      simp [known]

end Registry

namespace IndexedRegistry

variable {r other : IndexedRegistry} {name : String} {place : Nat} {d : Definition}

/-! ## The index -/

/-- The index has the place of every definition under its name, and nothing else. -/
def Coherent (r : IndexedRegistry) : Prop :=
  ∀ name place, r.place? name = some place ↔ r.names[place]? = some name

theorem coherent_empty : empty.Coherent := by
  intro name place
  simp [empty, place?, Registry.names, Registry.empty]

theorem names_getElem? : r.names[place]? = some name ↔
    ∃ d, r.definitions[place]? = some d ∧ d.name = name := by
  simp [Registry.names]

namespace Coherent

theorem nodup (coherent : r.Coherent) : r.names.Nodup := by
  rw [List.nodup_iff_getElem?_ne_getElem?]
  intro i j before inside same
  have first := List.getElem?_eq_getElem inside
  have second := (coherent _ _).2 first
  have third := (coherent _ _).2 (same.trans first)
  cases second.symm.trans third
  exact Nat.lt_irrefl _ before

theorem inside (coherent : r.Coherent) (h : r.place? name = some place) :
    place < r.definitions.length := by
  obtain ⟨d, present, -⟩ := names_getElem?.1 ((coherent _ _).1 h)
  exact (List.getElem?_eq_some_iff.1 present).1

/-- The definition that the index leads to is the one that a search finds. -/
theorem get?_eq (coherent : r.Coherent) (name : String) :
    r.get? name = r.toRegistry.get? name := by
  cases h : r.place? name with
  | some place =>
    obtain ⟨d, present, rfl⟩ := names_getElem?.1 ((coherent _ _).1 h)
    have listed : d ∈ r.definitions := List.mem_of_getElem? present
    rw [get?, h, (Registry.get?_eq_some_iff coherent.nodup).2 listed]
    exact present
  | none =>
    rw [get?, h]
    cases found : r.toRegistry.get? name with
    | none => rfl
    | some d =>
      obtain ⟨place, present⟩ := List.mem_iff_getElem?.1
        (Registry.contains_iff_mem.1 (Registry.contains_iff_get?.2 ⟨d, found⟩))
      cases h.symm.trans ((coherent _ _).2 present)

theorem contains_eq (coherent : r.Coherent) (name : String) :
    r.contains name = r.toRegistry.contains name := by
  rw [Registry.contains, ← coherent.get?_eq, contains, get?]
  cases h : r.place? name with
  | none => rfl
  | some place =>
    obtain ⟨d, present, -⟩ := names_getElem?.1 ((coherent _ _).1 h)
    rw [Option.bind_some, present]
    rfl

end Coherent

/-! ## Operations under the index -/

theorem define_known (h : r.place? d.name = some place) :
    r.define d = { r with definitions := r.definitions.set place d } := by
  rw [define, h]

theorem define_new (h : r.place? d.name = none) :
    r.define d = { r with
      definitions := r.definitions ++ [d]
      index := r.index ++ [(d.name, r.definitions.length)] } := by
  rw [define, h]

/-- Writing to the place of a name is replacing whatever has the name. -/
theorem set_eq_map (coherent : r.Coherent) (h : r.place? d.name = some place) :
    r.definitions.set place d = r.definitions.map fun e => if e.name = d.name then d else e := by
  apply List.ext_getElem?
  intro k
  rw [List.getElem?_set, List.getElem?_map]
  cases present : r.definitions[k]? with
  | none =>
    have outside := coherent.inside h
    rw [if_neg]
    · rfl
    · rintro rfl
      exact absurd (List.getElem?_eq_none_iff.1 present) (Nat.not_le_of_lt outside)
  | some e =>
    have named : r.names[k]? = some e.name := names_getElem?.2 ⟨e, present, rfl⟩
    by_cases same : e.name = d.name
    · rw [same] at named
      cases h.symm.trans ((coherent _ _).2 named)
      simp [same, coherent.inside h]
    · have elsewhere : place ≠ k := by
        rintro rfl
        have own := (coherent _ _).1 h
        exact same (Option.some.inj (named.symm.trans own))
      simp [same, elsewhere]

/-- An indexed registry stands for a plain one, and its index is right. -/
structure Refines (r : IndexedRegistry) (s : Registry) : Prop where
  coherent : r.Coherent
  forgets : r.toRegistry = s

theorem refines_empty : empty.Refines .empty := ⟨coherent_empty, rfl⟩

/-- Writing to a place leaves the names as they are. -/
theorem names_define_known (coherent : r.Coherent) (h : r.place? d.name = some place) :
    (r.define d).names = r.names := by
  rw [define_known h]
  apply List.ext_getElem?
  intro k
  rw [Registry.names, List.map_set, List.getElem?_set]
  split
  next same =>
    subst same
    rw [List.length_map, if_pos (coherent.inside h)]
    exact ((coherent _ _).1 h).symm
  · rfl

theorem concat_getElem? {names : List String} {last : String} :
    (names ++ [last])[place]? = some name ↔
      names[place]? = some name ∨ name = last ∧ place = names.length := by
  rcases Nat.lt_trichotomy place names.length with before | rfl | behind
  · have apart : place ≠ names.length := Nat.ne_of_lt before
    rw [List.getElem?_append_left before]
    simp [apart]
  · simp [eq_comm]
  · have apart : place ≠ names.length := Nat.ne_of_gt behind
    have outside : (names ++ [last])[place]? = none := by
      apply List.getElem?_eq_none
      rw [List.length_append]
      exact behind
    have outside' : names[place]? = none := List.getElem?_eq_none (Nat.le_of_lt behind)
    simp [outside, outside', apart]

theorem coherent_define (coherent : r.Coherent) (d : Definition) : (r.define d).Coherent := by
  intro name place
  cases h : r.place? d.name with
  | some old =>
    rw [names_define_known coherent h, ← coherent]
    simp [define_known h, place?]
  | none =>
    have names : (r.define d).names = r.names ++ [d.name] := by simp [define_new h, Registry.names]
    have placed : (r.define d).place? name =
        (r.place? name).or (if name = d.name then some r.names.length else none) := by
      rw [define_new h, place?, List.lookup_append, place?]
      by_cases own : name = d.name
      · simp [own, Registry.names]
      · have differs : (name == d.name) = false := by simpa using own
        simp [own, List.lookup_cons, differs]
    rw [names, placed, concat_getElem?, ← coherent]
    by_cases own : name = d.name
    · subst own
      simp [h, eq_comm]
    · simp [own]

theorem Refines.define {s : Registry} (h : r.Refines s) (d : Definition) :
    (r.define d).Refines (s.define d) := by
  obtain ⟨coherent, rfl⟩ := h
  refine ⟨coherent_define coherent d, ?_⟩
  rw [Registry.define, ← coherent.contains_eq]
  cases h : r.place? d.name with
  | some place => simp [define_known h, contains, h, set_eq_map coherent h]
  | none => simp [define_new h, contains, h]

theorem Refines.addConflict {s : Registry} (h : r.Refines s) (name : String) :
    (r.addConflict name).Refines (s.addConflict name) := by
  obtain ⟨coherent, rfl⟩ := h
  refine ⟨fun other place => ?_, rfl⟩
  rw [IndexedRegistry.addConflict, Registry.names_addConflict]
  exact coherent other place

theorem Refines.claim {s : Registry} (h : r.Refines s) (name : String) (owner : Owner) :
    (r.claim name owner).1 = (s.claim name owner).1 ∧
      (r.claim name owner).2.Refines (s.claim name owner).2 := by
  have known := h.coherent.contains_eq name
  have denied := h.addConflict name
  obtain ⟨coherent, rfl⟩ := h
  rw [IndexedRegistry.claim, Registry.claim]
  cases r.owner? name with
  | some held =>
    dsimp only
    split
    · exact ⟨rfl, coherent, rfl⟩
    · exact ⟨rfl, denied⟩
  | none =>
    dsimp only
    rw [known]
    split
    · exact ⟨rfl, denied⟩
    · exact ⟨rfl, coherent, rfl⟩

theorem Refines.fill {s : Registry} (h : r.Refines s) (definitions : List Definition) :
    (r.fill definitions).Refines (definitions.foldl
      (fun acc d => if acc.contains d.name then acc else acc.define d) s) := by
  induction definitions generalizing r s with
  | nil => exact h
  | cons d rest ih =>
    have known := h.coherent.contains_eq d.name
    rw [h.forgets] at known
    rw [IndexedRegistry.fill, List.foldl_cons, known]
    split
    · exact ih h
    · exact ih (h.define d)

theorem Refines.compare {s : Registry} (h : r.Refines s) (definitions : List Definition) :
    r.compare definitions = match s.differing? definitions with
      | some d => .error ⟨d.name⟩
      | none => .ok () := by
  obtain ⟨coherent, rfl⟩ := h
  induction definitions with
  | nil => rfl
  | cons d rest ih =>
    rw [IndexedRegistry.compare, coherent.get?_eq]
    simp only [Registry.differing?, List.find?_cons] at ih ⊢
    cases r.toRegistry.get? d.name with
    | none => exact ih
    | some present =>
      by_cases same : present = d
      · simpa [same] using ih
      · simp [same]

/-- A merge has the outcome of the plain merge, and leaves what that leaves. -/
theorem Refines.merge {s t : Registry} (h : r.Refines s) (h' : other.Refines t) :
    (r.merge other).1 = (s.merge t).map (fun _ => ()) ∧
      (r.merge other).2.Refines ((s.merge t).toOption.getD s) := by
  have filled := h.fill other.definitions
  rw [IndexedRegistry.merge, Registry.merge, h'.forgets, h.compare]
  cases t.check with
  | error e => exact ⟨rfl, h⟩
  | ok =>
    cases s.differing? t.definitions with
    | some d => exact ⟨rfl, h⟩
    | none =>
      rw [h'.forgets] at filled
      exact ⟨rfl, filled⟩

/-! ## Runs -/

open Registry (Operation log)

/-- What becomes of the registry that an operation changes. -/
def outcome (rs : Nat → IndexedRegistry) : Operation → IndexedRegistry
  | .claim i name owner => ((rs i).claim name owner).2
  | .define i d => (rs i).define d
  | .merge i j => ((rs i).merge (rs j)).2

/-- The registries after operations in order, all of them empty at first. -/
def run (operations : List Operation) : Nat → IndexedRegistry :=
  operations.foldl (fun rs operation => Function.update rs operation.place (outcome rs operation))
    fun _ => empty

theorem run_concat (past : List Operation) (operation : Operation) :
    run (past ++ [operation]) =
      Function.update (run past) operation.place (outcome (run past) operation) := by
  rw [run, List.foldl_append]
  rfl

theorem refines_run (operations : List Operation) (i : Nat) :
    (run operations i).Refines (Registry.run operations i) := by
  induction operations using List.reverseRecOn generalizing i with
  | nil => exact refines_empty
  | append_singleton past operation ih =>
    rw [run_concat, Registry.run_concat]
    by_cases here : i = operation.place
    · subst here
      rw [Function.update_self, Registry.apply_self]
      cases operation with
      | claim i name owner => exact ((ih i).claim name owner).2
      | define i d => exact (ih i).define d
      | merge i j => exact ((ih i).merge (ih j)).2
    · rw [Function.update_of_ne here, Registry.apply_of_ne here]
      exact ih i

/-- The registry is an insertion-ordered map of the definitions that were put into it: its names
are distinct and stand in the order in which they were first defined, each at the place that the
index gives for it, and a name is looked up as what it was last defined as, which stands among the
definitions. -/
structure Maps (r : IndexedRegistry) (put : List Definition) : Prop where
  distinct : r.names.Nodup
  ordered : r.names = (put.map Definition.name).eraseDups
  placed : ∀ name place, r.place? name = some place ↔ r.names[place]? = some name
  inside : ∀ name place, r.place? name = some place → place < r.definitions.length
  contained : ∀ name, r.contains name = true ↔ name ∈ r.names
  listed : ∀ name d, r.get? name = some d ↔ d ∈ r.definitions ∧ d.name = name
  latest : ∀ name, r.get? name = put.reverse.find? (·.name == name)

theorem Refines.maps {s : Registry} {put : List Definition} (h : r.Refines s)
    (reflects : s.Reflects put) : r.Maps put := by
  obtain ⟨coherent, rfl⟩ := h
  refine ⟨coherent.nodup, reflects.names, coherent, fun _ _ => coherent.inside, fun name => ?_,
    fun name d => ?_, fun name => ?_⟩
  · rw [coherent.contains_eq]
    exact Registry.contains_iff_mem
  · rw [coherent.get?_eq]
    constructor
    · intro found
      exact ⟨List.mem_of_find?_eq_some found, Registry.name_of_get? found⟩
    · rintro ⟨present, rfl⟩
      exact (Registry.get?_eq_some_iff coherent.nodup).2 present
  · rw [coherent.get?_eq]
    exact reflects.latest name

/-- A merge that fails leaves the registry as it is. -/
theorem merge_error {e : NameConflict} (failed : (r.merge other).1 = .error e) :
    (r.merge other).2 = r := by
  unfold merge at failed ⊢
  split
  · rfl
  · split
    · rfl
    next checked _ compared =>
      rw [checked] at failed
      simp only [compared] at failed
      cases failed

theorem merge_ok (merged : (r.merge other).1 = .ok ()) :
    (r.merge other).2 = r.fill other.definitions := by
  unfold merge at merged ⊢
  split
  next checked =>
    rw [checked] at merged
    cases merged
  next checked =>
    rw [checked] at merged
    split
    next compared =>
      simp only [compared] at merged
      cases merged
    · rfl

/-- A merge that succeeds appends what is missing, in the order of the other registry. -/
theorem definitions_merge (coherent : r.Coherent) (coherent' : other.Coherent)
    (merged : (r.merge other).1 = .ok ()) : (r.merge other).2.definitions =
      r.definitions ++ other.definitions.filter fun d => !r.contains d.name := by
  have filled := (Refines.fill ⟨coherent, rfl⟩ other.definitions).forgets
  rw [merge_ok merged, filled, Registry.definitions_fill coherent'.nodup]
  simp only [coherent.contains_eq]

/-- Over any run an indexed registry is an insertion-ordered map of what has been defined in it. It
is the plain registry with an index. A merge that succeeds appends the definitions that are missing
and changes none, and one that fails changes nothing. No conflict is listed twice, and no name is
granted twice. -/
theorem run_maps (operations : List Operation) (i : Nat) :
    let r := run operations i
    r.Maps (log operations i) ∧ r.toRegistry = Registry.run operations i ∧ r.conflicts.Nodup ∧
      (∀ j, (r.merge (run operations j)).1 = .ok () →
        (r.merge (run operations j)).2.definitions = r.definitions ++
          (run operations j).definitions.filter fun d => !r.contains d.name) ∧
      (∀ j e, (r.merge (run operations j)).1 = .error e → (r.merge (run operations j)).2 = r) ∧
      ∀ name owner, (r.claim name owner).1 = true → ∀ later other,
        ((run (operations ++ .claim i name owner :: later) i).claim name other).1 = false := by
  intro r
  have refines := refines_run operations i
  refine ⟨refines.maps (Registry.reflects_run operations i), refines.forgets, ?_, fun j => ?_,
    fun j e => merge_error, fun name owner granted later other => ?_⟩
  · have plain : r.toRegistry = Registry.run operations i := refines.forgets
    rw [plain]
    exact Registry.nodup_conflicts_run operations i
  · exact definitions_merge refines.coherent (refines_run operations j).coherent
  · rw [((refines_run _ i).claim name other).1]
    rw [(refines.claim name owner).1] at granted
    exact Registry.granted_once granted later other

/-- A redefinition takes the place of the first definition. -/
example :
    let r := run [.define 0 (.record "A" []), .define 0 (.record "B" []),
      .define 0 (.typeAlias "A" (.primitive .u8))] 0
    r.names = ["A", "B"] ∧ r.get? "A" = some (.typeAlias "A" (.primitive .u8)) := by decide

end IndexedRegistry

end Slotform
