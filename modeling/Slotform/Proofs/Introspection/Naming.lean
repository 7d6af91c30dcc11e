import Slotform.Proofs.Introspection.Definitions
import Slotform.Proofs.Introspection.Faithful

/-!
# The names in schemas that are read

Definitions reach a reader by two ways. Those that are added have their names checked at once. Those
that the reader starts with do not, and a walk checks the names of members and of extension kinds
but takes the name of a record as it stands. So over any sequence of calls the names in the schemas
that are read can be spelled in a header, but for the names of types that the reader started with
(`Reader.answers_spelled`); there is no exception if the reader would have accepted its first
definitions as an addition (`Reader.answers_spelled_checked`).
-/

namespace Slotform

/-! ## Names of types -/

theorem IsExtensionName.isMemberName {kind : String} (h : IsExtensionName kind) :
    IsMemberName kind := by
  obtain ⟨⟨first, rest, spelled, start, others⟩, -, -⟩ := h
  constructor
  · rintro rfl
    cases spelled
  · rw [spelled]
    intro c hc
    rcases List.mem_cons.1 hc with rfl | hc
    · exact .inl (by simp [Char.isAlphanum, start])
    · exact (others c hc).imp_right .inl

theorem Primitive.isMemberName (p : Primitive) : IsMemberName p.name :=
  nameFault?_eq_none.1 (by cases p <;> rfl)

/-- Aliases followed or not, the innermost type of a reference is the same, or it is named by a
definition. -/
theorem Registry.StandsFor.innermost {r : Registry} {ty t : Ty} (h : r.StandsFor ty t) :
    ty.innermost = t.innermost ∨ ∃ name ∈ r.names, ty.innermost = .named name := by
  induction h with
  | primitive | custom | value => exact .inl rfl
  | list _ ih => exact ih
  | option _ ih => exact ih
  | record found => exact .inl rfl
  | typeAlias found => exact .inr ⟨_, mem_names_of_get? found, rfl⟩

/-! ## Names in one schema -/

/-- A name can be spelled in a header, or is one of those that were given. -/
def SpelledOr (given : List String) (name : String) : Prop := IsMemberName name ∨ name ∈ given

/-- The names that a node brings along can be spelled: those of its members, that of its extension
kind, and that of its record, unless it is one of the names given. -/
structure Schema.Spelled (given : List String) (s : Schema) : Prop where
  members : ∀ m ∈ s.members, IsMemberName m.name
  kind : ∀ kind, s.kind? = some (.custom kind) → IsExtensionName kind
  record : ∀ owner, s.node.element = .named owner → SpelledOr given owner

namespace Walk

variable {w : Walk} {given : List String} {s : Schema} {ty : Ty}

/-- The item of a described node is a primitive, an extension kind with a proper name, or a record
that the definitions name. -/
theorem Describes.element (h : w.Describes s) : (∃ p, s.node.element = .primitive p) ∨
    (∃ kind, IsExtensionName kind ∧ s.node.element = .custom kind) ∨
    ∃ owner ∈ w.registry.names, s.node.element = .named owner := by
  cases h with
  | @leaf node kind element _ proper =>
    cases kind with
    | primitive p => exact .inl ⟨p, element⟩
    | custom name => exact .inr (.inl ⟨name, proper name rfl, element⟩)
  | record element found =>
    exact .inr (.inr ⟨_, Registry.mem_names_of_get? found, element⟩)

theorem Describes.isPlain (h : w.Describes s) : s.node.element.isPlain = true := by
  rcases h.element with ⟨_, same⟩ | ⟨_, _, same⟩ | ⟨_, _, same⟩ <;> rw [same] <;> rfl

/-- A described node is spelled as far as the names of definitions are. -/
theorem Describes.spelled (h : w.Describes s) (names : ∀ name ∈ w.registry.names,
    SpelledOr given name) : s.Spelled given where
  members := by
    cases h with
    | leaf => exact nofun
    | record _ _ _ _ _ spelled => exact spelled
  kind := by
    cases h with
    | leaf _ _ proper =>
      rintro name ⟨⟩
      exact proper name rfl
    | record => exact nofun
  record := by
    intro owner named
    rcases h.element with ⟨_, same⟩ | ⟨_, _, same⟩ | ⟨_, defined, same⟩
    · cases named.symm.trans same
    · cases named.symm.trans same
    · cases named.symm.trans same
      exact names owner defined

/-- The name of a described node's item is spelled as far as the names of definitions are. -/
theorem Describes.itemName (h : w.Describes s) (names : ∀ name ∈ w.registry.names,
    SpelledOr given name) : SpelledOr given s.node.element.display := by
  rcases h.element with ⟨p, same⟩ | ⟨kind, proper, same⟩ | ⟨owner, defined, same⟩
  · rw [same]
    exact .inl p.isMemberName
  · rw [same]
    exact .inl proper.isMemberName
  · rw [same]
    exact names owner defined

/-- A root is named after its type's innermost type, which is plain or the name of a definition. -/
theorem Faithful.root_spelled (faithful : w.Faithful ty s) (names : ∀ name ∈ w.registry.names,
    SpelledOr given name) : SpelledOr given s.name := by
  have described := faithful.described s (.self s)
  rw [faithful.name, Ty.itemName]
  rcases faithful.declared.innermost with same | ⟨name, defined, same⟩
  · rw [same, Node.innermost_declared, Ty.innermost_of_isPlain described.isPlain]
    exact described.itemName names
  · rw [same]
    exact names name defined

end Walk

namespace Reader

variable {r : Reader} {given : List String}

/-! ## Names over a run -/

/-- The names of a reader's definitions can be spelled, but for those that were given. -/
def Spells (given : List String) (r : Reader) : Prop :=
  ∀ name ∈ r.registry.names, SpelledOr given name

theorem spells_start (registry : Registry) (skip : SkipStrategy) (limits : Limits) :
    (start registry skip limits).Spells registry.names := fun _ given => .inr given

/-- What a reader computes is spelled as far as its definitions are. -/
theorem Spells.compute (spells : r.Spells given) {ty : Ty} {element : Option Ty} {s : Schema}
    (h : r.compute ty element = .ok s) :
    (∀ t : Schema, t.Within s → t.Spelled given) ∧ SpelledOr given s.name := by
  obtain ⟨root, h⟩ := compute_root h
  have faithful := Walk.root_iff_faithful.1 h
  exact ⟨fun t within => (faithful.described t within).spelled spells,
    faithful.root_spelled spells⟩

/-- Definitions that are added have their names checked. -/
theorem Spells.extend (spells : r.Spells given) (incoming : Registry) :
    (r.extend incoming).2.Spells given := by
  unfold Reader.extend
  cases defined : r.define incoming with
  | error e => exact spells
  | ok r' =>
    obtain ⟨named, registry, merged, rfl⟩ := define_eq_ok.1 defined
    intro name present
    obtain ⟨d, found⟩ := Registry.contains_iff_get?.1 (Registry.contains_iff_mem.2 present)
    have found : registry.get? name = some d := found
    rw [Registry.get?_merge merged, Option.or_eq_some_iff] at found
    rcases found with known | ⟨-, added⟩
    · exact spells name (Registry.mem_names_of_get? known)
    · rw [← Registry.name_of_get? added]
      exact .inl (nameFault?_eq_none.1 (named d (List.mem_of_find?_eq_some added)))

theorem Spells.perform (spells : r.Spells given) (call : Call) :
    (r.perform forgetful call).2.Spells given := by
  cases call with
  | define incoming => exact spells.extend incoming
  | register description => exact spells.extend description.2
  | read | readWithElement => exact spells

/-- A schema is answered by computing it from the definitions of the moment. -/
theorem perform_schema {call : Call} {outcome : Except ReadError Schema}
    (answered : (r.perform forgetful call).1 = .schema outcome) :
    ∃ ty element, r.compute ty element = outcome := by
  cases call with
  | define | register => cases answered
  | read ty => exact ⟨ty, none, by cases answered; rfl⟩
  | readWithElement ty element => exact ⟨ty, some element, by cases answered; rfl⟩

theorem Spells.answers (spells : r.Spells given) {calls : List Call} {s : Schema}
    (answered : .schema (.ok s) ∈ r.answers forgetful calls) :
    (∀ t : Schema, t.Within s → t.Spelled given) ∧ SpelledOr given s.name := by
  induction calls generalizing r with
  | nil => cases answered
  | cons call rest ih =>
    rcases List.mem_cons.1 answered with now | later
    · obtain ⟨_, _, computed⟩ := perform_schema now.symm
      exact spells.compute computed
    · exact ih (spells.perform call) later

/-- Whatever a reader starts with and is asked afterwards: in a schema that it answers, the names of
members and of extension kinds can be spelled, and so can the names of records and of the root, but
for those of the types that it started with. -/
theorem answers_spelled (registry : Registry) (skip : SkipStrategy) (limits : Limits)
    (calls : List Call) {s : Schema}
    (answered : .schema (.ok s) ∈ (start registry skip limits).answers remembering calls) :
    (∀ t : Schema, t.Within s → t.Spelled registry.names) ∧ SpelledOr registry.names s.name := by
  rw [answers_remembering] at answered
  exact (spells_start registry skip limits).answers answered

namespace Sample

/-- A record whose name has a space in it. -/
def badges : Registry := .ofDefinitions
  [.record "name tag" [⟨"text", .primitive .string, .unset, false⟩]]

def badge : Schema := .ofMembers "name tag" "name tag" [.ofKind "text" (.primitive .string)]

/-- The record is read after other definitions have arrived. Its name is one that was given. -/
theorem answers_spelled_badge :
    .schema (.ok badge) ∈ (start badges SkipRule.flagged.skips .standard).answers remembering
        [.define phones, .read (.named "name tag")] ∧
      (∀ t : Schema, t.Within badge → t.Spelled ["name tag"]) ∧
      SpelledOr ["name tag"] badge.name := by
  have answered : .schema (.ok badge) ∈ (start badges SkipRule.flagged.skips .standard).answers
      remembering [.define phones, .read (.named "name tag")] := by
    rw [answers_remembering]
    have answers : (start badges SkipRule.flagged.skips .standard).answers forgetful
        [.define phones, .read (.named "name tag")] = [.defined (.ok ()), .schema (.ok badge)] := by
      cbv
    simp [answers]
  exact ⟨answered, answers_spelled badges _ _ _ answered⟩

/-- A reader that starts with the record reads it, and no reader accepts it as an addition. -/
theorem badge_unchecked :
    (start badges SkipRule.flagged.skips .standard).answers remembering
        [.read (.named "name tag")] = [.schema (.ok badge)] ∧
      badge.node.element = .named "name tag" ∧ ¬ IsMemberName "name tag" ∧
      ∀ r : Reader, r.define badges = .error (.invalidName "name tag" .nameCharacter) := by
  refine ⟨?_, rfl, ?_, fun r => rfl⟩
  · rw [answers_remembering]
    cbv
  · rw [← nameFault?_eq_none]
    decide

end Sample

/-- If the definitions that a reader starts with could as well be added, then all names in the
schemas that it answers can be spelled. -/
theorem answers_spelled_checked {registry : Registry} (named : Named registry) (skip : SkipStrategy)
    (limits : Limits) (calls : List Call) {s : Schema}
    (answered : .schema (.ok s) ∈ (start registry skip limits).answers remembering calls) :
    (∀ t : Schema, t.Within s → t.Spelled []) ∧ IsMemberName s.name := by
  have spells : (start registry skip limits).Spells [] := by
    intro name present
    obtain ⟨d, defined, rfl⟩ := List.mem_map.1 present
    exact .inl (nameFault?_eq_none.1 (named d defined))
  rw [answers_remembering] at answered
  obtain ⟨within, root⟩ := spells.answers answered
  exact ⟨within, root.resolve_right List.not_mem_nil⟩

end Reader

end Slotform
