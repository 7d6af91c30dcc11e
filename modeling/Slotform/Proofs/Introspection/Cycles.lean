import Slotform.Proofs.Introspection.Expansion
import Slotform.Proofs.Introspection.Runs

/-!
# Cycles

Records refer to records through their kept fields, and aliases to types. A walk follows these
references with a stack of the records that it is expanding and a list of the aliases that it has
followed.

* `Walk.member_eq_of_unvisited`: the walk ends by itself. It enters no more records below each other
  than there are definitions, so that a depth limit at or above their number plays no part.
* `Walk.not_ok_of_circular`: nothing is read where a cycle can be reached.
* `Walk.member_cyclic`: a reported cycle is one, and it can be reached.

`Reader.read_cycles` puts them together.
-/

namespace Slotform

open Relation

/-! ## Chains of names -/

/-- A chain that returns to its first name, and only there, along a relation between names. -/
structure IsCycle (R : String → String → Prop) (chain : List String) : Prop where
  two_le : 2 ≤ chain.length
  closed : chain.head? = chain.getLast?
  nodup : chain.dropLast.Nodup
  linked : chain.IsChain R

section Chains

variable {R S : String → String → Prop} {visited chain : List String} {a name : String}

theorem IsCycle.imp (h : IsCycle R chain) (sub : ∀ a b, R a b → S a b) : IsCycle S chain :=
  ⟨h.two_le, h.closed, h.nodup, h.linked.imp sub⟩

/-- Whatever was visited leads on to the present name. The visited names stand latest first. -/
theorem transGen_of_mem (linked : visited.IsChain fun b a => R a b)
    (last : ∀ a ∈ visited.head?, R a name) (h : a ∈ visited) : TransGen R a name := by
  induction visited generalizing name with
  | nil => cases h
  | cons b rest ih =>
    have step : R b name := last b rfl
    obtain ⟨earlier, linked⟩ := List.isChain_cons.1 linked
    rcases List.mem_cons.1 h with rfl | h
    · exact .single step
    · exact (ih linked earlier h).tail step

/-- Meeting a visited name again closes a cycle. -/
theorem isCycle_closing (linked : visited.IsChain fun b a => R a b)
    (last : ∀ a ∈ visited.head?, R a name) (nodup : visited.Nodup) (seen : name ∈ visited) :
    IsCycle R (Cycle.closing name visited).chain := by
  obtain ⟨before, after, rfl, fresh⟩ := List.eq_append_cons_of_mem seen
  have passed : (before ++ name :: after).takeWhile (· ≠ name) = before := by
    have differ : ∀ a ∈ before, decide (a ≠ name) = true := by
      intro a ha
      have apart : a ≠ name := fun same => fresh (same ▸ ha)
      simpa using apart
    rw [List.takeWhile_append_of_pos differ]
    simp
  have backwards : name :: before.reverse ++ [name] = (name :: (before ++ [name])).reverse := by
    simp
  simp only [Cycle.closing, passed]
  refine ⟨?_, ?_, ?_, ?_⟩
  · simp
  · exact List.getLast?_concat.symm
  · rw [List.dropLast_concat, List.nodup_cons, List.mem_reverse, List.nodup_reverse]
    exact ⟨fresh, (List.nodup_append.1 nodup).1⟩
  · rw [backwards, List.isChain_reverse, List.isChain_cons]
    constructor
    · intro a ha
      apply last
      cases before with
      | nil => exact ha
      | cons b before => exact ha
    · apply linked.prefix
      exact ⟨after, by simp⟩

end Chains

/-! ## References between names -/

namespace Registry

/-- The type leads to a record: the record is left when wrappers are taken off and aliases
followed. -/
def LeadsTo (r : Registry) (ty : Ty) (owner : String) : Prop :=
  ∃ t, r.StandsFor ty t ∧ t.innermost = .named owner

/-- Taking wrappers off the type and following aliases never ends. -/
def Loops (r : Registry) (ty : Ty) : Prop :=
  ∃ a b, ty.innermost = .named a ∧ ReflTransGen r.Forwards a b ∧ TransGen r.Forwards b b

/-- The target of the first name, an alias, is the second. -/
def IsAliasOf (r : Registry) (a b : String) : Prop :=
  ∃ n, r.get? a = some (.typeAlias n (.named b))

variable {r : Registry} {visited : List String} {ty : Ty} {name : String} {c : Cycle}

/-- The cycle that resolving reports is one of aliases, and the type leads into it. -/
theorem resolveFrom_cyclic (h : r.resolveFrom visited ty = .error (.cyclic c))
    (linked : visited.IsChain fun b a => r.IsAliasOf a b) (nodup : visited.Nodup)
    (last : ∀ a ∈ visited.head?, ∃ n, r.get? a = some (.typeAlias n ty)) :
    IsCycle r.IsAliasOf c.chain ∧
      ∃ a b, ty = .named a ∧ ReflTransGen r.Forwards a b ∧ TransGen r.Forwards b b := by
  fun_induction r.resolveFrom visited ty with
  | case1 visited name seen =>
    cases h
    have forwards : r.IsAliasOf ≤ r.Forwards := by
      rintro a b ⟨n, found⟩
      exact ⟨n, _, found, rfl⟩
    have circle := TransGen.mono forwards _ _ (transGen_of_mem linked last seen)
    exact ⟨isCycle_closing linked last nodup seen, name, name, rfl, .refl, circle⟩
  | case2 visited name fresh n target found ih =>
    have further : (name :: visited).IsChain fun b a => r.IsAliasOf a b :=
      List.isChain_cons.2 ⟨last, linked⟩
    have latest : ∀ a ∈ (name :: visited).head?, ∃ n, r.get? a = some (.typeAlias n target) := by
      rintro a ⟨⟩
      exact ⟨n, found⟩
    obtain ⟨cycle, a, b, rfl, reached, circle⟩ :=
      ih h further (List.nodup_cons.2 ⟨fresh, nodup⟩) latest
    exact ⟨cycle, name, b, rfl, .head ⟨n, _, found, rfl⟩ reached, circle⟩
  | case3 => cases h
  | case4 => cases h
  | case5 => cases h

theorem resolve_cyclic (h : r.resolve ty = .error (.cyclic c)) :
    IsCycle r.IsAliasOf c.chain ∧ r.Loops ty := by
  obtain ⟨cycle, a, b, rfl, reached, circle⟩ :=
    resolveFrom_cyclic h .nil List.nodup_nil fun _ no => by cases no
  exact ⟨cycle, a, b, rfl, reached, circle⟩

/-- What a type resolves to leads on into the loops that the type leads into. -/
theorem resolveFrom_loops {t : Ty} (h : r.resolveFrom visited ty = .ok t) (loops : r.Loops t) :
    r.Loops ty := by
  fun_induction r.resolveFrom visited ty with
  | case1 => cases h
  | case2 visited name fresh n target found ih =>
    obtain ⟨a, b, inside, reached, circle⟩ := ih h
    exact ⟨name, b, rfl, .head ⟨n, target, found, inside⟩ reached, circle⟩
  | case3 | case5 =>
    cases h
    exact loops
  | case4 => cases h

theorem resolve_loops {t : Ty} (h : r.resolve ty = .ok t) (loops : r.Loops t) : r.Loops ty :=
  resolveFrom_loops h loops

end Registry

namespace Walk

/-- The first record refers to the second: a kept field of it leads there. -/
def Refers (w : Walk) (a b : String) : Prop :=
  ∃ n fields field, w.registry.get? a = some (.record n fields) ∧ field ∈ fields ∧
    w.skip a field = false ∧ w.registry.LeadsTo field.ty b

/-- The record can be reached from the type. -/
def Reaches (w : Walk) (root : Ty) (owner : String) : Prop :=
  ∃ first, w.registry.LeadsTo root first ∧ ReflTransGen w.Refers first owner

/-- The type is the root itself or that of a kept field of a record that can be reached. -/
def Meets (w : Walk) (root ty : Ty) : Prop :=
  ty = root ∨ ∃ owner n fields field, w.Reaches root owner ∧
    w.registry.get? owner = some (.record n fields) ∧ field ∈ fields ∧
    w.skip owner field = false ∧ ty = field.ty

/-- From the root a cycle of records or a loop of aliases can be reached. -/
def Circular (w : Walk) (root : Ty) : Prop :=
  (∃ owner, w.Reaches root owner ∧ TransGen w.Refers owner owner) ∨
    ∃ ty, w.Meets root ty ∧ w.registry.Loops ty

/-- The second name follows the first in a reported cycle: as a record that the first refers to, or
as the target of the first. -/
def Follows (w : Walk) (a b : String) : Prop := w.Refers a b ∨ w.registry.IsAliasOf a b

variable {w : Walk} {allowance : Nat} {path : List String} {name owner n : String}
  {root ty inner item : Ty} {format : Format} {s : Schema} {fields : List Field} {field : Field}
  {c : Cycle}

theorem Meets.reaches (meets : w.Meets root ty) (leads : w.registry.LeadsTo ty owner) :
    w.Reaches root owner := by
  rcases meets with rfl | ⟨earlier, n, fields, field, ⟨first, here, reached⟩, found, hf, kept, rfl⟩
  · exact ⟨owner, leads, .refl⟩
  · exact ⟨first, here, reached.tail ⟨n, fields, field, found, hf, kept, leads⟩⟩

/-! ## Enough depth -/

/-- With enough depth for all records that are not yet on the path, the limit plays no part. -/
theorem member_eq_of_unvisited {allowance' maxDepth : Nat}
    (enough : w.registry.unvisited path < allowance)
    (enough' : w.registry.unvisited path < allowance') :
    ({ w with maxDepth } : Walk).member allowance' path name ty format =
      w.member allowance path name ty format := by
  induction allowance generalizing allowance' path name ty format with
  | zero => exact absurd enough (Nat.not_lt_zero _)
  | succ allowance ih =>
    obtain ⟨allowance', rfl⟩ := Nat.exists_eq_succ_of_ne_zero (Nat.ne_zero_of_lt enough')
    have first : ({ w with maxDepth } : Walk).splitOption name ty = w.splitOption name ty := rfl
    apply member_congr first
    · intro optional inner _
      rfl
    · intro optional inner cardinality owner node _ _ fresh
      have third : ({ w with maxDepth } : Walk).splitFields owner = w.splitFields owner := rfl
      apply expandRecord_congr third
      intro kept skipped split f _
      obtain ⟨n, _, found, _⟩ := splitFields_ok split
      -- Entering a record takes one from both allowances, and one from the names still unvisited.
      have fewer : w.registry.unvisited (owner :: path) < w.registry.unvisited path :=
        Registry.unvisited_cons_lt (Registry.mem_names_of_get? found) fresh
      apply ih
      · omega
      · omega

/-! ## Nothing is read in front of a cycle -/

/-- Some member of the type is read. -/
def Reads (w : Walk) (ty : Ty) : Prop :=
  ∃ allowance path name format s, w.member allowance path name ty format = .ok s

/-- Where a record is read, its kept fields are, one level deeper. -/
theorem member_field (h : w.member (allowance + 1) path name ty format = .ok s)
    (leads : w.registry.LeadsTo ty owner) (found : w.registry.get? owner = some (.record n fields))
    (hf : field ∈ fields) (kept : w.skip owner field = false) :
    ∃ path s, w.member allowance path field.name field.ty field.format = .ok s := by
  obtain ⟨_, _, stands, expands⟩ := member_iff.1 h
  obtain ⟨t, stands', named⟩ := leads
  rw [stands'.unique stands, Node.innermost_declared, Ty.innermost_of_isPlain expands.element.1]
    at named
  generalize s.node = node at expands named
  cases expands with
  | primitive element => cases element.symm.trans named
  | custom element => cases element.symm.trans named
  | record element _ split read =>
    cases element.symm.trans named
    obtain ⟨_, _, again, rfl, _⟩ := splitFields_ok split
    cases found.symm.trans again
    have listed : field ∈ fields.filter fun field => !w.skip owner field :=
      List.mem_filter.2 ⟨hf, by simp [kept]⟩
    obtain ⟨m, _, hread⟩ := forall₂_exists_right (readFields_ok read).1 listed
    exact ⟨_, m, hread⟩

theorem Reads.below (reads : w.Reads ty) (leads : w.registry.LeadsTo ty owner)
    (found : w.registry.get? owner = some (.record n fields)) (hf : field ∈ fields)
    (kept : w.skip owner field = false) : w.Reads field.ty := by
  obtain ⟨allowance, path, name, format, s, h⟩ := reads
  cases allowance with
  | zero => exact absurd h member_zero_ne_ok
  | succ allowance =>
    obtain ⟨path, s, h⟩ := member_field h leads found hf kept
    exact ⟨allowance, path, field.name, field.format, s, h⟩

theorem Reads.reached (reads : w.Reads root) (reaches : w.Reaches root owner) :
    ∃ ty, w.Reads ty ∧ w.registry.LeadsTo ty owner := by
  obtain ⟨first, leads, reached⟩ := reaches
  induction reached with
  | refl => exact ⟨root, reads, leads⟩
  | tail _ step ih =>
    obtain ⟨ty, reads, leads⟩ := ih
    obtain ⟨n, fields, field, found, hf, kept, further⟩ := step
    exact ⟨field.ty, reads.below leads found hf kept, further⟩

theorem Reads.met (reads : w.Reads root) (meets : w.Meets root ty) : w.Reads ty := by
  rcases meets with rfl | ⟨owner, n, fields, field, reaches, found, hf, kept, rfl⟩
  · exact reads
  · obtain ⟨ty, reads, leads⟩ := reads.reached reaches
    exact reads.below leads found hf kept

/-- From a record that is read every chain of references ends: each step goes one level deeper. -/
theorem refers_acc (h : w.member allowance path name ty format = .ok s)
    (leads : w.registry.LeadsTo ty owner) : Acc (fun b a => w.Refers a b) owner := by
  -- The allowance bounds the length of a chain, since whatever is referred to is read with less.
  induction allowance generalizing path name ty format s owner with
  | zero => exact absurd h member_zero_ne_ok
  | succ allowance ih =>
    apply Acc.intro
    rintro b ⟨n, fields, field, found, hf, kept, further⟩
    obtain ⟨path, s, hread⟩ := member_field h leads found hf kept
    exact ih hread further

theorem not_ok_of_circular (circular : w.Circular root) : w.root root ≠ .ok s := by
  intro h
  rcases circular with ⟨owner, ⟨first, leads, reached⟩, circle⟩ | ⟨ty, meets, a, b, named, reached,
    circle⟩
  · exact not_circular_of_acc (refers_acc h leads) reached circle
  · have reads : w.Reads root := ⟨_, _, _, _, s, h⟩
    obtain ⟨allowance, path, name, format, s, h⟩ := reads.met meets
    cases allowance with
    | zero => exact absurd h member_zero_ne_ok
    | succ allowance =>
      obtain ⟨_, _, stands, _⟩ := member_iff.1 h
      exact Registry.StandsFor.not_circular circle reached named stands

/-! ## What is reported -/

theorem splitOption_cyclic (h : w.splitOption name ty = .error (.cyclic c)) :
    IsCycle w.registry.IsAliasOf c.chain ∧ w.registry.Loops ty := by
  rcases bind_eq_error.1 h with h | ⟨t, resolved, h⟩
  · exact Registry.resolve_cyclic h
  · cases t with
    | option under =>
      rcases bind_eq_error.1 h with h | ⟨t, _, h⟩
      · obtain ⟨cycle, loops⟩ := Registry.resolve_cyclic h
        exact ⟨cycle, Registry.resolve_loops resolved loops⟩
      · cases t <;> cases h
    | _ => cases h

theorem splitList_cyclic (h : w.splitList name ty inner = .error (.cyclic c)) :
    IsCycle w.registry.IsAliasOf c.chain ∧ w.registry.Loops inner := by
  cases inner with
  | list element =>
    rcases bind_eq_error.1 h with h | ⟨t, _, h⟩
    · obtain ⟨cycle, loops⟩ := Registry.resolve_cyclic h
      exact ⟨cycle, loops⟩
    · cases t <;> cases h
  | _ => cases h

theorem splitOption_loops {optional : Bool} (h : w.splitOption name ty = .ok (optional, inner))
    (loops : w.registry.Loops inner) : w.registry.Loops ty := by
  obtain ⟨-, resolved⟩ | ⟨-, under, resolved, resolved'⟩ := splitOption_ok h
  · exact Registry.resolve_loops resolved loops
  · have below : w.registry.Loops under := Registry.resolve_loops resolved' loops
    exact Registry.resolve_loops resolved below

/-- What is left of a type without its wrappers is resolved. -/
theorem resolved_of_split {optional : Bool} {cardinality : Cardinality}
    (first : w.splitOption name ty = .ok (optional, inner))
    (second : w.splitList name ty inner = .ok (cardinality, item)) :
    ∃ t, w.registry.resolve t = .ok item := by
  obtain ⟨-, rfl⟩ | ⟨-, element, -, resolved⟩ := splitList_ok second
  · obtain ⟨-, resolved⟩ | ⟨-, under, -, resolved⟩ := splitOption_ok first
    · exact ⟨ty, resolved⟩
    · exact ⟨under, resolved⟩
  · exact ⟨element, resolved⟩

/-- An item that is a name is the record that the type leads to. -/
theorem leadsTo_of_split {optional : Bool} {cardinality : Cardinality}
    (first : w.splitOption name ty = .ok (optional, inner))
    (second : w.splitList name ty inner = .ok (cardinality, .named owner)) :
    w.registry.LeadsTo ty owner := by
  obtain ⟨t, resolved⟩ := resolved_of_split first second
  obtain ⟨n, fields, found⟩ := Registry.resolveFrom_named resolved
  have stands := standsFor_of_splitOption first (standsFor_of_splitList second (.record found))
  refine ⟨_, stands, ?_⟩
  cases optional <;> cases cardinality <;> rfl

theorem readFields_cyclic {read : Field → Except ReadError Schema} {earlier : List String}
    (h : readFields read owner earlier fields = .error (.cyclic c)) :
    ∃ field ∈ fields, read field = .error (.cyclic c) := by
  induction fields generalizing earlier with
  | nil => cases h
  | cons field rest ih =>
    rcases bind_eq_error.1 h with h | ⟨_, _, h⟩
    · unfold checked checkName at h
      split at h <;> cases h
    · split at h
      · cases h
      · rcases bind_eq_error.1 h with h | ⟨_, _, h⟩
        · exact ⟨field, List.mem_cons_self, h⟩
        · rcases bind_eq_error.1 h with h | ⟨_, _, h⟩
          · obtain ⟨f, hf, h⟩ := ih h
            exact ⟨f, List.mem_cons_of_mem _ hf, h⟩
          · cases h

/-- Where a walk is: at a type that is met from the root, below a path of records, each of which
refers to the next, and the latest to whatever the type leads to. -/
structure Along (w : Walk) (root : Ty) (path : List String) (ty : Ty) : Prop where
  meets : w.Meets root ty
  linked : path.IsChain fun b a => w.Refers a b
  nodup : path.Nodup
  leads : ∀ a ∈ path.head?, ∀ b, w.registry.LeadsTo ty b → w.Refers a b

theorem Along.start (w : Walk) (root : Ty) : w.Along root [] root :=
  ⟨.inl rfl, .nil, List.nodup_nil, fun _ no => by cases no⟩

theorem Along.enter (along : w.Along root path ty) (leads : w.registry.LeadsTo ty owner)
    (fresh : owner ∉ path) (found : w.registry.get? owner = some (.record n fields))
    (hf : field ∈ fields) (kept : w.skip owner field = false) :
    w.Along root (owner :: path) field.ty where
  meets := .inr ⟨owner, n, fields, field, along.meets.reaches leads, found, hf, kept, rfl⟩
  linked := List.isChain_cons.2 ⟨fun a ha => along.leads a ha owner leads, along.linked⟩
  nodup := List.nodup_cons.2 ⟨fresh, along.nodup⟩
  leads := by
    rintro a ⟨⟩ b further
    exact ⟨n, fields, field, found, hf, kept, further⟩

theorem member_cyclic (along : w.Along root path ty)
    (h : w.member allowance path name ty format = .error (.cyclic c)) :
    IsCycle w.Follows c.chain ∧ w.Circular root := by
  induction allowance generalizing path name ty format with
  | zero => cases h
  | succ allowance ih =>
    rcases bind_eq_error.1 h with h | ⟨⟨optional, inner⟩, first, h⟩
    · obtain ⟨cycle, loops⟩ := splitOption_cyclic h
      exact ⟨cycle.imp fun _ _ => .inr, .inr ⟨ty, along.meets, loops⟩⟩
    rcases bind_eq_error.1 h with h | ⟨⟨cardinality, item⟩, second, h⟩
    · obtain ⟨cycle, loops⟩ := splitList_cyclic h
      exact ⟨cycle.imp fun _ _ => .inr, .inr ⟨ty, along.meets, splitOption_loops first loops⟩⟩
    cases item with
    | named owner =>
      have leads := leadsTo_of_split first second
      dsimp only at h
      split at h
      next seen =>
        cases h
        have seen : owner ∈ path := by simpa using seen
        have last : ∀ a ∈ path.head?, w.Refers a owner :=
          fun a ha => along.leads a ha owner leads
        have cycle := isCycle_closing along.linked last along.nodup seen
        have circle := transGen_of_mem along.linked last seen
        exact ⟨cycle.imp fun _ _ => .inl, .inl ⟨owner, along.meets.reaches leads, circle⟩⟩
      next fresh =>
        have fresh : owner ∉ path := by simpa using fresh
        rcases bind_eq_error.1 h with h | ⟨⟨kept, skipped⟩, split, h⟩
        · unfold splitFields at h
          split at h
          · dsimp only at h
            split at h <;> cases h
          · cases h
        rcases bind_eq_error.1 h with h | ⟨_, _, h⟩
        · obtain ⟨n, fields, found, rfl, _⟩ := splitFields_ok split
          obtain ⟨field, listed, h⟩ := readFields_cyclic h
          obtain ⟨hf, kept⟩ := List.mem_filter.1 listed
          exact ih (along.enter leads fresh found hf (by simpa using kept)) h
        · cases h
    | custom kind =>
      rcases bind_eq_error.1 h with h | ⟨_, _, h⟩
      · unfold checked checkKind at h
        split at h <;> cases h
      · cases h
    | _ => cases h

end Walk

/-! ## Reading -/

namespace Reader

/-- Reading always ends, and cycles are what ends it early: with a depth limit at or above the
number of definitions the limit plays no part; nothing is read where a cycle can be reached; and a
reported cycle is a chain of references that returns to its start, and can be reached. -/
theorem read_cycles (registry : Registry) (skip : SkipStrategy) (limits : Limits) (ty : Ty) :
    let walk : Walk := ⟨registry, skip, limits.maxDepth⟩
    let answer (limits : Limits) := ((start registry skip limits).read ty).1.map Kept.value
    (∀ limits' : Limits, registry.names.length ≤ limits.maxDepth →
      registry.names.length ≤ limits'.maxDepth → answer limits' = answer limits) ∧
    (walk.Circular ty → ∀ s, answer limits ≠ .ok s) ∧
    (∀ c, answer limits = .error (.cyclic c) → IsCycle walk.Follows c.chain ∧ walk.Circular ty) := by
  intro walk answer
  have computed (limits : Limits) :
      answer limits = Walk.root ⟨registry, skip, limits.maxDepth⟩ ty :=
    read_start registry skip limits ty
  refine ⟨?_, ?_, ?_⟩
  · intro limits' enough enough'
    have all : registry.unvisited [] = registry.names.length := by simp [Registry.unvisited]
    have deep : registry.unvisited [] < limits.maxDepth + 1 := by omega
    have deep' : registry.unvisited [] < limits'.maxDepth + 1 := by omega
    rw [computed, computed]
    exact Walk.member_eq_of_unvisited (w := walk) deep deep'
  · intro circular s
    rw [computed]
    exact Walk.not_ok_of_circular circular
  · intro c reported
    rw [computed] at reported
    exact Walk.member_cyclic (.start walk ty) reported

end Reader

/-! ## A sample -/

namespace Sample

/-- Nodes have edges, and an edge may lead to a node. -/
def graph : Registry where
  definitions := [
    .record "node" [⟨"edges", .list (.named "edge"), .unset, false⟩],
    .record "edge" [⟨"target", .named "link", .unset, false⟩],
    .typeAlias "link" (.option (.named "node"))]

theorem circular_graph : Walk.Circular ⟨graph, SkipRule.flagged.skips, 64⟩ (.named "node") := by
  have node : graph.StandsFor (.named "node") (.named "node") := .record rfl
  have edge : graph.StandsFor (.named "edge") (.named "edge") := .record rfl
  have link : graph.StandsFor (.named "link") (.option (.named "node")) :=
    .typeAlias rfl (.option node)
  have out : Walk.Refers ⟨graph, SkipRule.flagged.skips, 64⟩ "node" "edge" :=
    ⟨_, _, _, rfl, List.mem_cons_self, rfl, _, .list edge, rfl⟩
  have back : Walk.Refers ⟨graph, SkipRule.flagged.skips, 64⟩ "edge" "node" :=
    ⟨_, _, _, rfl, List.mem_cons_self, rfl, _, link, rfl⟩
  left
  exact ⟨"node", ⟨"node", ⟨_, node, rfl⟩, .refl⟩, .tail (.single out) back⟩

/-- The cycle is reported from the first record that is met twice, also where the limit allows no
more records than there are definitions. -/
theorem read_cycles_graph :
    let answer (limits : Limits) :=
      ((Reader.start graph SkipRule.flagged.skips limits).read (.named "node")).1.map Kept.value
    answer .standard = .error (.cyclic ⟨["node", "edge", "node"]⟩) ∧
      answer { maxDepth := 3 } = answer .standard ∧ (∀ s, answer .standard ≠ .ok s) ∧
      IsCycle (Walk.Follows ⟨graph, SkipRule.flagged.skips, 64⟩) ["node", "edge", "node"] := by
  have reported : ((Reader.start graph SkipRule.flagged.skips .standard).read
      (.named "node")).1.map Kept.value = .error (.cyclic ⟨["node", "edge", "node"]⟩) := by cbv
  obtain ⟨limit, absent, cycle⟩ :=
    Reader.read_cycles graph SkipRule.flagged.skips .standard (.named "node")
  exact ⟨reported, limit { maxDepth := 3 } (by decide) (by decide), absent circular_graph,
    (cycle _ reported).1⟩

end Sample

end Slotform
