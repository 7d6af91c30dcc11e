import Mathlib.Data.List.Induction
import Mathlib.Logic.Function.Basic
import Slotform.Proofs.Registry

/-!
# Claims and merges

Names are claimed and defined in several registries, which are merged into each other. In an
orderly run every name belongs to one owner, and it is defined only where a claim of it was
granted. A merge copies definitions without their owners, so a name may be defined in a registry
that nobody holds there.

What can be said of orderly runs is therefore this (`Registry.conflicts_run`): a registry records a
conflict over a name exactly if the name is first claimed there after a merge has brought its
definition. Where no claim comes that late, no check fails, and merges fail only over definitions
that differ. A late claim is recorded although only one owner ever claims the name
(`Registry.conflict_late`).
-/

namespace Slotform.Registry

/-- An operation on one of several registries, which go by numbers. -/
inductive Operation where
  | claim (i : Nat) (name : String) (owner : Owner)
  | define (i : Nat) (definition : Definition)
  | merge (i j : Nat)
  deriving DecidableEq

/-- The registry that an operation changes. -/
def Operation.place : Operation → Nat
  | .claim i _ _ => i
  | .define i _ => i
  | .merge i _ => i

/-- What becomes of that registry. A merge that fails leaves it as it is. -/
def Operation.outcome (rs : Nat → Registry) : Operation → Registry
  | .claim i name owner => ((rs i).claim name owner).2
  | .define i d => (rs i).define d
  | .merge i j => ((rs i).merge (rs j)).toOption.getD (rs i)

def Operation.apply (rs : Nat → Registry) (operation : Operation) : Nat → Registry :=
  Function.update rs operation.place (operation.outcome rs)

/-- The registries after operations in order, all of them empty at first. -/
def run (operations : List Operation) : Nat → Registry :=
  operations.foldl Operation.apply fun _ => .empty

/-- A claim of the name in the registry has been granted. -/
def Granted (past : List Operation) (i : Nat) (name : String) : Prop :=
  ∃ before owner after, past = before ++ .claim i name owner :: after ∧
    ((run before i).claim name owner).1 = true

/-- Each name is claimed for its owner only, and defined only where a claim of it was granted. -/
inductive Orderly (ownerOf : String → Owner) : List Operation → Prop where
  | nil : Orderly ownerOf []
  | claim {past : List Operation} (i : Nat) (name : String) :
      Orderly ownerOf past → Orderly ownerOf (past ++ [.claim i name (ownerOf name)])
  | define {past : List Operation} {i : Nat} {d : Definition} :
      Orderly ownerOf past → Granted past i d.name → Orderly ownerOf (past ++ [.define i d])
  | merge {past : List Operation} (i j : Nat) :
      Orderly ownerOf past → Orderly ownerOf (past ++ [.merge i j])

/-- The operation is a claim of the name in the registry. -/
def Operation.Claims (i : Nat) (name : String) : Operation → Prop
  | .claim k n _ => k = i ∧ n = name
  | _ => False

/-- Nobody has claimed the name in the registry. -/
def Unclaimed (past : List Operation) (i : Nat) (name : String) : Prop :=
  ∀ operation ∈ past, ¬ operation.Claims i name

/-- A merge has brought the name to the registry. -/
def Brought (past : List Operation) (i : Nat) (name : String) : Prop :=
  ∃ before j after, past = before ++ .merge i j :: after ∧
    name ∉ (run before i).names ∧ name ∈ (run (before ++ [.merge i j]) i).names

/-- The first claim of the name in the registry comes after a merge has brought its definition. -/
def ClaimedLate (operations : List Operation) (i : Nat) (name : String) : Prop :=
  ∃ past operation future, operations = past ++ operation :: future ∧
    operation.Claims i name ∧ Unclaimed past i name ∧ Brought past i name

variable {r r' incoming : Registry} {ownerOf : String → Owner} {past future : List Operation}
  {operation : Operation} {i : Nat} {name : String} {d : Definition}

/-! ## One operation -/

theorem fill_frame (definitions : List Definition) (r : Registry) :
    (∀ name, (definitions.foldl
      (fun acc d => if acc.contains d.name then acc else acc.define d) r).owner? name =
        r.owner? name) ∧
      (definitions.foldl
        (fun acc d => if acc.contains d.name then acc else acc.define d) r).conflicts =
          r.conflicts := by
  induction definitions generalizing r with
  | nil => exact ⟨fun _ => rfl, rfl⟩
  | cons d rest ih =>
    rw [List.foldl_cons]
    split
    · exact ih r
    · have frame := ih (r.define d)
      simpa only [owner?_define, conflicts_define] using frame

/-- A merge changes neither owners nor conflicts, whether it succeeds or not. -/
theorem merge_frame (r incoming : Registry) :
    (∀ name, ((r.merge incoming).toOption.getD r).owner? name = r.owner? name) ∧
      ((r.merge incoming).toOption.getD r).conflicts = r.conflicts := by
  cases h : r.merge incoming with
  | error e => exact ⟨fun _ => rfl, rfl⟩
  | ok merged =>
    have frame := fill_frame incoming.definitions r
    rw [← merge_ok h] at frame
    exact frame

theorem mem_names_merge (mem : name ∈ r.names) (incoming : Registry) :
    name ∈ ((r.merge incoming).toOption.getD r).names := by
  cases h : r.merge incoming with
  | error e => exact mem
  | ok merged =>
    obtain ⟨d, found⟩ := contains_iff_get?.1 (contains_iff_mem.2 mem)
    have kept : merged.get? name = some d := merge_growsTo h name d found
    exact contains_iff_mem.1 (contains_iff_get?.2 ⟨d, kept⟩)

theorem mem_names_define : name ∈ (r.define d).names ↔ name ∈ r.names ∨ name = d.name := by
  rw [← contains_iff_mem, ← contains_iff_mem, contains_iff_get?, contains_iff_get?]
  by_cases own : name = d.name
  · simp [own, get?_define_self]
  · simp [own, get?_define_of_ne]

theorem names_claim (r : Registry) (name : String) (owner : Owner) :
    (r.claim name owner).2.names = r.names := by
  rcases r.claim_cases name owner with ⟨-, claim⟩ | ⟨-, claim⟩ | ⟨-, -, claim⟩
  · rw [claim]
  · rw [claim, names_addConflict]
  · rw [claim]
    rfl

theorem nodup_names_fill (distinct : r.names.Nodup) (definitions : List Definition) :
    (definitions.foldl
      (fun acc d => if acc.contains d.name then acc else acc.define d) r).names.Nodup := by
  induction definitions generalizing r with
  | nil => exact distinct
  | cons d rest ih =>
    rw [List.foldl_cons]
    split
    · exact ih distinct
    · exact ih (nodup_names_define distinct d)

theorem nodup_names_merge (distinct : r.names.Nodup) (incoming : Registry) :
    ((r.merge incoming).toOption.getD r).names.Nodup := by
  cases h : r.merge incoming with
  | error e => exact distinct
  | ok merged =>
    have filled := nodup_names_fill distinct incoming.definitions
    rwa [← merge_ok h] at filled

theorem apply_of_ne {rs : Nat → Registry} (elsewhere : i ≠ operation.place) :
    operation.apply rs i = rs i :=
  Function.update_of_ne elsewhere _ _

theorem apply_self (rs : Nat → Registry) (operation : Operation) :
    operation.apply rs operation.place = operation.outcome rs :=
  Function.update_self _ _ _

/-- No operation takes a name away. -/
theorem mem_names_apply {rs : Nat → Registry} (mem : name ∈ (rs i).names) :
    name ∈ (operation.apply rs i).names := by
  by_cases here : i = operation.place
  · subst here
    rw [apply_self]
    cases operation with
    | claim i n owner =>
      rw [Operation.outcome, names_claim]
      exact mem
    | define i d => exact mem_names_define.2 (.inl mem)
    | merge i j => exact mem_names_merge mem (rs j)
  · rwa [apply_of_ne here]

/-- Only claims of a name in a registry change its owner there and whether it is in conflict. -/
theorem apply_frame (rs : Nat → Registry) (other : ¬ operation.Claims i name) :
    (operation.apply rs i).owner? name = (rs i).owner? name ∧
      (name ∈ (operation.apply rs i).conflicts ↔ name ∈ (rs i).conflicts) := by
  by_cases here : i = operation.place
  · subst here
    rw [apply_self]
    cases operation with
    | claim i n owner =>
      have apart : name ≠ n := fun same => other ⟨rfl, same.symm⟩
      change ((rs i).claim n owner).2.owner? name = (rs i).owner? name ∧
        (name ∈ ((rs i).claim n owner).2.conflicts ↔ name ∈ (rs i).conflicts)
      rcases (rs i).claim_cases n owner with ⟨-, claim⟩ | ⟨-, claim⟩ | ⟨missing, -, claim⟩
      · simp [claim]
      · simp [claim, mem_conflicts_addConflict, apart]
      · simp [claim, owner?_claimed missing, apart]
    | define i d => simp [Operation.outcome, Operation.place]
    | merge i j =>
      obtain ⟨owners, conflicts⟩ := merge_frame (rs i) (rs j)
      exact ⟨owners name, by rw [Operation.outcome, conflicts]; rfl⟩
  · rw [apply_of_ne here]
    exact ⟨rfl, Iff.rfl⟩

/-- No operation lists a name twice. -/
theorem nodup_names_apply {rs : Nat → Registry} (distinct : (rs i).names.Nodup) :
    (operation.apply rs i).names.Nodup := by
  by_cases here : i = operation.place
  · subst here
    rw [apply_self]
    cases operation with
    | claim i n owner =>
      rw [Operation.outcome, names_claim]
      exact distinct
    | define i d => exact nodup_names_define distinct d
    | merge i j => exact nodup_names_merge distinct (rs j)
  · rwa [apply_of_ne here]

/-! ## Runs -/

theorem run_concat (past : List Operation) (operation : Operation) :
    run (past ++ [operation]) = operation.apply (run past) := by
  rw [run, List.foldl_append]
  rfl

/-- However a registry has come about, its names are distinct. -/
theorem nodup_names_run (operations : List Operation) (i : Nat) :
    (run operations i).names.Nodup := by
  induction operations using List.reverseRecOn with
  | nil => exact List.nodup_nil
  | append_singleton past operation ih =>
    rw [run_concat]
    exact nodup_names_apply ih

theorem mem_names_run (mem : name ∈ (run past i).names) (future : List Operation) :
    name ∈ (run (past ++ future) i).names := by
  induction future using List.reverseRecOn with
  | nil => simpa using mem
  | append_singleton future operation ih =>
    rw [← List.append_assoc, run_concat]
    exact mem_names_apply ih

theorem Brought.mem_names (h : Brought past i name) : name ∈ (run past i).names := by
  obtain ⟨before, j, after, rfl, -, mem⟩ := h
  have later := mem_names_run mem after
  simpa using later

theorem unclaimed_concat : Unclaimed (past ++ [operation]) i name ↔
    Unclaimed past i name ∧ ¬ operation.Claims i name := by
  simp only [Unclaimed, List.forall_mem_append, List.forall_mem_singleton]

theorem Granted.claimed (h : Granted past i name) : ¬ Unclaimed past i name := by
  obtain ⟨before, owner, after, rfl, -⟩ := h
  intro unclaimed
  exact unclaimed (.claim i name owner) (by simp) ⟨rfl, rfl⟩

theorem apply_claim (rs : Nat → Registry) (i : Nat) (name : String) (owner : Owner) :
    (Operation.claim i name owner).apply rs i = ((rs i).claim name owner).2 :=
  apply_self rs (.claim i name owner)

theorem apply_define (rs : Nat → Registry) (i : Nat) (d : Definition) :
    (Operation.define i d).apply rs i = (rs i).define d :=
  apply_self rs (.define i d)

/-- A claim leaves a holder behind, or a conflict, for good. -/
theorem unclaimed_iff (past : List Operation) (i : Nat) (name : String) : Unclaimed past i name ↔
    (run past i).owner? name = none ∧ name ∉ (run past i).conflicts := by
  induction past using List.reverseRecOn with
  | nil =>
    have empty : run [] i = .empty := rfl
    rw [empty]
    exact ⟨fun _ => ⟨rfl, nofun⟩, fun _ => nofun⟩
  | append_singleton past operation ih =>
    rw [unclaimed_concat, run_concat]
    by_cases claims : operation.Claims i name
    · refine ⟨fun unclaimed => absurd claims unclaimed.2, ?_⟩
      rintro ⟨unheld, quiet⟩
      cases operation with
      | claim k n owner =>
        obtain ⟨rfl, rfl⟩ := claims
        rw [apply_claim] at unheld quiet
        rcases (run past k).claim_cases n owner with ⟨held, claim⟩ | ⟨-, claim⟩ |
          ⟨missing, -, claim⟩
        · rw [claim] at unheld
          cases unheld.symm.trans held
        · rw [claim] at quiet
          exact absurd (mem_conflicts_addConflict.2 (.inr rfl)) quiet
        · rw [claim, owner?_claimed missing, if_pos rfl] at unheld
          cases unheld
      | define => cases claims
      | merge => cases claims
    · obtain ⟨owners, conflicts⟩ := apply_frame (run past) claims
      rw [owners, conflicts, ih]
      exact and_iff_left claims

theorem Brought.concat (h : Brought past i name) (operation : Operation) :
    Brought (past ++ [operation]) i name := by
  obtain ⟨before, j, after, rfl, missing, mem⟩ := h
  exact ⟨before, j, after ++ [operation], by simp, missing, mem⟩

theorem claimedLate_concat : ClaimedLate (past ++ [operation]) i name ↔
    ClaimedLate past i name ∨
      operation.Claims i name ∧ Unclaimed past i name ∧ Brought past i name := by
  constructor
  · rintro ⟨before, claiming, after, split, claims, unclaimed, brought⟩
    induction after using List.reverseRecOn with
    | nil =>
      obtain ⟨rfl, same⟩ := List.append_inj' split rfl
      cases same
      exact .inr ⟨claims, unclaimed, brought⟩
    | append_singleton after last _ =>
      rw [← List.cons_append, ← List.append_assoc] at split
      obtain ⟨rfl, -⟩ := List.append_inj' split rfl
      exact .inl ⟨before, claiming, after, rfl, claims, unclaimed, brought⟩
  · rintro (⟨before, claiming, after, rfl, late⟩ | late)
    · exact ⟨before, claiming, after ++ [operation], by simp, late⟩
    · exact ⟨past, operation, [], rfl, late⟩

section Orderly

/-- Nobody but its owner ever holds a name. -/
theorem Orderly.owner (orderly : Orderly ownerOf past) {owner : Owner}
    (held : (run past i).owner? name = some owner) : owner = ownerOf name := by
  induction orderly with
  | nil => cases held
  | @claim past k n _ ih =>
    rw [run_concat] at held
    by_cases claims : (Operation.claim k n (ownerOf n)).Claims i name
    · obtain ⟨rfl, rfl⟩ := claims
      rw [apply_claim] at held
      rcases (run past k).claim_cases n (ownerOf n) with ⟨-, claim⟩ | ⟨-, claim⟩ |
        ⟨missing, -, claim⟩
      · rw [claim] at held
        exact ih held
      · rw [claim, owner?_addConflict] at held
        exact ih held
      · rw [claim, owner?_claimed missing, if_pos rfl] at held
        exact (Option.some.inj held).symm
    · rw [(apply_frame _ claims).1] at held
      exact ih held
  | define _ _ ih =>
    rw [run_concat, (apply_frame _ id).1] at held
    exact ih held
  | merge i j _ ih =>
    rw [run_concat, (apply_frame _ id).1] at held
    exact ih held

/-- A name that is defined where nobody has claimed it was brought by a merge. -/
theorem Orderly.brought (orderly : Orderly ownerOf past) (unclaimed : Unclaimed past i name)
    (mem : name ∈ (run past i).names) : Brought past i name := by
  induction orderly with
  | nil => cases mem
  | @claim past k n _ ih =>
    apply Brought.concat
    apply ih (unclaimed_concat.1 unclaimed).1
    rw [run_concat] at mem
    by_cases here : i = k
    · subst here
      rwa [apply_claim, names_claim] at mem
    · rwa [apply_of_ne here] at mem
  | @define past k d _ granted ih =>
    obtain ⟨before, -⟩ := unclaimed_concat.1 unclaimed
    apply Brought.concat
    apply ih before
    rw [run_concat] at mem
    by_cases here : i = k
    · subst here
      rw [apply_define, mem_names_define] at mem
      rcases mem with known | rfl
      · exact known
      · exact absurd before granted.claimed
    · rwa [apply_of_ne here] at mem
  | @merge past k j _ ih =>
    by_cases known : name ∈ (run past i).names
    · exact (ih (unclaimed_concat.1 unclaimed).1 known).concat _
    · have here : i = k := by
        apply Classical.byContradiction
        intro elsewhere
        rw [run_concat, apply_of_ne elsewhere] at mem
        exact known mem
      subst here
      exact ⟨past, j, [], rfl, known, mem⟩

/-- The conflicts of an orderly run are the late claims: nobody else holds a name, so a claim is
denied only where the name is defined already. -/
theorem Orderly.mem_conflicts_iff (orderly : Orderly ownerOf past) :
    name ∈ (run past i).conflicts ↔ ClaimedLate past i name := by
  induction orderly with
  | nil =>
    constructor
    · nofun
    · rintro ⟨before, claiming, after, split, -⟩
      simp at split
  | @claim past k n orderly ih =>
    rw [run_concat, claimedLate_concat, ← ih]
    by_cases claims : (Operation.claim k n (ownerOf n)).Claims i name
    · obtain ⟨rfl, rfl⟩ := claims
      rw [apply_claim]
      rcases (run past k).claim_cases n (ownerOf n) with ⟨held, claim⟩ | ⟨denied, claim⟩ |
        ⟨-, missing, claim⟩
      · rw [claim]
        refine ⟨.inl, ?_⟩
        rintro (earlier | ⟨-, unclaimed, -⟩)
        · exact earlier
        · have unheld := ((unclaimed_iff past k n).1 unclaimed).1
          cases unheld.symm.trans held
      · rw [claim, mem_conflicts_addConflict]
        refine ⟨fun _ => ?_, fun _ => .inr rfl⟩
        rcases denied with ⟨holder, held, other⟩ | ⟨unheld, d, found⟩
        · exact absurd (orderly.owner held) other
        · by_cases earlier : n ∈ (run past k).conflicts
          · exact .inl earlier
          · have unclaimed := (unclaimed_iff past k n).2 ⟨unheld, earlier⟩
            have known := contains_iff_mem.1 (contains_iff_get?.2 ⟨d, found⟩)
            exact .inr ⟨⟨rfl, rfl⟩, unclaimed, orderly.brought unclaimed known⟩
      · rw [claim]
        refine ⟨.inl, ?_⟩
        rintro (earlier | ⟨-, -, brought⟩)
        · exact earlier
        · obtain ⟨d, found⟩ := contains_iff_get?.1 (contains_iff_mem.2 brought.mem_names)
          cases missing.symm.trans found
    · rw [(apply_frame _ claims).2]
      simp [claims]
  | define _ _ ih =>
    rw [run_concat, claimedLate_concat, ← ih, (apply_frame _ id).2]
    simp [Operation.Claims]
  | merge k j _ ih =>
    rw [run_concat, claimedLate_concat, ← ih, (apply_frame _ id).2]
    simp [Operation.Claims]

theorem Orderly.earlier (orderly : Orderly ownerOf (past ++ future)) : Orderly ownerOf past := by
  induction future using List.reverseRecOn with
  | nil => simpa using orderly
  | append_singleton future last ih =>
    apply ih
    rw [← List.append_assoc] at orderly
    generalize split : past ++ future ++ [last] = all at orderly
    cases orderly with
    | nil => simp at split
    | claim _ _ before => exact (List.append_inj' split rfl).1 ▸ before
    | define before => exact (List.append_inj' split rfl).1 ▸ before
    | merge _ _ before => exact (List.append_inj' split rfl).1 ▸ before

theorem ClaimedLate.later (late : ClaimedLate past i name) (future : List Operation) :
    ClaimedLate (past ++ future) i name := by
  obtain ⟨before, claiming, after, rfl, late⟩ := late
  exact ⟨before, claiming, after ++ future, by simp, late⟩

end Orderly

/-- In an orderly run a registry records a conflict over a name exactly if the name is first claimed
there after a merge has brought its definition. Where no claim comes that late, nothing conflicts at
any time: every check passes, and a merge fails only over a definition that differs. -/
theorem conflicts_run {operations : List Operation} (orderly : Orderly ownerOf operations) :
    (∀ i name, name ∈ (run operations i).conflicts ↔ ClaimedLate operations i name) ∧
      ((∀ i name, ¬ ClaimedLate operations i name) →
        ∀ past future, operations = past ++ future → ∀ i,
          (run past i).check = .ok () ∧
            ∀ j e, (run past j).merge (run past i) = .error e →
              ∃ d ∈ (run past i).definitions, ∃ present,
                (run past j).get? d.name = some present ∧ present ≠ d ∧ e = ⟨d.name⟩) := by
  refine ⟨fun i name => orderly.mem_conflicts_iff, ?_⟩
  rintro timely past future rfl i
  have quiet : (run past i).conflicts = [] := by
    rw [List.eq_nil_iff_forall_not_mem]
    intro name reported
    have late := orderly.earlier.mem_conflicts_iff.1 reported
    exact timely i name (late.later future)
  exact ⟨check_eq_ok.2 quiet, fun j e => merge_error quiet⟩

/-! ## A sample -/

namespace Sample

def phoneOwner : Owner := ⟨"phone"⟩

def phone : Definition := .record "Phone" [⟨"number", .primitive .string, .unset, false⟩]

/-- The phone is described in one registry, which is merged into another. -/
def described : List Operation :=
  [.claim 0 "Phone" phoneOwner, .define 0 phone, .merge 1 0]

theorem orderly_described : Orderly (fun _ => phoneOwner) described := by
  have claimed : Orderly (fun _ => phoneOwner) [.claim 0 "Phone" phoneOwner] := .claim 0 "Phone" .nil
  have granted : Granted [.claim 0 "Phone" phoneOwner] 0 "Phone" := ⟨[], phoneOwner, [], rfl, rfl⟩
  have defined : Orderly (fun _ => phoneOwner)
      [.claim 0 "Phone" phoneOwner, .define 0 phone] := .define claimed granted
  exact .merge 1 0 defined

/-- The phone is described once more where it was described, and nowhere else. -/
theorem conflicts_run_described :
    Orderly (fun _ => phoneOwner) (described ++ [.claim 0 "Phone" phoneOwner]) ∧
      (∀ i name, ¬ ClaimedLate (described ++ [.claim 0 "Phone" phoneOwner]) i name) ∧
      (run described 1).check = .ok () := by
  have orderly : Orderly (fun _ => phoneOwner) (described ++ [.claim 0 "Phone" phoneOwner]) :=
    .claim 0 "Phone" orderly_described
  have timely : ∀ i name, ¬ ClaimedLate (described ++ [.claim 0 "Phone" phoneOwner]) i name := by
    intro i name late
    have reported := ((conflicts_run orderly).1 i name).2 late
    by_cases claimed : i = 0 ∧ name = "Phone"
    · obtain ⟨rfl, rfl⟩ := claimed
      exact absurd reported (by decide)
    · apply ((unclaimed_iff _ i name).1 _).2 reported
      intro operation mem claims
      simp only [described, List.cons_append, List.nil_append, List.mem_cons,
        List.not_mem_nil, or_false] at mem
      rcases mem with rfl | rfl | rfl | rfl
      · exact claimed ⟨claims.1.symm, claims.2.symm⟩
      · exact claims
      · exact claims
      · exact claimed ⟨claims.1.symm, claims.2.symm⟩
  exact ⟨orderly, timely, ((conflicts_run orderly).2 timely described _ rfl 1).1⟩

/-- Describing the phone also in the other registry, where only the merge has defined it, is
recorded as a conflict, although one owner alone has ever claimed the name. -/
theorem conflict_late : Orderly (fun _ => phoneOwner) (described ++ [.claim 1 "Phone" phoneOwner]) ∧
    (run (described ++ [.claim 1 "Phone" phoneOwner]) 1).check = .error ⟨"Phone"⟩ ∧
    (run (described ++ [.claim 1 "Phone" phoneOwner]) 2).merge
      (run (described ++ [.claim 1 "Phone" phoneOwner]) 1) = .error ⟨"Phone"⟩ :=
  ⟨.claim 1 "Phone" orderly_described, by decide, by decide⟩

end Sample

end Slotform.Registry
