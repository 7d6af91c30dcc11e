import Mathlib
import Slotform.Introspection.Reader
import Slotform.Proofs.Introspection.Walk
import Slotform.Proofs.Memo

namespace Slotform

namespace Reader

/-- The readers that a history of operations can lead to. -/
inductive Reachable : Reader → Prop where
  | start (registry : Registry) : Reachable (.ofRegistry registry)
  | define {r r' : Reader} {incoming : Registry} :
      Reachable r → r.define incoming = .ok r' → Reachable r'
  | request {r : Reader} {ty : Ty} {element : Option Ty} :
      Reachable r → Reachable (r.request ty element).2
  | withStrategy {r : Reader} {skip : SkipStrategy} : Reachable r → Reachable (r.withStrategy skip)
  | withLimits {r : Reader} {limits : Limits} : Reachable r → Reachable (r.withLimits limits)

/-- A schema that some walk returns, whatever was asked for. -/
def Walked (_ : Ty × Option Ty) (s : Schema) : Prop := ∃ (w : Walk) (ty : Ty), w.root ty = .ok s

/-- What is computed for a request is walked from one root or another. -/
theorem compute_root {r : Reader} {ty : Ty} {element : Option Ty} {s : Schema}
    (h : r.compute ty element = .ok s) : ∃ root, r.walk.root root = .ok s := by
  cases element with
  | none => exact ⟨ty, h⟩
  | some element =>
    simp only [compute, bind_eq_ok] at h
    obtain ⟨root, _, h⟩ := h
    exact ⟨root, h⟩

theorem compute_walked {r : Reader} {ty : Ty} {element : Option Ty} {s : Schema}
    (h : r.compute ty element = .ok s) : Walked (ty, element) s :=
  ⟨r.walk, compute_root h⟩

/-- What a successful definition does: it merges and touches nothing else. -/
theorem define_ok {r r' : Reader} {incoming : Registry} (h : r.define incoming = .ok r') :
    ∃ registry, r.registry.merge incoming = .ok registry ∧ r' = { r with registry } := by
  simp only [define, bind_eq_ok, mapError_eq_ok, Except.ok.injEq] at h
  obtain ⟨_, _, registry, merged, rfl⟩ := h
  exact ⟨registry, merged, rfl⟩

theorem define_memo {r r' : Reader} {incoming : Registry} (h : r.define incoming = .ok r') :
    r'.memo = r.memo := by
  obtain ⟨_, _, rfl⟩ := define_ok h
  rfl

/-- Answering a request keeps the memo sound for whatever holds of computed schemas. The answer is
one that is right for the request, or what is computed now. -/
theorem request_cases {P : Ty × Option Ty → Schema → Prop} {r : Reader} (ty : Ty)
    (element : Option Ty) (sound : r.memo.Sound P)
    (computes : ∀ s, r.compute ty element = .ok s → P (ty, element) s) :
    (r.request ty element).2.memo.Sound P ∧
      ((∃ kept, (r.request ty element).1 = .ok kept ∧ P (ty, element) kept.value) ∨
        (r.request ty element).1.map Kept.value = r.compute ty element) := by
  obtain ⟨after, _, found | ⟨_, _, computed⟩⟩ := Memo.getOrCompute_cases sound (ty, element)
    (fun memo => (r.compute ty element, memo))
    (fun n hn => ⟨hn, .refl n, computes⟩)
  · exact ⟨after, .inl found⟩
  · exact ⟨after, .inr computed⟩

/-- Answering a request keeps the memo sound and answers with a walk's schema. -/
theorem request_sound {r : Reader} {ty : Ty} {element : Option Ty} (sound : r.memo.Sound Walked) :
    (r.request ty element).2.memo.Sound Walked ∧
      ∀ kept, (r.request ty element).1 = .ok kept → Walked (ty, element) kept.value := by
  obtain ⟨after, ⟨kept, answer, walked⟩ | computed⟩ :=
    request_cases ty element sound fun _ => compute_walked
  · refine ⟨after, fun kept' answer' => ?_⟩
    cases answer.symm.trans answer'
    exact walked
  · refine ⟨after, fun kept answer => ?_⟩
    rw [answer] at computed
    exact compute_walked computed.symm

theorem Reachable.memo_sound {r : Reader} (h : r.Reachable) : r.memo.Sound Walked := by
  induction h with
  | start registry => exact Memo.sound_empty
  | define _ defined ih => rw [define_memo defined]; exact ih
  | request _ ih => exact (request_sound ih).1
  | withStrategy => exact Memo.sound_clear _
  | withLimits => exact Memo.sound_clear _

end Reader

/-- A schema that some reader returns after some history, for a root type alone or together with
an explicit element type. -/
def Schema.Readable (s : Schema) : Prop :=
  ∃ (r : Reader) (ty : Ty) (element : Option Ty) (kept : Kept Schema),
    r.Reachable ∧ (r.request ty element).1 = .ok kept ∧ kept.value = s

namespace Schema.Readable

variable {s : Schema}

theorem walked (h : s.Readable) : ∃ (w : Walk) (ty : Ty), w.root ty = .ok s := by
  obtain ⟨r, ty, element, kept, reachable, answer, rfl⟩ := h
  exact (Reader.request_sound reachable.memo_sound).2 kept answer

theorem wellFormed (h : s.Readable) : s.WellFormed := by
  obtain ⟨w, ty, walked⟩ := h.walked
  exact (Walk.member_wellFormed walked).1

end Schema.Readable

/-! ## A sample

A record with a text and an optional list of numbers, small enough to be read, assembled and
fingerprinted by evaluation. -/

namespace Sample

/-- The only definition that the sample's reader knows. -/
def people : Registry where
  definitions := [.record "person" [
    ⟨"name", .primitive .string, .unset, false⟩,
    ⟨"tags", .option (.list (.primitive .u8)), .unset, false⟩]]

def name : Schema := .ofKind "name" (.primitive .string)

def tag : Schema := .ofKind "tags" (.primitive .u8)

def person : Schema := .ofMembers "person" "person" [name, tag.repeated.optional]

theorem readable_person : person.Readable :=
  ⟨.ofRegistry people, .named "person", none, ⟨0, person⟩, .start people, by cbv, rfl⟩

end Sample

end Slotform
