import Slotform.Proofs.Introspection.Growth

namespace Slotform.Reader

/-- What can be asked of a reader. A description is a type together with the definitions that it
needs. -/
inductive Call where
  | define (incoming : Registry)
  | register (description : Ty × Registry)
  | read (ty : Ty)
  | readWithElement (ty element : Ty)

inductive Answer where
  | defined (outcome : Except IntrospectionError Unit)
  | registered (outcome : Except IntrospectionError Ty)
  | schema (outcome : Except ReadError Schema)

/-- A reader that has not been used yet. -/
def start (registry : Registry) (skip : SkipStrategy) (limits : Limits) : Reader :=
  ((ofRegistry registry).withLimits limits).withStrategy skip

/-- Adds definitions, or stays as it was. -/
def extend (r : Reader) (incoming : Registry) : Except IntrospectionError Unit × Reader :=
  match r.define incoming with
  | .ok r' => (.ok (), r')
  | .error e => (.error e, r)

/-- A way to answer requests for schemas. -/
abbrev Asking := Reader → Ty → Option Ty → Except ReadError Schema × Reader

/-- Requests are answered from the memo where possible. -/
def remembering : Asking := fun r ty element =>
  let (answer, r') := r.request ty element
  (answer.map Kept.value, r')

/-- Every request walks the definitions of the moment, and nothing is kept. -/
def forgetful : Asking := fun r ty element => (r.compute ty element, r)

def perform (ask : Asking) (r : Reader) : Call → Answer × Reader
  | .define incoming =>
    let (outcome, r') := r.extend incoming
    (.defined outcome, r')
  | .register (ty, incoming) =>
    let (outcome, r') := r.extend incoming
    (.registered (outcome.map fun _ => ty), r')
  | .read ty =>
    let (outcome, r') := ask r ty none
    (.schema outcome, r')
  | .readWithElement ty element =>
    let (outcome, r') := ask r ty (some element)
    (.schema outcome, r')

def answers (ask : Asking) (r : Reader) : List Call → List Answer
  | [] => []
  | call :: rest =>
    let (answer, r') := r.perform ask call
    answer :: r'.answers ask rest

/-- What a reader computes for a request is this schema. -/
def Computes (r : Reader) (request : Ty × Option Ty) (s : Schema) : Prop :=
  r.compute request.1 request.2 = .ok s

/-- The reader with the same definitions and settings and without memories. -/
def forget (r : Reader) : Reader := { r with memo := .empty }

section Step

variable {r : Reader}

theorem compute_forget (ty : Ty) (element : Option Ty) :
    r.forget.compute ty element = r.compute ty element := rfl

theorem define_forget (incoming : Registry) :
    r.forget.define incoming = (r.define incoming).map forget := by
  simp only [define, forget]
  cases checkNames incoming.definitions with
  | error e => rfl
  | ok =>
    simp only [bind, Except.bind]
    cases r.registry.merge incoming <;> rfl

theorem extend_forget (incoming : Registry) :
    r.forget.extend incoming = ((r.extend incoming).1, (r.extend incoming).2.forget) := by
  simp only [extend, define_forget]
  cases r.define incoming <;> rfl

/-- Memories stay right when definitions arrive. -/
theorem extend_sound (sound : r.memo.Sound r.Computes) (incoming : Registry) :
    (r.extend incoming).2.memo.Sound (r.extend incoming).2.Computes := by
  unfold extend
  cases defined : r.define incoming with
  | error e => exact sound
  | ok r' =>
    dsimp only
    rw [define_memo defined]
    exact sound.mono fun _ _ => compute_mono defined

/-- A reader that remembers answers what it would compute, and keeps what it computed. -/
theorem remembering_sound (sound : r.memo.Sound r.Computes) (ty : Ty) (element : Option Ty) :
    (remembering r ty element).1 = r.compute ty element ∧
      (remembering r ty element).2.forget = r.forget ∧
      (remembering r ty element).2.memo.Sound (remembering r ty element).2.Computes := by
  obtain ⟨after, answered⟩ := request_cases ty element sound fun _ h => h
  refine ⟨?_, rfl, after⟩
  rcases answered with ⟨kept, answer, right⟩ | computed
  · have same : r.compute ty element = .ok kept.value := right
    simp only [remembering, answer, same]
    rfl
  · exact computed

/-- One call: with right memories or without any, the answer is the same. -/
theorem perform_sound (sound : r.memo.Sound r.Computes) (call : Call) :
    (r.forget.perform forgetful call) =
        ((r.perform remembering call).1, (r.perform remembering call).2.forget) ∧
      (r.perform remembering call).2.memo.Sound (r.perform remembering call).2.Computes := by
  cases call with
  | define incoming => exact ⟨by simp only [perform, extend_forget], extend_sound sound incoming⟩
  | register description =>
    exact ⟨by simp only [perform, extend_forget], extend_sound sound description.2⟩
  | read ty =>
    obtain ⟨answer, state, after⟩ := remembering_sound sound ty none
    exact ⟨by simp only [perform, answer, state, forgetful, compute_forget], after⟩
  | readWithElement ty element =>
    obtain ⟨answer, state, after⟩ := remembering_sound sound ty (some element)
    exact ⟨by simp only [perform, answer, state, forgetful, compute_forget], after⟩

/-- A whole run, from any state in which the memories are right. -/
theorem answers_forget (sound : r.memo.Sound r.Computes) (calls : List Call) :
    r.answers remembering calls = r.forget.answers forgetful calls := by
  induction calls generalizing r with
  | nil => rfl
  | cons call rest ih =>
    obtain ⟨same, after⟩ := perform_sound sound call
    simp only [answers, same]
    rw [ih after]

end Step

/-- A new reader answers its first request out of the definitions that it starts with. -/
theorem request_start (registry : Registry) (skip : SkipStrategy) (limits : Limits) (ty : Ty)
    (element : Option Ty) :
    ((start registry skip limits).request ty element).1.map Kept.value =
      (start registry skip limits).compute ty element :=
  (remembering_sound (r := start registry skip limits) Memo.sound_empty ty element).1

/-- Whatever a reader has been through, it remembers only what it would compute. -/
theorem Reachable.computes_sound {r : Reader} (h : r.Reachable) : r.memo.Sound r.Computes := by
  induction h with
  | start registry => exact Memo.sound_empty
  | define _ defined ih =>
    rw [define_memo defined]
    exact ih.mono fun _ _ => compute_mono defined
  | request _ ih => exact (request_cases _ _ ih fun _ h => h).1
  | withStrategy => exact Memo.sound_clear _
  | withLimits => exact Memo.sound_clear _

theorem Reachable.request_eq {r : Reader} (h : r.Reachable) (ty : Ty) (element : Option Ty) :
    (r.request ty element).1.map Kept.value = r.compute ty element :=
  (remembering_sound h.computes_sound ty element).1

theorem read_start (registry : Registry) (skip : SkipStrategy) (limits : Limits) (ty : Ty) :
    ((start registry skip limits).read ty).1.map Kept.value =
      Walk.root ⟨registry, skip, limits.maxDepth⟩ ty :=
  request_start registry skip limits ty none

/-- Remembering is never noticed: over any sequence of calls a reader answers what it would answer
if it walked the definitions of the moment for every request. -/
theorem answers_remembering (registry : Registry) (skip : SkipStrategy) (limits : Limits)
    (calls : List Call) :
    (start registry skip limits).answers remembering calls =
      (start registry skip limits).answers forgetful calls :=
  answers_forget Memo.sound_empty calls

end Slotform.Reader
