import Mathlib.Tactic.Common
import TimedKripke.Machine.Instance

/-! # What running programs preserves

A program changes its context only by the requests it makes. So what every answer to a
request preserves is preserved by a whole program (`Program.run_preserves`) and by the
programs of a state in a step (`Instance.runState_preserves`). `Program.MayRequest` says
which requests a program can make at all, whatever the answers are.
-/

namespace TimedKripke

variable {α : Type}

namespace Program

/-- The program makes the request for some answers to its earlier requests. -/
inductive MayRequest : Program α → Request → Prop
  | here (request : Request) (next : request.Answer → Program α) :
      MayRequest (.ask request next) request
  | later {first request : Request} {next : first.Answer → Program α} (answer : first.Answer)
      (rest : MayRequest (next answer) request) : MayRequest (.ask first next) request

/-- A finished program makes no request. -/
@[simp] theorem mayRequest_done {result : α} {request : Request} :
    ¬ (Program.done result).MayRequest request := by
  rintro ⟨⟩

/-- A program that asks may make that request and whatever may follow any answer to it. -/
@[simp] theorem mayRequest_ask {first request : Request} {next : first.Answer → Program α} :
    (Program.ask first next).MayRequest request ↔
      first = request ∨ ∃ answer, (next answer).MayRequest request := by
  constructor
  · rintro (_ | ⟨answer, rest⟩)
    · exact .inl rfl
    · exact .inr ⟨answer, rest⟩
  · rintro (rfl | ⟨answer, rest⟩)
    · exact .here first next
    · exact .later answer rest

/-- What answers to the requests of a program preserve, the program preserves. -/
theorem run_preserves {Holds : Context → Prop} (program : Program α) :
    ∀ {context : Context}, (∀ request, program.MayRequest request → ∀ context, Holds context →
      Holds (context.answer request).2) → Holds context → Holds (program.run context).2 := by
  induction program with
  | done result => exact fun _ holds => holds
  | ask request next rest =>
      intro context each holds
      refine rest _ (fun later may => each later (.later _ may)) ?_
      exact each request (.here request next) context holds

end Program

namespace MachineState

/-- One of the programs of a state may make the request. -/
inductive MayRequest (state : MachineState) (request : Request) : Prop
  | onEntry {program : Program Unit} (present : state.onEntry = some program)
      (may : program.MayRequest request)
  | guard {transition : Transition} (member : transition ∈ state.transitions)
      (may : transition.guard.MayRequest request)
  | onExit {program : Program Unit} (present : state.onExit = some program)
      (may : program.MayRequest request)
  | internal {program : Program Unit} (present : state.internal = some program)
      (may : program.MayRequest request)

/-- A state may make the requests of its actions and of the guards of its transitions. -/
theorem mayRequest_iff {state : MachineState} {request : Request} :
    state.MayRequest request ↔ (∃ program ∈ state.onEntry, program.MayRequest request) ∨
      (∃ transition ∈ state.transitions, transition.guard.MayRequest request) ∨
      (∃ program ∈ state.onExit, program.MayRequest request) ∨
      ∃ program ∈ state.internal, program.MayRequest request := by
  constructor
  · rintro (⟨present, may⟩ | ⟨member, may⟩ | ⟨present, may⟩ | ⟨present, may⟩)
    · exact .inl ⟨_, present, may⟩
    · exact .inr (.inl ⟨_, member, may⟩)
    · exact .inr (.inr (.inl ⟨_, present, may⟩))
    · exact .inr (.inr (.inr ⟨_, present, may⟩))
  · rintro (⟨program, present, may⟩ | ⟨transition, member, may⟩ | ⟨program, present, may⟩ |
      ⟨program, present, may⟩)
    · exact .onEntry present may
    · exact .guard member may
    · exact .onExit present may
    · exact .internal present may

end MachineState

/-- One of the states of a machine may make the request. -/
def Machine.MayRequest (machine : Machine) (request : Request) : Prop :=
  ∃ state ∈ machine.states, state.MayRequest request

namespace Program

/-- What the answers to all requests of a program preserve is preserved by running it, if it is
there. -/
theorem runOptional_preserves {Holds : Context → Prop} (program : Option (Program Unit))
    {context : Context} (each : ∀ present ∈ program, ∀ request, present.MayRequest request →
      ∀ context, Holds context → Holds (context.answer request).2) (holds : Holds context) :
    Holds (runOptional program context) := by
  cases program with
  | none => exact holds
  | some program => exact program.run_preserves (each program rfl) holds

end Program

namespace Transition

/-- What the answers to all requests of the guards preserve is preserved by evaluating them. -/
theorem firstFiring_preserves {Holds : Context → Prop} (transitions : List Transition) :
    ∀ {context : Context}, (∀ transition ∈ transitions, ∀ request,
      transition.guard.MayRequest request → ∀ context, Holds context →
        Holds (context.answer request).2) →
      Holds context → Holds (firstFiring transitions context).2 := by
  induction transitions with
  | nil => exact fun _ holds => holds
  | cons transition rest others =>
      intro context each holds
      have asked : Holds (transition.guard.run context).2 :=
        transition.guard.run_preserves (each transition List.mem_cons_self) holds
      rw [firstFiring]
      split
      · exact asked
      · exact others (fun other member => each other (List.mem_cons_of_mem _ member)) asked

/-- The transition that fires is one of those listed. -/
theorem mem_of_firstFiring {transitions : List Transition} : ∀ {context : Context} {target : Nat},
    (firstFiring transitions context).1 = some target →
      ∃ transition ∈ transitions, transition.target = target := by
  induction transitions with
  | nil => exact fun impossible => nomatch impossible
  | cons transition rest others =>
      intro context target fired
      rw [firstFiring] at fired
      split at fired
      · exact ⟨transition, List.mem_cons_self, Option.some.inj fired⟩
      · obtain ⟨other, member, same⟩ := others fired
        exact ⟨other, List.mem_cons_of_mem _ member, same⟩

end Transition

/-- The context after the entry action, if that is due. -/
def MachineState.entered (state : MachineState) (entryPending : Bool) (context : Context) :
    Context :=
  if entryPending then Program.runOptional state.onEntry context else context

namespace Instance

/-- Running a state enters it, evaluates the guards in order, and then leaves it or runs its
internal action. -/
theorem runState_eq (state : MachineState) (entryPending : Bool) (context : Context) :
    runState state entryPending context =
      match Transition.firstFiring state.transitions (state.entered entryPending context) with
      | (some target, fired) => (some target, Program.runOptional state.onExit fired)
      | (none, fired) => (none, Program.runOptional state.internal fired) := by
  simp only [runState, MachineState.entered]
  generalize Transition.firstFiring state.transitions _ = fired
  rcases fired with ⟨_ | target, fired⟩ <;> rfl

/-- What answers to the requests of a state preserve, a step in the state preserves. -/
theorem runState_preserves {Holds : Context → Prop} (state : MachineState) (entryPending : Bool)
    {context : Context} (each : ∀ request, state.MayRequest request → ∀ context, Holds context →
      Holds (context.answer request).2) (holds : Holds context) :
    Holds (runState state entryPending context).2 := by
  have entered : Holds (state.entered entryPending context) := by
    unfold MachineState.entered
    split
    · exact Program.runOptional_preserves state.onEntry
        (fun _ present request may => each request (.onEntry present may)) holds
    · exact holds
  have fired := Transition.firstFiring_preserves state.transitions
    (fun _ member request may => each request (.guard member may)) entered
  rw [runState_eq]
  cases firing : Transition.firstFiring state.transitions (state.entered entryPending context) with
  | mk target after =>
      rw [firing] at fired
      cases target with
      | some target =>
          exact Program.runOptional_preserves state.onExit
            (fun _ present request may => each request (.onExit present may)) fired
      | none =>
          exact Program.runOptional_preserves state.internal
            (fun _ present request may => each request (.internal present may)) fired

/-- A step goes to the target of a transition of its state. -/
theorem mem_of_runState {state : MachineState} {entryPending : Bool} {context : Context}
    {target : Nat} (went : (runState state entryPending context).1 = some target) :
    ∃ transition ∈ state.transitions, transition.target = target := by
  rw [runState_eq] at went
  cases firing : Transition.firstFiring state.transitions (state.entered entryPending context) with
  | mk fired after =>
      rw [firing] at went
      cases fired with
      | some found =>
          cases went
          exact Transition.mem_of_firstFiring (congrArg Prod.fst firing)
      | none => cases went

end Instance

end TimedKripke
