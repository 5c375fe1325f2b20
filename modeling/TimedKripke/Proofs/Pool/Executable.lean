import TimedKripke.Pool.Executable
import TimedKripke.Proofs.Machine.Instance
import TimedKripke.Proofs.Outcome

/-! # Frames of executables

An executable never changes its machine, its kind and its declared parameters: they are its
frame. What an executable of a given frame looks like determines it
(`Executable.eq_of_snapshot`).
-/

namespace TimedKripke

namespace CallableMachine

/-- The snapshot of a callable machine lists its fields in the order of their keys. -/
theorem snapshot_eq (callable : CallableMachine) : callable.snapshot = .compound
    [("actuators", .compound (callable.running.group .actuator)),
      ("currentState", .string callable.running.currentStateName),
      ("externalVariables", .compound (callable.running.group .shared)),
      ("parameters", .compound callable.arguments),
      ("previousState", .string callable.running.previousStateName),
      ("result",
        match callable.result with
        | some value => .present value
        | none => .absent),
      ("resumeState",
        match callable.running.resumeStateName? with
        | some name => .present (.string name)
        | none => .absent),
      ("sensors", .compound (callable.running.group .sensor)),
      ("shouldExecuteOnEntry", .bool callable.running.entryPending),
      ("status", .string callable.status.display),
      ("variables", .compound callable.running.variableValues)] := by
  cases result : callable.result <;> cases resume : callable.running.resumeStateName? <;>
    simp only [snapshot, OrderedMap.extend, Instance.fields, resume, result, List.foldl_cons,
      OrderedMap.insert, String.reduceLT, ↓reduceIte, List.foldl_nil]

/-- Callable machines with the same snapshot have the same fields, arguments, result and status. -/
theorem parts_of_snapshot {first second : CallableMachine}
    (same : first.snapshot = second.snapshot) : first.running.fields = second.running.fields ∧
      first.arguments = second.arguments ∧ first.result = second.result ∧
      first.status = second.status := by
  rw [snapshot_eq, snapshot_eq] at same
  simp only [Value.compound.injEq, List.cons.injEq, Prod.mk.injEq, true_and, and_true] at same
  obtain ⟨actuators, current, shared, arguments, previous, result, resume, sensors, entry, status,
    values⟩ := same
  refine ⟨?_, arguments, ?_, ?_⟩
  · simp only [Instance.fields, Value.compound.injEq, List.cons.injEq, Prod.mk.injEq, true_and,
      and_true]
    exact ⟨actuators, current, shared, previous, resume, sensors, entry, values⟩
  · cases before : first.result <;> cases after : second.result <;> simp_all
  · cases before : first.status <;> cases after : second.status <;>
      simp_all [CallStatus.display]

end CallableMachine

namespace Executable

/-- What an executable never changes: its machine, and its parameters if it is called. -/
def frame : Executable → Machine × Option (List (String × ValueType))
  | scheduled running => (running.machine, none)
  | callable served => (served.running.machine, some served.parameters)

/-- Executables of one frame run the same machine. -/
theorem machine_eq_of_frame {first second : Executable} (same : first.frame = second.frame) :
    first.running.machine = second.running.machine := by
  have machines := congrArg Prod.fst same
  cases first <;> cases second <;> exact machines

/-- **Snapshots tell executables apart.** Well-formed executables of one frame that look the
same are the same. -/
theorem eq_of_snapshot {first second : Executable} (left : first.running.WellFormed)
    (right : second.running.WellFormed) (frame : first.frame = second.frame)
    (same : first.snapshot = second.snapshot) : first = second := by
  have machine := machine_eq_of_frame frame
  cases first with
  | scheduled first =>
      cases second with
      | scheduled second =>
          have running : first = second := left.eq_of_fields right machine (Value.compound.inj same)
          rw [running]
      | callable served => cases congrArg Prod.snd frame
  | callable first =>
      cases second with
      | scheduled second => cases congrArg Prod.snd frame
      | callable second =>
          obtain ⟨fields, arguments, result, status⟩ := CallableMachine.parts_of_snapshot same
          have running : first.running = second.running :=
            left.eq_of_fields right machine fields
          obtain ⟨_, _, _, _, _⟩ := first
          obtain ⟨_, _, _, _, _⟩ := second
          cases running
          cases arguments
          cases result
          cases status
          cases Option.some.inj (congrArg Prod.snd frame)
          rfl

/-- Well-formed executables of one frame agree only if they are the same. -/
theorem same_iff {first second : Executable} (left : first.running.WellFormed)
    (right : second.running.WellFormed) (frame : first.frame = second.frame) :
    first.same second = true ↔ first = second := by
  have machine := machine_eq_of_frame frame
  have running : ∀ {first second : Instance}, first.WellFormed → second.WellFormed →
      first.machine = second.machine → (first.same second = true ↔ first = second) := by
    intro first second left right machine
    rw [Instance.same, Bool.and_eq_true, beq_iff_eq, beq_iff_eq]
    constructor
    · exact fun agree => left.eq_of_fields right machine (Value.compound.inj agree.2)
    · rintro rfl
      exact ⟨rfl, rfl⟩
  cases first with
  | scheduled first =>
      cases second with
      | scheduled second =>
          have alike : first.same second = true ↔ first = second := running left right machine
          simp [same, alike]
      | callable served => cases congrArg Prod.snd frame
  | callable first =>
      cases second with
      | scheduled second => cases congrArg Prod.snd frame
      | callable second =>
          obtain ⟨atWork, _, _, _, _⟩ := first
          obtain ⟨atWork', _, _, _, _⟩ := second
          have alike : atWork.same atWork' = true ↔ atWork = atWork' := running left right machine
          simp [same, CallableMachine.same, alike, and_assoc]

/-- Exchanging the instance for another one of the same machine keeps the frame. -/
theorem frame_withRunning (executable : Executable) {running : Instance}
    (machine : running.machine = executable.running.machine) :
    (executable.withRunning running).frame = executable.frame := by
  cases executable with
  | scheduled _ => exact Prod.ext machine rfl
  | callable served => exact Prod.ext machine rfl

/-- The instance put into an executable is the one it runs. -/
@[simp] theorem running_withRunning (executable : Executable) (running : Instance) :
    (executable.withRunning running).running = running := by
  cases executable <;> rfl

variable {executable after : Executable}

/-- Beginning to serve a call restarts the machine and keeps the frame of the executable. -/
theorem begin_eq_ok {given : Parameters} (begun : executable.begin given = .ok after) :
    after.frame = executable.frame ∧ after.running = executable.running.restart := by
  cases executable with
  | scheduled running => cases begun
  | callable served =>
      obtain ⟨started, begins, rfl⟩ := Outcome.map_eq_ok.mp begun
      unfold CallableMachine.begin at begins
      split at begins
      · cases begins
      · split at begins
        · cases begins
        · cases begins
          exact ⟨rfl, rfl⟩

/-- A step of an executable is a step of its machine, or a callable machine waits. -/
theorem step_cases {id : ExecutableId} {directory : Directory} {clock : Clock}
    {outcome : StepOutcome} (made : executable.step id directory clock = .ok (outcome, after)) :
    after.frame = executable.frame ∧
      (after = executable ∧ outcome = .idle clock ∨
        ∃ arguments, executable.running.step id arguments directory clock =
          .ok (outcome, after.running)) := by
  cases executable with
  | scheduled running =>
      obtain ⟨⟨stepOutcome, stepped⟩, steps, same⟩ := Outcome.map_eq_ok.mp made
      cases same
      exact ⟨Prod.ext (Instance.step_machine steps) rfl, .inr ⟨[], steps⟩⟩
  | callable served =>
      obtain ⟨⟨stepOutcome, stepped⟩, steps, same⟩ := Outcome.map_eq_ok.mp made
      cases same
      unfold CallableMachine.step at steps
      split at steps
      · cases steps
        exact ⟨rfl, .inl ⟨rfl, rfl⟩⟩
      · split at steps
        · cases steps
        · rename_i ran
          cases steps
          exact ⟨Prod.ext (Instance.step_machine ran) rfl, .inr ⟨_, ran⟩⟩

end Executable

end TimedKripke
