import TimedKripke.Proofs.Pool.Basic
import TimedKripke.Ringlet.Dispatch

/-! # What executing a timeslot preserves

An execution consists of steps of the executable in control, of calls that begin and of calls
that are closed. What these three preserve, an execution preserves
(`Dispatch.executeActive_preserves`), also one that fails. So pools keep their frame
(`executeTimeslot_descends`).
-/

namespace TimedKripke

namespace Dispatch

/-- The state after the executable in control has made a step. -/
def afterStep (state : Dispatch) (outcome : StepOutcome) (stepped : Executable) : Dispatch :=
  { state with
    pool := state.pool.set state.chain.executable stepped
    clock := outcome.clock }

/-- The state after the innermost call was closed. -/
def closed (state : Dispatch) : Dispatch :=
  { state with chain := state.chain.pop }

/-- What it takes for a property of states to survive an execution. Calls are begun only if
they were issued by a step, so a step may promise something about them. -/
structure Preserved (Holds : Dispatch → Prop) (Issued : Call → Prop) : Prop where
  /-- A step keeps the property, and issues only calls as promised. -/
  steps : ∀ {state : Dispatch} {executable stepped : Executable} {outcome : StepOutcome},
    Holds state → state.pool.get? state.chain.executable = some executable →
    executable.step state.chain.executable state.pool.directory state.clock =
      .ok (outcome, stepped) →
    Holds (state.afterStep outcome stepped) ∧ ∀ call ∈ outcome.issued, Issued call
  /-- Beginning a call that was issued keeps the property. -/
  begins : ∀ {state begun : Dispatch} {call : Call}, Holds state → Issued call →
    state.beginCall call = .ok begun → Holds begun
  closes : ∀ {state : Dispatch}, Holds state → Holds state.closed

/-- Ordering the issued calls neither drops nor adds one. -/
theorem mem_dispatchOrder {issued : List Call} {call : Call} :
    call ∈ dispatchOrder issued ↔ call ∈ issued := by
  unfold dispatchOrder
  rw [List.mem_append, List.mem_filter, List.mem_filter]
  cases call.method.isSynchronous <;> simp

variable {Holds : Dispatch → Prop} {Issued : Call → Prop}

/-- Dispatching calls preserves what beginning a call, nested execution and closing a call preserve.
-/
theorem dispatchCalls_preserves (preserved : Preserved Holds Issued)
    {nested : Dispatch → Except Fault Bool × Dispatch}
    (inner : ∀ state, Holds state → Holds (nested state).2) (calls : List Call) :
    ∀ {state : Dispatch}, (∀ call ∈ calls, Issued call) → Holds state →
      Holds (dispatchCalls nested calls state).2 := by
  induction calls with
  | nil => exact fun _ holds => holds
  | cons call rest others =>
      intro state issued holds
      have issuedLater : ∀ later ∈ rest, Issued later := fun later member =>
        issued later (List.mem_cons_of_mem call member)
      rw [dispatchCalls]
      cases began : state.beginCall call with
      | error fault => exact holds
      | ok begun =>
          have held := preserved.begins holds (issued call List.mem_cons_self) began
          dsimp only
          split
          · have heldInside := inner begun held
            cases ran : nested begun with
            | mk outcome stepped =>
                rw [ran] at heldInside
                cases outcome with
                | error fault => exact heldInside
                | ok answer => exact others issuedLater (preserved.closes heldInside)
          · exact others issuedLater held

/-- **What an execution preserves** follows from what its own step, the beginning of a call and the
closing of a call preserve. The induction is on the depth. -/
theorem executeActive_preserves (preserved : Preserved Holds Issued) (depth : Nat) :
    ∀ state, Holds state → Holds (executeActive depth state).2 := by
  induction depth with
  | zero => exact fun _ holds => holds
  | succ depth deeper =>
      intro state holds
      rw [executeActive]
      cases found : state.pool.get state.chain.executable with
      | error fault => exact holds
      | ok executable =>
          cases made : executable.step state.chain.executable state.pool.directory state.clock with
          | error fault => simpa [made] using holds
          | ok answer =>
              obtain ⟨outcome, stepped⟩ := answer
              obtain ⟨held, issued⟩ := preserved.steps holds (Pool.get_eq_ok_iff.mp found) made
              simp only [made]
              cases outcome.unresolved with
              | cons callee others => exact held
              | nil =>
                  exact dispatchCalls_preserves preserved deeper _
                    (fun call member => issued call (mem_dispatchOrder.mp member)) held

/-- A call that begins has extended the chain if it is synchronous, has found its callee ready, and
is listed. Nothing else has changed. -/
theorem beginCall_eq_ok {state begun : Dispatch} {call : Call}
    (began : state.beginCall call = .ok begun) : ∃ chain callee started,
      (if call.method.isSynchronous then state.chain.add call else .ok state.chain) = .ok chain ∧
      state.pool.get? call.callee = some callee ∧ callee.begin call.parameters = .ok started ∧
      begun = { state with
        pool := state.pool.set call.callee started
        chain
        calls := state.calls ++ [call] } := by
  unfold beginCall at began
  split at began
  · cases began
  · rename_i chain opened
    split at began
    · cases began
    · rename_i callee found
      split at began
      · cases began
      · rename_i started begins
        cases began
        exact ⟨chain, callee, started, opened, Pool.get_eq_ok_iff.mp found, begins, rfl⟩

/-- The step of the executable in control without the calls it issues: the fault with which the
execution stops, or the outcome, each with the state it leaves. -/
def ownStep (state : Dispatch) : Except (Fault × Dispatch) (StepOutcome × Dispatch) :=
  match state.pool.get state.chain.executable with
  | .error fault => .error (fault, state)
  | .ok executable =>
      match executable.step state.chain.executable state.pool.directory state.clock with
      | .error fault => .error (fault, state)
      | .ok (outcome, stepped) =>
          match outcome.unresolved with
          | callee :: _ =>
              .error (.unknownCallee stepped.name callee, state.afterStep outcome stepped)
          | [] => .ok (outcome, state.afterStep outcome stepped)

/-- An execution with depth to spare makes the step of the executable in control, dispatches the
calls in their order, and tells whether there was a transition. -/
theorem executeActive_succ (depth : Nat) (state : Dispatch) :
    executeActive (depth + 1) state =
      match state.ownStep with
      | .error (fault, stopped) => (.error fault, stopped)
      | .ok (outcome, stepped) =>
          ((dispatchCalls (executeActive depth) (dispatchOrder outcome.issued) stepped).1.map
              fun _ => outcome.transitioned,
            (dispatchCalls (executeActive depth) (dispatchOrder outcome.issued) stepped).2) := by
  rw [executeActive, ownStep]
  cases state.pool.get state.chain.executable with
  | error fault => rfl
  | ok executable =>
      cases made : executable.step state.chain.executable state.pool.directory state.clock with
      | error fault => simp only [made]
      | ok answer =>
          obtain ⟨outcome, stepped⟩ := answer
          cases unresolved : outcome.unresolved with
          | cons callee others => simp only [made, unresolved, afterStep]
          | nil => simp only [made, unresolved, afterStep]

/-- A step of the executable in control that succeeds has found it in the pool and stepped it with
the directory and the clock of the moment. -/
theorem ownStep_eq_ok {state after : Dispatch} {outcome : StepOutcome}
    (made : state.ownStep = .ok (outcome, after)) : ∃ executable stepped,
      state.pool.get? state.chain.executable = some executable ∧
      executable.step state.chain.executable state.pool.directory state.clock =
        .ok (outcome, stepped) ∧ after = state.afterStep outcome stepped := by
  unfold ownStep at made
  split at made
  · cases made
  · rename_i executable found
    split at made
    · cases made
    · rename_i outcome stepped steps
      split at made
      · cases made
      · cases made
        exact ⟨executable, stepped, Pool.get_eq_ok_iff.mp found, steps, rfl⟩

/-- Executions keep the frame of the pool and its machines well-formed. -/
theorem preserved_descends (origin : Pool) :
    Preserved (fun state => Pool.Descends origin state.pool) (fun _ => True) where
  steps := by
    intro state executable stepped outcome descends found made
    refine ⟨?_, fun _ _ => trivial⟩
    obtain ⟨frame, same | ⟨arguments, ran⟩⟩ := Executable.step_cases made
    · exact descends.set found frame (same.1 ▸ descends.wellFormed.get? found)
    · exact descends.set found frame ((descends.wellFormed.get? found).step ran)
  begins := by
    intro state begun call descends _ began
    obtain ⟨chain, callee, started, _, found, begins, rfl⟩ := beginCall_eq_ok began
    obtain ⟨frame, restarted⟩ := Executable.begin_eq_ok begins
    exact descends.set found frame (restarted ▸ (descends.wellFormed.get? found).restart)
  closes := fun descends => descends

end Dispatch

/-- Executing a timeslot keeps the frame of the pool. -/
theorem executeTimeslot_descends {origin pool : Pool} (descends : Pool.Descends origin pool)
    (slot : Timeslot) (clock : Clock) :
    Pool.Descends origin (executeTimeslot pool slot clock).2.pool :=
  Dispatch.executeActive_preserves (Dispatch.preserved_descends origin) _ _ descends

end TimedKripke
