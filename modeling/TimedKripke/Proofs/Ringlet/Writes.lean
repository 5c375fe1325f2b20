import TimedKripke.Proofs.Ringlet.Dispatch

/-! # What is written

The externals that the programs of an execution write are listed here in the order in which they
are written, first for one program and then for the steps of all executables
(`Dispatch.activeWrites`). A write that is refused is not listed. What is not listed keeps its value
(`Program.external?_run`, `Dispatch.external?_executeActive`).
-/

namespace TimedKripke

/-- Writing one external leaves the others as they were. -/
theorem External.find?_write_of_ne {name other : String} (different : other ≠ name) (value : Value)
    (externals : List External) :
    find? (write name value externals) other = find? externals other := by
  induction externals with
  | nil => rfl
  | cons first rest others =>
      rw [write]
      by_cases here : first.name = name
      · simp [find?, here, different.symm]
      · rw [if_neg here, find?, find?, List.find?_cons, List.find?_cons, ← find?, ← find?, others]

namespace Context

/-- What the external of a name holds. -/
def external? (context : Context) (name : String) : Option Value :=
  (External.find? context.externals name).map External.value

/-- What a request writes: nothing, if it is refused. -/
def written (context : Context) : Request → List String
  | .setExternal name value => if (context.setExternal name value).1 then [name] else []
  | _ => []

/-- An external that a request does not write has its value after the answer. -/
theorem external?_answer {context : Context} {request : Request} {name : String}
    (unwritten : name ∉ context.written request) :
    (context.answer request).2.external? name = context.external? name := by
  cases request with
  | setExternal other value =>
      change name ∉ (if (context.setExternal other value).1 then [other] else []) at unwritten
      change (context.setExternal other value).2.external? name = _
      unfold setExternal at unwritten ⊢
      split
      · rfl
      · split_ifs with accepted
        · rename_i declared found
          simp only [found, accepted, if_true, List.mem_singleton] at unwritten
          rw [external?, External.find?_write_of_ne unwritten, external?]
        · rfl
  | setVariable other value =>
      change (context.setVariable other value).2.external? name = _
      unfold setVariable
      split
      · rfl
      · split <;> rfl
  | call method callee parameters =>
      change (context.call method callee parameters).2.external? name = _
      unfold call
      split <;> rfl
  | _ => rfl

end Context

namespace Program

variable {α : Type}

/-- What a program writes. -/
def writes : Program α → Context → List String
  | .done _, _ => []
  | .ask request next, context =>
      let answered := context.answer request
      context.written request ++ (next answered.1).writes answered.2

/-- An external that a program does not write has its value after it, by induction on the program.
-/
theorem external?_run {name : String} (program : Program α) : ∀ {context : Context},
    name ∉ program.writes context → (program.run context).2.external? name =
      context.external? name := by
  induction program with
  | done _ => exact fun _ => rfl
  | ask request next others =>
      intro context unwritten
      rw [writes, List.mem_append, not_or] at unwritten
      rw [run, others _ unwritten.2, Context.external?_answer unwritten.1]

/-- What a program writes, if there is one. -/
def optionalWrites (program : Option (Program Unit)) (context : Context) : List String :=
  match program with
  | some program => program.writes context
  | none => []

/-- An external that an action does not write has its value after it. -/
theorem external?_runOptional {program : Option (Program Unit)} {context : Context} {name : String}
    (unwritten : name ∉ optionalWrites program context) :
    (runOptional program context).external? name = context.external? name := by
  cases program with
  | none => rfl
  | some program => exact program.external?_run unwritten

end Program

namespace Transition

/-- What guards write until one of them answers true. -/
def writes : List Transition → Context → List String
  | [], _ => []
  | transition :: rest, context =>
      let asked := transition.guard.run context
      transition.guard.writes context ++ if asked.1 then [] else writes rest asked.2

/-- An external that no evaluated guard writes has its value after them. -/
theorem external?_firstFiring {name : String} (transitions : List Transition) :
    ∀ {context : Context}, name ∉ writes transitions context →
      (firstFiring transitions context).2.external? name = context.external? name := by
  induction transitions with
  | nil => exact fun _ => rfl
  | cons transition rest others =>
      intro context unwritten
      rw [writes, List.mem_append, not_or] at unwritten
      have asked := transition.guard.external?_run unwritten.1
      rw [firstFiring]
      split_ifs with fires
      · exact asked
      · rw [if_neg fires] at unwritten
        rw [others unwritten.2, asked]

end Transition

/-- What a step in a state writes. -/
def MachineState.writes (state : MachineState) (entryPending : Bool) (context : Context) :
    List String :=
  let entered := state.entered entryPending context
  let fired := Transition.firstFiring state.transitions entered
  (if entryPending then Program.optionalWrites state.onEntry context else []) ++
    Transition.writes state.transitions entered ++
      Program.optionalWrites (if fired.1.isSome then state.onExit else state.internal) fired.2

namespace Instance

/-- An external that a state does not write has its value after the state. -/
theorem external?_runState {state : MachineState} {entryPending : Bool} {context : Context}
    {name : String} (unwritten : name ∉ state.writes entryPending context) :
    (runState state entryPending context).2.external? name = context.external? name := by
  rw [MachineState.writes, List.mem_append, List.mem_append, not_or, not_or] at unwritten
  obtain ⟨⟨onEntry, guards⟩, last⟩ := unwritten
  have entered : (state.entered entryPending context).external? name = context.external? name := by
    unfold MachineState.entered
    cases entryPending with
    | true => exact Program.external?_runOptional onEntry
    | false => rfl
  have fired := (Transition.external?_firstFiring state.transitions guards).trans entered
  rw [runState_eq]
  cases firing : Transition.firstFiring state.transitions (state.entered entryPending context) with
  | mk target after =>
      rw [firing] at fired last
      cases target with
      | some target => exact (Program.external?_runOptional last).trans fired
      | none => exact (Program.external?_runOptional last).trans fired

/-- What a step writes. -/
def writes (running : Instance) (id : ExecutableId) (arguments : PropertyList)
    (directory : Directory) (clock : Clock) : List String :=
  if running.isSuspended || running.hasFinished then []
  else
    match running.machine.states[running.currentState]? with
    | none => []
    | some state =>
        state.writes running.entryPending (running.context id arguments directory clock)

/-- An external that a step does not write has its value after the step. -/
theorem find?_step {running stepped : Instance} {id : ExecutableId} {arguments : PropertyList}
    {directory : Directory} {clock : Clock} {outcome : StepOutcome} {name : String}
    (made : running.step id arguments directory clock = .ok (outcome, stepped))
    (unwritten : name ∉ running.writes id arguments directory clock) :
    (External.find? stepped.externals name).map External.value =
      (External.find? running.externals name).map External.value := by
  rcases step_cases made with ⟨_, _, rfl⟩ | ⟨state, target, after, busy, found, ran, _, rfl⟩
  · rfl
  · rw [writes, if_neg (by simp [busy]), found] at unwritten
    have kept := external?_runState unwritten
    rw [ran] at kept
    exact kept

end Instance

namespace Executable

/-- What the external of a name holds. -/
def external? (executable : Executable) (name : String) : Option Value :=
  (External.find? executable.running.externals name).map External.value

/-- What a step writes. A callable machine that waits writes nothing. -/
def writes (executable : Executable) (id : ExecutableId) (directory : Directory) (clock : Clock) :
    List String :=
  match executable with
  | scheduled running => running.writes id [] directory clock
  | callable served =>
      match served.status with
      | .inactive => []
      | .executing => served.running.writes id served.arguments directory clock

/-- An external that a step of an executable does not write has its value after it. -/
theorem external?_step {executable stepped : Executable} {id : ExecutableId}
    {directory : Directory} {clock : Clock} {outcome : StepOutcome} {name : String}
    (made : executable.step id directory clock = .ok (outcome, stepped))
    (unwritten : name ∉ executable.writes id directory clock) :
    stepped.external? name = executable.external? name := by
  cases executable with
  | scheduled running =>
      obtain ⟨⟨_, after⟩, steps, same⟩ := Outcome.map_eq_ok.mp made
      cases same
      exact Instance.find?_step steps unwritten
  | callable served =>
      obtain ⟨⟨_, after⟩, steps, same⟩ := Outcome.map_eq_ok.mp made
      cases same
      unfold CallableMachine.step at steps
      unfold writes at unwritten
      cases serving : served.status with
      | inactive =>
          rw [serving] at steps
          cases steps
          rfl
      | executing =>
          simp only [serving] at steps unwritten
          split at steps
          · cases steps
          · rename_i ran
            cases steps
            exact Instance.find?_step ran unwritten

end Executable

/-- What an external of an executable holds. -/
def Pool.external? (pool : Pool) (id : ExecutableId) (name : String) : Option Value :=
  (pool.get? id).bind fun executable => executable.external? name

/-- Replacing an executable leaves an external alone if the new executable has its value. -/
theorem Pool.external?_set {pool : Pool} {id other : ExecutableId} {before after : Executable}
    {name : String} (found : pool.get? id = some before)
    (kept : other = id → after.external? name = before.external? name) :
    (pool.set id after).external? other name = pool.external? other name := by
  rw [external?, external?, get?_set]
  by_cases here : other = id
  · subst here
    rw [if_pos rfl, found]
    exact kept rfl
  · rw [if_neg here]

namespace Dispatch

/-- What dispatching calls writes, where `inner` tells what the step of a synchronous callee
writes. -/
def callWrites (nested : Dispatch → Except Fault Bool × Dispatch)
    (inner : Dispatch → List (ExecutableId × String)) :
    List Call → Dispatch → List (ExecutableId × String)
  | [], _ => []
  | call :: rest, state =>
      match state.beginCall call with
      | .error _ => []
      | .ok begun =>
          if call.method.isSynchronous then
            inner begun ++
              match nested begun with
              | (.error _, _) => []
              | (.ok _, stepped) => callWrites nested inner rest stepped.closed
          else callWrites nested inner rest begun

/-- What the step of the executable in control and the calls that it leads to write: which
executable writes which of its externals. -/
def activeWrites : (depth : Nat) → Dispatch → List (ExecutableId × String)
  | 0, _ => []
  | depth + 1, state =>
      let id := state.chain.executable
      match state.pool.get id with
      | .error _ => []
      | .ok executable =>
          match executable.step id state.pool.directory state.clock with
          | .error _ => []
          | .ok (outcome, stepped) =>
              (executable.writes id state.pool.directory state.clock).map (Prod.mk id) ++
                match outcome.unresolved with
                | _ :: _ => []
                | [] => callWrites (executeActive depth) (activeWrites depth)
                    (dispatchOrder outcome.issued) (state.afterStep outcome stepped)

variable {id : ExecutableId} {name : String}

/-- Beginning a call writes no external. -/
theorem external?_beginCall {state begun : Dispatch} {call : Call}
    (began : state.beginCall call = .ok begun) :
    begun.pool.external? id name = state.pool.external? id name := by
  obtain ⟨chain, callee, started, _, found, begins, rfl⟩ := beginCall_eq_ok began
  refine Pool.external?_set found fun _ => ?_
  rw [Executable.external?, (Executable.begin_eq_ok begins).2]
  rfl

/-- An external that neither the calls nor what is nested in them write has its value after them. -/
theorem external?_dispatchCalls {nested : Dispatch → Except Fault Bool × Dispatch}
    {inner : Dispatch → List (ExecutableId × String)}
    (kept : ∀ state, (id, name) ∉ inner state →
      (nested state).2.pool.external? id name = state.pool.external? id name)
    (calls : List Call) : ∀ {state : Dispatch}, (id, name) ∉ callWrites nested inner calls state →
      (dispatchCalls nested calls state).2.pool.external? id name =
        state.pool.external? id name := by
  induction calls with
  | nil => exact fun _ => rfl
  | cons call rest others =>
      intro state unwritten
      rw [dispatchCalls]
      rw [callWrites] at unwritten
      cases began : state.beginCall call with
      | error fault => rfl
      | ok begun =>
          have held : begun.pool.external? id name = state.pool.external? id name :=
            external?_beginCall began
          simp only [began] at unwritten
          dsimp only
          split_ifs with synchronous
          · rw [if_pos synchronous, List.mem_append, not_or] at unwritten
            have heldInside := (kept begun unwritten.1).trans held
            cases ran : nested begun with
            | mk outcome stepped =>
                simp only [ran] at heldInside unwritten
                cases outcome with
                | error fault => exact heldInside
                | ok answer => exact (others unwritten.2).trans heldInside
          · rw [if_neg synchronous] at unwritten
            exact (others unwritten).trans held

/-- **What is not written keeps its value**, also in an execution that fails. -/
theorem external?_executeActive (depth : Nat) : ∀ state, (id, name) ∉ activeWrites depth state →
    (executeActive depth state).2.pool.external? id name = state.pool.external? id name := by
  induction depth with
  | zero => exact fun _ _ => rfl
  | succ depth deeper =>
      intro state unwritten
      rw [executeActive]
      rw [activeWrites] at unwritten
      cases found : state.pool.get state.chain.executable with
      | error fault => rfl
      | ok executable =>
          cases made : executable.step state.chain.executable state.pool.directory state.clock with
          | error fault => simp only [made]
          | ok answer =>
              obtain ⟨outcome, stepped⟩ := answer
              simp only [found, made, List.mem_append, not_or] at unwritten
              have held : (state.afterStep outcome stepped).pool.external? id name =
                  state.pool.external? id name := by
                refine Pool.external?_set (Pool.get_eq_ok_iff.mp found) fun here => ?_
                refine Executable.external?_step made fun isWritten => unwritten.1 ?_
                rw [here]
                exact List.mem_map_of_mem isWritten
              simp only [made]
              cases unresolved : outcome.unresolved with
              | cons callee others => exact held
              | nil =>
                  rw [unresolved] at unwritten
                  exact (external?_dispatchCalls deeper _ unwritten.2).trans held

end Dispatch

/-- What executing a timeslot writes. -/
def timeslotWrites (pool : Pool) (slot : Timeslot) (clock : Clock) : List (ExecutableId × String) :=
  Dispatch.activeWrites pool.callDepthBound { pool, chain := slot.callChain, clock, calls := [] }

/-- An external that nothing writes during a timeslot has its value after it. -/
theorem external?_executeTimeslot {pool : Pool} {slot : Timeslot} {clock : Clock}
    {id : ExecutableId} {name : String} (unwritten : (id, name) ∉ timeslotWrites pool slot clock) :
    (executeTimeslot pool slot clock).2.pool.external? id name = pool.external? id name :=
  Dispatch.external?_executeActive _ _ unwritten

end TimedKripke
