import TimedKripke.Proofs.Ringlet.Locality

/-! # The order in which calls are dispatched

The steps of an execution form a tree: below the step of an executable stand the steps of those it
called synchronously, in the order of the calls (`StepTree`). `Dispatch.Steps` says that a machine
goes through such a tree; it then leaves the chain as it was, and has dispatched the calls of the
tree in depth-first order (`Dispatch.Steps.chain_and_calls`). Executions that succeed do so, and
since inner ones restore the chain, every call comes from the executable in control
(`Dispatch.executeActive_orderly`, `executeTimeslot_respects_chain`). An execution that fails stops
where it is and leaves the calls open that led there; `Dispatch.Reaches` follows nested executions
to such a place.
-/

namespace TimedKripke

/-- Steps nested in each other: an executable, the calls that its step issued, and the steps of the
callees of the synchronous ones. -/
inductive StepTree where
  | step (executable : ExecutableId) (issued : List Call) (nested : List StepTree)

namespace StepTree

mutual

/-- The calls of nested steps, depth first: those that the step waits for, each with all calls
below it, and then those that it does not wait for. -/
def calls : StepTree → List Call
  | step _ issued nested =>
      served (issued.filter fun call => call.method.isSynchronous) nested ++
        issued.filter fun call => !call.method.isSynchronous

/-- Calls, each followed by the calls of the step that serves it. -/
def served : List Call → List StepTree → List Call
  | call :: rest, tree :: trees => call :: tree.calls ++ served rest trees
  | _, _ => []

end

end StepTree

/-- A step issues calls of its own executable. -/
theorem Executable.caller_of_issued {executable stepped : Executable} {id : ExecutableId}
    {directory : Directory} {clock : Clock} {outcome : StepOutcome}
    (made : executable.step id directory clock = .ok (outcome, stepped)) :
    ∀ call ∈ outcome.issued, call.caller = id :=
  forall_issued made fun _ _ => rfl

namespace CallChain

/-- The callee of the call that was just opened is in control. -/
theorem executable_of_add {chain extended : CallChain} {call : Call}
    (added : chain.add call = .ok extended) : extended.executable = call.callee := by
  rw [executable, (add_eq_ok added).2, List.getLast?_concat]

/-- A call of the executable in control is not detached. -/
theorem add_attached {chain : CallChain} {call : Call} (own : call.caller = chain.executable)
    (caller active : ExecutableId) : chain.add call ≠ .error (.detachedCall caller active) := by
  rw [add, if_neg (not_not.mpr own)]
  split <;> simp

/-- The chain is another one with further calls open. -/
def Extends (chain extended : CallChain) : Prop :=
  extended.root = chain.root ∧ chain.calls <+: extended.calls

theorem Extends.rfl {chain : CallChain} : chain.Extends chain :=
  ⟨Eq.refl _, List.prefix_rfl⟩

theorem Extends.trans {first second third : CallChain} (earlier : first.Extends second)
    (later : second.Extends third) : first.Extends third :=
  ⟨later.1.trans earlier.1, earlier.2.trans later.2⟩

end CallChain

namespace Dispatch

/-- Calls that nobody waits for begin, one after the other. -/
inductive Begins : List Call → Dispatch → Dispatch → Prop
  | nil {state : Dispatch} : Begins [] state state
  | cons {state begun final : Dispatch} {call : Call} {rest : List Call}
      (began : state.beginCall call = .ok begun) (others : Begins rest begun final) :
      Begins (call :: rest) state final

mutual

/-- The executable in control makes its step, the calls it waits for are served, and the others
begin. -/
inductive Steps : Dispatch → StepTree → Dispatch → Prop
  | step {state served final : Dispatch} {executable stepped : Executable} {outcome : StepOutcome}
      {nested : List StepTree}
      (found : state.pool.get? state.chain.executable = some executable)
      (made : executable.step state.chain.executable state.pool.directory state.clock =
        .ok (outcome, stepped))
      (serves : Serves (outcome.issued.filter fun call => call.method.isSynchronous)
        (state.afterStep outcome stepped) nested served)
      (begins : Begins (outcome.issued.filter fun call => !call.method.isSynchronous) served
        final) :
      Steps state (.step state.chain.executable outcome.issued nested) final

/-- Calls are served one after the other: each is opened and begins, its callee makes a step with
everything below it, and the call is closed. -/
inductive Serves : List Call → Dispatch → List StepTree → Dispatch → Prop
  | nil {state : Dispatch} : Serves [] state [] state
  | cons {state begun stepped final : Dispatch} {call : Call} {rest : List Call} {tree : StepTree}
      {trees : List StepTree} (began : state.beginCall call = .ok begun)
      (control : begun.chain.executable = call.callee) (steps : Steps begun tree stepped)
      (others : Serves rest stepped.closed trees final) :
      Serves (call :: rest) state (tree :: trees) final

end

variable {state begun final : Dispatch} {call : Call} {calls : List Call}

/-- A call that nobody waits for is listed and leaves the chain alone. -/
theorem beginCall_asynchronous (asynchronous : call.method.isSynchronous = false)
    (began : state.beginCall call = .ok begun) :
    begun.chain = state.chain ∧ begun.calls = state.calls ++ [call] := by
  obtain ⟨chain, _, _, opened, _, _, rfl⟩ := beginCall_eq_ok began
  rw [asynchronous] at opened
  cases opened
  exact ⟨rfl, rfl⟩

/-- A call that the step waits for is listed and opened on the chain. -/
theorem beginCall_synchronous (synchronous : call.method.isSynchronous = true)
    (began : state.beginCall call = .ok begun) :
    state.chain.add call = .ok begun.chain ∧ begun.calls = state.calls ++ [call] := by
  obtain ⟨chain, _, _, opened, _, _, rfl⟩ := beginCall_eq_ok began
  rw [synchronous] at opened
  exact ⟨opened, rfl⟩

/-- Calls that nobody waits for leave the chain alone and are listed in the order in which they
begin. -/
theorem Begins.chain_and_calls (begins : Begins calls state final)
    (asynchronous : ∀ call ∈ calls, call.method.isSynchronous = false) :
    final.chain = state.chain ∧ final.calls = state.calls ++ calls := by
  induction begins with
  | nil => exact ⟨rfl, (List.append_nil _).symm⟩
  | cons began _ others =>
      obtain ⟨sameChain, noted⟩ := beginCall_asynchronous (asynchronous _ List.mem_cons_self) began
      obtain ⟨sameLater, notedLater⟩ := others fun call member =>
        asynchronous call (List.mem_cons_of_mem _ member)
      refine ⟨sameLater.trans sameChain, ?_⟩
      rw [notedLater, noted, List.append_assoc, List.singleton_append]

mutual

/-- **Nested steps** leave the chain as it was and note their calls in depth-first order. -/
theorem Steps.chain_and_calls {state final : Dispatch} {tree : StepTree} :
    Steps state tree final → final.chain = state.chain ∧ final.calls = state.calls ++ tree.calls
  | .step _ _ serves begins => by
      obtain ⟨sameServed, servedCalls⟩ := serves.chain_and_calls fun call member =>
        (List.mem_filter.mp member).2
      obtain ⟨sameFinal, finalCalls⟩ := begins.chain_and_calls fun call member => by
        simpa using (List.mem_filter.mp member).2
      refine ⟨sameFinal.trans sameServed, ?_⟩
      rw [finalCalls, servedCalls, List.append_assoc, StepTree.calls]
      rfl

/-- **Calls that are served** leave the chain as it was, each with its nested calls after it. -/
theorem Serves.chain_and_calls {calls : List Call} {state final : Dispatch}
    {trees : List StepTree} : Serves calls state trees final →
      (∀ call ∈ calls, call.method.isSynchronous = true) →
      final.chain = state.chain ∧ final.calls = state.calls ++ StepTree.served calls trees
  | .nil, _ => ⟨rfl, (List.append_nil _).symm⟩
  | .cons began _ steps others, synchronous => by
      obtain ⟨opened, noted⟩ := beginCall_synchronous (synchronous _ List.mem_cons_self) began
      obtain ⟨sameInside, notedInside⟩ := steps.chain_and_calls
      obtain ⟨sameLater, notedLater⟩ := others.chain_and_calls fun call member =>
        synchronous call (List.mem_cons_of_mem _ member)
      refine ⟨?_, ?_⟩
      · rw [sameLater, closed, sameInside]
        exact CallChain.pop_of_add opened
      · rw [notedLater, closed, notedInside, noted, StepTree.served]
        simp

end

end Dispatch

/-- A step of an executable has no fault that speaks of a detached call, since it does not touch the
chain. -/
theorem Executable.step_attached (executable : Executable) (id : ExecutableId)
    (directory : Directory) (clock : Clock) (caller active : ExecutableId) :
    executable.step id directory clock ≠ .error (.detachedCall caller active) := by
  have machine : ∀ (running : Instance) (arguments : PropertyList),
      running.step id arguments directory clock ≠ .error (.detachedCall caller active) := by
    intro running arguments
    unfold Instance.step
    split
    · simp
    · split <;> simp
  cases executable with
  | scheduled running =>
      intro failed
      exact machine running [] (Outcome.map_eq_error.mp failed)
  | callable served =>
      intro failed
      have failed := Outcome.map_eq_error.mp failed
      unfold CallableMachine.step at failed
      split at failed
      · cases failed
      · split at failed
        · rename_i ran
          cases failed
          exact machine served.running served.arguments ran
        · cases failed

/-- Binding arguments fails for ill-typed arguments only, never for a detached call. -/
theorem CallableMachine.bindArguments_attached (given : Parameters) (caller active : ExecutableId)
    (parameters : List (String × ValueType)) : ∀ bound : PropertyList,
      bindArguments given bound parameters ≠ .error (.detachedCall caller active) := by
  induction parameters with
  | nil => simp [bindArguments]
  | cons declared rest others =>
      intro bound
      unfold bindArguments
      split
      · split
        · exact others _
        · simp
      · exact others _

/-- Beginning to serve a call never fails for a detached call. -/
theorem Executable.begin_attached (executable : Executable) (given : Parameters)
    (caller active : ExecutableId) :
    executable.begin given ≠ .error (.detachedCall caller active) := by
  cases executable with
  | scheduled running => simp [begin]
  | callable served =>
      intro failed
      have failed := Outcome.map_eq_error.mp failed
      unfold CallableMachine.begin at failed
      split at failed
      · cases failed
      · split at failed
        · rename_i binds
          cases failed
          exact CallableMachine.bindArguments_attached given caller active _ _ binds
        · cases failed

/-- Looking up an executable never fails for a detached call. -/
theorem Pool.get_attached (pool : Pool) (id caller active : ExecutableId) :
    pool.get id ≠ .error (.detachedCall caller active) := by
  unfold get
  split <;> simp

namespace Dispatch

/-- A call of the executable in control is not detached. -/
theorem beginCall_attached {state : Dispatch} {call : Call}
    (own : call.caller = state.chain.executable) (caller active : ExecutableId) :
    state.beginCall call ≠ .error (.detachedCall caller active) := by
  intro failed
  unfold beginCall at failed
  split at failed
  · rename_i opens
    cases failed
    split at opens
    · exact CallChain.add_attached own caller active opens
    · cases opens
  · split at failed
    · rename_i missing
      cases failed
      exact Pool.get_attached _ _ _ _ missing
    · split at failed
      · rename_i refused
        cases failed
        exact Executable.begin_attached _ _ _ _ refused
      · cases failed

/-- What is known about executions of one depth. -/
structure Orderly (execute : Dispatch → Except Fault Bool × Dispatch) : Prop where
  /-- No call is detached. -/
  attached : ∀ (state : Dispatch) (caller active : ExecutableId),
    (execute state).1 ≠ .error (.detachedCall caller active)
  keeps : ∀ state : Dispatch, state.chain.Extends (execute state).2.chain
  /-- An execution that succeeds goes through nested steps. -/
  steps : ∀ {state final : Dispatch} {transitioned : Bool},
    execute state = (.ok transitioned, final) → ∃ tree, Steps state tree final

section Orderly

variable {nested : Dispatch → Except Fault Bool × Dispatch} (orderly : Orderly nested)
  {final : Dispatch}
include orderly

/-- **The first call.** Either it fails, and not because it is detached; or it was served or has
begun, and the others follow with the chain as it was. -/
theorem dispatchCalls_cons_cases (call : Call) (rest : List Call) (state : Dispatch) :
    (∃ fault final, dispatchCalls nested (call :: rest) state = (.error fault, final) ∧
      state.chain.Extends final.chain ∧ (call.caller = state.chain.executable →
        ∀ caller active, fault ≠ .detachedCall caller active)) ∨
    ∃ next, dispatchCalls nested (call :: rest) state = dispatchCalls nested rest next ∧
      next.chain = state.chain ∧
      (call.method.isSynchronous = false → state.beginCall call = .ok next) ∧
      (call.method.isSynchronous = true → ∃ begun tree stepped,
        state.beginCall call = .ok begun ∧ begun.chain.executable = call.callee ∧
          Steps begun tree stepped ∧ next = stepped.closed) := by
  rw [dispatchCalls]
  cases began : state.beginCall call with
  | error fault =>
      refine .inl ⟨fault, state, rfl, .rfl, fun own caller active isDetached => ?_⟩
      exact beginCall_attached own caller active (isDetached ▸ began)
  | ok begun =>
      dsimp only
      by_cases synchronous : call.method.isSynchronous = true
      · rw [if_pos synchronous]
        have opened := (beginCall_synchronous synchronous began).1
        obtain ⟨sameRoot, sameCalls⟩ := CallChain.add_eq_ok opened
        cases ran : nested begun with
        | mk answer stepped =>
            cases answer with
            | error fault =>
                refine .inl ⟨fault, stepped, rfl, ?_, fun _ caller active isDetached => ?_⟩
                · have kept := orderly.keeps begun
                  rw [ran] at kept
                  refine CallChain.Extends.trans ⟨sameRoot, ?_⟩ kept
                  rw [sameCalls]
                  exact List.prefix_append _ _
                · have attached := orderly.attached begun caller active
                  rw [ran, isDetached] at attached
                  exact attached rfl
            | ok transitioned =>
                obtain ⟨tree, steps⟩ := orderly.steps ran
                refine .inr ⟨stepped.closed, rfl, ?_, fun asynchronous => ?_, fun _ =>
                  ⟨begun, tree, stepped, rfl, CallChain.executable_of_add opened, steps, rfl⟩⟩
                · rw [closed, steps.chain_and_calls.1]
                  exact CallChain.pop_of_add opened
                · rw [synchronous] at asynchronous
                  cases asynchronous
      · rw [if_neg synchronous]
        have asynchronous := Bool.eq_false_iff.mpr synchronous
        exact .inr ⟨begun, rfl, (beginCall_asynchronous asynchronous began).1, fun _ => rfl,
          fun isSynchronous => absurd isSynchronous synchronous⟩

/-- Dispatching calls of the executable in control meets no detached call and leaves what was open
open. -/
theorem dispatchCalls_attached (calls : List Call) : ∀ {state : Dispatch},
    (∀ call ∈ calls, call.caller = state.chain.executable) →
      (∀ caller active,
        (dispatchCalls nested calls state).1 ≠ .error (.detachedCall caller active)) ∧
      state.chain.Extends (dispatchCalls nested calls state).2.chain := by
  induction calls with
  | nil => exact fun _ => ⟨fun _ _ => nofun, .rfl⟩
  | cons call rest others =>
      intro state own
      rcases dispatchCalls_cons_cases orderly call rest state with
        ⟨fault, final, failed, kept, attached⟩ | ⟨next, goesOn, sameChain, _, _⟩
      · rw [failed]
        refine ⟨fun caller active isDetached => ?_, kept⟩
        exact attached (own call List.mem_cons_self) caller active (Except.error.inj isDetached)
      · rw [goesOn, ← sameChain]
        refine others fun later member => ?_
        rw [sameChain]
        exact own later (List.mem_cons_of_mem call member)

/-- Asynchronous calls that are dispatched without a fault begin one after the other, and nothing
else happens. -/
theorem dispatchCalls_begins {calls : List Call} : ∀ {state : Dispatch},
    (∀ call ∈ calls, call.method.isSynchronous = false) →
      dispatchCalls nested calls state = (.ok (), final) → Begins calls state final := by
  induction calls with
  | nil =>
      intro state _ ran
      cases ran
      exact .nil
  | cons call rest others =>
      intro state asynchronous ran
      rcases dispatchCalls_cons_cases orderly call rest state with
        ⟨fault, final, failed, _⟩ | ⟨next, goesOn, _, begins, _⟩
      · rw [failed] at ran
        cases ran
      · rw [goesOn] at ran
        exact .cons (begins (asynchronous call List.mem_cons_self))
          (others (fun later member => asynchronous later (List.mem_cons_of_mem call member)) ran)

/-- Dispatching the synchronous calls and then the others serves the first and begins the others. -/
theorem dispatchCalls_serves {waited others : List Call}
    (asynchronous : ∀ call ∈ others, call.method.isSynchronous = false) : ∀ {state : Dispatch},
      (∀ call ∈ waited, call.method.isSynchronous = true) →
        dispatchCalls nested (waited ++ others) state = (.ok (), final) →
          ∃ trees served, Serves waited state trees served ∧ Begins others served final := by
  induction waited with
  | nil =>
      intro state _ ran
      exact ⟨[], state, .nil, dispatchCalls_begins orderly asynchronous ran⟩
  | cons call rest later =>
      intro state synchronous ran
      rw [List.cons_append] at ran
      rcases dispatchCalls_cons_cases orderly call (rest ++ others) state with
        ⟨fault, final, failed, _⟩ | ⟨next, goesOn, _, _, serves⟩
      · rw [failed] at ran
        cases ran
      · rw [goesOn] at ran
        obtain ⟨begun, tree, stepped, began, control, steps, rfl⟩ :=
          serves (synchronous call List.mem_cons_self)
        obtain ⟨trees, served, rests, begins⟩ := later
          (fun other member => synchronous other (List.mem_cons_of_mem call member)) ran
        exact ⟨tree :: trees, served, .cons began control steps rests, begins⟩

end Orderly

/-- An execution fails at the step, and not because a call is detached, or it dispatches the calls
of the step. -/
theorem executeActive_succ_cases (depth : Nat) (state : Dispatch) :
    (∃ fault final, executeActive (depth + 1) state = (.error fault, final) ∧
      final.chain = state.chain ∧ ∀ caller active, fault ≠ .detachedCall caller active) ∨
    ∃ executable outcome stepped,
      state.pool.get? state.chain.executable = some executable ∧
      executable.step state.chain.executable state.pool.directory state.clock =
        .ok (outcome, stepped) ∧
      executeActive (depth + 1) state =
        ((dispatchCalls (executeActive depth) (dispatchOrder outcome.issued)
            (state.afterStep outcome stepped)).1.map fun _ => outcome.transitioned,
          (dispatchCalls (executeActive depth) (dispatchOrder outcome.issued)
            (state.afterStep outcome stepped)).2) := by
  rw [executeActive]
  cases found : state.pool.get state.chain.executable with
  | error fault =>
      refine .inl ⟨fault, state, rfl, rfl, fun caller active isDetached => ?_⟩
      exact Pool.get_attached _ _ _ _ (isDetached ▸ found)
  | ok executable =>
      cases made : executable.step state.chain.executable state.pool.directory state.clock with
      | error fault =>
          simp only [made]
          refine .inl ⟨fault, state, rfl, rfl, fun caller active isDetached => ?_⟩
          exact Executable.step_attached _ _ _ _ _ _ (isDetached ▸ made)
      | ok answer =>
          obtain ⟨outcome, stepped⟩ := answer
          simp only [made]
          cases outcome.unresolved with
          | cons callee others =>
              refine .inl ⟨.unknownCallee stepped.name callee, _, rfl, rfl, fun caller active => ?_⟩
              simp
          | nil =>
              exact .inr ⟨executable, outcome, stepped, Pool.get_eq_ok_iff.mp found, made, rfl⟩

/-- **Executions are orderly**, whatever the depth: no call is detached, and what succeeds goes
through nested steps. The induction is on the depth. -/
theorem executeActive_orderly (depth : Nat) : Orderly (executeActive depth) := by
  induction depth with
  | zero =>
      refine ⟨?_, fun _ => .rfl, ?_⟩
      · simp [executeActive]
      · simp [executeActive]
  | succ depth deeper =>
      have own : ∀ {state : Dispatch} {executable stepped : Executable} {outcome : StepOutcome},
          executable.step state.chain.executable state.pool.directory state.clock =
            .ok (outcome, stepped) → ∀ call ∈ dispatchOrder outcome.issued,
              call.caller = (state.afterStep outcome stepped).chain.executable :=
        fun made call member => Executable.caller_of_issued made call (mem_dispatchOrder.mp member)
      refine ⟨fun state caller active => ?_, fun state => ?_, fun {state _ _} ran => ?_⟩
      · rcases executeActive_succ_cases depth state with
          ⟨fault, final, failed, _, attached⟩ | ⟨executable, outcome, stepped, _, made, ran⟩
        · rw [failed]
          exact fun isDetached => attached caller active (Except.error.inj isDetached)
        · rw [ran]
          intro isDetached
          exact (dispatchCalls_attached deeper _ (own made)).1 caller active
            (Outcome.map_eq_error.mp isDetached)
      · rcases executeActive_succ_cases depth state with
          ⟨fault, final, failed, sameChain, _⟩ | ⟨executable, outcome, stepped, _, made, ran⟩
        · rw [failed, sameChain]
          exact .rfl
        · rw [ran]
          exact (dispatchCalls_attached deeper _ (own made)).2
      · rcases executeActive_succ_cases depth state with
          ⟨fault, final, failed, _⟩ | ⟨executable, outcome, stepped, found, made, isRun⟩
        · rw [failed] at ran
          cases ran
        · obtain ⟨answer, isFinal⟩ := Prod.mk.inj (isRun.symm.trans ran)
          obtain ⟨_, dispatched, _⟩ := Outcome.map_eq_ok.mp answer
          obtain ⟨trees, served, serves, begins⟩ := dispatchCalls_serves deeper
            (fun call member => by simpa using (List.mem_filter.mp member).2)
            (fun call member => (List.mem_filter.mp member).2) (Prod.ext dispatched isFinal)
          exact ⟨_, .step found made serves begins⟩

/-- During an execution that starts in `state`, with at most `depth` steps nested in each other, an
execution starts in `inner`, with at most `left` steps nested in each other. -/
inductive Reaches : (depth : Nat) → (state : Dispatch) → (left : Nat) → (inner : Dispatch) → Prop
  | here (depth : Nat) (state : Dispatch) : Reaches depth state depth state
  /-- A call of the step has begun, after the calls before it were dispatched. -/
  | within {depth left : Nat} {state stepped middle begun inner : Dispatch} {outcome : StepOutcome}
      {earlier later : List Call} {call : Call} (made : state.ownStep = .ok (outcome, stepped))
      (order : dispatchOrder outcome.issued = earlier ++ call :: later)
      (dispatched : dispatchCalls (executeActive depth) earlier stepped = (.ok (), middle))
      (synchronous : call.method.isSynchronous = true)
      (began : middle.beginCall call = .ok begun) (deeper : Reaches depth begun left inner) :
      Reaches (depth + 1) state left inner

end Dispatch

namespace Office

/-- Calls executables one after the other. -/
def errands : List (CallMethod × String) → Program Unit
  | [] => .done ()
  | (method, name) :: rest => .ask (.call method name []) fun _ => errands rest

/-- A machine that makes its calls on entry. -/
def machine (name : String) (calls : List (CallMethod × String)) : Machine :=
  { name
    states := [
      { name := "Busy", onEntry := some (errands calls), onExit := none, internal := none
        transitions := [], observes := none }]
    initialState := 0
    exitState := none
    suspendState := none
    variableTypes := []
    initialVariables := []
    initialExternals := [] }

/-- Everyone in the office at the start. The head tells the clerk something without waiting and has
the typist write a letter; the typist has the courier fetch paper and tells the clerk too. -/
def pool : Pool :=
  { entries := [
      { registration := { id := 0, name := "Head", dependencies := [] }
        executable := .scheduled
          (machine "Head" [(.asynchronous, "Clerk"), (.synchronous, "Typist")]).start },
      { registration := { id := 1, name := "Typist", dependencies := [] }
        executable := .callable (.new
          (machine "Typist" [(.asynchronous, "Clerk"), (.synchronous, "Courier")]).start []) },
      { registration := { id := 2, name := "Clerk", dependencies := [] }
        executable := .callable (.new (machine "Clerk" []).start []) },
      { registration := { id := 3, name := "Courier", dependencies := [] }
        executable := .callable (.new (machine "Courier" []).start []) }] }

/-- The calls in the order of dispatch. -/
def calls : List Call :=
  [⟨0, 1, [], .synchronous⟩, ⟨1, 3, [], .synchronous⟩, ⟨1, 2, [], .asynchronous⟩,
    ⟨0, 2, [], .asynchronous⟩]

end Office

namespace Echo

/-- A machine with one state that does something on entry. -/
def machine (name : String) (onEntry : Program Unit) : Machine :=
  { name
    states := [
      { name := "Busy", onEntry := some onEntry, onExit := none, internal := none
        transitions := [], observes := none }]
    initialState := 0
    exitState := none
    suspendState := none
    variableTypes := []
    initialVariables := []
    initialExternals := [] }

/-- Tells the echo something about the flag. -/
def say (parameters : Parameters) : Program Unit :=
  .ask (.call .synchronous "Echo" parameters) fun _ => .done ()

/-- Answers what was said about the flag. -/
def answer : Program Unit :=
  .ask (.parameter "flag") fun
    | some (.bool true) => say [("flag", some (.bool false))]
    | _ => say []

/-- A caller and the echo, which calls itself: told that the flag is up, it says that the flag is
down; else it says nothing about the flag, and when it has to repeat that, the call is cyclic. -/
def pool : Pool :=
  { entries := [
      { registration := { id := 0, name := "Caller", dependencies := [] }
        executable := .scheduled
          (machine "Caller" (say [("flag", some (.bool true))])).start },
      { registration := { id := 1, name := "Echo", dependencies := [] }
        executable := .callable (.new (machine "Echo" answer).start [("flag", .bool)]) }] }

end Echo

end TimedKripke
