import TimedKripke.Proofs.Program.Elsewhere
import TimedKripke.Proofs.Ringlet.Dispatch

/-! # What an execution depends on

An execution runs the executables of its call chain and those they may call, and asks for the
results of those they may ask about; `Pool.Confined` says which these are. On two pools that
agree about them, and at two times that the thresholds asked about do not tell apart, an
execution goes the same way (`Dispatch.executeActive_agrees`).
-/

namespace TimedKripke

namespace Pool

/-- Pools of one frame have directories with the same names. -/
theorem names_directory_eq_of_frame {first second : Pool} (same : first.frame = second.frame) :
    first.directory.names = second.directory.names := by
  have names := congrArg (List.map fun known => (known.1.name, known.1.id)) same
  rw [frame, frame, List.map_map, List.map_map] at names
  exact congrArg OrderedMap.ofList names

/-- The directory shows the result of the executable of an id. -/
theorem result?_directory {pool : Pool} (distinct : pool.ids.Nodup) (id : ExecutableId) :
    pool.directory.result? id = (pool.get? id).bind Executable.result? := by
  have distinctKeys : ((pool.entries.filterMap fun entry =>
      entry.executable.result?.map fun value => (entry.id, value)).map Prod.fst).Nodup := by
    have part : ∀ entries : List PoolEntry, List.Sublist ((entries.filterMap fun entry =>
        entry.executable.result?.map fun value => (entry.id, value)).map Prod.fst)
        (entries.map PoolEntry.id) := by
      intro entries
      induction entries with
      | nil => exact .slnil
      | cons entry rest others =>
          rw [List.filterMap_cons]
          cases entry.executable.result? with
          | none => exact .cons _ others
          | some value => exact .cons_cons _ others
    exact (part pool.entries).nodup distinct
  rw [Directory.result?, directory, OrderedMap.lookup_ofList distinctKeys]
  cases found : pool.get? id with
  | none =>
      rw [Option.bind_none, OrderedMap.lookup_eq_none_iff]
      intro member
      obtain ⟨shown, isShown, rfl⟩ := List.mem_map.mp member
      obtain ⟨entry, inside, isEntry⟩ := List.mem_filterMap.mp isShown
      obtain ⟨value, _, rfl⟩ := Option.map_eq_some_iff.mp isEntry
      rw [get?_of_mem distinct inside] at found
      cases found
  | some executable =>
      obtain ⟨entry, inside, rfl, rfl⟩ := mem_of_get? found
      rw [Option.bind_some]
      cases result : entry.executable.result? with
      | some value =>
          refine OrderedMap.lookup_of_mem distinctKeys (List.mem_filterMap.mpr ⟨entry, inside, ?_⟩)
          rw [result]
          rfl
      | none =>
          rw [OrderedMap.lookup_eq_none_iff]
          intro member
          obtain ⟨shown, isShown, sameId⟩ := List.mem_map.mp member
          obtain ⟨other, isOther, isEntry⟩ := List.mem_filterMap.mp isShown
          obtain ⟨value, isValue, rfl⟩ := Option.map_eq_some_iff.mp isEntry
          rw [List.inj_on_of_nodup_map distinct isOther inside sameId, result] at isValue
          cases isValue

end Pool

namespace Machine

/-- The machine may call the executable of an id, under whatever name it is registered. -/
def MayCall (machine : Machine) (directory : Directory) (callee : ExecutableId) : Prop :=
  ∃ method name parameters, machine.MayRequest (.call method name parameters) ∧
    directory.id? name = some callee

/-- The machine may ask for the result of the executable of an id. -/
def MayAsk (machine : Machine) (directory : Directory) (asked : ExecutableId) : Prop :=
  ∃ name, machine.MayRequest (.resultOf name) ∧ directory.id? name = some asked

end Machine

/-- The executables that may run from some on, and those whose results these may ask for. -/
structure Pool.Confined (origin : Pool) (Runs Shown : ExecutableId → Prop) : Prop where
  /-- Whatever one that runs may call, may run. -/
  calls : ∀ {id : ExecutableId} {executable : Executable}, Runs id →
    origin.get? id = some executable → ∀ {callee},
      executable.running.machine.MayCall origin.directory callee → Runs callee
  /-- Whatever result one that runs may ask for, is shown. -/
  results : ∀ {id : ExecutableId} {executable : Executable}, Runs id →
    origin.get? id = some executable → ∀ {asked},
      executable.running.machine.MayAsk origin.directory asked → Shown asked

/-- The pools agree about the executables that may run and about the results shown. -/
structure Pool.Agrees (Runs Shown : ExecutableId → Prop) (left right : Pool) : Prop where
  frame : right.frame = left.frame
  runs : ∀ id, Runs id → right.get? id = left.get? id
  /-- Results that are shown are the same. -/
  shown : ∀ id, Shown id →
    (right.get? id).bind Executable.result? = (left.get? id).bind Executable.result?

/-- Replacing an executable changes the frame at that id alone. -/
theorem Pool.frame_set (pool : Pool) (id : ExecutableId) (executable : Executable) :
    (pool.set id executable).frame = pool.frame.map fun known =>
      if known.1.id = id then (known.1, executable.frame) else known := by
  rw [frame, set, frame, List.map_map, List.map_map]
  refine List.map_congr_left fun entry _ => ?_
  by_cases isId : entry.registration.id = id
  · simp [PoolEntry.frame, PoolEntry.id, isId]
  · simp [PoolEntry.frame, PoolEntry.id, isId]

/-- Replacing an executable that may run by the same one on both sides keeps the pools in agreement.
-/
theorem Pool.Agrees.set {Runs Shown : ExecutableId → Prop} {left right : Pool}
    (agrees : Agrees Runs Shown left right) {id : ExecutableId} (may : Runs id)
    (executable : Executable) :
    Agrees Runs Shown (left.set id executable) (right.set id executable) where
  frame := by rw [frame_set, frame_set, agrees.frame]
  runs := fun other mayOther => by
    rw [get?_set, get?_set, agrees.runs id may, agrees.runs other mayOther]
  shown := fun other isShown => by
    rw [get?_set, get?_set, agrees.runs id may]
    split
    · rfl
    · exact agrees.shown other isShown

namespace Context

/-- A request leaves the calls noted so far, or notes one more: a call of the executable itself to
what is registered under the name. -/
theorem issued_answer (context : Context) (request : Request) :
    (context.answer request).2.id = context.id ∧
      ((context.answer request).2.issued = context.issued ∨
        ∃ method name parameters callee, request = .call method name parameters ∧
          context.directory.id? name = some callee ∧
          (context.answer request).2.issued = context.issued ++ [{
            caller := context.id
            callee
            parameters := OrderedMap.ofList parameters
            method }]) := by
  cases request with
  | setVariable name value =>
      change (context.setVariable name value).2.id = _ ∧
        ((context.setVariable name value).2.issued = _ ∨ _)
      unfold setVariable
      split
      · exact ⟨rfl, .inl rfl⟩
      · split <;> exact ⟨rfl, .inl rfl⟩
  | setExternal name value =>
      change (context.setExternal name value).2.id = _ ∧
        ((context.setExternal name value).2.issued = _ ∨ _)
      unfold setExternal
      split
      · exact ⟨rfl, .inl rfl⟩
      · split <;> exact ⟨rfl, .inl rfl⟩
  | call method name parameters =>
      rw [answer, Context.call]
      cases found : context.directory.id? name with
      | none => exact ⟨rfl, .inl rfl⟩
      | some callee => exact ⟨rfl, .inr ⟨method, name, parameters, callee, rfl, found, rfl⟩⟩
  | _ => exact ⟨rfl, .inl rfl⟩

/-- In the context of an executable, a property holds of all calls noted so far. -/
structure Notes (id : ExecutableId) (directory : Directory) (Holds : Call → Prop)
    (context : Context) : Prop where
  id : context.id = id
  directory : context.directory = directory
  issued : ∀ call ∈ context.issued, Holds call

/-- An answer keeps a property of all noted calls if it holds of every call that the request can
note. -/
theorem Notes.answer {id : ExecutableId} {directory : Directory} {Holds : Call → Prop}
    {context : Context} (notes : context.Notes id directory Holds) {request : Request}
    (each : ∀ {method name parameters callee}, request = .call method name parameters →
      directory.id? name = some callee → Holds {
        caller := id
        callee
        parameters := OrderedMap.ofList parameters
        method }) :
    (context.answer request).2.Notes id directory Holds := by
  obtain ⟨sameId, noted⟩ := context.issued_answer request
  refine ⟨sameId.trans notes.id, (context.leads_answer request).directory.trans notes.directory,
    fun call member => ?_⟩
  rcases noted with same | ⟨_, _, _, _, isCall, registered, noted⟩
  · rw [same] at member
    exact notes.issued call member
  · rw [noted] at member
    rcases List.mem_append.mp member with earlier | here
    · exact notes.issued call earlier
    · rw [List.mem_singleton.mp here, notes.id]
      exact each isCall (notes.directory ▸ registered)

end Context

/-- What holds of every call that a machine may make in a step holds of all calls it issues. -/
theorem Instance.forall_issued {running stepped : Instance} {id : ExecutableId}
    {arguments : PropertyList} {directory : Directory} {clock : Clock} {outcome : StepOutcome}
    {Holds : Call → Prop}
    (made : running.step id arguments directory clock = .ok (outcome, stepped))
    (each : ∀ {method name parameters callee},
      running.machine.MayRequest (.call method name parameters) →
        directory.id? name = some callee → Holds {
          caller := id
          callee
          parameters := OrderedMap.ofList parameters
          method }) :
    ∀ call ∈ outcome.issued, Holds call := by
  rcases step_cases made with ⟨_, rfl, _⟩ | ⟨state, target, after, _, found, ran, rfl, _⟩
  · exact fun _ impossible => nomatch impossible
  · have start : (running.context id arguments directory clock).Notes id directory Holds :=
      ⟨rfl, rfl, fun _ impossible => nomatch impossible⟩
    have kept := runState_preserves state running.entryPending
      (fun request may context (notes : context.Notes id directory Holds) =>
        notes.answer fun isCall registered =>
          each ⟨state, List.mem_of_getElem? found, isCall ▸ may⟩ registered) start
    rw [ran] at kept
    exact kept.issued

/-- A property of every call that a machine may request holds of the calls that a step of it issues.
-/
theorem Executable.forall_issued {executable stepped : Executable} {id : ExecutableId}
    {directory : Directory} {clock : Clock} {outcome : StepOutcome} {Holds : Call → Prop}
    (made : executable.step id directory clock = .ok (outcome, stepped))
    (each : ∀ {method name parameters callee},
      executable.running.machine.MayRequest (.call method name parameters) →
        directory.id? name = some callee → Holds {
          caller := id
          callee
          parameters := OrderedMap.ofList parameters
          method }) :
    ∀ call ∈ outcome.issued, Holds call := by
  obtain ⟨_, ⟨_, rfl⟩ | ⟨arguments, ran⟩⟩ := step_cases made
  · exact fun _ impossible => nomatch impossible
  · exact Instance.forall_issued ran each

/-- A step issues only calls that its machine may make. -/
theorem Instance.mayCall_of_issued {running stepped : Instance} {id : ExecutableId}
    {arguments : PropertyList} {directory : Directory} {clock : Clock} {outcome : StepOutcome}
    (made : running.step id arguments directory clock = .ok (outcome, stepped)) :
    ∀ call ∈ outcome.issued, running.machine.MayCall directory call.callee :=
  forall_issued made fun may registered => ⟨_, _, _, may, registered⟩

/-- The calls that a step issues go to executables that the machine may call. -/
theorem Executable.mayCall_of_issued {executable stepped : Executable} {id : ExecutableId}
    {directory : Directory} {clock : Clock} {outcome : StepOutcome}
    (made : executable.step id directory clock = .ok (outcome, stepped)) :
    ∀ call ∈ outcome.issued, executable.running.machine.MayCall directory call.callee :=
  forall_issued made fun may registered => ⟨_, _, _, may, registered⟩

/-- A call that is added to a chain becomes its last one, and the root stays. -/
theorem CallChain.add_eq_ok {chain extended : CallChain} {call : Call}
    (added : chain.add call = .ok extended) :
    extended.root = chain.root ∧ extended.calls = chain.calls ++ [call] := by
  unfold add at added
  split at added
  · cases added
  · split at added
    · cases added
    · cases added
      exact ⟨rfl, rfl⟩

namespace Dispatch

/-- The clock of an execution stands still and only learns of thresholds. -/
theorem preserved_leads (clock : Clock) :
    Preserved (fun state => Clock.Leads clock state.clock) (fun _ => True) where
  steps := fun leads _ made => ⟨leads.trans (Executable.leads_step made), fun _ _ => trivial⟩
  begins := by
    intro state begun call leads _ began
    obtain ⟨_, _, _, _, _, _, rfl⟩ := beginCall_eq_ok began
    exact leads
  closes := fun leads => leads

/-- Dispatching calls leads to a later clock if nested execution does. -/
theorem leads_dispatchCalls {nested : Dispatch → Except Fault Bool × Dispatch}
    (leads : ∀ state, Clock.Leads state.clock (nested state).2.clock) (calls : List Call)
    (state : Dispatch) : Clock.Leads state.clock (dispatchCalls nested calls state).2.clock :=
  dispatchCalls_preserves (preserved_leads state.clock)
    (fun inner earlier => earlier.trans (leads inner)) calls (fun _ _ => trivial) .rfl

/-- Execution leads to a later clock at any depth: it asks about thresholds and forgets none. -/
theorem leads_executeActive (depth : Nat) (state : Dispatch) :
    Clock.Leads state.clock (executeActive depth state).2.clock :=
  executeActive_preserves (preserved_leads state.clock) depth state .rfl

/-- The state of an execution all of whose open calls are among those that may run. -/
structure Inside (origin : Pool) (Runs : ExecutableId → Prop) (state : Dispatch) : Prop where
  descends : Pool.Descends origin state.pool
  root : Runs state.chain.root
  calls : ∀ call ∈ state.chain.calls, Runs call.callee

section Confined

variable {origin : Pool} {Runs Shown : ExecutableId → Prop} (confined : origin.Confined Runs Shown)

/-- The executable in control is among those that may run. -/
theorem Inside.active {state : Dispatch} (inside : Inside origin Runs state) :
    Runs state.chain.executable := by
  unfold CallChain.executable
  split
  · rename_i call isLast
    exact inside.calls call (List.mem_of_getLast? isLast)
  · exact inside.root

include confined

/-- Executions stay inside: only executables that may run come to be in control. -/
theorem preserved_inside :
    Preserved (Inside origin Runs) (fun call => Runs call.callee) where
  steps := by
    intro state executable stepped outcome inside found made
    have kept := ((preserved_descends origin).steps inside.descends found made).1
    refine ⟨⟨kept, inside.root, inside.calls⟩, fun call issued => ?_⟩
    obtain ⟨known, isKnown, sameMachine⟩ := inside.descends.exists_known found
    refine confined.calls inside.active isKnown ?_
    obtain ⟨method, name, parameters, may, isCallee⟩ :=
      Executable.mayCall_of_issued made call issued
    refine ⟨method, name, parameters, sameMachine ▸ may, ?_⟩
    rw [Directory.id?, ← Pool.names_directory_eq_of_frame inside.descends.frame]
    exact isCallee
  begins := by
    intro state begun call inside runs began
    have kept := (preserved_descends origin).begins inside.descends trivial began
    obtain ⟨chain, callee, started, opened, _, _, rfl⟩ := beginCall_eq_ok began
    have chained : Runs chain.root ∧ ∀ call ∈ chain.calls, Runs call.callee := by
      split at opened
      · obtain ⟨sameRoot, sameCalls⟩ := CallChain.add_eq_ok opened
        refine ⟨sameRoot ▸ inside.root, fun other member => ?_⟩
        rw [sameCalls] at member
        rcases List.mem_append.mp member with earlier | here
        · exact inside.calls other earlier
        · exact List.mem_singleton.mp here ▸ runs
      · cases opened
        exact ⟨inside.root, inside.calls⟩
    exact ⟨kept, chained.1, chained.2⟩
  closes := fun inside => ⟨inside.descends, inside.root,
    fun call member => inside.calls call (List.dropLast_subset _ member)⟩

end Confined

/-- The machines that may run read the time itself only if it is the same. -/
def Untimed (origin : Pool) (Runs : ExecutableId → Prop) (start time : Time) : Prop :=
  ∀ {id : ExecutableId} {executable : Executable}, Runs id → origin.get? id = some executable →
    executable.running.machine.MayRequest .elapsed → time = start

/-- The states differ only in what an execution cannot tell: one stands at `start`, the other at
`time`. -/
structure Agrees (Runs Shown : ExecutableId → Prop) (start time : Time) (left right : Dispatch) :
    Prop where
  pool : Pool.Agrees Runs Shown left.pool right.pool
  chain : right.chain = left.chain
  calls : right.calls = left.calls
  elapsed : left.clock.elapsed = start
  /-- The other clock has been asked the same. -/
  clock : right.clock = left.clock.movedTo time

section Agrees

variable {origin : Pool} {Runs Shown : ExecutableId → Prop} {start time : Time}
  {left right : Dispatch}

/-- In states that agree a call fails with the same fault, or begins and leaves states that agree.
-/
theorem Agrees.beginCall (agrees : Agrees Runs Shown start time left right) {call : Call}
    (may : Runs call.callee) :
    (∃ fault, left.beginCall call = .error fault ∧ right.beginCall call = .error fault) ∨
      ∃ begun begun', left.beginCall call = .ok begun ∧ right.beginCall call = .ok begun' ∧
        Agrees Runs Shown start time begun begun' := by
  have sameCallee : right.pool.get call.callee = left.pool.get call.callee := by
    rw [Pool.get, Pool.get, agrees.pool.runs _ may]
  unfold Dispatch.beginCall
  rw [agrees.chain, sameCallee]
  cases (if call.method.isSynchronous then left.chain.add call else .ok left.chain) with
  | error fault => exact .inl ⟨fault, rfl, rfl⟩
  | ok chain =>
      cases left.pool.get call.callee with
      | error fault => exact .inl ⟨fault, rfl, rfl⟩
      | ok callee =>
          cases begins : callee.begin call.parameters with
          | error fault =>
              simp only [begins]
              exact .inl ⟨fault, rfl, rfl⟩
          | ok begun =>
              simp only [begins]
              refine .inr ⟨_, _, rfl, rfl, agrees.pool.set may begun, rfl, ?_, agrees.elapsed,
                agrees.clock⟩
              rw [agrees.calls]

/-- Closing a call on both sides leaves states that agree. -/
theorem Agrees.closed (agrees : Agrees Runs Shown start time left right) :
    Agrees Runs Shown start time left.closed right.closed :=
  ⟨agrees.pool, congrArg CallChain.pop agrees.chain, agrees.calls, agrees.elapsed, agrees.clock⟩

variable (confined : origin.Confined Runs Shown) (untimed : Untimed origin Runs start time)
include confined untimed

/-- The step of the executable in control goes the same way in states that agree, if the clocks read
alike afterwards. -/
theorem Agrees.step (agrees : Agrees Runs Shown start time left right)
    (inside : Inside origin Runs left) {executable : Executable}
    (found : left.pool.get? left.chain.executable = some executable)
    (readsAs : ∀ outcome stepped, executable.step left.chain.executable left.pool.directory
      left.clock = .ok (outcome, stepped) → outcome.clock.ReadsAs time) :
    executable.step right.chain.executable right.pool.directory right.clock =
      (executable.step left.chain.executable left.pool.directory left.clock).map fun made =>
        (made.1.movedTo time, made.2) := by
  have may := inside.active
  obtain ⟨known, isKnown, sameMachine⟩ := inside.descends.exists_known found
  have distinct := inside.descends.wellFormed.nodup
  have distinct' : right.pool.ids.Nodup := by rwa [Pool.ids_eq_of_frame agrees.pool.frame]
  rw [agrees.chain, agrees.clock]
  refine executable.step_elsewhere left.chain.executable ⟨right.pool.directory, time⟩
    (fun request mayRequest => ⟨?_, ?_, ?_⟩) readsAs
  · exact Pool.names_directory_eq_of_frame agrees.pool.frame
  · rintro name rfl asked isAsked
    rw [Pool.result?_directory distinct, Pool.result?_directory distinct']
    refine agrees.pool.shown asked
      (confined.results may isKnown ⟨name, sameMachine ▸ mayRequest, ?_⟩)
    rw [Directory.id?, ← Pool.names_directory_eq_of_frame inside.descends.frame]
    exact isAsked
  · rintro rfl
    rw [agrees.elapsed]
    exact untimed may isKnown (sameMachine ▸ mayRequest)

/-- What it means that an execution goes the same way from states that agree. -/
def GoesAlong {α : Type} (origin : Pool) (Runs Shown : ExecutableId → Prop) (start time : Time)
    (execute : Dispatch → Except Fault α × Dispatch) : Prop :=
  ∀ {left right : Dispatch}, Agrees Runs Shown start time left right → Inside origin Runs left →
    (execute left).2.clock.ReadsAs time →
      (execute right).1 = (execute left).1 ∧
        Agrees Runs Shown start time (execute left).2 (execute right).2

omit untimed in
/-- Dispatching calls goes the same way from states that agree, if nested execution does. -/
theorem dispatchCalls_agrees {nested : Dispatch → Except Fault Bool × Dispatch}
    (stays : ∀ state, Inside origin Runs state → Inside origin Runs (nested state).2)
    (leads : ∀ state, Clock.Leads state.clock (nested state).2.clock)
    (inner : GoesAlong origin Runs Shown start time nested) (calls : List Call)
    (may : ∀ call ∈ calls, Runs call.callee) :
    GoesAlong origin Runs Shown start time (dispatchCalls nested calls) := by
  induction calls with
  | nil => exact fun agrees _ _ => ⟨rfl, agrees⟩
  | cons call rest others =>
      intro left right agrees inside readsAs
      have mayLater : ∀ later ∈ rest, Runs later.callee := fun later member =>
        may later (List.mem_cons_of_mem call member)
      rw [dispatchCalls] at readsAs ⊢
      rw [dispatchCalls]
      rcases agrees.beginCall (may call List.mem_cons_self) with
        ⟨fault, failed, failed'⟩ | ⟨begun, begun', began, began', agreesBegun⟩
      · rw [failed, failed']
        exact ⟨rfl, agrees⟩
      · have insideBegun := (preserved_inside confined).begins inside (may call List.mem_cons_self)
          began
        rw [began] at readsAs ⊢
        rw [began']
        dsimp only at readsAs ⊢
        by_cases synchronous : call.method.isSynchronous = true
        · rw [if_pos synchronous] at readsAs ⊢
          rw [if_pos synchronous]
          cases ran : nested begun with
          | mk outcome stepped =>
              have insideStepped : Inside origin Runs stepped := by
                have kept := stays begun insideBegun
                rwa [ran] at kept
              rw [ran] at readsAs
              have same := inner agreesBegun insideBegun (by
                rw [ran]
                cases outcome with
                | error fault => exact readsAs
                | ok answer =>
                    exact (leads_dispatchCalls leads rest stepped.closed).readsAs readsAs)
              rw [ran] at same
              cases ran' : nested begun' with
              | mk outcome' stepped' =>
                  rw [ran'] at same
                  obtain ⟨rfl, agreesStepped⟩ := same
                  cases outcome' with
                  | error fault => exact ⟨rfl, agreesStepped⟩
                  | ok answer =>
                      exact others mayLater agreesStepped.closed
                        ((preserved_inside confined).closes insideStepped) readsAs
        · rw [if_neg synchronous] at readsAs ⊢
          rw [if_neg synchronous]
          exact others mayLater agreesBegun insideBegun readsAs

/-- **Executions go the same way** from states that agree, at any depth. The induction is on the
depth. -/
theorem executeActive_agrees (depth : Nat) :
    GoesAlong origin Runs Shown start time (executeActive depth) := by
  induction depth with
  | zero =>
      intro left right agrees _ _
      rw [executeActive, executeActive, agrees.chain]
      exact ⟨rfl, agrees⟩
  | succ depth deeper =>
      intro left right agrees inside readsAs
      have sameGet : right.pool.get right.chain.executable =
          left.pool.get left.chain.executable := by
        rw [agrees.chain, Pool.get, Pool.get, agrees.pool.runs _ inside.active]
      rw [executeActive] at readsAs ⊢
      rw [executeActive, sameGet]
      cases found : left.pool.get left.chain.executable with
      | error fault => exact ⟨rfl, agrees⟩
      | ok executable =>
          have isFound := Pool.get_eq_ok_iff.mp found
          simp only [found] at readsAs
          -- The clock after the step reads the same, since the execution only asks more.
          have readsAsStep : ∀ outcome stepped, executable.step left.chain.executable
              left.pool.directory left.clock = .ok (outcome, stepped) →
                outcome.clock.ReadsAs time := by
            intro outcome stepped made
            simp only [made] at readsAs
            cases unresolved : outcome.unresolved with
            | cons callee others =>
                simp only [unresolved] at readsAs
                exact readsAs
            | nil =>
                simp only [unresolved] at readsAs
                exact (leads_dispatchCalls (leads_executeActive depth) _
                  (left.afterStep outcome stepped)).readsAs readsAs
          have stepped := agrees.step confined untimed inside isFound readsAsStep
          cases made : executable.step left.chain.executable left.pool.directory left.clock with
          | error fault =>
              rw [made] at stepped
              simp only [made, stepped]
              exact ⟨rfl, agrees⟩
          | ok answer =>
              obtain ⟨outcome, after⟩ := answer
              rw [made] at stepped
              obtain ⟨insideAfter, may⟩ := (preserved_inside confined).steps inside isFound made
              have agreesAfter : Agrees Runs Shown start time (left.afterStep outcome after)
                  (right.afterStep (outcome.movedTo time) after) := by
                refine ⟨?_, agrees.chain, agrees.calls, ?_, rfl⟩
                · simp only [afterStep, agrees.chain]
                  exact agrees.pool.set inside.active after
                · exact (Executable.leads_step made).elapsed.trans agrees.elapsed
              simp only [made, stepped, Except.map] at readsAs ⊢
              cases unresolved : outcome.unresolved with
              | cons callee others =>
                  simp only [unresolved, StepOutcome.movedTo]
                  exact ⟨trivial, agreesAfter⟩
              | nil =>
                  simp only [unresolved] at readsAs
                  have dispatched := dispatchCalls_agrees confined
                    (executeActive_preserves (preserved_inside confined) depth)
                    (leads_executeActive depth) deeper (dispatchOrder outcome.issued)
                    (fun call member => may call (mem_dispatchOrder.mp member)) agreesAfter
                    insideAfter readsAs
                  simp only [unresolved, StepOutcome.movedTo]
                  exact ⟨congrArg (Except.map _) dispatched.1, dispatched.2⟩

end Agrees

end Dispatch

/-- The depth bound depends on the declared parameters alone, so pools of one frame have the same.
-/
theorem Pool.callDepthBound_eq_of_frame {first second : Pool} (same : first.frame = second.frame) :
    first.callDepthBound = second.callDepthBound := by
  have bound : ∀ pool : Pool, pool.callDepthBound =
      1 + Count.sum (pool.frame.map fun known => known.2.2.elim 0 invocationBound) := by
    intro pool
    rw [callDepthBound, frame, List.map_map]
    refine congrArg (fun counts => 1 + Count.sum counts) (List.map_congr_left fun entry _ => ?_)
    rw [Function.comp_apply, PoolEntry.frame]
    cases entry.executable <;> rfl
  rw [bound, same, bound]

/-- Executing a timeslot leads to a later clock. -/
theorem leads_executeTimeslot (pool : Pool) (slot : Timeslot) (clock : Clock) :
    Clock.Leads clock (executeTimeslot pool slot clock).2.clock :=
  Dispatch.leads_executeActive pool.callDepthBound
    { pool, chain := slot.callChain, clock, calls := [] }

/-- **Executing a timeslot depends on little.** It goes the same way on pools that agree about
what may run and be asked for, and at times that its thresholds do not tell apart. -/
theorem executeTimeslot_agrees {origin : Pool} {Runs Shown : ExecutableId → Prop}
    {start time : Time} (confined : origin.Confined Runs Shown)
    (untimed : Dispatch.Untimed origin Runs start time) {pool other : Pool}
    (descends : Pool.Descends origin pool) (agrees : Pool.Agrees Runs Shown pool other)
    {slot : Timeslot} (root : Runs slot.callChain.root)
    (calls : ∀ call ∈ slot.callChain.calls, Runs call.callee) {timing : ScheduleTiming}
    (readsAs : (executeTimeslot pool slot (Clock.new timing start)).2.clock.ReadsAs time) :
    (executeTimeslot other slot (Clock.new timing time)).1 =
        (executeTimeslot pool slot (Clock.new timing start)).1 ∧
      Dispatch.Agrees Runs Shown start time (executeTimeslot pool slot (Clock.new timing start)).2
        (executeTimeslot other slot (Clock.new timing time)).2 := by
  have begins : Dispatch.Agrees Runs Shown start time
      { pool, chain := slot.callChain, clock := Clock.new timing start, calls := [] }
      { pool := other, chain := slot.callChain, clock := Clock.new timing time, calls := [] } :=
    ⟨agrees, rfl, rfl, rfl, rfl⟩
  have same := Dispatch.executeActive_agrees confined untimed pool.callDepthBound begins
    ⟨descends, root, calls⟩ readsAs
  unfold executeTimeslot
  rw [Pool.callDepthBound_eq_of_frame agrees.frame]
  refine ⟨?_, same.2⟩
  dsimp only
  rw [same.1, same.2.calls]

end TimedKripke
