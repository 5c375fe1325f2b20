import TimedKripke.Count
import TimedKripke.Enumeration.Domain
import TimedKripke.Pool.Basic
import TimedKripke.Schedule.Timeslot

/-! # Executing a timeslot

The executable in control of a timeslot's call chain makes one step, and then the
calls of that step are dispatched: the synchronous ones first, each of them opened on
the chain, begun and made to step with all its own calls before the next, then the
asynchronous ones, which are only begun.

An execution that fails keeps what it did before it failed. The depth of nested calls
is bounded (`Pool.callDepthBound`): the chain holds no invocation twice, and where
arguments come from finite domains there are no more invocations than the bound
counts.
-/

namespace TimedKripke

namespace Pool

/-- The bound on open invocations of machines whose arguments cannot be counted. -/
def uncountedInvocations : Nat := 18446744073709551616

/-- The number of ways to call a machine with the given parameters: each may be left
out, given as nothing, or given a value of its type. -/
def invocationBound (parameters : List (String × ValueType)) : Nat :=
  if parameters.all fun declared => declared.2.isEnumerable then
    Count.product (parameters.map fun declared => declared.2.cardinality + 2)
  else uncountedInvocations

/-- A bound on the depth of nested steps. -/
def callDepthBound (pool : Pool) : Nat :=
  1 + Count.sum (pool.entries.map fun entry =>
    match entry.executable with
    | .scheduled _ => 0
    | .callable served => invocationBound served.parameters)

end Pool

/-- The state of an execution. -/
structure Dispatch where
  pool : Pool
  chain : CallChain
  /-- The clock all steps of the execution share. -/
  clock : Clock
  /-- The calls dispatched so far, in order. -/
  calls : List Call

/-- The effects of executing a timeslot. -/
structure Execution where
  /-- The executable in control made a transition. -/
  transitioned : Bool
  /-- The calls dispatched, nested ones included, in order. -/
  calls : List Call

namespace Dispatch

/-- Starts to serve a call: a synchronous one is opened on the chain, the callee
begins, and the call is noted. -/
def beginCall (state : Dispatch) (call : Call) : Except Fault Dispatch :=
  match (if call.method.isSynchronous then state.chain.add call else .ok state.chain) with
  | .error fault => .error fault
  | .ok chain =>
      match state.pool.get call.callee with
      | .error fault => .error fault
      | .ok callee =>
          match callee.begin call.parameters with
          | .error fault => .error fault
          | .ok begun => .ok { state with
              pool := state.pool.set call.callee begun
              chain
              calls := state.calls ++ [call] }

/-- Dispatches calls in order; `nested` makes the step of a synchronous callee. -/
def dispatchCalls (nested : Dispatch → Except Fault Bool × Dispatch) :
    List Call → Dispatch → Except Fault Unit × Dispatch
  | [], state => (.ok (), state)
  | call :: rest, state =>
      match state.beginCall call with
      | .error fault => (.error fault, state)
      | .ok begun =>
          if call.method.isSynchronous then
            match nested begun with
            | (.error fault, stepped) => (.error fault, stepped)
            | (.ok _, stepped) =>
                dispatchCalls nested rest { stepped with chain := stepped.chain.pop }
          else dispatchCalls nested rest begun

/-- Calls in the order of dispatch: the synchronous ones before the others. -/
def dispatchOrder (issued : List Call) : List Call :=
  issued.filter (fun call => call.method.isSynchronous) ++
    issued.filter fun call => !call.method.isSynchronous

/-- Makes the step of the executable in control and dispatches its calls, with at most
`depth` steps nested in each other. Answers whether the executable made a
transition. -/
def executeActive : (depth : Nat) → Dispatch → Except Fault Bool × Dispatch
  | 0, state => (.error (.callDepthExceeded state.chain.root), state)
  | depth + 1, state =>
      let id := state.chain.executable
      match state.pool.get id with
      | .error fault => (.error fault, state)
      | .ok executable =>
          match executable.step id state.pool.directory state.clock with
          | .error fault => (.error fault, state)
          | .ok (outcome, stepped) =>
              let state := { state with pool := state.pool.set id stepped, clock := outcome.clock }
              match outcome.unresolved with
              | callee :: _ => (.error (.unknownCallee stepped.name callee), state)
              | [] =>
                  let dispatched :=
                    dispatchCalls (executeActive depth) (dispatchOrder outcome.issued) state
                  (dispatched.1.map fun _ => outcome.transitioned, dispatched.2)

end Dispatch

/-- Executes a timeslot on a pool. -/
def executeTimeslot (pool : Pool) (slot : Timeslot) (clock : Clock) :
    Except Fault Execution × Dispatch :=
  let executed := Dispatch.executeActive pool.callDepthBound
    { pool, chain := slot.callChain, clock, calls := [] }
  (executed.1.map fun transitioned => { transitioned, calls := executed.2.calls }, executed.2)

end TimedKripke
