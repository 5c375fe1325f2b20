import TimedKripke.Fault
import TimedKripke.Value.Basic

/-! # Calls

A machine can call a callable machine. A synchronous callee makes its step
before the caller's step counts as done; an asynchronous callee is only started.
-/

namespace TimedKripke

/-- The arguments of a call by parameter name; nothing selects the default. -/
abbrev Parameters := OrderedMap String (Option Value)

/-- How a call meets its caller. -/
inductive CallMethod where
  /-- The callee makes a step before the caller goes on. -/
  | synchronous
  /-- The callee is started and the caller goes on. -/
  | asynchronous
deriving DecidableEq, Repr

namespace CallMethod

/-- The short name of a method. -/
def display : CallMethod → String
  | synchronous => "sync"
  | asynchronous => "async"

/-- Synchronous calls come before asynchronous ones. -/
def rank : CallMethod → Nat
  | synchronous => 0
  | asynchronous => 1

/-- The method is synchronous. -/
def isSynchronous (method : CallMethod) : Bool :=
  method == synchronous

end CallMethod

/-- One machine calling another. -/
structure Call where
  caller : ExecutableId
  callee : ExecutableId
  parameters : Parameters
  /-- Whether the caller waits. -/
  method : CallMethod
deriving DecidableEq

namespace Call

/-- The same callee with the same arguments. -/
def sameInvocation (first second : Call) : Bool :=
  first.callee == second.callee && first.parameters == second.parameters

/-- The order of arguments: nothing before something. -/
def compareArgument : Option Value → Option Value → Ordering
  | none, none => .eq
  | none, some _ => .lt
  | some _, none => .gt
  | some first, some second => compare first second

/-- The order of argument lists: entry by entry, names before arguments. -/
def compareParameters : Parameters → Parameters → Ordering
  | [], [] => .eq
  | [], _ :: _ => .lt
  | _ :: _, [] => .gt
  | first :: firsts, second :: seconds =>
      ((compare first.1 second.1).then (compareArgument first.2 second.2)).then
        (compareParameters firsts seconds)

/-- The order of calls: by method, caller, callee and arguments. -/
def order (first second : Call) : Ordering :=
  (((compare first.method.rank second.method.rank).then
    (compare first.caller second.caller)).then
      (compare first.callee second.callee)).then
        (compareParameters first.parameters second.parameters)

instance : Ord Call := ⟨order⟩

/-- A call in words. -/
def display (call : Call) : String :=
  call.caller.display ++ " -[" ++ call.method.display ++ "]-> " ++ call.callee.display

end Call

end TimedKripke
