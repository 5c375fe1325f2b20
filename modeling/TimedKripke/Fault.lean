/-! # Faults

What can be wrong with a machine, a pool, a schedule or a call. A fault names its
cause; `Fault.message` is the one place where causes are put into words.
-/

namespace TimedKripke

/-- The number under which an executable is registered in a pool. -/
abbrev ExecutableId := Nat

/-- The number of a state in a Kripke structure. -/
abbrev StateId := Nat

/-- An executable in messages. -/
def ExecutableId.display (id : ExecutableId) : String :=
  "Executable(" ++ toString id ++ ")"

/-- A Kripke state in messages. -/
def StateId.display (id : StateId) : String :=
  "State(" ++ toString id ++ ")"

/-- A cause for which a model is refused or an execution stops. -/
inductive Fault where
  | unknownExecutable (id : ExecutableId)
  | duplicateExecutable (id : ExecutableId)
  | malformedSchedule (reason : String)
  /-- A machine calls a name that is not registered. -/
  | unknownCallee (caller callee : String)
  /-- A machine without parameters is called. -/
  | notCallable (machine : String)
  /-- A call repeats an invocation that is still open. -/
  | cyclicCall (root callee : ExecutableId)
  /-- A call does not come from the executable in control. -/
  | detachedCall (caller active : ExecutableId)
  /-- Open calls are nested beyond every bound. -/
  | callDepthExceeded (root : ExecutableId)
  /-- The values of a source cannot be listed. -/
  | unenumerableDomain (name : String)
  | duplicateField (name field : String)
  | unknownState (machine state : String)
  | duplicateState (machine state : String)
  /-- A machine declares nothing under that name. -/
  | unknownVariable (machine name : String)
  /-- A value is not of the type declared for its name. -/
  | typeMismatch (name expected : String)
  | emptyMachine (machine : String)
deriving DecidableEq, Repr

namespace Fault

/-- A name set off from the text around it. -/
def mark (name : String) : String :=
  "`" ++ name ++ "`"

/-- A fault in words. -/
def message : Fault → String
  | unknownExecutable id => id.display ++ " is not registered in the executable pool"
  | duplicateExecutable id => id.display ++ " is registered more than once"
  | malformedSchedule reason => "malformed schedule: " ++ reason
  | unknownCallee caller callee =>
      mark caller ++ " called unregistered executable " ++ mark callee
  | notCallable machine =>
      mark machine ++ " is not a parameterised machine and cannot be called"
  | cyclicCall root callee =>
      "cyclic call to " ++ callee.display ++ " in call chain rooted at " ++ root.display
  | detachedCall caller active =>
      "call from " ++ caller.display ++ " does not originate from active executable " ++
        active.display
  | callDepthExceeded root => "calls in the call chain rooted at " ++ root.display ++
      " are nested too deeply"
  | unenumerableDomain name => "domain of " ++ mark name ++ " cannot be enumerated"
  | duplicateField name field =>
      "type of " ++ mark name ++ " declares field " ++ mark field ++ " more than once"
  | unknownState machine state =>
      "machine " ++ mark machine ++ " has no state named " ++ mark state
  | duplicateState machine state =>
      "machine " ++ mark machine ++ " declares state " ++ mark state ++ " more than once"
  | unknownVariable machine name =>
      "machine " ++ mark machine ++ " has no variable, external or parameter named " ++ mark name
  | typeMismatch name expected =>
      "value for " ++ mark name ++ " does not match its declared type " ++ mark expected
  | emptyMachine machine => "machine " ++ mark machine ++ " has no states"

/-- The name of a fault's cause. -/
def kind : Fault → String
  | unknownExecutable _ => "UnknownExecutable"
  | duplicateExecutable _ => "DuplicateExecutable"
  | malformedSchedule _ => "MalformedSchedule"
  | unknownCallee _ _ => "UnknownCallee"
  | notCallable _ => "NotCallable"
  | cyclicCall _ _ => "CyclicCall"
  | detachedCall _ _ => "DetachedCall"
  | callDepthExceeded _ => "CallDepthExceeded"
  | unenumerableDomain _ => "UnenumerableDomain"
  | duplicateField _ _ => "DuplicateField"
  | unknownState _ _ => "UnknownState"
  | duplicateState _ _ => "DuplicateState"
  | unknownVariable _ _ => "UnknownVariable"
  | typeMismatch _ _ => "TypeMismatch"
  | emptyMachine _ => "EmptyMachine"

end Fault

end TimedKripke
