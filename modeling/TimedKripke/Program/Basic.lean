import TimedKripke.Call.Basic
import TimedKripke.Time

/-! # Programs of machines

The actions and guards of a machine are programs that speak to the machine through a
fixed set of requests: reading and writing its data, asking its clock, calling other
machines. A program is the tree of everything it may do: a request with a
continuation for every answer, or a result. Nothing else is visible to a program, so
what holds of every answer to a request holds of every program.

A program always ends with a result: it neither runs forever nor panics. So a step of a
machine fails only for a reason that `Fault` lists.
-/

namespace TimedKripke

/-- What a program can ask of the machine it runs in. -/
inductive Request where
  | getVariable (name : String)
  | getExternal (name : String)
  /-- The argument of the call being served. -/
  | parameter (name : String)
  /-- The latest result of the executable of a name. -/
  | resultOf (name : String)
  /-- Whether more than a time has passed in the current state. -/
  | after (threshold : Time)
  /-- The time passed in the current state. -/
  | elapsed
  /-- The length of the machine's timeslot. -/
  | ringletLength
  | machineName
  | executableId
  | setVariable (name : String) (value : Value)
  | setExternal (name : String) (value : Value)
  /-- Set the result of the call being served. -/
  | setResult (value : Value)
  | call (method : CallMethod) (name : String) (parameters : Parameters)

/-- The kind of answer a request gets. -/
abbrev Request.Answer : Request → Type
  | getVariable _ | getExternal _ | parameter _ | resultOf _ => Option Value
  | after _ | setVariable _ _ | setExternal _ _ => Bool
  | elapsed => Time
  | ringletLength => Option Time
  | machineName => String
  | executableId => ExecutableId
  | setResult _ => Unit
  | call _ _ _ => Option ExecutableId

/-- A program with results in `α`. -/
inductive Program (α : Type) where
  | done (result : α)
  | ask (request : Request) (next : request.Answer → Program α)

namespace Program

/-- The answer to one request. -/
def request (request : Request) : Program request.Answer :=
  .ask request .done

/-- Runs one program and then the program its result selects. -/
def bind {α β : Type} (program : Program α) (next : α → Program β) : Program β :=
  match program with
  | .done result => next result
  | .ask request rest => .ask request fun answer => (rest answer).bind next

instance : Monad Program where
  pure := .done
  bind := bind

end Program

end TimedKripke
