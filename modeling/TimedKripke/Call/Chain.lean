import TimedKripke.Call.Basic

/-! # Call chains

The synchronous calls that are open while a timeslot runs, from the scheduled root
inwards. The callee of the innermost call is in control, or the root when no call is
open. A chain only grows by calls of the executable in control, never calls its root
and never repeats an open invocation.
-/

namespace TimedKripke

/-- The open synchronous calls below a scheduled executable. -/
structure CallChain where
  /-- The scheduled executable. -/
  root : ExecutableId
  /-- The open calls, outermost first. -/
  calls : List Call
deriving DecidableEq

namespace CallChain

/-- The chain without open calls. -/
def new (root : ExecutableId) : CallChain :=
  { root, calls := [] }

/-- The executable in control. -/
def executable (chain : CallChain) : ExecutableId :=
  match chain.calls.getLast? with
  | some call => call.callee
  | none => chain.root

/-- The executable is the root or has an open call. -/
def contains (chain : CallChain) (id : ExecutableId) : Bool :=
  chain.root == id || chain.calls.any fun call => call.callee == id

/-- Opens a call. -/
def add (chain : CallChain) (call : Call) : Except Fault CallChain :=
  if call.caller ≠ chain.executable then
    .error (.detachedCall call.caller chain.executable)
  else if call.callee = chain.root ∨ chain.calls.any (fun other => other.sameInvocation call) then
    .error (.cyclicCall chain.root call.callee)
  else .ok { chain with calls := chain.calls ++ [call] }

/-- Closes the innermost call. -/
def pop (chain : CallChain) : CallChain :=
  { chain with calls := chain.calls.dropLast }

/-- A chain in words, from the root inwards. -/
def display (chain : CallChain) : String :=
  chain.calls.foldl (fun text call => text ++ " -> " ++ call.callee.display) chain.root.display

/-- Closing the call that was just opened gives back the chain. -/
theorem pop_of_add {chain extended : CallChain} {call : Call}
    (added : chain.add call = .ok extended) : extended.pop = chain := by
  unfold add at added
  split at added
  · exact nomatch added
  · split at added
    · exact nomatch added
    · cases added
      simp [pop]

end CallChain

end TimedKripke
