import TimedKripke.Machine.Blueprint

/-! # Scripts

Actions and guards can be written as scripts, which are data: they can be read from
documents and compared. A script has a value or none. `Script.program` is the program
that a script stands for; everything a script does to its machine it does through the
requests of that program.
-/

namespace TimedKripke

/-- The arithmetic operators of scripts. -/
inductive Arithmetic where
  | add | sub | mul
  /-- The remainder that is never negative. -/
  | mod
deriving DecidableEq, Repr

namespace Arithmetic

/-- The result of an operation that does not overflow 128 bits. -/
def compute? (operator : Arithmetic) (first second : Int) : Option Int :=
  let result := match operator with
    | add => some (first + second)
    | sub => some (first - second)
    | mul => some (first * second)
    | mod => if second = 0 then none else some (first % second)
  result.filter fun n =>
    decide (-170141183460469231731687303715884105728 ≤ n) &&
      decide (n ≤ 170141183460469231731687303715884105727)

end Arithmetic

/-- An expression with effects. -/
inductive Script where
  | none
  | literal (value : Value)
  | getVariable (name : String)
  | getExternal (name : String)
  /-- The truth value of an external; false if it is no boolean. -/
  | flag (name : String)
  | parameter (name : String)
  | resultOf (name : String)
  | after (threshold : Time)
  /-- More than a computed time has passed; no value if it is no time. -/
  | afterOf (threshold : Script)
  | elapsed
  | ringletLength
  | machineName
  | executableId
  /-- The operand is not true. -/
  | not (operand : Script)
  /-- All operands are true; operands after the first that is not are left out. -/
  | all (operands : List Script)
  /-- Some operand is true; operands after the first that is are left out. -/
  | any (operands : List Script)
  /-- The operands have the same value or both have none. -/
  | equal (first second : Script)
  /-- The first value comes before the second; no value if an operand has none. -/
  | less (first second : Script)
  /-- One of two scripts, by a condition. -/
  | ite (condition whenTrue whenFalse : Script)
  /-- Arithmetic on integers of any kind, with a result of the given type. -/
  | arithmetic (operator : Arithmetic) (type : ValueType) (first second : Script)
  /-- The value at a path inside the operand's value. -/
  | lookup (path : String) (operand : Script)
  /-- The operand's value as an optional. -/
  | optional (operand : Script)
  /-- Named fields; no value as soon as a field has none. -/
  | compound (fields : List (String × Script))
  | setVariable (name : String) (operand : Script)
  | setExternal (name : String) (operand : Script)
  | setResult (operand : Script)
  /-- Call an executable; a parameter without a value is passed as nothing. -/
  | call (method : CallMethod) (name : String) (parameters : List (String × Script))
  /-- All scripts in order, with the value of the last. -/
  | sequence (scripts : List Script)

namespace Script

/-- A value is the boolean true. -/
def truth : Option Value → Bool
  | some value => value.isTrue
  | .none => false

/-- A time as a value. -/
def ofTime (time : Time) : Value :=
  .int .u64 time.toNat ⟨Int.natCast_nonneg _, by
    have bound := time.toNat_lt
    show (time.toNat : Int) ≤ 18446744073709551615
    omega⟩

/-- An id as a value. -/
def ofId (id : ExecutableId) : Option Value :=
  (ValueType.int .u64).integerValue id

/-- The time that an integer value stands for. -/
def time? (value : Option Value) : Option Time :=
  (value.bind Value.int?).bind fun
    | .ofNat n => Time.ofNat? n
    | _ => .none

/-- The value of a call: the callee and the method. -/
def callValue (method : CallMethod) (callee : Option ExecutableId) : Option Value :=
  (callee.bind ofId).map fun callee =>
    .compound [("callee", callee), ("method", .string method.display)]

/-- The value of an arithmetic operation. -/
def arithmeticValue (operator : Arithmetic) (type : ValueType) (first second : Option Value) :
    Option Value := do
  type.integerValue (← operator.compute? (← first.bind Value.int?) (← second.bind Value.int?))

/-- The value of a comparison. -/
def lessValue (first second : Option Value) : Option Value := do
  return .bool (compare (← first) (← second) == .lt)

mutual

/-- The program of a script, followed by what `next` makes of its value. -/
def compile {α : Type} : Script → (Option Value → Program α) → Program α
  | .none, next => next .none
  | .literal value, next => next (some value)
  | .getVariable name, next => .ask (.getVariable name) next
  | .getExternal name, next => .ask (.getExternal name) next
  | .flag name, next => .ask (.getExternal name) fun value => next (some (.bool (truth value)))
  | .parameter name, next => .ask (.parameter name) next
  | .resultOf name, next => .ask (.resultOf name) next
  | .after threshold, next => .ask (.after threshold) fun passed => next (some (.bool passed))
  | .afterOf threshold, next => compile threshold fun value =>
      match time? value with
      | some threshold => .ask (.after threshold) fun passed => next (some (.bool passed))
      | .none => next .none
  | .elapsed, next => .ask .elapsed fun time => next (some (ofTime time))
  | .ringletLength, next => .ask .ringletLength fun time => next (time.map ofTime)
  | .machineName, next => .ask .machineName fun name => next (some (.string name))
  | .executableId, next => .ask .executableId fun id => next (ofId id)
  | .not operand, next => compile operand fun value => next (some (.bool (!truth value)))
  | .all operands, next => compileAll operands next
  | .any operands, next => compileAny operands next
  | .equal first second, next => compile first fun first => compile second fun second =>
      next (some (.bool (first == second)))
  | .less first second, next => compile first fun first => compile second fun second =>
      next (lessValue first second)
  | .ite condition whenTrue whenFalse, next => compile condition fun value =>
      if truth value then compile whenTrue next else compile whenFalse next
  | .arithmetic operator type first second, next =>
      compile first fun first => compile second fun second =>
        next (arithmeticValue operator type first second)
  | .lookup path operand, next => compile operand fun value =>
      next (value.bind fun value => value.lookup path)
  | .optional operand, next => compile operand fun value =>
      next (some (match value with
        | some value => .present value
        | .none => .absent))
  | .compound fields, next => compileFields [] fields next
  | .setVariable name operand, next => compile operand fun
      | some value => .ask (.setVariable name value) fun written => next (some (.bool written))
      | .none => next .none
  | .setExternal name operand, next => compile operand fun
      | some value => .ask (.setExternal name value) fun written => next (some (.bool written))
      | .none => next .none
  | .setResult operand, next => compile operand fun
      | some value => .ask (.setResult value) fun _ => next .none
      | .none => next .none
  | .call method name parameters, next => compileParameters [] parameters fun given =>
      .ask (.call method name given) fun callee => next (callValue method callee)
  | .sequence scripts, next => compileSequence .none scripts next

/-- The program of a conjunction. -/
def compileAll {α : Type} : List Script → (Option Value → Program α) → Program α
  | [], next => next (some (.bool true))
  | first :: rest, next => compile first fun value =>
      if truth value then compileAll rest next else next (some (.bool false))

/-- The program of a disjunction. -/
def compileAny {α : Type} : List Script → (Option Value → Program α) → Program α
  | [], next => next (some (.bool false))
  | first :: rest, next => compile first fun value =>
      if truth value then next (some (.bool true)) else compileAny rest next

/-- The program of named fields, above those already computed. -/
def compileFields {α : Type} (computed : PropertyList) :
    List (String × Script) → (Option Value → Program α) → Program α
  | [], next => next (some (.compound computed))
  | (name, script) :: rest, next => compile script fun
      | some value => compileFields (OrderedMap.insert name value computed) rest next
      | .none => next .none

/-- The program of parameters, above those already computed. -/
def compileParameters {α : Type} (computed : Parameters) :
    List (String × Script) → (Parameters → Program α) → Program α
  | [], next => next computed
  | (name, script) :: rest, next => compile script fun value =>
      compileParameters (OrderedMap.insert name value computed) rest next

/-- The program of a sequence, where `last` is the value of the script before. -/
def compileSequence {α : Type} (last : Option Value) :
    List Script → (Option Value → Program α) → Program α
  | [], next => next last
  | first :: rest, next => compile first fun value => compileSequence value rest next

end

/-- The program of a script. -/
def program (script : Script) : Program (Option Value) :=
  script.compile .done

/-- The script as an action. -/
def action (script : Script) : Program Unit :=
  script.compile fun _ => .done ()

/-- The script as a guard, which answers whether its value is true. -/
def guard (script : Script) : Program Bool :=
  script.compile fun value => .done (truth value)

end Script

end TimedKripke
