import TimedKripke.Document.Value
import TimedKripke.Program.Script

/-! # Documents of scripts

A script is an array of an operator's name and its operands. What an operand is
depends on the operator: a script, a name, a time, a type, a value, or an object of
scripts. Operands beyond those that an operator takes are not looked at.
-/

namespace TimedKripke

namespace Script

/-- An operand of a script, in every reading that it has. -/
structure Operand where
  document : Json
  script? : Option Script
  /-- The operand as an object of scripts, in the order of its members. -/
  fields? : Option (List (String × Script))

namespace Operand

/-- The operand as a name. -/
def name? (operand : Operand) : Option String :=
  operand.document.string?

end Operand

/-- The scripts without operands. -/
def nullary? : String → Option Script
  | "none" => some .none
  | "elapsed" => some .elapsed
  | "ringlet_length" => some .ringletLength
  | "machine" => some .machineName
  | "id" => some .executableId
  | _ => Option.none

/-- The scripts that take one name. -/
def ofName? (operator name : String) : Option Script :=
  match operator with
  | "var" => some (.getVariable name)
  | "ext" => some (.getExternal name)
  | "bool_ext" => some (.flag name)
  | "param" => some (.parameter name)
  | "result_of" => some (.resultOf name)
  | _ => Option.none

/-- The scripts that take one script. -/
def unary? (operator : String) (operand : Script) : Option Script :=
  match operator with
  | "after_of" => some (.afterOf operand)
  | "not" => some (.not operand)
  | "some" => some (.optional operand)
  | "set_result" => some (.setResult operand)
  | _ => Option.none

/-- The scripts that take a name and a script. -/
def ofNameAndScript? (operator name : String) (operand : Script) : Option Script :=
  match operator with
  | "lookup" => some (.lookup name operand)
  | "set_var" => some (.setVariable name operand)
  | "set_ext" => some (.setExternal name operand)
  | _ => Option.none

/-- The scripts that take two scripts. -/
def binary? (operator : String) (first second : Script) : Option Script :=
  match operator with
  | "eq" => some (.equal first second)
  | "lt" => some (.less first second)
  | _ => Option.none

/-- The scripts that take any number of scripts. -/
def variadic? (operator : String) (operands : List Script) : Option Script :=
  match operator with
  | "and" => some (.all operands)
  | "or" => some (.any operands)
  | "seq" => some (.sequence operands)
  | _ => Option.none

/-- The arithmetic operator of a name. -/
def arithmetic? : String → Option Arithmetic
  | "add" => some .add
  | "sub" => some .sub
  | "mul" => some .mul
  | "mod" => some .mod
  | _ => Option.none

/-- The method of calling that an operator stands for. -/
def callMethod? : String → Option CallMethod
  | "call" => some .synchronous
  | "invoke" => some .asynchronous
  | _ => Option.none

/-- The script of an operator with literal operands. -/
def ofLiteral? (operator : String) (body : Json) : Option Script :=
  match operator with
  | "lit" => (Value.ofJson? body).map .literal
  | "after" => (Time.ofJson? body).map .after
  | _ => Option.none

/-- The script of an operator that takes one operand. -/
def ofOne? (operator : String) (operand : Operand) : Option Script :=
  (((ofLiteral? operator operand.document).or (operand.name?.bind (ofName? operator))).or
    (operand.script?.bind (unary? operator))).or
      (if operator = "compound" then operand.fields?.map .compound else Option.none)

/-- The script of an operator that takes two operands. -/
def ofTwo? (operator : String) (first second : Operand) : Option Script :=
  ((do ofNameAndScript? operator (← first.name?) (← second.script?)) <|>
    (do binary? operator (← first.script?) (← second.script?))) <|>
      (do return .call (← callMethod? operator) (← first.name?) (← second.fields?))

/-- The script of an operator that takes three operands. -/
def ofThree? (operator : String) (first second third : Operand) : Option Script :=
  if operator = "if" then do
    return .ite (← first.script?) (← second.script?) (← third.script?)
  else do
    return .arithmetic (← arithmetic? operator) (← ValueType.ofJson? first.document)
      (← second.script?) (← third.script?)

/-- The script of an operator and its operands. The names of operators are distinct, so
at most one of the forms applies. -/
def ofOperands? (operator : String) (operands : List Operand) : Option Script :=
  ((nullary? operator).or ((operands.mapM Operand.script?).bind (variadic? operator))).or
    (match operands with
    | first :: second :: third :: _ =>
        ((ofOne? operator first).or (ofTwo? operator first second)).or
          (ofThree? operator first second third)
    | [first, second] => (ofOne? operator first).or (ofTwo? operator first second)
    | [first] => ofOne? operator first
    | [] => Option.none)

mutual

/-- Reads the document of a script. -/
def ofJson? : Json → Option Script
  | .array (.string operator :: operands) => ofOperands? operator (operandsOfJson operands)
  | _ => Option.none

/-- Reads an object of scripts. -/
def fieldsOfJson? : Json → Option (List (String × Script))
  | .object members => membersOfJson? members
  | _ => Option.none

/-- Reads the members of an object of scripts. -/
def membersOfJson? : List (String × Json) → Option (List (String × Script))
  | [] => some []
  | (name, body) :: rest =>
      match ofJson? body, membersOfJson? rest with
      | some script, some scripts => some ((name, script) :: scripts)
      | _, _ => Option.none

/-- Reads operands in every way. -/
def operandsOfJson : List Json → List Operand
  | [] => []
  | document :: rest =>
      { document, script? := ofJson? document, fields? := fieldsOfJson? document } ::
        operandsOfJson rest

end

end Script

end TimedKripke
