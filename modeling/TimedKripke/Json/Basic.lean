import TimedKripke.Json.Numeral
import TimedKripke.OrderedMap

/-! # JSON documents

States, schedules, calls and settings are exchanged and stored as JSON text.
This module holds the documents and their compact text: no blanks, members in the
order given, and escapes only where the format needs one.
-/

namespace TimedKripke

/-- A JSON document. Members of an object keep their order and may repeat a name. -/
inductive Json where
  | null
  | bool (b : Bool)
  /-- A number written as an integer of at most 64 bits. -/
  | int (n : Int)
  /-- Any other number. -/
  | fraction (numeral : Numeral)
  | string (s : String)
  | array (elements : List Json)
  | object (members : List (String × Json))
  /-- A part of a text that is well formed and cannot be taken in. It has no text of its
  own. -/
  | unread

namespace Json

/-- The members of an object. -/
abbrev Members := List (String × Json)

instance : Inhabited Json := ⟨.null⟩

/-- A hexadecimal digit in lower case. -/
def hexDigit (n : Nat) : Char :=
  if n < 10 then Char.ofNat (48 + n) else Char.ofNat (87 + n)

/-- A character inside a quoted text: quotes, backslashes and control characters are
escaped, all others stand for themselves. -/
def escaped (c : Char) : List Char :=
  if c = '"' then ['\\', '"']
  else if c = '\\' then ['\\', '\\']
  else if c = '\x08' then ['\\', 'b']
  else if c = '\x0c' then ['\\', 'f']
  else if c = '\n' then ['\\', 'n']
  else if c = '\r' then ['\\', 'r']
  else if c = '\t' then ['\\', 't']
  else if c.toNat < 32 then
    ['\\', 'u', '0', '0', hexDigit (c.toNat / 16), hexDigit (c.toNat % 16)]
  else [c]

/-- A text in quotes. -/
def quoted (s : String) : List Char :=
  '"' :: (s.toList.flatMap escaped ++ ['"'])

mutual

/-- The compact text of a document. -/
def chars : Json → List Char
  | .null => ['n', 'u', 'l', 'l']
  | .bool true => ['t', 'r', 'u', 'e']
  | .bool false => ['f', 'a', 'l', 's', 'e']
  | .int n => Numeral.decimal n
  | .fraction numeral => numeral.chars
  | .string s => quoted s
  | .array [] => ['[', ']']
  | .array (first :: rest) => '[' :: (chars first ++ moreElements rest)
  | .object [] => ['\x7b', '\x7d']
  | .object ((key, first) :: rest) =>
      '\x7b' :: (quoted key ++ ':' :: (chars first ++ moreMembers rest))
  | .unread => []

/-- The elements after the first, and the closing bracket. -/
def moreElements : List Json → List Char
  | [] => [']']
  | next :: rest => ',' :: (chars next ++ moreElements rest)

/-- The members after the first, and the closing brace. -/
def moreMembers : List (String × Json) → List Char
  | [] => ['\x7d']
  | (key, next) :: rest => ',' :: (quoted key ++ ':' :: (chars next ++ moreMembers rest))

end

/-- The compact text of a document. -/
def render (document : Json) : String :=
  String.ofList document.chars

mutual

/-- The document with the members of every object in name order and, of members with
one name, only the last. -/
def canonical : Json → Json
  | .array elements => .array (canonicalElements elements)
  | .object members => .object (canonicalMembers [] members)
  | document => document

/-- The elements of an array, each in canonical form. -/
def canonicalElements : List Json → List Json
  | [] => []
  | first :: rest => canonical first :: canonicalElements rest

/-- The members of an object in canonical form, above those already written. -/
def canonicalMembers (written : OrderedMap String Json) :
    List (String × Json) → OrderedMap String Json
  | [] => written
  | (key, first) :: rest =>
      canonicalMembers (OrderedMap.insert key (canonical first) written) rest

end

/-- A natural number. -/
def nat (n : Nat) : Json :=
  .int n

/-- The document of a number as it is written. -/
def ofNumeral (numeral : Numeral) : Json :=
  match numeral.integer? with
  | some n => .int n
  | none => .fraction numeral

/-- An optional part, `null` when it is missing. -/
def optional {α : Type} (write : α → Json) : Option α → Json
  | some part => write part
  | none => .null

/-- A list of parts. -/
def list {α : Type} (write : α → Json) (parts : List α) : Json :=
  .array (parts.map write)

/-- A list of texts. -/
def texts (parts : List String) : Json :=
  list string parts

/-- A list of natural numbers. -/
def nats (parts : List Nat) : Json :=
  list nat parts

/-- A list of truth values. -/
def bools (parts : List Bool) : Json :=
  list bool parts

/-- The truth value of a document that is one. -/
def bool? : Json → Option Bool
  | .bool b => some b
  | _ => none

/-- The integer of a document that is one. -/
def int? : Json → Option Int
  | .int n => some n
  | _ => none

/-- The natural number of a document that is one. -/
def nat? : Json → Option Nat
  | .int (.ofNat n) => some n
  | _ => none

/-- The text of a document that is one. -/
def string? : Json → Option String
  | .string s => some s
  | _ => none

/-- The elements of an array. -/
def array? : Json → Option (List Json)
  | .array elements => some elements
  | _ => none

/-- The members of an object. -/
def object? : Json → Option (List (String × Json))
  | .object members => some members
  | _ => none

/-- The member of an object under `name`. -/
def member? (name : String) : Json → Option Json
  | .object members => members.lookup name
  | _ => none

/-- Reads an array whose elements `read` understands. -/
def list? {α : Type} (read : Json → Option α) (document : Json) : Option (List α) :=
  document.array?.bind (List.mapM read)

/-- Reads `null` as nothing and anything else with `read`. -/
def nullable? {α : Type} (read : Json → Option α) : Json → Option (Option α)
  | .null => some none
  | document => (read document).map some

/-- Reads an object as a map; of members with one name the last counts. -/
def map? {α : Type} (read : Json → Option α) (document : Json) :
    Option (OrderedMap String α) :=
  document.object?.bind fun members =>
    (members.mapM fun member : String × Json =>
      (read member.2).map fun value => (member.1, value)).map OrderedMap.ofList

/-- Reads the member of an object under `name`. -/
def field? {α : Type} (document : Json) (name : String) (read : Json → Option α) : Option α :=
  (document.member? name).bind read

/-- Reads the member of an object under `name`, or gives `absent` if there is none. -/
def fieldD? {α : Type} (document : Json) (name : String) (read : Json → Option α) (absent : α) :
    Option α :=
  match document.member? name with
  | some body => read body
  | none => some absent

/-- Reads the member of an object under `name`, which may be missing. -/
def optionalField? {α : Type} (document : Json) (name : String) (read : Json → Option α) :
    Option (Option α) :=
  document.fieldD? name (fun body => (read body).map some) none

/-- Reads the member of an object under `name`, which may be missing or `null`. -/
def nullableField? {α : Type} (document : Json) (name : String) (read : Json → Option α) :
    Option (Option α) :=
  document.fieldD? name (Json.nullable? read) none

/-- Reads a record with the given field names: from an object, in which a field may
stand once and unknown members are ignored, or from an array with one element per
field. A field that an object does not mention is `none`. -/
def record? (names : List String) : Json → Option (List (Option Json))
  | .object members =>
      names.mapM fun name =>
        match members.filter fun entry => entry.1 == name with
        | [] => some none
        | [(_, body)] => some (some body)
        | _ => none
  | .array elements =>
      if elements.length = names.length then some (elements.map some) else none
  | _ => none

/-- Reads a choice without content: its name, or an object that maps it to `null`. -/
def unit? : Json → Option String
  | .string name => some name
  | .object [(name, .null)] => some name
  | _ => none

end Json

end TimedKripke
