import TimedKripke.Json.Basic
import TimedKripke.Json.Token

/-! # Reading JSON text

A document is built from the tokens of a text one at a time, with the arrays and objects
that are still open held in a list. Blanks are allowed around every token.

Whoever reads a record skips the members that the record does not know, and what is
skipped need only be well formed. So a part that is well formed and cannot be taken in
does not refuse the text: it becomes `Json.unread`, which no reader accepts. That holds of
quoted text that does not decode, of objects with such a name, and of arrays and objects
inside more than `Json.depthLimit` brackets. `Json.ofText?` reads a document in this way
and `Json.parse?` a document of which nothing is left unread.
-/

namespace TimedKripke

namespace Json

/-- The number of brackets that may be open at once. -/
def depthLimit : Nat := 127

/-- How names of members are read, given whether their object is the outermost part of
the text. -/
abbrev Naming := Bool → List Letter → Option String

namespace Naming

/-- Names are texts. -/
def texts : Naming :=
  fun _ letters => Letter.text? letters

/-- Names in the outermost object are texts. Those within are numbers, which have to be
written without escapes. -/
def numbersWithin : Naming :=
  fun outermost letters =>
    if outermost then Letter.text? letters else Letter.plainText? letters

end Naming

/-- An array or an object that is still open, with what has been read of it, last first.
The members of an object are missing once one of its names could not be read. -/
inductive Frame where
  | array (elements : List Json)
  | object (members : Option Members) (name : Option String)

/-- What comes next in a text, inside the given frames, innermost first. -/
inductive Progress where
  /-- A document. -/
  | beforeDocument (outer : List Frame)
  /-- The first element of an array, or the end of the array. -/
  | beforeElements (outer : List Frame)
  /-- The first name of an object, or the end of the object. -/
  | beforeMembers (outer : List Frame)
  /-- The name of a further member. -/
  | beforeName (outer : List Frame) (members : Option Members)
  /-- The colon after a name. -/
  | beforeColon (outer : List Frame) (members : Option Members) (name : Option String)
  /-- What may follow a document that has been read. -/
  | afterDocument (outer : List Frame) (document : Json)

namespace Progress

/-- An array or object inside the given frames, which are fewer than `depthLimit`;
otherwise it is left unread. -/
def limited (outer : List Frame) (document : Json) : Json :=
  if (outer.drop (depthLimit - 1)).isEmpty then document else .unread

/-- The members with one more. -/
def addMember (members : Option Members) (name : Option String) (document : Json) :
    Option Members :=
  match members, name with
  | some members, some name => some ((name, document) :: members)
  | _, _ => none

/-- The object of its members, which stand last first. -/
def ofMembers : Option Members → Json
  | some members => .object members.reverse
  | none => .unread

/-- Reads the first token of a document. -/
def start? (outer : List Frame) : Token → Option Progress
  | .null => some (.afterDocument outer .null)
  | .bool b => some (.afterDocument outer (.bool b))
  | .number numeral => some (.afterDocument outer (.ofNumeral numeral))
  | .string letters =>
      some (.afterDocument outer (match Letter.text? letters with
        | some text => .string text
        | none => .unread))
  | .openArray => some (.beforeElements outer)
  | .openObject => some (.beforeMembers outer)
  | _ => none

/-- Reads a token after a document, inside the innermost frame and those around it. -/
def continue? (inner : Frame) (outer : List Frame) (document : Json) : Token → Option Progress
  | .comma =>
      match inner with
      | .array elements => some (.beforeDocument (.array (document :: elements) :: outer))
      | .object members name => some (.beforeName outer (addMember members name document))
  | .closeArray =>
      match inner with
      | .array elements =>
          some (.afterDocument outer (limited outer (.array (document :: elements).reverse)))
      | .object _ _ => none
  | .closeObject =>
      match inner with
      | .array _ => none
      | .object members name =>
          some (.afterDocument outer (limited outer (ofMembers (addMember members name document))))
  | _ => none

/-- Reads the next token. -/
def next? (naming : Naming) : Progress → Token → Option Progress
  | .beforeDocument outer, token => start? outer token
  | .beforeElements outer, .closeArray => some (.afterDocument outer (limited outer (.array [])))
  | .beforeElements outer, token => start? (.array [] :: outer) token
  | .beforeMembers outer, .closeObject => some (.afterDocument outer (limited outer (.object [])))
  | .beforeMembers outer, .string letters =>
      some (.beforeColon outer (some []) (naming outer.isEmpty letters))
  | .beforeName outer members, .string letters =>
      some (.beforeColon outer members (naming outer.isEmpty letters))
  | .beforeColon outer members name, .colon =>
      some (.beforeDocument (.object members name :: outer))
  | .afterDocument (inner :: outer) document, token => continue? inner outer document token
  | _, _ => none

/-- The document of a text that ends here. -/
def finish? : Progress → Option Json
  | .afterDocument [] document => some document
  | _ => none

end Progress

/-- The document of a list of tokens. -/
def ofTokens? (naming : Naming) (tokens : List Token) : Option Json :=
  (tokens.foldlM (Progress.next? naming) (.beforeDocument [])).bind Progress.finish?

/-- Reads one document. -/
def read? (naming : Naming) (source : Source) : Option Json :=
  (tokens? source).bind (ofTokens? naming)

/-- Reads a text that holds one document. -/
def ofText? (text : String) : Option Json :=
  read? .texts (.ofText text)

mutual

/-- Nothing in a document is left unread, and its numbers are in range. -/
def isComplete : Json → Bool
  | .fraction numeral => numeral.inRange
  | .array elements => areComplete elements
  | .object members => membersAreComplete members
  | .unread => false
  | _ => true

/-- Nothing in the elements of an array is left unread. -/
def areComplete : List Json → Bool
  | [] => true
  | first :: rest => isComplete first && areComplete rest

/-- Nothing in the members of an object is left unread. -/
def membersAreComplete : List (String × Json) → Bool
  | [] => true
  | (_, first) :: rest => isComplete first && membersAreComplete rest

end

/-- Reads a text that holds one document, and takes in all of it. -/
def parse? (text : String) : Option Json :=
  (ofText? text).filter isComplete

end Json

end TimedKripke
