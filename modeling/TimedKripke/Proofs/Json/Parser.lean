import TimedKripke.Json.Parser
import TimedKripke.Proofs.Json.Token

/-! # Reading what was written

Reading the text of a document gives the document back, but for the parts inside more than
`Json.depthLimit` brackets, which are left unread (`Json.read?_chars`). So a document that is nested
no deeper is read as it is (`Json.read?_chars_eq_self`), and no other document has its text
(`Json.eq_of_chars`).
-/

namespace TimedKripke

namespace Json

mutual

/-- The document inside `outer` brackets as it is read: what stands inside too many of them is left
unread. -/
def cut (outer : Nat) : Json → Json
  | .array elements =>
      if outer < depthLimit then .array (cutElements (outer + 1) elements) else .unread
  | .object members =>
      if outer < depthLimit then .object (cutMembers (outer + 1) members) else .unread
  | document => document

/-- Elements inside `outer` brackets. -/
def cutElements (outer : Nat) : List Json → List Json
  | [] => []
  | first :: rest => cut outer first :: cutElements outer rest

/-- Members inside `outer` brackets. -/
def cutMembers (outer : Nat) : List (String × Json) → List (String × Json)
  | [] => []
  | (key, first) :: rest => (key, cut outer first) :: cutMembers outer rest

end

mutual

/-- The greatest number of brackets around anything in a document. -/
def depth : Json → Nat
  | .array elements => elementsDepth elements + 1
  | .object members => membersDepth members + 1
  | _ => 0

/-- The greatest depth of an element. -/
def elementsDepth : List Json → Nat
  | [] => 0
  | first :: rest => max (depth first) (elementsDepth rest)

/-- The greatest depth of a member. -/
def membersDepth : List (String × Json) → Nat
  | [] => 0
  | (_, first) :: rest => max (depth first) (membersDepth rest)

end

namespace Progress

/-- A part inside too many frames is replaced by one that was not read. -/
theorem limited_eq (outer : List Frame) (document : Json) :
    limited outer document = if outer.length < depthLimit then document else .unread := by
  refine if_congr ?_ rfl rfl
  rw [List.isEmpty_iff, List.drop_eq_nil_iff, depthLimit]
  omega

/-- The first document of an array is read like any other: that the array might end at once makes no
difference to it. -/
theorem foldlM_beforeElements {document : Json} (written : document.Written) (naming : Naming)
    (outer : List Frame) :
    document.tokens.foldlM (next? naming) (.beforeElements outer) =
      document.tokens.foldlM (next? naming) (.beforeDocument (.array [] :: outer)) := by
  match document, written with
  | .null, _ | .bool _, _ | .int _, _ | .string _, _ | .array [], _ | .array (_ :: _), _
  | .object [], _ | .object (_ :: _), _ => rfl

mutual

/-- **Reading the tokens of a document** gives the document, cut off below the depth that may be
nested inside the open frames. The induction follows the document. -/
theorem foldlM_tokens (document : Json) (written : document.Written) (outer : List Frame) :
    document.tokens.foldlM (next? .texts) (.beforeDocument outer) =
      some (.afterDocument outer (cut outer.length document)) := by
  match document, written with
  | .null, _ | .bool _, _ => rfl
  | .int n, written =>
      have integer : ofNumeral (.ofInt n) = .int n := by
        rw [ofNumeral, Numeral.integer?_ofInt written.1 written.2]
      exact congrArg (fun document => some (Progress.afterDocument outer document)) integer
  | .string s, _ =>
      have text := Letter.text?_ofText s
      change some (Progress.afterDocument outer (match Letter.text? (Letter.ofText s) with
        | some text => .string text
        | none => .unread)) = _
      rw [text]
      rfl
  | .array [], _ =>
      change some (Progress.afterDocument outer (limited outer (.array []))) = _
      rw [limited_eq]
      rfl
  | .array (first :: rest), written =>
      obtain ⟨writtenFirst, writtenRest⟩ := written
      change (tokens first ++ elementTokens rest).foldlM (next? .texts) (.beforeElements outer) = _
      rw [List.foldlM_append, foldlM_beforeElements writtenFirst, foldlM_tokens first writtenFirst]
      refine (foldlM_elementTokens rest writtenRest outer [] _).trans ?_
      rw [limited_eq]
      rfl
  | .object [], _ =>
      change some (Progress.afterDocument outer (limited outer (.object []))) = _
      rw [limited_eq]
      rfl
  | .object ((key, first) :: rest), written =>
      obtain ⟨writtenFirst, writtenRest⟩ := written
      change (tokens first ++ memberTokens rest).foldlM (next? .texts)
        (.beforeDocument (.object (some []) (Letter.text? (Letter.ofText key)) :: outer)) = _
      rw [Letter.text?_ofText, List.foldlM_append, foldlM_tokens first writtenFirst]
      refine (foldlM_memberTokens rest writtenRest outer [] key _).trans ?_
      rw [limited_eq]
      rfl

/-- Reading the tokens of further elements closes the array that is open, with those elements cut to
the depth limit. -/
theorem foldlM_elementTokens (rest : List Json) (written : ElementsWritten rest)
    (outer : List Frame) (elements : List Json) (document : Json) :
    (elementTokens rest).foldlM (next? .texts)
      (.afterDocument (.array elements :: outer) document) =
      some (.afterDocument outer (limited outer (.array ((document :: elements).reverse ++
        cutElements (outer.length + 1) rest)))) := by
  match rest, written with
  | [], _ =>
      rw [cutElements, List.append_nil]
      rfl
  | next :: rest, written =>
      obtain ⟨writtenNext, writtenRest⟩ := written
      change (tokens next ++ elementTokens rest).foldlM (next? .texts)
        (.beforeDocument (.array (document :: elements) :: outer)) = _
      rw [List.foldlM_append, foldlM_tokens next writtenNext]
      refine (foldlM_elementTokens rest writtenRest outer (document :: elements) _).trans ?_
      rw [List.reverse_cons, List.append_assoc]
      rfl

/-- Reading the tokens of further members closes the object that is open, with those members cut to
the depth limit. -/
theorem foldlM_memberTokens (rest : List (String × Json)) (written : MembersWritten rest)
    (outer : List Frame) (members : Members) (name : String) (document : Json) :
    (memberTokens rest).foldlM (next? .texts)
        (.afterDocument (.object (some members) (some name) :: outer) document) =
      some (.afterDocument outer (limited outer (.object (((name, document) :: members).reverse ++
        cutMembers (outer.length + 1) rest)))) := by
  match rest, written with
  | [], _ =>
      rw [cutMembers, List.append_nil]
      rfl
  | (key, next) :: rest, written =>
      obtain ⟨writtenNext, writtenRest⟩ := written
      change (tokens next ++ memberTokens rest).foldlM (next? .texts)
        (.beforeDocument (.object (some ((name, document) :: members))
          (Letter.text? (Letter.ofText key)) :: outer)) = _
      rw [Letter.text?_ofText, List.foldlM_append, foldlM_tokens next writtenNext]
      refine (foldlM_memberTokens rest writtenRest outer ((name, document) :: members) key
        _).trans ?_
      rw [List.reverse_cons, List.append_assoc]
      rfl

end

end Progress

/-- **Reading the text of a document** gives the document, cut off below the depth limit. -/
theorem read?_chars {document : Json} (written : document.Written) :
    read? .texts (document.chars.map some) = some (cut 0 document) := by
  rw [read?, tokens?_chars written, Option.bind_some, ofTokens?,
    Progress.foldlM_tokens document written]
  rfl

mutual

/-- A document that nests within the limit is not cut. -/
theorem cut_eq_self (document : Json) {outer : Nat} (within : outer + document.depth ≤ depthLimit) :
    cut outer document = document := by
  match document, within with
  | .null, _ | .bool _, _ | .int _, _ | .fraction _, _ | .string _, _ | .unread, _ => rfl
  | .array elements, within =>
      rw [depth] at within
      rw [cut, if_pos (by omega), cutElements_eq_self elements (by omega)]
  | .object members, within =>
      rw [depth] at within
      rw [cut, if_pos (by omega), cutMembers_eq_self members (by omega)]

/-- Elements that nest within the limit are not cut. -/
theorem cutElements_eq_self (elements : List Json) {outer : Nat}
    (within : outer + elementsDepth elements ≤ depthLimit) :
        cutElements outer elements = elements := by
  match elements, within with
  | [], _ => rfl
  | first :: rest, within =>
      rw [elementsDepth] at within
      rw [cutElements, cut_eq_self first (by omega), cutElements_eq_self rest (by omega)]

/-- Members that nest within the limit are not cut. -/
theorem cutMembers_eq_self (members : List (String × Json)) {outer : Nat}
    (within : outer + membersDepth members ≤ depthLimit) : cutMembers outer members = members := by
  match members, within with
  | [], _ => rfl
  | (key, first) :: rest, within =>
      rw [membersDepth] at within
      rw [cutMembers, cut_eq_self first (by omega), cutMembers_eq_self rest (by omega)]

end

mutual

/-- A document of which nothing is cut off is read as it is. -/
theorem cut_eq_self_of_written (document : Json) {outer : Nat}
    (written : (cut outer document).Written) : cut outer document = document := by
  match document, written with
  | .null, _ | .bool _, _ | .int _, _ | .fraction _, _ | .string _, _ | .unread, _ => rfl
  | .array elements, written =>
      rw [cut] at written ⊢
      split at written
      · next inside => rw [if_pos inside, cutElements_eq_self_of_written elements written]
      · cases written
  | .object members, written =>
      rw [cut] at written ⊢
      split at written
      · next inside => rw [if_pos inside, cutMembers_eq_self_of_written members written]
      · cases written

/-- Elements that can be written after they were cut were not cut at all: what is cut has no text.
-/
theorem cutElements_eq_self_of_written (elements : List Json) {outer : Nat}
    (written : ElementsWritten (cutElements outer elements)) :
    cutElements outer elements = elements := by
  match elements, written with
  | [], _ => rfl
  | first :: rest, written =>
      rw [cutElements, cut_eq_self_of_written first written.1,
        cutElements_eq_self_of_written rest written.2]

/-- Members that can be written after they were cut were not cut at all. -/
theorem cutMembers_eq_self_of_written (members : List (String × Json)) {outer : Nat}
    (written : MembersWritten (cutMembers outer members)) : cutMembers outer members = members := by
  match members, written with
  | [], _ => rfl
  | (key, first) :: rest, written =>
      rw [cutMembers, cut_eq_self_of_written first written.1,
        cutMembers_eq_self_of_written rest written.2]

end

/-- **A document that is not nested too deep** is read as it was written. -/
theorem read?_chars_eq_self {document : Json} (written : document.Written)
    (within : document.depth ≤ depthLimit) :
    read? .texts (document.chars.map some) = some document := by
  rw [read?_chars written, cut_eq_self document ((Nat.zero_add _).trans_le within)]

/-- **Documents with the same text are the same**, if one of them is not nested too deep. -/
theorem eq_of_chars {first second : Json} (writtenFirst : first.Written)
    (writtenSecond : second.Written) (within : first.depth ≤ depthLimit)
    (same : first.chars = second.chars) : first = second := by
  have read := read?_chars_eq_self writtenFirst within
  rw [same, read?_chars writtenSecond] at read
  have isFirst : cut 0 second = first := Option.some.inj read
  rw [← isFirst]
  exact cut_eq_self_of_written second (isFirst ▸ writtenFirst)

end Json

end TimedKripke
