import TimedKripke.Document.Schedule
import TimedKripke.Proofs.Json.Parser
import TimedKripke.Proofs.OrderedMap

/-! # Reading values back

The document of a value is written in full, since every integer of a value fits its kind, and
the value can be read back from it if the fields of its compounds stand in order
(`Value.ofJson?_toJson`, `PropertyList.ofJson?_toJson`).
-/

namespace TimedKripke

namespace Json

/-- A natural number of 64 bits can be written. -/
theorem written_nat {n : Nat} (fits : n < UInt64.size) : (nat n).Written := by
  refine ⟨?_, ?_⟩
  · omega
  · exact Int.ofNat_lt.mpr fits

end Json

/-- The document of a time can be written. -/
theorem Time.written_toJson (time : Time) : time.toJson.Written :=
  Json.written_nat time.toNat_lt

/-- A time is read back from its document. -/
@[simp] theorem Time.ofJson?_toJson (time : Time) : ofJson? time.toJson = some time := by
  change ofNat? time.toNat = some time
  rw [ofNat?, if_pos time.toNat_lt, UInt64.ofNat_toNat]

/-- An id of 64 bits is read back from its document. -/
theorem ExecutableId.ofJson?_nat {id : ExecutableId} (fits : id < UInt64.size) :
    ofJson? (.nat id) = some id := by
  change (Time.ofNat? id).map UInt64.toNat = some id
  rw [Time.ofNat?, if_pos fits, Option.map_some, UInt64.toNat_ofNat_of_lt' fits]

namespace IntKind

/-- The tag of a kind of integers names that kind and no other. -/
@[simp] theorem ofTag?_tag (kind : IntKind) : ofTag? kind.tag = some kind := by
  cases kind <;> decide

/-- An integer in the range of its kind has at most 64 bits, so it can be written. -/
theorem Contains.written {kind : IntKind} {n : Int} (inRange : kind.Contains n) :
    (Json.int n).Written := by
  obtain ⟨least, greatest⟩ := inRange
  cases kind <;> simp only [min, max] at least greatest <;> exact ⟨by omega, by omega⟩

end IntKind

namespace Value

mutual

/-- The names of the fields of all compounds in a value are in ascending order. -/
def ordered : Value → Bool
  | .present inner => ordered inner
  | .collection elements => elementsOrdered elements
  | .compound fields => OrderedMap.ascending fields && fieldsOrdered fields
  | _ => true

/-- All elements are ordered. -/
def elementsOrdered : List Value → Bool
  | [] => true
  | first :: rest => ordered first && elementsOrdered rest

/-- The values of all fields are ordered. -/
def fieldsOrdered : List (String × Value) → Bool
  | [] => true
  | (_, first) :: rest => ordered first && fieldsOrdered rest

end

mutual

/-- The document of a value can be written as text. -/
theorem written_toJson (value : Value) : (toJson value).Written := by
  match value with
  | .bool _ | .string _ | .absent => exact ⟨trivial, trivial⟩
  | .int _ _ inRange => exact ⟨inRange.written, trivial⟩
  | .present inner => exact ⟨written_toJson inner, trivial⟩
  | .collection elements => exact ⟨written_elementsToJson elements, trivial⟩
  | .compound fields => exact ⟨written_fieldsToJson fields, trivial⟩

/-- The documents of the elements of a collection can be written. -/
theorem written_elementsToJson (elements : List Value) :
    Json.ElementsWritten (elementsToJson elements) := by
  match elements with
  | [] => trivial
  | first :: rest => exact ⟨written_toJson first, written_elementsToJson rest⟩

/-- The documents of the fields of a compound can be written. -/
theorem written_fieldsToJson (fields : List (String × Value)) :
    Json.MembersWritten (fieldsToJson fields) := by
  match fields with
  | [] => trivial
  | (_, first) :: rest => exact ⟨written_toJson first, written_fieldsToJson rest⟩

end

/-- The document of an optional's content is read as an optional with content: no value is written
as null. -/
theorem optionalOfJson?_toJson (inner : Value) :
    optionalOfJson? (toJson inner) = (ofJson? (toJson inner)).map .present := by
  cases inner <;> simp only [toJson, optionalOfJson?]

/-- An object with one member is read as a scalar, unless its tag is one of those with parts. -/
theorem ofJson?_of_ne {tag : String} (body : Json) (optional : tag ≠ "Optional")
    (collection : tag ≠ "Collection") (compound : tag ≠ "Compound") :
    ofJson? (.object [(tag, body)]) = scalarOfJson? tag body := by
  rw [ofJson?.eq_def]
  simp only [optional, collection, compound, ↓reduceIte]

/-- A document tagged as an optional is read by the reader of optionals. -/
theorem ofJson?_optional (body : Json) :
    ofJson? (.object [("Optional", body)]) = optionalOfJson? body := by
  rw [ofJson?.eq_def]
  exact if_pos rfl

/-- An integer is read back under the tag of its kind. -/
theorem ofJson?_int (kind : IntKind) (n : Int) (inRange : kind.Contains n) :
    ofJson? (.object [(kind.tag, .int n)]) = some (.int kind n inRange) := by
  have scalar : ofJson? (.object [(kind.tag, .int n)]) = scalarOfJson? kind.tag (.int n) := by
    apply ofJson?_of_ne <;> cases kind <;> decide
  have read : scalarOfJson? kind.tag (.int n) =
      (IntKind.ofTag? kind.tag).bind fun kind => (ValueType.int kind).integerValue n := by
    cases kind <;> rfl
  rw [scalar, read, IntKind.ofTag?_tag, Option.bind_some, ValueType.integerValue, dif_pos inRange]

mutual

/-- A value whose compounds have their fields in order is read back from its document. -/
theorem ofJson?_toJson (value : Value) (isOrdered : value.ordered = true) :
    ofJson? (toJson value) = some value := by
  match value, isOrdered with
  | .bool b, _ => exact ofJson?_of_ne (.bool b) (by decide) (by decide) (by decide)
  | .int kind n inRange, _ => exact ofJson?_int kind n inRange
  | .string s, _ => exact ofJson?_of_ne (.string s) (by decide) (by decide) (by decide)
  | .absent, _ => rw [toJson, ofJson?_optional, optionalOfJson?]
  | .present inner, isOrdered =>
      rw [ordered] at isOrdered
      rw [toJson, ofJson?_optional, optionalOfJson?_toJson, ofJson?_toJson inner isOrdered,
        Option.map_some]
  | .collection elements, isOrdered =>
      rw [ordered] at isOrdered
      rw [toJson, ofJson?, if_neg (by decide), if_pos rfl]
      change (elementsOfJson? (elementsToJson elements)).map collection = _
      rw [elementsOfJson?_elementsToJson elements isOrdered, Option.map_some]
  | .compound fields, isOrdered =>
      rw [ordered, Bool.and_eq_true, OrderedMap.ascending_iff] at isOrdered
      rw [toJson, ofJson?, if_neg (by decide), if_neg (by decide), if_pos rfl]
      change (fieldsOfJson? [] (fieldsToJson fields)).map compound = _
      rw [fieldsOfJson?_fieldsToJson fields [] isOrdered.1 isOrdered.2, Option.map_some]
      rfl

/-- The elements of a collection are read back, if the compounds in them are in order. -/
theorem elementsOfJson?_elementsToJson (elements : List Value)
    (areOrdered : elementsOrdered elements = true) :
    elementsOfJson? (elementsToJson elements) = some elements := by
  match elements, areOrdered with
  | [], _ => rw [elementsToJson, elementsOfJson?]
  | first :: rest, areOrdered =>
      rw [elementsOrdered, Bool.and_eq_true] at areOrdered
      rw [elementsToJson, elementsOfJson?, ofJson?_toJson first areOrdered.1,
        elementsOfJson?_elementsToJson rest areOrdered.2]

/-- The fields of a compound are read back behind those that were read before. Reading inserts each
field by its name, so it is put last because the names ascend. -/
theorem fieldsOfJson?_fieldsToJson (fields : List (String × Value)) (written : PropertyList)
    (ascending : (OrderedMap.keys (written ++ fields)).Pairwise (· < ·))
    (areOrdered : fieldsOrdered fields = true) :
    fieldsOfJson? written (fieldsToJson fields) = some (written ++ fields) := by
  match fields, ascending, areOrdered with
  | [], _, _ => rw [fieldsToJson, fieldsOfJson?, List.append_nil]
  | (key, first) :: rest, ascending, areOrdered =>
      rw [fieldsOrdered, Bool.and_eq_true] at areOrdered
      have greatest : ∀ other ∈ written.keys, other < key := by
        intro other inside
        rw [OrderedMap.keys, List.map_append] at ascending
        exact (List.pairwise_append.mp ascending).2.2 other inside key List.mem_cons_self
      rw [List.append_cons] at ascending ⊢
      rw [fieldsToJson, fieldsOfJson?, ofJson?_toJson first areOrdered.1]
      change fieldsOfJson? (OrderedMap.insert key first written) (fieldsToJson rest) = _
      rw [OrderedMap.insert_eq_append greatest]
      exact fieldsOfJson?_fieldsToJson rest _ ascending areOrdered.2

end

end Value

namespace PropertyList

/-- The names of the properties, and of all fields inside, are in ascending order. -/
def ordered (properties : PropertyList) : Bool :=
  OrderedMap.ascending properties && Value.fieldsOrdered properties

/-- The document of a property list can be written as text. -/
theorem written_toJson (properties : PropertyList) : properties.toJson.Written :=
  Value.written_fieldsToJson properties

/-- **Properties can be read back** from their document, since their values can. -/
theorem ofJson?_toJson {properties : PropertyList} (isOrdered : properties.ordered = true) :
    ofJson? properties.toJson = some properties := by
  rw [ordered, Bool.and_eq_true, OrderedMap.ascending_iff] at isOrdered
  exact Value.fieldsOfJson?_fieldsToJson properties [] isOrdered.1 isOrdered.2

/-- Ordered properties with the same document are the same. -/
theorem eq_of_toJson {first second : PropertyList} (orderedFirst : first.ordered = true)
    (orderedSecond : second.ordered = true) (same : first.toJson = second.toJson) :
    first = second := by
  have read := ofJson?_toJson orderedFirst
  rw [same, ofJson?_toJson orderedSecond] at read
  exact (Option.some.inj read).symm

end PropertyList

end TimedKripke
