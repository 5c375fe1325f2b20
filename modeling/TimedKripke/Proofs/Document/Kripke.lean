import TimedKripke.Document.Kripke
import TimedKripke.Proofs.Document.Value

/-! # Reading Kripke states back

A state whose numbers fit 64 bits and whose properties stand in order can be read back from its
document (`KripkeState.Storable.ofJson?_toJson`), and from its text unless it is nested too deep
(`KripkeState.Storable.read?_render`).
-/

namespace TimedKripke

namespace Json

/-- Parts that were written one by one are read one by one, if each of them is read as it was
written. -/
theorem mapM_map_eq_pure {m : Type → Type} [Monad m] [LawfulMonad m] {α β γ : Type}
    {read : β → m γ} {write : α → β} {result : α → γ} {parts : List α}
    (reads : ∀ part ∈ parts, read (write part) = pure (result part)) :
    (parts.map write).mapM read = pure (parts.map result) := by
  induction parts with
  | nil => rfl
  | cons part parts others =>
      rw [List.map_cons, List.mapM_cons, reads part List.mem_cons_self, pure_bind,
        others fun other member => reads other (List.mem_cons_of_mem _ member), pure_bind]
      rfl

/-- Under distinct names, the members of one name are the one that has it. -/
theorem filter_name {members : Members} (distinct : (members.map Prod.fst).Nodup)
    {entry : String × Json} (member : entry ∈ members) :
    members.filter (fun other => other.1 == entry.1) = [entry] := by
  obtain ⟨before, after, rfl⟩ := List.append_of_mem member
  rw [List.map_append, List.map_cons, List.nodup_middle, List.nodup_cons, List.mem_append, not_or]
    at distinct
  have none {others : Members} (absent : entry.1 ∉ others.map Prod.fst) :
      others.filter (fun other => other.1 == entry.1) = [] := by
    refine List.filter_eq_nil_iff.mpr fun other inside same => absent ?_
    exact beq_iff_eq.mp same ▸ List.mem_map_of_mem inside
  rw [List.filter_append, List.filter_cons, none distinct.1.1, none distinct.1.2, List.nil_append,
    beq_self_eq_true, if_pos rfl]

/-- A record is read with the names it was written with, as long as no name occurs twice. -/
theorem record?_object {members : Members} (distinct : (members.map Prod.fst).Nodup) :
    record? (members.map Prod.fst) (.object members) =
      some (members.map fun entry => some entry.2) := by
  apply mapM_map_eq_pure
  intro entry member
  rw [filter_name distinct member]
  rfl

/-- An optional part is read back, if what is written for a part can be told from nothing. -/
theorem nullable?_optional {α : Type} {read : Json → Option α} {write : α → Json}
    (reads : ∀ part, read (write part) = some part) (isNull : ∀ part, write part ≠ .null)
    (part : Option α) : (optional write part).nullable? read = some part := by
  cases part with
  | none => rfl
  | some part =>
      have skips : (write part).nullable? read = (read (write part)).map some := by
        have notNull := isNull part
        revert notNull
        cases write part <;> intro notNull
        · exact absurd rfl notNull
        all_goals rfl
      rw [optional, skips, reads, Option.map_some]

/-- A list is read back if every element of it is. -/
theorem list?_map {α : Type} {read : Json → Option α} {write : α → Json} {parts : List α}
    (reads : ∀ part ∈ parts, read (write part) = some part) :
    (Json.array (parts.map write)).list? read = some parts := by
  exact (mapM_map_eq_pure reads).trans (congrArg some (List.map_id _))

/-- An array can be written if and only if each of its elements can. -/
theorem elementsWritten_iff {elements : List Json} :
    ElementsWritten elements ↔ ∀ element ∈ elements, element.Written := by
  induction elements with
  | nil => simp [ElementsWritten]
  | cons first rest others => rw [ElementsWritten, others, List.forall_mem_cons]

end Json

namespace Constraint

/-- The document of a constraint can be written as text. -/
theorem written_toJson (constraint : Constraint) : constraint.toJson.Written := by
  induction constraint with
  | and left right writtenLeft writtenRight | or left right writtenLeft writtenRight
  | implies left right writtenLeft writtenRight =>
      exact ⟨⟨writtenLeft, writtenRight, trivial⟩, trivial⟩
  | not inner written => exact ⟨written, trivial⟩
  | _ time => exact ⟨time.written_toJson, trivial⟩

/-- A document with one time is read as the comparison that its tag names. -/
theorem ofJson?_time (tag : String) (time : Time) :
    ofJson? (.object [(tag, time.toJson)]) = comparison? tag time := by
  have read : ofJson? (.object [(tag, time.toJson)]) =
      (Time.ofJson? time.toJson).bind (comparison? tag) := by
    rw [ofJson?.eq_def]
    rfl
  rw [read, Time.ofJson?_toJson, Option.bind_some]

/-- A constraint is read back from its document. -/
theorem ofJson?_toJson (constraint : Constraint) : ofJson? constraint.toJson = some constraint := by
  induction constraint with
  | and left right readLeft readRight | or left right readLeft readRight
  | implies left right readLeft readRight =>
      simp [toJson, ofJson?, readLeft, readRight, connective?]
  | not inner read =>
      have nested : ofJson? (.object [("not", inner.toJson)]) =
          (ofJson? inner.toJson).map .not := by
        cases inner <;> simp [toJson, ofJson?]
      rw [toJson, nested, read, Option.map_some]
  | _ time => exact ofJson?_time _ time

end Constraint

namespace KripkeEdge

/-- The document of an edge can be written as text, if its target is numbered in 64 bits. -/
theorem written_toJson {edge : KripkeEdge} (fits : edge.target < UInt64.size) :
    edge.toJson.Written := by
  have clock : (Json.optional .string edge.clockName).Written := by
    cases edge.clockName <;> trivial
  have constraint : (Json.optional Constraint.toJson edge.constraint).Written := by
    cases edge.constraint with
    | none => trivial
    | some constraint => exact constraint.written_toJson
  exact ⟨clock, constraint, trivial, trivial, edge.time.written_toJson, Json.written_nat fits,
    trivial⟩

/-- An edge is read back from its document, if its target is numbered in 64 bits. -/
theorem ofJson?_toJson {edge : KripkeEdge} (fits : edge.target < UInt64.size) :
    ofJson? edge.toJson = some edge := by
  have clock : optionalOfJson? Json.string? (some (.optional .string edge.clockName)) =
      some edge.clockName := by
    apply Json.nullable?_optional
    · exact fun _ => rfl
    · exact fun _ => nofun
  have constraint : optionalOfJson? Constraint.ofJson?
      (some (.optional Constraint.toJson edge.constraint)) = some edge.constraint := by
    apply Json.nullable?_optional Constraint.ofJson?_toJson
    intro constraint
    cases constraint <;> nofun
  have record : edge.toJson.record?
      ["clock_name", "constraint", "reset_clock", "take_snapshot", "time", "target"] =
        some [some (.optional .string edge.clockName),
          some (.optional Constraint.toJson edge.constraint), some (.bool edge.resetClock),
          some (.bool edge.takeSnapshot), some edge.time.toJson, some (.nat edge.target)] :=
    Json.record?_object (by simp)
  simp [ofJson?, record, clock, constraint, Json.bool?, ExecutableId.ofJson?_nat fits]

end KripkeEdge

namespace KripkeState

/-- The numbers of the state fit 64 bits, and its properties are ordered. -/
structure Storable (state : KripkeState) : Prop where
  id : state.id < UInt64.size
  properties : state.properties.ordered = true
  edges : ∀ edge ∈ state.edges, edge.target < UInt64.size

variable {state : KripkeState}

/-- The document of a state that can be stored can be written as text. -/
theorem Storable.written (storable : state.Storable) : state.toJson.Written := by
  have edges : Json.ElementsWritten (state.edges.map KripkeEdge.toJson) := by
    rw [Json.elementsWritten_iff, List.forall_mem_map]
    exact fun edge member => KripkeEdge.written_toJson (storable.edges edge member)
  exact ⟨Json.written_nat storable.id, state.properties.written_toJson, trivial, edges, trivial⟩

/-- **A state can be read back from its document.** Its properties are in order and its numbers fit,
which is what being storable means. -/
theorem Storable.ofJson?_toJson (storable : state.Storable) :
    ofJson? state.toJson = some state := by
  have edges : (Json.array (state.edges.map KripkeEdge.toJson)).list? KripkeEdge.ofJson? =
      some state.edges :=
    Json.list?_map fun edge member => KripkeEdge.ofJson?_toJson (storable.edges edge member)
  have record : state.toJson.record? ["id", "properties", "is_initial", "edges"] =
      some [some (.nat state.id), some state.properties.toJson, some (.bool state.isInitial),
        some (.array (state.edges.map KripkeEdge.toJson))] := Json.record?_object (by simp)
  simp [ofJson?, record, edges, Json.bool?, ExecutableId.ofJson?_nat storable.id,
    PropertyList.ofJson?_toJson storable.properties]

/-- **A state can be read back from its text**, if it is not nested too deep. -/
theorem Storable.read?_render (storable : state.Storable)
    (within : state.toJson.depth ≤ Json.depthLimit) :
    (Json.read? .texts (state.render.toList.map some)).bind ofJson? = some state := by
  rw [render, Json.render, String.toList_ofList, Json.read?_chars_eq_self storable.written within,
    Option.bind_some, storable.ofJson?_toJson]

end KripkeState

end TimedKripke
