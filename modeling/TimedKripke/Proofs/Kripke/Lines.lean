import TimedKripke.Proofs.Kripke.Durable
import TimedKripke.Proofs.Verification.Commits

/-! # Reading lines back

The text of a document has no newline, whatever its texts hold (`Json.newline_not_mem_chars`), and
in UTF-8 the newline byte stands for nothing but a newline (`Bytes.newline_mem_ofText`). So the
newline bytes of what a lines view has written are the ends of its lines, and every line is read
back as the state it was written for (`LinesView.decode_lines`).
-/

namespace TimedKripke

namespace Json

/-- No character is escaped to a text with a line break in it, the line break itself included. -/
theorem newline_not_mem_escaped (c : Char) : '\n' ∉ escaped c := by
  have digits : ∀ n < 16, hexDigit n ≠ '\n' := by decide
  unfold escaped
  split_ifs with quote backslash backspace feed newline carriage tab control
  · decide
  · decide
  · decide
  · decide
  · decide
  · decide
  · decide
  · have high := digits (c.toNat / 16) (by omega)
    have low := digits (c.toNat % 16) (by omega)
    simp [high.symm, low.symm]
  · simpa using Ne.symm newline

/-- A quoted text has no line break in it. -/
theorem newline_not_mem_quoted (s : String) : '\n' ∉ quoted s := by
  simp [quoted, newline_not_mem_escaped]

/-- A number is written without a line break. -/
theorem newline_not_mem_decimal (n : Int) : '\n' ∉ Numeral.decimal n := by
  have digits : ∀ m : Nat, '\n' ∉ Nat.toDigits 10 m := by
    intro m member
    exact absurd (Numeral.isDigit_toDigits member) (by decide)
  unfold Numeral.decimal
  split_ifs <;> simp [digits]

mutual

/-- **A document is written without newlines**, by induction on the document. -/
theorem newline_not_mem_chars (document : Json) (written : document.Written) :
    '\n' ∉ document.chars := by
  match document, written with
  | .null, _ => decide
  | .bool true, _ => decide
  | .bool false, _ => decide
  | .int n, _ => exact newline_not_mem_decimal n
  | .string s, _ => exact newline_not_mem_quoted s
  | .array [], _ => decide
  | .array (first :: rest), written =>
      obtain ⟨writtenFirst, writtenRest⟩ := written
      simp [chars, newline_not_mem_chars first writtenFirst,
        newline_not_mem_moreElements rest writtenRest]
  | .object [], _ => decide
  | .object ((key, first) :: rest), written =>
      obtain ⟨writtenFirst, writtenRest⟩ := written
      simp [chars, newline_not_mem_quoted, newline_not_mem_chars first writtenFirst,
        newline_not_mem_moreMembers rest writtenRest]

/-- The further elements of an array are written without a line break if each element is. -/
theorem newline_not_mem_moreElements (rest : List Json) (written : ElementsWritten rest) :
    '\n' ∉ moreElements rest := by
  match rest, written with
  | [], _ => decide
  | next :: rest, written =>
      obtain ⟨writtenNext, writtenRest⟩ := written
      simp [moreElements, newline_not_mem_chars next writtenNext,
        newline_not_mem_moreElements rest writtenRest]

/-- The further members of an object are written without a line break if each value is. -/
theorem newline_not_mem_moreMembers (rest : List (String × Json)) (written : MembersWritten rest) :
    '\n' ∉ moreMembers rest := by
  match rest, written with
  | [], _ => decide
  | (key, next) :: rest, written =>
      obtain ⟨writtenNext, writtenRest⟩ := written
      simp [moreMembers, newline_not_mem_quoted, newline_not_mem_chars next writtenNext,
        newline_not_mem_moreMembers rest writtenRest]

end

end Json

namespace Bytes

/-- The byte that ends a line. -/
def newline : UInt8 := 10

/-- The bytes of a text are the encodings of its characters in order. -/
theorem ofText_eq_flatMap (text : String) :
    ofText text = text.toList.flatMap String.utf8EncodeChar := by
  rw [ofText, String.toUTF8, ← String.utf8Encode_toList, List.utf8Encode]
  simp

/-- The bytes of a concatenation are those of the two texts. -/
theorem ofText_append (first second : String) :
    ofText (first ++ second) = ofText first ++ ofText second := by
  rw [ofText_eq_flatMap, ofText_eq_flatMap, ofText_eq_flatMap, String.toList_append,
    List.flatMap_append]

/-- All bytes of a character above the seven-bit ones are above them too. -/
theorem eq_newline_of_mem_utf8EncodeChar {c : Char} (member : newline ∈ String.utf8EncodeChar c) :
    c = '\n' := by
  have read : ∀ n : Nat, newline = UInt8.ofNat n → n % 256 = 10 := by
    intro n same
    have value := congrArg UInt8.toNat same
    rw [UInt8.toNat_ofNat'] at value
    exact value.symm
  have code : c.val.toNat = 10 := by
    unfold String.utf8EncodeChar at member
    dsimp only at member
    split_ifs at member with one two three
    · have here := read _ (List.mem_singleton.mp member)
      omega
    -- In a longer encoding every byte is at least 128.
    all_goals
      simp only [List.mem_cons, List.not_mem_nil, or_false] at member
    · rcases member with same | same <;> have here := read _ same <;> omega
    · rcases member with same | same | same <;> have here := read _ same <;> omega
    · rcases member with same | same | same | same <;> have here := read _ same <;> omega
  exact Char.toNat_inj.mp code

/-- A byte of value ten stems from a line break: the encodings of all other characters avoid it. -/
theorem newline_mem_ofText {text : String} (member : newline ∈ ofText text) :
    '\n' ∈ text.toList := by
  rw [ofText_eq_flatMap] at member
  obtain ⟨c, inside, encoded⟩ := List.mem_flatMap.mp member
  exact eq_newline_of_mem_utf8EncodeChar encoded ▸ inside

end Bytes

namespace KripkeEdge

/-- An edge without its clock is not written deeper than the edge. -/
theorem depth_toJson_untimed_le (edge : KripkeEdge) :
    edge.untimed.toJson.depth ≤ edge.toJson.depth := by
  simp only [toJson, untimed, Json.optional, Json.depth, Json.membersDepth]
  omega

end KripkeEdge

namespace KripkeState

variable {state : KripkeState}

/-- A storable state stays storable when the clocks are taken off its edges. -/
theorem Storable.untimed (storable : state.Storable) : state.untimed.Storable where
  id := storable.id
  properties := storable.properties
  edges := by
    intro edge member
    obtain ⟨timed, stored, rfl⟩ := List.mem_map.mp member
    exact storable.edges timed stored

/-- A state without its clocks is not written deeper than the state. -/
theorem depth_toJson_untimed_le (state : KripkeState) :
    state.untimed.toJson.depth ≤ state.toJson.depth := by
  have edges : Json.elementsDepth (state.untimed.edges.map KripkeEdge.toJson) ≤
      Json.elementsDepth (state.edges.map KripkeEdge.toJson) := by
    simp only [KripkeState.untimed]
    induction state.edges with
    | nil => exact Nat.le_refl _
    | cons edge edges others =>
        have here := edge.depth_toJson_untimed_le
        simp only [List.map_cons, Json.elementsDepth]
        omega
  simp only [toJson, Json.depth, Json.membersDepth] at edges ⊢
  simp only [KripkeState.untimed] at edges ⊢
  omega

/-- The line of a storable state holds no line break, so splitting at line breaks gives the lines
back. -/
theorem Storable.newline_not_mem_ofText (storable : state.Storable) :
    Bytes.newline ∉ Bytes.ofText state.render := by
  intro member
  have inside := Bytes.newline_mem_ofText member
  rw [render, Json.render, String.toList_ofList] at inside
  exact state.toJson.newline_not_mem_chars storable.written inside

end KripkeState

/-- Lines that are each ended by a newline are divided at the newlines. -/
theorem Bytes.splitOn_flatMap {lines : List Bytes} (single : ∀ line ∈ lines, newline ∉ line) :
    (lines.flatMap fun line => line ++ [newline]).splitOn newline = lines ++ [[]] := by
  induction lines with
  | nil => rfl
  | cons line lines others =>
      obtain ⟨here, later⟩ := List.forall_mem_cons.mp single
      rw [List.flatMap_cons, List.append_assoc, List.singleton_append,
        List.splitOn_append_cons_self_of_not_mem here, others later, List.cons_append]

namespace LinesView

/-- What a line of the view says about a state. -/
def shown (usingClocks : Bool) (state : KripkeState) : KripkeState :=
  if usingClocks then state else state.untimed

/-- What the view writes for a state is the text of the state as shown: with clocks, or without. -/
theorem line_eq_render_shown (view : LinesView) (state : KripkeState) :
    view.line state = (shown view.usingClocks state).render := by
  rw [line, shown]
  split_ifs <;> rfl

/-- A view whose sink has room takes every state: its line is appended with a line break and
counted. -/
theorem commit_eq_ok {view : LinesView} (unlimited : view.sink.limit = none)
    (notFull : view.sink.full = false) (state : KripkeState) :
    view.commit state = (.ok (),
      { view with
        sink := { view.sink with content := view.sink.content ++ view.line state ++ "\n" }
        written := view.written + 1 }) := by
  simp [commit, Sink.write, unlimited, notFull]

/-- A view whose sink takes everything takes all states and writes one line for each. -/
theorem receives_commits (states : List KripkeState) {view : LinesView}
    (unlimited : view.sink.limit = none) (notFull : view.sink.full = false) :
    ∃ after, Receives view (states.map .commit) after ∧
      after.written = view.written + states.length ∧
      Bytes.ofText after.sink.content = Bytes.ofText view.sink.content ++
        (states.map fun state => Bytes.ofText (shown view.usingClocks state).render).flatMap
          fun line => line ++ [Bytes.newline] := by
  induction states generalizing view with
  | nil => exact ⟨view, .nil view, rfl, (List.append_nil _).symm⟩
  | cons state states others =>
      have commits := commit_eq_ok unlimited notFull state
      obtain ⟨after, received, written, content⟩ := @others
        { view with
          sink := { view.sink with content := view.sink.content ++ view.line state ++ "\n" }
          written := view.written + 1 } unlimited notFull
      refine ⟨after, .cons commits received, ?_, ?_⟩
      · rw [written, List.length_cons]
        exact Nat.add_right_comm _ 1 _
      · have ended : Bytes.ofText "\n" = [Bytes.newline] := by decide
        rw [content, Bytes.ofText_append, Bytes.ofText_append, ended, line_eq_render_shown,
          List.map_cons, List.flatMap_cons, List.append_assoc, List.append_assoc, List.append_assoc]

/-- The line of a state decodes to the state as shown, if its document is within the parser's depth
limit. -/
theorem decodeState_shown (usingClocks : Bool) {state : KripkeState} (storable : state.Storable)
    (within : state.toJson.depth ≤ Json.depthLimit) :
    DurableStore.decodeState (Bytes.ofText (shown usingClocks state).render) =
      .ok (shown usingClocks state) := by
  cases usingClocks with
  | true => exact DurableStore.decodeState_ofText storable within
  | false =>
      exact DurableStore.decodeState_ofText storable.untimed
        (state.depth_toJson_untimed_le.trans within)

/-- **What a lines view writes is read back as what it received.** A fresh view takes all states and
writes a line for each; cut at the newline bytes, its output is these lines and nothing after the
last newline; and the lines are read as the states, without their clocks if clocks were not asked
for. -/
theorem decode_lines (states : List KripkeState) (usingClocks : Bool)
    (storable : ∀ state ∈ states, state.Storable)
    (within : ∀ state ∈ states, state.toJson.depth ≤ Json.depthLimit) :
    ∃ (view : LinesView) (lines : List Bytes),
      Receives ({} : LinesView) (.reset usingClocks :: states.map .commit) view ∧
        view.written = states.length ∧
        (Bytes.ofText view.sink.content).splitOn Bytes.newline = lines ++ [[]] ∧
        lines.mapM DurableStore.decodeState = .ok (states.map fun state =>
          if usingClocks then state
          else { state with edges := state.edges.map fun edge =>
            { edge with clockName := none, constraint := none, resetClock := false } }) := by
  obtain ⟨view, received, written, content⟩ :=
    @receives_commits states (({} : LinesView).reset usingClocks) rfl rfl
  refine ⟨view, states.map fun state => Bytes.ofText (shown usingClocks state).render,
    .cons rfl received, ?_, ?_, ?_⟩
  · rw [written]
    exact Nat.zero_add _
  · rw [content]
    apply Bytes.splitOn_flatMap
    intro line member
    obtain ⟨state, committed, rfl⟩ := List.mem_map.mp member
    cases usingClocks with
    | true => exact (storable state committed).newline_not_mem_ofText
    | false => exact (storable state committed).untimed.newline_not_mem_ofText
  · exact Json.mapM_map_eq_pure fun state committed =>
      decodeState_shown usingClocks (storable state committed) (within state committed)

/-- A state with newlines in a name and in a text, an optional inside an optional, and a timed edge
to itself. -/
def memo : KripkeState :=
  { id := 0
    properties := [("note\n", .collection [.string "\u0001\n\"", .present .absent])]
    isInitial := true
    edges := [{ clockName := some "m"
                constraint := some (.and (.lessThan 5) (.not (.equal 3)))
                resetClock := true
                takeSnapshot := true
                time := 10
                target := 0 }] }

/-- Two commits of one state, read back from the text of a view without clocks. -/
theorem decode_lines_memo :
    (∀ state ∈ [memo, memo], state.Storable) ∧
      (∀ state ∈ [memo, memo], state.toJson.depth ≤ Json.depthLimit) ∧
      ∃ (view : LinesView) (lines : List Bytes),
        Receives ({} : LinesView) (.reset false :: [memo, memo].map .commit) view ∧
          view.written = 2 ∧
          (Bytes.ofText view.sink.content).splitOn Bytes.newline = lines ++ [[]] ∧
          lines.mapM DurableStore.decodeState =
            .ok [{ memo with edges := [{ KripkeEdge.new 0 with takeSnapshot := true, time := 10 }] },
              { memo with edges := [{ KripkeEdge.new 0 with takeSnapshot := true, time := 10 }] }] := by
  have storable : ∀ state ∈ [memo, memo], state.Storable := by
    intro state member
    obtain rfl : state = memo := by simpa using member
    exact ⟨by decide, by decide, by decide⟩
  have within : ∀ state ∈ [memo, memo], state.toJson.depth ≤ Json.depthLimit := by
    intro state member
    obtain rfl : state = memo := by simpa using member
    decide
  exact ⟨storable, within, decode_lines [memo, memo] false storable within⟩

end LinesView

end TimedKripke
