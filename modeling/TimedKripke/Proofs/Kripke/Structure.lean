import Mathlib.Tactic.Common
import TimedKripke.Kripke.Structure

/-! # Growing Kripke structures

A Kripke structure is well formed when its states are numbered by their positions and
its index finds exactly the stored properties (`KripkeStructure.WellFormed`). On a
well-formed structure no operation fails, every operation gives a well-formed structure
again, and nothing that was stored is lost: a later structure *extends* an earlier one
(`KripkeStructure.Extends`), since merging an edge into another one only widens its
constraint (`KripkeEdge.exists_covers_insertInto`).
-/

namespace TimedKripke

namespace Constraint

/-- An alternative of a constraint implies the constraint. -/
theorem satisfiedBy_of_mem_disjuncts {constraint alternative : Constraint} {value : Time}
    (member : alternative ∈ constraint.disjuncts) (holds : alternative.satisfiedBy value = true) :
    constraint.satisfiedBy value = true := by
  induction constraint with
  | or left right inLeft inRight =>
      rw [satisfiedBy, Bool.or_eq_true]
      rcases List.mem_append.mp member with member | member
      · exact .inl (inLeft member)
      · exact .inr (inRight member)
  | _ =>
      rw [List.mem_singleton.mp member] at holds
      exact holds

end Constraint

namespace KripkeEdge

/-- An edge makes the same transition as another one, at every clock value at which the
other one does. -/
structure Covers (edge other : KripkeEdge) : Prop where
  /-- The edges agree in everything but the constraint. -/
  transition : edge.sameTransition other = true
  admits : ∀ value, other.admits value = true → edge.admits value = true

/-- Edges of one transition agree on everything but the constraint. -/
theorem sameTransition_iff {edge other : KripkeEdge} : edge.sameTransition other = true ↔
    edge.clockName = other.clockName ∧ edge.resetClock = other.resetClock ∧
      edge.takeSnapshot = other.takeSnapshot ∧ edge.time = other.time ∧
        edge.target = other.target := by
  simp only [sameTransition, Bool.and_eq_true, beq_iff_eq, and_assoc]

theorem Covers.refl (edge : KripkeEdge) : edge.Covers edge :=
  ⟨sameTransition_iff.mpr ⟨rfl, rfl, rfl, rfl, rfl⟩, fun _ => id⟩

theorem Covers.trans {first second third : KripkeEdge} (left : first.Covers second)
    (right : second.Covers third) : first.Covers third := by
  obtain ⟨clock, reset, snapshot, time, target⟩ := sameTransition_iff.mp left.transition
  obtain ⟨clock', reset', snapshot', time', target'⟩ := sameTransition_iff.mp right.transition
  refine ⟨sameTransition_iff.mpr ⟨clock.trans clock', reset.trans reset',
    snapshot.trans snapshot', time.trans time', target.trans target'⟩, ?_⟩
  exact fun value admitted => left.admits value (right.admits value admitted)

/-- The merged constraint admits what either constraint admits. -/
theorem admits_merge (edge : KripkeEdge) (other : Option Constraint) (value : Time)
    (admitted : edge.admits value = true ∨
      KripkeEdge.admits { edge with constraint := other } value = true) :
    KripkeEdge.admits { edge with constraint := merge edge.constraint other } value = true := by
  cases mine : edge.constraint with
  | none => rfl
  | some first =>
      cases other with
      | none => rfl
      | some second =>
          simp only [admits, mine] at admitted
          rw [merge]
          by_cases trivially : (first.isTrivial || second.isTrivial) = true
          · rw [if_pos trivially]
            rfl
          · rw [if_neg trivially]
            by_cases known : first.disjuncts.contains second = true
            · rw [if_pos known]
              rcases admitted with admitted | admitted
              · exact admitted
              · exact Constraint.satisfiedBy_of_mem_disjuncts (List.contains_iff_mem.mp known)
                  admitted
            · rw [if_neg known]
              exact (Bool.or_eq_true _ _).mpr admitted

/-- Merging an edge into a list keeps every edge covered, the merged one included. -/
theorem covers_of_mergeInto {edge : KripkeEdge} {edges merged : List KripkeEdge}
    (found : mergeInto edge edges = some merged) {old : KripkeEdge}
    (member : old = edge ∨ old ∈ edges) : ∃ wide ∈ merged, wide.Covers old := by
  induction edges generalizing merged with
  | nil => cases found
  | cons first rest shorter =>
      rw [mergeInto] at found
      split at found
      · next same =>
          cases found
          have widened : ∀ value, first.admits value = true ∨ edge.admits value = true →
              KripkeEdge.admits { first with constraint := merge first.constraint edge.constraint }
                value = true := fun value admitted =>
            admits_merge first edge.constraint value admitted
          rcases member with rfl | member
          · exact ⟨_, List.mem_cons_self .., sameTransition_iff.mpr (sameTransition_iff.mp same),
              fun value admitted => widened value (.inr admitted)⟩
          · rcases List.mem_cons.mp member with rfl | member
            · exact ⟨_, List.mem_cons_self .., sameTransition_iff.mpr ⟨rfl, rfl, rfl, rfl, rfl⟩,
                fun value admitted => widened value (.inl admitted)⟩
            · exact ⟨old, List.mem_cons_of_mem _ member, .refl old⟩
      · obtain ⟨restMerged, restFound, rfl⟩ := Option.map_eq_some_iff.mp found
        rcases member with rfl | member
        · obtain ⟨wide, inside, covers⟩ := shorter restFound (.inl rfl)
          exact ⟨wide, List.mem_cons_of_mem _ inside, covers⟩
        · rcases List.mem_cons.mp member with rfl | member
          · exact ⟨old, List.mem_cons_self .., .refl old⟩
          · obtain ⟨wide, inside, covers⟩ := shorter restFound (.inr member)
            exact ⟨wide, List.mem_cons_of_mem _ inside, covers⟩

/-- **Adding an edge loses nothing.** The new edge and every edge that was there are
covered afterwards. -/
theorem exists_covers_insertInto {edge old : KripkeEdge} {edges : List KripkeEdge}
    (member : old = edge ∨ old ∈ edges) : ∃ wide ∈ edge.insertInto edges, wide.Covers old := by
  rw [insertInto]
  split
  · next known =>
      have present : edge ∈ edges := List.contains_iff_mem.mp known
      rcases member with rfl | member
      · exact ⟨old, present, .refl old⟩
      · exact ⟨old, member, .refl old⟩
  · cases found : mergeInto edge edges with
    | some merged =>
        obtain ⟨wide, inside, covers⟩ := covers_of_mergeInto found member
        exact ⟨wide, List.mem_mergeSort.mpr inside, covers⟩
    | none =>
        refine ⟨old, List.mem_mergeSort.mpr ?_, .refl old⟩
        rcases member with rfl | member
        · exact List.mem_append_right _ (List.mem_singleton_self _)
        · exact List.mem_append_left _ member

end KripkeEdge

namespace KripkeState

/-- The state `after` is the state `before`, perhaps made initial and given more
edges. -/
structure Extends (before after : KripkeState) : Prop where
  id : after.id = before.id
  properties : after.properties = before.properties
  isInitial : before.isInitial = true → after.isInitial = true
  edges : ∀ edge ∈ before.edges, ∃ wide ∈ after.edges, wide.Covers edge

theorem Extends.refl (state : KripkeState) : state.Extends state :=
  ⟨rfl, rfl, fun initial => initial, fun edge member => ⟨edge, member, .refl edge⟩⟩

theorem Extends.trans {first second third : KripkeState} (left : first.Extends second)
    (right : second.Extends third) : first.Extends third := by
  refine ⟨right.id.trans left.id, right.properties.trans left.properties,
    fun initial => right.isInitial (left.isInitial initial), fun edge member => ?_⟩
  obtain ⟨wide, inside, covers⟩ := left.edges edge member
  obtain ⟨wider, inside', covers'⟩ := right.edges wide inside
  exact ⟨wider, inside', covers'.trans covers⟩

/-- Adding an edge never narrows a state: every edge it had is still covered. -/
theorem extends_addEdge (state : KripkeState) (edge : KripkeEdge) :
    state.Extends (state.addEdge edge) :=
  ⟨rfl, rfl, fun initial => initial, fun _ member =>
    KripkeEdge.exists_covers_insertInto (.inr member)⟩

end KripkeState

namespace KripkeStructure

/-- States are numbered by their positions, and the index holds exactly the stored
properties. -/
structure WellFormed (kripke : KripkeStructure) : Prop where
  /-- The state at a position has the position as its number. -/
  numbered : ∀ {id : StateId} {state : KripkeState},
    kripke.states[id]? = some state → state.id = id
  /-- Properties are indexed exactly if a state has them. -/
  indexed : ∀ {properties : PropertyList} {id : StateId}, kripke.ids[properties]? = some id ↔
    ∃ state : KripkeState, kripke.states[id]? = some state ∧ state.properties = properties

/-- Every state of `before` is still there in `after`, with all its edges. -/
def Extends (before after : KripkeStructure) : Prop :=
  ∀ ⦃id : StateId⦄ ⦃state : KripkeState⦄, before.states[id]? = some state →
    ∃ later, after.states[id]? = some later ∧ state.Extends later

theorem Extends.refl (kripke : KripkeStructure) : kripke.Extends kripke :=
  fun _ state found => ⟨state, found, .refl state⟩

theorem Extends.trans {first second third : KripkeStructure} (left : first.Extends second)
    (right : second.Extends third) : first.Extends third := by
  intro id state found
  obtain ⟨later, foundLater, grows⟩ := left found
  obtain ⟨last, foundLast, grows'⟩ := right foundLater
  exact ⟨last, foundLast, grows.trans grows'⟩

/-- A structure that grows has no fewer states, so state identifiers stay valid. -/
theorem Extends.size_le {before after : KripkeStructure} (grows : before.Extends after) :
    before.states.size ≤ after.states.size := by
  by_contra smaller
  have inside : after.states.size < before.states.size := by omega
  obtain ⟨_, found, _⟩ := grows (Array.getElem?_eq_getElem inside)
  exact Nat.lt_irrefl _ (Array.getElem?_eq_some_iff.mp found).choose

/-- The structure without states is well-formed. -/
theorem wellFormed_empty : empty.WellFormed := by
  constructor
  · intro id state found
    simp [empty] at found
  · intro properties id
    simp [empty]

/-- In a well-formed structure the properties determine the position. -/
theorem WellFormed.position_unique {kripke : KripkeStructure} (wellFormed : kripke.WellFormed)
    {first second : StateId} {state other : KripkeState}
    (found : kripke.states[first]? = some state) (found' : kripke.states[second]? = some other)
    (same : state.properties = other.properties) : first = second := by
  have indexed := wellFormed.indexed.mpr ⟨state, found, same⟩
  have indexed' := wellFormed.indexed.mpr ⟨other, found', rfl⟩
  exact Option.some.inj (indexed.symm.trans indexed')

/-- Writing the state that is already there changes nothing. -/
theorem setIfInBounds_self {states : Array KripkeState} {id : StateId} {state : KripkeState}
    (found : states[id]? = some state) : states.setIfInBounds id state = states := by
  obtain ⟨bound, rfl⟩ := Array.getElem?_eq_some_iff.mp found
  rw [Array.setIfInBounds, dif_pos bound, Array.set_getElem_self]

/-- Replacing a state by one that extends it keeps a structure well formed and extends
it. -/
theorem wellFormed_replace {kripke : KripkeStructure} (wellFormed : kripke.WellFormed)
    {id : StateId} {state later : KripkeState} (found : kripke.states[id]? = some state)
    (grows : state.Extends later) :
    WellFormed { kripke with states := kripke.states.setIfInBounds id later } ∧
      kripke.Extends { kripke with states := kripke.states.setIfInBounds id later } := by
  have bound : id < kripke.states.size := (Array.getElem?_eq_some_iff.mp found).choose
  have lookup : ∀ query, (kripke.states.setIfInBounds id later)[query]? =
      if id = query then some later else kripke.states[query]? := by
    intro query
    rw [Array.getElem?_setIfInBounds]
    by_cases same : id = query
    · subst same
      simp [bound]
    · simp [same]
  refine ⟨⟨?_, ?_⟩, ?_⟩
  · intro query queried foundQuery
    simp only [lookup] at foundQuery
    split at foundQuery
    · next same =>
        cases foundQuery
        rw [grows.id, wellFormed.numbered found, same]
    · exact wellFormed.numbered foundQuery
  · intro properties query
    rw [show kripke.ids[properties]? = some query ↔ _ from wellFormed.indexed]
    simp only [lookup]
    by_cases same : id = query
    · subst same
      simp [found, grows.properties]
    · simp [same]
  · intro query queried foundQuery
    simp only [lookup]
    by_cases same : id = query
    · subst same
      rw [found] at foundQuery
      cases foundQuery
      exact ⟨later, by simp, grows⟩
    · exact ⟨queried, by simp [same, foundQuery], .refl queried⟩

/-- **Adding a state.** On a well-formed structure adding properties succeeds, and
answers the number of the state that has them from then on. -/
theorem add_eq_ok {kripke : KripkeStructure} (wellFormed : kripke.WellFormed)
    (properties : PropertyList) (isInitial : Bool) :
    ∃ id state after, kripke.add properties isInitial = (.ok (id, state), after) ∧
      after.WellFormed ∧ kripke.Extends after ∧ after.states[id]? = some state ∧
        state.properties = properties ∧ (isInitial = true → state.isInitial = true) := by
  unfold add
  cases known : kripke.ids[properties]? with
  | some id =>
      obtain ⟨state, found, same⟩ := wellFormed.indexed.mp known
      have bound : id < kripke.states.size := (Array.getElem?_eq_some_iff.mp found).choose
      have grows : state.Extends { state with isInitial := state.isInitial || isInitial } :=
        ⟨rfl, rfl, fun initial => by simp [initial], fun edge member => ⟨edge, member, .refl edge⟩⟩
      have replaced := wellFormed_replace wellFormed found grows
      simp only [found]
      exact ⟨id, _, _, rfl, replaced.1, replaced.2, by simp [bound], same,
        fun initial => by simp [initial]⟩
  | none =>
      have absent : ∀ {id : StateId} {state : KripkeState}, kripke.states[id]? = some state →
          state.properties ≠ properties := by
        intro id state found same
        rw [wellFormed.indexed.mpr ⟨state, found, same⟩] at known
        cases known
      refine ⟨_, _, _, rfl, ⟨?_, ?_⟩, ?_, by simp, rfl, fun initial => by
        simpa [KripkeState.new] using initial⟩
      · intro id state found
        rw [Array.getElem?_push] at found
        split at found
        · next last =>
            cases found
            exact last.symm
        · exact wellFormed.numbered found
      · intro query id
        rw [Std.HashMap.getElem?_insert]
        simp only [Array.getElem?_push]
        by_cases same : properties = query
        · subst same
          simp only [beq_self_eq_true, ↓reduceIte, Option.some.injEq]
          constructor
          · rintro rfl
            exact ⟨KripkeState.new kripke.states.size properties isInitial, by simp, rfl⟩
          · rintro ⟨state, found, same⟩
            split at found
            · next last => exact last.symm
            · exact absurd same (absent found)
        · have differs : (properties == query) = false := by simpa using same
          simp only [differs, Bool.false_eq_true, ↓reduceIte]
          rw [show kripke.ids[query]? = some id ↔ _ from wellFormed.indexed]
          constructor
          · rintro ⟨state, found, rfl⟩
            have bound : id < kripke.states.size := (Array.getElem?_eq_some_iff.mp found).choose
            exact ⟨state, by simp [Nat.ne_of_lt bound, found], rfl⟩
          · rintro ⟨state, found, rfl⟩
            split at found
            · cases found
              exact absurd rfl same
            · exact ⟨state, found, rfl⟩
      · intro id state found
        have bound : id < kripke.states.size := (Array.getElem?_eq_some_iff.mp found).choose
        exact ⟨state, by simp [Array.getElem?_push, Nat.ne_of_lt bound, found], .refl state⟩

/-- **Adding an edge.** On a well-formed structure adding an edge to a stored state
succeeds, and the state has an edge that covers it from then on. -/
theorem addEdge_eq_ok {kripke : KripkeStructure} (wellFormed : kripke.WellFormed)
    (edge : KripkeEdge) {source : StateId} (stored : source < kripke.states.size) :
    ∃ after, kripke.addEdge edge source = (.ok (), after) ∧ after.WellFormed ∧
      kripke.Extends after ∧ ∃ state, after.states[source]? = some state ∧
        ∃ wide ∈ state.edges, wide.Covers edge := by
  have found : kripke.states[source]? = some kripke.states[source] :=
    Array.getElem?_eq_getElem stored
  have replaced := wellFormed_replace wellFormed found (KripkeState.extends_addEdge _ edge)
  unfold addEdge
  rw [found]
  refine ⟨_, rfl, replaced.1, replaced.2, kripke.states[source].addEdge edge, by simp [stored], ?_⟩
  exact KripkeEdge.exists_covers_insertInto (.inl rfl)

end KripkeStructure

end TimedKripke
