import TimedKripke.Proofs.Kripke.Edges

/-! # The edges of a state are those that were added

Adding edges one after the other to a state merges those that make the same transition, in the
order in which they come. Whatever the order is, the state has an edge of a kind that is open at a
clock value exactly if such an edge was added (`KripkeState.opens_addEdges`), its edges are sorted
and make different transitions, and adding one of them again changes nothing
(`KripkeState.edges_are_union`).
-/

namespace TimedKripke

namespace KripkeEdge

/-- One of the edges makes the transition of `pattern`, whose constraint does not matter, and is
open at the clock value. -/
def Opens (edges : List KripkeEdge) (pattern : KripkeEdge) (value : Time) : Prop :=
  ∃ edge ∈ edges, edge.sameTransition pattern = true ∧ edge.admits value = true

variable {edge wide pattern : KripkeEdge} {edges : List KripkeEdge} {value : Time}

/-- A list of edges opens at a clock value when its first edge does or one of the others does. -/
theorem opens_cons : Opens (edge :: edges) pattern value ↔
    (edge.sameTransition pattern = true ∧ edge.admits value = true) ∨
      Opens edges pattern value := by
  simp only [Opens, List.mem_cons, exists_eq_or_imp]

/-- An edge that covers another one opens wherever the other one does. -/
theorem Covers.opens {old : KripkeEdge} (covers : wide.Covers old) (member : wide ∈ edges)
    (same : old.sameTransition pattern = true) (admits : old.admits value = true) :
    Opens edges pattern value := by
  refine ⟨wide, member, ?_, covers.admits value admits⟩
  rw [sameTransition_iff_transition] at same ⊢
  exact (sameTransition_iff_transition.mp covers.transition).trans same

/-- **One edge.** Adding an edge opens what it opens, and nothing else. -/
theorem opens_insertInto : Opens (edge.insertInto edges) pattern value ↔
    Opens (edge :: edges) pattern value := by
  constructor
  · rintro ⟨open', member, same, admits⟩
    have inserts := inserts_insertInto edge edges
    generalize edge.insertInto edges = result at inserts member
    cases inserts with
    | known => exact ⟨open', List.mem_cons_of_mem _ member, same, admits⟩
    | @merged before after old _ isSame =>
        rcases List.mem_append.mp (List.mem_mergeSort.mp member) with isOld | member
        · exact ⟨open', by simp [isOld], same, admits⟩
        · rcases List.mem_cons.mp member with rfl | isOld
          · -- The widened edge is open because the edge is, or the one that it went into.
            rw [sameTransition_iff_transition, transition_widened,
              ← sameTransition_iff_transition] at same
            rcases admits_of_widened admits with admits | admits
            · exact ⟨old, by simp, same, admits⟩
            · refine ⟨edge, List.mem_cons_self, ?_, admits⟩
              rw [sameTransition_iff_transition] at same isSame ⊢
              exact isSame.symm.trans same
          · exact ⟨open', by simp [isOld], same, admits⟩
    | added =>
        rcases List.mem_append.mp (List.mem_mergeSort.mp member) with isOld | isNew
        · exact ⟨open', List.mem_cons_of_mem _ isOld, same, admits⟩
        · exact ⟨open', List.mem_singleton.mp isNew ▸ List.mem_cons_self, same, admits⟩
  · rintro ⟨old, member, same, admits⟩
    obtain ⟨wide, isWide, covers⟩ := exists_covers_insertInto (List.mem_cons.mp member)
    exact covers.opens isWide same admits

/-- An edge whose constraint is not a disjunction is plain. -/
theorem plain_of_ne_or
    (single : ∀ left right, edge.constraint ≠ some (Constraint.or left right)) : edge.Plain := by
  intro constraint isConstraint
  cases constraint with
  | or left right => exact absurd isConstraint (single left right)
  | _ => rfl

end KripkeEdge

namespace KripkeState

/-- Adds edges one after the other. -/
def addEdges (state : KripkeState) (added : List KripkeEdge) : KripkeState :=
  added.foldl addEdge state

theorem addEdges_cons (state : KripkeState) (edge : KripkeEdge) (added : List KripkeEdge) :
    state.addEdges (edge :: added) = (state.addEdge edge).addEdges added :=
  rfl

/-- Adding any edges to a state with kept edges leaves them kept. -/
theorem kept_addEdges {added : List KripkeEdge} : ∀ {state : KripkeState},
    KripkeEdge.Kept state.edges → KripkeEdge.Kept (state.addEdges added).edges := by
  induction added with
  | nil => exact fun kept => kept
  | cons edge added others => exact fun kept => others (kept.insertInto edge)

/-- **All edges.** Adding edges opens what they open, whatever their order. -/
theorem opens_addEdges {added : List KripkeEdge} {pattern : KripkeEdge} {value : Time} :
    ∀ {state : KripkeState}, KripkeEdge.Opens (state.addEdges added).edges pattern value ↔
      KripkeEdge.Opens state.edges pattern value ∨ KripkeEdge.Opens added pattern value := by
  induction added with
  | nil => simp [addEdges, KripkeEdge.Opens]
  | cons edge added others =>
      intro state
      rw [addEdges_cons, others, addEdge, KripkeEdge.opens_insertInto, KripkeEdge.opens_cons,
        KripkeEdge.opens_cons, or_comm (a := _ ∧ _), or_assoc]

/-- A plain edge that was held, or was among the added ones, is held in the end: later widenings
only add alternatives beside it. -/
theorem held_addEdges {edge : KripkeEdge} (plain : edge.Plain) {added : List KripkeEdge} :
    ∀ {state : KripkeState}, edge.Held state.edges ∨ edge ∈ added →
      edge.Held (state.addEdges added).edges := by
  induction added with
  | nil =>
      intro state held
      exact held.resolve_right List.not_mem_nil
  | cons other added others =>
      intro state held
      refine others ?_
      rcases held with held | member
      · exact .inl (held.insertInto plain other)
      · rcases List.mem_cons.mp member with rfl | member
        · exact .inl (KripkeEdge.held_insertInto plain state.edges)
        · exact .inr member

/-- Adding an edge that the state holds leaves the state as it is. -/
theorem addEdge_of_held {state : KripkeState} {edge : KripkeEdge} (held : edge.Held state.edges)
    (kept : KripkeEdge.Kept state.edges) : state.addEdge edge = state := by
  rw [addEdge, held.insertInto_eq kept]

/-- **The edges of a state are the union of those added.** They are sorted, no two of them make
the same transition, and they are open where the added ones are; and if no constraint that was
added is itself a disjunction, adding one of the edges again changes nothing. -/
theorem edges_are_union (id : StateId) (properties : PropertyList) (isInitial : Bool)
    (added : List KripkeEdge) :
    let state := (new id properties isInitial).addEdges added
    (state.edges.Pairwise fun first second => first.order second ≠ .gt) ∧
      (state.edges.Pairwise fun first second => first.sameTransition second = false) ∧
      (∀ pattern value, KripkeEdge.Opens state.edges pattern value ↔
        KripkeEdge.Opens added pattern value) ∧
      ((∀ edge ∈ added, ∀ left right, edge.constraint ≠ some (.or left right)) →
        ∀ edge ∈ added, state.addEdge edge = state) := by
  intro state
  have kept : KripkeEdge.Kept state.edges := kept_addEdges KripkeEdge.kept_nil
  refine ⟨?_, ?_, fun pattern value => ?_, fun single edge member => ?_⟩
  · exact kept.sorted.imp fun precedes => bne_iff_ne.mp precedes
  · refine (List.pairwise_map.mp kept.distinct).imp fun {first second} different => ?_
    rw [← Bool.not_eq_true, KripkeEdge.sameTransition_iff_transition]
    exact different
  · rw [opens_addEdges]
    simp [KripkeEdge.Opens, new]
  · have plain := KripkeEdge.plain_of_ne_or (single edge member)
    exact addEdge_of_held (held_addEdges plain (.inr member)) kept

/-- An edge that is open at some times of a clock. -/
def window (constraint : Constraint) : KripkeEdge :=
  { KripkeEdge.new 1 with clockName := some "m", constraint := some constraint, time := 30 }

/-- Edges to one state at different times, one of them twice, and an edge to another state. -/
def windows : List KripkeEdge :=
  [window (.lessThanEqual 5), window (.greaterThan 15), KripkeEdge.new 2,
    window (.lessThanEqual 5)]

/-- Each of the edges, windows on one clock among them, is added a second time without effect. -/
theorem windows_added_again :
    (∀ edge ∈ windows, ∀ left right, edge.constraint ≠ some (.or left right)) ∧
      ∀ edge ∈ windows,
        ((new 0 [] true).addEdges windows).addEdge edge = (new 0 [] true).addEdges windows := by
  have single : ∀ edge ∈ windows, ∀ left right, edge.constraint ≠ some (.or left right) := by
    simp [windows, window, KripkeEdge.new]
  exact ⟨single, (edges_are_union 0 [] true windows).2.2.2 single⟩

example : ((new 0 [] true).addEdges windows).edges =
    [KripkeEdge.new 2, window (.or (.lessThanEqual 5) (.greaterThan 15))] := by
  cbv

end KripkeState

end TimedKripke
