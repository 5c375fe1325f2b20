import Mathlib.Logic.Relation
import TimedKripke.Proofs.Kripke.Edges
import TimedKripke.Proofs.Verification.Invariants
import TimedKripke.Proofs.Verification.Places
import TimedKripke.Proofs.Verification.Termination

/-! # The Kripke structure of a verification

What a verification leaves is a Kripke structure (`complete_of_verify`): its states are told
apart by their properties, edges lead to states, every state can be reached from an initial one
and can be left again. That states can be reached is kept by every node that is written
(`KripkeStructure.Adds.rooted`). That they can be left is seen at the end only: the end of a
variation is left by the job that goes on from it, and by then all jobs have been explored.
-/

namespace TimedKripke

namespace KripkeStructure

/-- An edge leads from one state to another. -/
def Step (kripke : KripkeStructure) (source target : StateId) : Prop :=
  ∃ state, kripke.states[source]? = some state ∧ ∃ edge ∈ state.edges, edge.target = target

/-- Edges lead to the state from an initial one. -/
def Reachable (kripke : KripkeStructure) (id : StateId) : Prop :=
  ∃ start state, kripke.states[start]? = some state ∧ state.isInitial = true ∧
    Relation.ReflTransGen kripke.Step start id

variable {before after kripke : KripkeStructure}

/-- An edge between two states stays when the structure grows. -/
theorem Step.mono (grows : before.Extends after) {source target : StateId}
    (step : before.Step source target) : after.Step source target := by
  obtain ⟨state, found, edge, member, leads⟩ := step
  obtain ⟨later, foundLater, extended⟩ := grows found
  obtain ⟨wide, inside, covers⟩ := extended.edges edge member
  have sameTarget := (KripkeEdge.sameTransition_iff.mp covers.transition).2.2.2.2
  exact ⟨later, foundLater, wide, inside, sameTarget.trans leads⟩

/-- A state that can be reached can still be reached when the structure grows. -/
theorem Reachable.mono (grows : before.Extends after) {id : StateId}
    (reachable : before.Reachable id) : after.Reachable id := by
  obtain ⟨start, state, found, initial, leads⟩ := reachable
  obtain ⟨later, foundLater, extended⟩ := grows found
  exact ⟨start, later, foundLater, extended.isInitial initial,
    Relation.ReflTransGen.mono (fun _ _ => Step.mono grows) _ _ leads⟩

/-- A stored node can be reached if the state before it can; one without a state before it, if
it is initial. -/
theorem Holds.reachable {previous : Option StateId} {node : Node} {id : StateId}
    (holds : kripke.Holds previous node id)
    (initial : previous = none → node.isInitial = true)
    (reachable : ∀ source ∈ previous, kripke.Reachable source) : kripke.Reachable id := by
  cases previous with
  | none =>
      obtain ⟨state, found, _, isInitial⟩ := holds.stored
      exact ⟨id, state, found, isInitial (initial rfl), .refl⟩
  | some source =>
      obtain ⟨start, state, found, isInitial, leads⟩ := reachable source rfl
      obtain ⟨before, foundBefore, wide, inside, covers⟩ := holds.reached source rfl
      have sameTarget := (KripkeEdge.sameTransition_iff.mp covers.transition).2.2.2.2
      exact ⟨start, state, found, isInitial,
        leads.tail ⟨before, foundBefore, wide, inside, sameTarget⟩⟩

/-- Edges lead to states, and every state can be reached. -/
structure Rooted (kripke : KripkeStructure) : Prop where
  /-- Edges lead to states. -/
  targets : ∀ {id : StateId} {state : KripkeState}, kripke.states[id]? = some state →
    ∀ edge ∈ state.edges, edge.target < kripke.states.size
  reachable : ∀ id < kripke.states.size, kripke.Reachable id

/-- The structure without states is rooted. -/
theorem rooted_empty : empty.Rooted :=
  ⟨fun found => by simp [empty] at found, fun _ impossible => nomatch impossible⟩

/-- **Writing a node** keeps a structure rooted: the node is initial, or an edge leads to it from a
stored state. -/
theorem Adds.rooted {previous : Option StateId} {node : Node} {id : StateId}
    (adds : before.Adds previous node id after) (rooted : before.Rooted)
    (initial : previous = none → node.isInitial = true)
    (stored : ∀ source ∈ previous, source < before.states.size) : after.Rooted := by
  have here : id < after.states.size := adds.stored id rfl
  have more : before.states.size ≤ after.states.size := adds.grows.size_le
  constructor
  · intro query state found edge member
    -- The edges of the state without the one that was added.
    have old : ∀ {earlier : KripkeState},
        (if query = id then some (before.settled node id) else before.states[query]?) =
          some earlier → ∀ edge ∈ earlier.edges, edge.target < after.states.size := by
      intro earlier isEarlier edge member
      split at isEarlier
      · cases isEarlier
        unfold settled at member
        split at member
        · rename_i state found
          exact Nat.lt_of_lt_of_le (rooted.targets found edge member) more
        · cases member
      · exact Nat.lt_of_lt_of_le (rooted.targets isEarlier edge member) more
    rw [adds.states query] at found
    obtain ⟨earlier, isEarlier, rfl⟩ := Option.map_eq_some_iff.mp found
    by_cases isSource : previous = some query
    · rw [if_pos isSource] at member
      rcases KripkeEdge.target_of_insertInto member with isNew | ⟨wide, isOld, same⟩
      · rw [isNew]
        exact here
      · rw [same]
        exact old isEarlier wide isOld
    · rw [if_neg isSource] at member
      exact old isEarlier edge member
  · have earlier : ∀ query < before.states.size, after.Reachable query := fun query inside =>
      (rooted.reachable query inside).mono adds.grows
    intro query inside
    rw [adds.size] at inside
    rcases Nat.lt_or_ge query before.states.size with isOld | isNew
    · exact earlier query isOld
    · have isHere : query = id := by
        rcases lt_max_iff.mp inside with inside | inside
        · exact absurd inside (Nat.not_lt.mpr isNew)
        · exact Nat.le_antisymm (Nat.le_of_lt_succ inside) (Nat.le_trans adds.place isNew)
      rw [isHere]
      exact adds.holds.reachable initial fun source isSource =>
        earlier source (stored source isSource)

/-- Writing a chain of nodes keeps every state reachable, if the chain begins at a stored state or
with an initial node. -/
theorem AddsAll.rooted {previous : Option StateId} {nodes : List Node} {ids : List StateId}
    (adds : AddsAll before previous nodes ids after) (rooted : before.Rooted)
    (initial : previous = none → ∀ node ∈ nodes.head?, node.isInitial = true)
    (stored : ∀ source ∈ previous, source < before.states.size) : after.Rooted := by
  induction adds with
  | nil => exact rooted
  | cons first _ others =>
      refine others (first.rooted rooted (fun none => initial none _ rfl) stored) ?_ first.stored
      exact fun impossible => nomatch impossible

/-- Writing chains of nodes keeps every state reachable, under the same condition on each of them.
-/
theorem AddsEach.rooted {previous : Option StateId} {chains : List (List Node)}
    (adds : AddsEach previous before chains after) (rooted : before.Rooted)
    (initial : previous = none → ∀ nodes ∈ chains, ∀ node ∈ nodes.head?, node.isInitial = true)
    (stored : ∀ source ∈ previous, source < before.states.size) : after.Rooted := by
  induction adds with
  | nil => exact rooted
  | cons first _ others =>
      refine others (first.rooted rooted (fun none => initial none _ List.mem_cons_self) stored)
        (fun none nodes member => initial none nodes (List.mem_cons_of_mem _ member)) ?_
      exact fun source isSource => Nat.lt_of_lt_of_le (stored source isSource) first.grows.size_le

/-- Every state shows a node that was emitted, and every initial state an initial one. -/
structure Shows (Emitted : Node → Prop) (kripke : KripkeStructure) : Prop where
  /-- States show nodes. -/
  states : ∀ {id : StateId} {state : KripkeState}, kripke.states[id]? = some state →
    ∃ node, Emitted node ∧ node.properties = state.properties
  /-- Initial states show initial nodes. -/
  initial : ∀ {id : StateId} {state : KripkeState}, kripke.states[id]? = some state →
    state.isInitial = true →
      ∃ node, Emitted node ∧ node.isInitial = true ∧ node.properties = state.properties

/-- The structure without states shows no node. -/
theorem shows_empty (Emitted : Node → Prop) : empty.Shows Emitted :=
  ⟨fun found => by simp [empty] at found, fun found => by simp [empty] at found⟩

/-- What shows only emitted nodes still does if more are emitted. -/
theorem Shows.mono {Emitted Later : Node → Prop} (shows : kripke.Shows Emitted)
    (more : ∀ node, Emitted node → Later node) : kripke.Shows Later := by
  constructor
  · intro id state found
    obtain ⟨node, emitted, same⟩ := shows.states found
    exact ⟨node, more node emitted, same⟩
  · intro id state found isInitial
    obtain ⟨node, emitted, rest⟩ := shows.initial found isInitial
    exact ⟨node, more node emitted, rest⟩

/-- **Writing a node** that is emitted leaves a structure that shows emitted nodes. -/
theorem Adds.shows {Emitted : Node → Prop} {previous : Option StateId} {node : Node}
    {id : StateId} (adds : before.Adds previous node id after) (shows : before.Shows Emitted)
    (emitted : Emitted node) : after.Shows Emitted := by
  -- The edge that was added changes neither properties nor marks.
  have earlier : ∀ {query : StateId} {state : KripkeState}, after.states[query]? = some state →
      ∃ old, (if query = id then some (before.settled node id) else before.states[query]?) =
        some old ∧ old.properties = state.properties ∧ old.isInitial = state.isInitial := by
    intro query state found
    rw [adds.states query] at found
    obtain ⟨old, isOld, rfl⟩ := Option.map_eq_some_iff.mp found
    refine ⟨old, isOld, ?_⟩
    split <;> exact ⟨rfl, rfl⟩
  have shown : ∀ {state : KripkeState}, after.states[id]? = some state →
      node.properties = state.properties := by
    intro state found
    obtain ⟨stored, isStored, same, _⟩ := adds.holds.stored
    rw [found] at isStored
    cases isStored
    exact same.symm
  constructor
  · intro query state found
    by_cases here : query = id
    · subst here
      exact ⟨node, emitted, shown found⟩
    · obtain ⟨old, isOld, same, _⟩ := earlier found
      rw [if_neg here] at isOld
      rw [← same]
      exact shows.states isOld
  · intro query state found isInitial
    obtain ⟨old, isOld, same, mark⟩ := earlier found
    rw [← mark] at isInitial
    by_cases here : query = id
    · subst here
      rw [if_pos rfl] at isOld
      cases isOld
      have byNode : node.isInitial = true → ∃ node, Emitted node ∧ node.isInitial = true ∧
          node.properties = state.properties := fun marked => ⟨node, emitted, marked, shown found⟩
      unfold settled at isInitial same
      split at isInitial
      · rename_i stored isStored
        rw [isStored] at same
        have same : stored.properties = state.properties := same
        rcases (Bool.or_eq_true _ _).mp isInitial with marked | marked
        · rw [← same]
          exact shows.initial isStored marked
        · exact byNode marked
      · exact byNode isInitial
    · rw [if_neg here] at isOld
      rw [← same]
      exact shows.initial isOld isInitial

/-- Writing emitted nodes adds states that show them. -/
theorem AddsAll.shows {Emitted : Node → Prop} {previous : Option StateId} {nodes : List Node}
    {ids : List StateId} (adds : AddsAll before previous nodes ids after)
    (shows : before.Shows Emitted) (emitted : ∀ node ∈ nodes, Emitted node) :
    after.Shows Emitted := by
  induction adds with
  | nil => exact shows
  | cons first _ others =>
      exact others (first.shows shows (emitted _ List.mem_cons_self)) fun node member =>
        emitted node (List.mem_cons_of_mem _ member)

/-- Writing chains of emitted nodes adds states that show them. -/
theorem AddsEach.shows {Emitted : Node → Prop} {previous : Option StateId}
    {chains : List (List Node)} (adds : AddsEach previous before chains after)
    (shows : before.Shows Emitted) (emitted : ∀ nodes ∈ chains, ∀ node ∈ nodes, Emitted node) :
    after.Shows Emitted := by
  induction adds with
  | nil => exact shows
  | cons first _ others =>
      exact others (first.shows shows (emitted _ List.mem_cons_self)) fun nodes member =>
        emitted nodes (List.mem_cons_of_mem _ member)

/-- A node of a chain that left its trace can be left again, or it is the last one. -/
theorem Traced.exists_edge {nodes : List Node} : ∀ {previous : Option StateId},
    kripke.Traced previous nodes → ∀ node ∈ nodes,
      (∃ (id : StateId) (state : KripkeState), kripke.states[id]? = some state ∧
        state.properties = node.properties ∧ state.edges ≠ []) ∨ nodes.getLast? = some node := by
  induction nodes with
  | nil => exact fun _ _ impossible => nomatch impossible
  | cons first rest others =>
      intro previous traced node member
      obtain ⟨id, holds, tracedRest⟩ := traced
      cases rest with
      | nil => exact .inr (congrArg some (List.mem_singleton.mp member).symm)
      | cons second more =>
          rcases List.mem_cons.mp member with rfl | member
          · obtain ⟨next, holdsNext, _⟩ := tracedRest
            obtain ⟨state, found, same, _⟩ := holds.stored
            obtain ⟨source, foundSource, wide, inside, _⟩ := holdsNext.reached id rfl
            rw [found] at foundSource
            cases foundSource
            exact .inl ⟨id, state, found, same, List.ne_nil_of_mem inside⟩
          · rcases others tracedRest node member with left | isLast
            · exact .inl left
            · exact .inr isLast

end KripkeStructure

/-- The node belongs to a variation of the job. -/
def Job.Emits (layout : Layout) (job : Job) (node : Node) : Prop :=
  ∃ variations, job.expand layout = .ok variations ∧
    ∃ variation ∈ variations, node ∈ variation.nodes

/-- Jobs that go on from nothing are initial, and only the first job is. -/
theorem Job.Reached.initial {layout : Layout} {schedule : Schedule} {pool : Pool} {job : Job}
    (reached : Job.Reached layout (schedule.firstJob pool) job) :
    (job.predecessor = none → job.initial = true) ∧
      (job.initial = true → job = schedule.firstJob pool) := by
  cases reached with
  | first => exact ⟨fun _ => rfl, fun _ => rfl⟩
  | next => exact ⟨fun impossible => (nomatch impossible), fun impossible => (nomatch impossible)⟩

variable {ν : Type} [KripkeView ν]

/-- The structure stays rooted and shows what explored jobs emit. -/
theorem Verify.invariant_rooted (layout : Layout) (schedule : Schedule) (pool : Pool)
    (limit : Time) : Invariant layout (schedule.firstJob pool) limit
      fun done _ (run : Run ν KripkeStructure) => run.store.Rooted ∧
        run.store.Shows fun node => ∃ job ∈ done, job.Emits layout node where
  take := fun _ holds => holds
  apply := by
    intro done taken job variations run after explored holds expanded ran
    obtain ⟨rooted, shows⟩ := holds
    have stored := explored.stored job List.mem_cons_self
    have reached := explored.reached job (by simp)
    obtain ⟨applied, middle, shown, added, _, _, commits, rfl⟩ :=
      applyJob_added explored.wellFormed stored ran
    obtain ⟨view, committed, count, same⟩ :=
      OnlyShows.forM onlyShows_commit (completed job applied) middle
    rw [commits] at same
    have sameStore : (countJob shown).store = middle.store :=
      (congrArg Run.store same : shown.store = _)
    rw [sameStore]
    have initial : job.predecessor.map Predecessor.state = none →
        ∀ nodes ∈ variations.map ScheduleVariation.nodes, ∀ node ∈ nodes.head?,
          node.isInitial = true := by
      intro none nodes member node isFirst
      obtain ⟨variation, isVariation, rfl⟩ := List.mem_map.mp member
      obtain ⟨chosen, follows, made⟩ := Job.mem_expand expanded isVariation
      obtain ⟨first, rest, nodes, mark, _⟩ := (Job.nodes_of_variation follows made).2
      rw [nodes] at isFirst
      cases isFirst
      exact mark.trans (reached.initial.1 (Option.map_eq_none_iff.mp none))
    have emitted : ∀ nodes ∈ variations.map ScheduleVariation.nodes, ∀ node ∈ nodes,
        ∃ emitter ∈ done ++ [job], emitter.Emits layout node := by
      intro nodes member node isNode
      obtain ⟨variation, isVariation, rfl⟩ := List.mem_map.mp member
      exact ⟨job, by simp, variations, expanded, variation, isVariation, isNode⟩
    refine ⟨added.store.rooted rooted initial stored, added.store.shows (shows.mono ?_) emitted⟩
    rintro node ⟨earlier, member, emits⟩
    exact ⟨earlier, List.mem_append_left _ member, emits⟩

/-- The structure is a Kripke structure whose runs start as the variations of the first job
do. -/
structure KripkeStructure.Complete (kripke : KripkeStructure) (openings : List ScheduleVariation) :
    Prop where
  /-- The state at a position has the position as its number. -/
  numbered : ∀ {id : StateId} {state : KripkeState}, kripke.states[id]? = some state → state.id = id
  /-- No two states have the same properties. -/
  distinct : ∀ {first second : StateId} {state other : KripkeState},
    kripke.states[first]? = some state → kripke.states[second]? = some other →
      state.properties = other.properties → first = second
  /-- Edges lead to states. -/
  targets : ∀ {id : StateId} {state : KripkeState}, kripke.states[id]? = some state →
    ∀ edge ∈ state.edges, edge.target < kripke.states.size
  /-- Every state can be left. -/
  total : ∀ {id : StateId} {state : KripkeState}, kripke.states[id]? = some state → state.edges ≠ []
  /-- Every state can be reached. -/
  reachable : ∀ id < kripke.states.size, kripke.Reachable id
  /-- Initial states are those of first nodes. -/
  initial : ∀ {id : StateId} {state : KripkeState}, kripke.states[id]? = some state →
    (state.isInitial = true ↔
      ∃ variation ∈ openings, ∃ first ∈ variation.nodes.head?, first.properties = state.properties)
  /-- First nodes are stored. -/
  opened : ∀ variation ∈ openings, ∃ first ∈ variation.nodes.head?,
    ∃ (id : StateId) (state : KripkeState), kripke.states[id]? = some state ∧
      state.properties = first.properties

namespace Explored

variable {layout : Layout} {first : Job} {all : List Job} {run : Run ν KripkeStructure}

omit [KripkeView ν] in
/-- When no job waits, the state that a job went on from can be left. -/
theorem edges_ne_nil_of_goesOn (explored : Explored layout first all [] run)
    {job : Job} (isExplored : job ∈ all) {source : StateId} {state : KripkeState}
    (goesOn : source ∈ job.predecessor.map Predecessor.state)
    (found : run.store.states[source]? = some state) : state.edges ≠ [] := by
  obtain ⟨variations, expanded, each⟩ := explored.traced job isExplored
  obtain ⟨variation, isVariation⟩ := Job.exists_variation expanded
  obtain ⟨chosen, follows, made⟩ := Job.mem_expand expanded isVariation
  obtain ⟨node, rest, nodes, _⟩ := (Job.nodes_of_variation follows made).2
  have traced := (each variation isVariation).1
  rw [nodes] at traced
  obtain ⟨_, holds, _⟩ := traced
  obtain ⟨before, foundBefore, wide, inside, _⟩ := holds.reached source goesOn
  rw [found] at foundBefore
  cases foundBefore
  exact List.ne_nil_of_mem inside

omit [KripkeView ν] in
/-- When no job waits, every state can be left: inside of a cycle by its next step, at the end by
the job that went on. -/
theorem edges_ne_nil (explored : Explored layout first all [] run) (empty : run.queue = [])
    (shows : run.store.Shows fun node => ∃ job ∈ all, job.Emits layout node) {id : StateId}
    {state : KripkeState} (found : run.store.states[id]? = some state) : state.edges ≠ [] := by
  obtain ⟨node, ⟨job, isExplored, variations, expanded, variation, isVariation, isNode⟩, shown⟩ :=
    shows.states found
  obtain ⟨same, expandedSame, each⟩ := explored.traced job isExplored
  rw [expanded] at expandedSame
  cases expandedSame
  obtain ⟨traced, ends⟩ := each variation isVariation
  rcases traced.exists_edge node isNode with ⟨place, stored, isStored, sameNode, leads⟩ | isLast
  · have isPlace := explored.wellFormed.position_unique isStored found (sameNode.trans shown)
    rw [isPlace, found] at isStored
    cases isStored
    exact leads
  · have seen := ends node.properties ⟨node, isLast, rfl⟩
    obtain ⟨next, member, _, _, _, _, last, _, _, place, rfl, stored, isStored, sameNode⟩ :=
      explored.resumed node.properties seen
    rw [empty, List.append_nil, List.append_nil] at member
    have isPlace := explored.wellFormed.position_unique isStored found (sameNode.trans shown)
    subst isPlace
    exact explored.edges_ne_nil_of_goesOn member rfl found

end Explored

/-- **A verification leaves a Kripke structure.** Whatever the settings, the schedule and the pool
are: if it succeeds, states are told apart by their properties, edges lead to states, every state
can be reached from an initial one and can be left, and the initial states are those of the first
nodes of the first job. -/
theorem complete_of_verify {settings : VerificationSettings} {schedule : Schedule} {pool : Pool}
    {raised : ν → Nat → List CancellationToken} {bound : Nat} {view : ν}
    {report : VerificationReport} {run : Run ν KripkeStructure}
    (verified : verify settings schedule pool raised bound view KripkeStructure.empty =
      (.ok report, run)) :
    ∃ openings, (schedule.firstJob pool).expand (Layout.new schedule) = .ok openings ∧
      run.store.Complete openings := by
  obtain ⟨opening, processed, _, worked, _, sameRun, _⟩ := verify_eq_ok verified
  have sameStore : run.store = processed.store := by rw [sameRun]
  have empty := (Verify.processQueue_explored bound
    (explored_opening schedule pool opening KripkeStructure.wellFormed_empty) worked).1
  have ends := (Verify.invariant_rooted (Layout.new schedule) schedule pool
    settings.starvationLimit).processQueue raised bound
    (explored_opening schedule pool opening KripkeStructure.wellFormed_empty)
    ⟨KripkeStructure.rooted_empty, KripkeStructure.shows_empty _⟩
  rw [worked] at ends
  cases ends with
  | done all explored holds =>
      obtain ⟨rooted, shows⟩ := holds
      have started : schedule.firstJob pool ∈ all := by
        have known := explored.started
        rwa [empty, List.append_nil, List.append_nil] at known
      obtain ⟨openings, expanded, each⟩ := explored.traced _ started
      -- The first node of a variation of the first job is stored as an initial state.
      have opened : ∀ variation ∈ openings, ∃ first ∈ variation.nodes.head?,
          ∃ (id : StateId) (state : KripkeState), processed.store.states[id]? = some state ∧
            state.properties = first.properties ∧ state.isInitial = true := by
        intro variation isVariation
        obtain ⟨chosen, follows, made⟩ := Job.mem_expand expanded isVariation
        obtain ⟨first, rest, nodes, mark, _⟩ := (Job.nodes_of_variation follows made).2
        have traced := (each variation isVariation).1
        rw [nodes] at traced ⊢
        obtain ⟨id, holds, _⟩ := traced
        obtain ⟨state, found, same, initial⟩ := holds.stored
        exact ⟨first, rfl, id, state, found, same, initial mark⟩
      refine ⟨openings, expanded, ?_⟩
      rw [sameStore]
      refine ⟨explored.wellFormed.numbered, explored.wellFormed.position_unique, rooted.targets,
        explored.edges_ne_nil empty shows, rooted.reachable, ?_, ?_⟩
      · intro id state found
        constructor
        · intro isInitial
          obtain ⟨node, ⟨job, isExplored, variations, expandedJob, variation, isVariation, isNode⟩,
            marked, same⟩ := shows.initial found isInitial
          obtain ⟨chosen, follows, made⟩ := Job.mem_expand expandedJob isVariation
          obtain ⟨first, rest, nodes, mark, unmarked⟩ := (Job.nodes_of_variation follows made).2
          rw [nodes] at isNode
          rcases List.mem_cons.mp isNode with rfl | later
          · have reached := explored.reached job (by simp [isExplored])
            rw [reached.initial.2 (mark.symm.trans marked), expanded] at expandedJob
            cases expandedJob
            exact ⟨variation, isVariation, node, by rw [nodes]; rfl, same⟩
          · rw [unmarked node later] at marked
            cases marked
        · rintro ⟨variation, isVariation, first, isFirst, same⟩
          obtain ⟨opener, isOpener, place, stored, isStored, sameOpener, isInitial⟩ :=
            opened variation isVariation
          rw [isOpener] at isFirst
          cases isFirst
          have isPlace := explored.wellFormed.position_unique isStored found (sameOpener.trans same)
          rw [isPlace, found] at isStored
          cases isStored
          exact isInitial
      · intro variation isVariation
        obtain ⟨first, isFirst, id, state, found, same, _⟩ := opened variation isVariation
        exact ⟨first, isFirst, id, state, found, same⟩

/-- The verification of the switch leaves a complete Kripke structure. -/
theorem switch_complete : ∃ bound report run openings,
    verify Switch.settings Switch.schedule Switch.pool (fun _ _ => []) bound
      ({} : RecordingView) KripkeStructure.empty = (.ok report, run) ∧
    (Switch.schedule.firstJob Switch.pool).expand (Layout.new Switch.schedule) = .ok openings ∧
    run.store.Complete openings := by
  obtain ⟨bound, report, run, verified⟩ := Switch.verified
  obtain ⟨openings, expanded, complete⟩ := complete_of_verify verified
  exact ⟨bound, report, run, openings, verified, expanded, complete⟩

end TimedKripke
