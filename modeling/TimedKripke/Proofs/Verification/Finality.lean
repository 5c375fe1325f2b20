import TimedKripke.Proofs.Verification.Commits
import TimedKripke.Proofs.Verification.Splicing

/-! # States that are handed over are final

When a state is handed to the view, the jobs applied so far have written all steps that start from
it. If what a node shows determines what may follow it (`Job.Determined`), later jobs have no other
steps to add, and adding a step again changes nothing (`KripkeStructure.AddsEach.retains`). So at
the end of the verification a state has the edges it was handed over with
(`verify_commits_final`).
-/

namespace TimedKripke

namespace KripkeStructure

/-- A well-formed structure with its edges in order. -/
structure Orderly (kripke : KripkeStructure) : Prop extends kripke.WellFormed where
  /-- The edges of a state are sorted, one for each transition. -/
  edges : ∀ ⦃id : StateId⦄ ⦃state : KripkeState⦄, kripke.states[id]? = some state →
    KripkeEdge.Kept state.edges

/-- The state with the properties holds the edge to the node. -/
structure HoldsStep (kripke : KripkeStructure) (properties : PropertyList) (next : Node) :
    Prop where
  plain : ∀ target, (next.incoming.toEdge target).Plain
  held : ∃ (source target : StateId) (state reached : KripkeState),
    kripke.states[source]? = some state ∧ state.properties = properties ∧
      kripke.states[target]? = some reached ∧ reached.properties = next.properties ∧
        (next.incoming.toEdge target).Held state.edges

/-- The properties and the edges of the state are still those at the number. -/
def Retains (kripke : KripkeStructure) (query : StateId) (state : KripkeState) : Prop :=
  ∃ later, kripke.states[query]? = some later ∧ later.properties = state.properties ∧
    later.edges = state.edges

/-- A state keeps its properties when the structure grows. -/
theorem Extends.properties_eq {before after : KripkeStructure} (grows : before.Extends after)
    {id : StateId} {state later : KripkeState} (found : before.states[id]? = some state)
    (foundLater : after.states[id]? = some later) : later.properties = state.properties := by
  obtain ⟨stored, isStored, extended⟩ := grows found
  cases isStored.symm.trans foundLater
  exact extended.properties

/-- The structure without states is orderly. -/
theorem orderly_empty : empty.Orderly where
  toWellFormed := wellFormed_empty
  edges := by
    intro id state found
    simp [empty] at found

section Adding

variable {before after : KripkeStructure} {previous : Option StateId} {node next : Node}
  {id query : StateId} {state : KripkeState} {properties : PropertyList} {nodes : List Node}
  {ids : List StateId} {chains : List (List Node)}

/-- When a node is added, a state keeps its properties, and its edges unless the node was added
after it. -/
theorem Adds.exists_later (adds : before.Adds previous node id after)
    (found : before.states[query]? = some state) : ∃ later, after.states[query]? = some later ∧
      later.properties = state.properties ∧
      later.edges = if previous = some query then
        (node.incoming.toEdge id).insertInto state.edges else state.edges := by
  have settles : ∃ base : KripkeState,
      (if query = id then some (before.settled node id) else before.states[query]?) = some base ∧
        base.properties = state.properties ∧ base.edges = state.edges := by
    by_cases here : query = id
    · subst here
      rw [if_pos rfl, settled, found]
      exact ⟨_, rfl, rfl, rfl⟩
    · rw [if_neg here]
      exact ⟨state, found, rfl, rfl⟩
  obtain ⟨base, isBase, sameProperties, sameEdges⟩ := settles
  rw [adds.states query, isBase, Option.map_some, ← sameProperties, ← sameEdges]
  by_cases isSource : previous = some query
  · rw [if_pos isSource, if_pos isSource]
    exact ⟨_, rfl, rfl, rfl⟩
  · rw [if_neg isSource, if_neg isSource]
    exact ⟨_, rfl, rfl, rfl⟩

/-- Writing a node into an orderly structure leaves it orderly. -/
theorem Adds.orderly (adds : before.Adds previous node id after) (orderly : before.Orderly) :
    after.Orderly := by
  refine ⟨adds.wellFormed, ?_⟩
  intro query state found
  rw [adds.states query] at found
  obtain ⟨base, isBase, rfl⟩ := Option.map_eq_some_iff.mp found
  have keptBase : KripkeEdge.Kept base.edges := by
    split at isBase
    · cases isBase
      unfold settled
      split
      · next stored isStored =>
          have keptStored := orderly.edges isStored
          exact keptStored
      · exact KripkeEdge.kept_nil
    · exact orderly.edges isBase
  split
  · exact keptBase.insertInto _
  · exact keptBase

/-- A step that is held stays held when a node is added. -/
theorem HoldsStep.adds (step : before.HoldsStep properties next)
    (adds : before.Adds previous node id after) : after.HoldsStep properties next := by
  obtain ⟨source, target, state, reached, found, same, isReached, sameReached, held⟩ := step.held
  obtain ⟨later, foundLater, sameLater, edges⟩ := adds.exists_later found
  obtain ⟨reachedLater, isReachedLater, sameReachedLater, _⟩ := adds.exists_later isReached
  refine ⟨step.plain, source, target, later, reachedLater, foundLater, sameLater.trans same,
    isReachedLater, sameReachedLater.trans sameReached, ?_⟩
  rw [edges]
  split
  · exact held.insertInto (step.plain target) _
  · exact held

/-- Adding a node after a state makes the state hold the step. -/
theorem Adds.holdsStep (adds : before.Adds (some query) next id after)
    (plain : ∀ target, (next.incoming.toEdge target).Plain)
    (found : before.states[query]? = some state) : after.HoldsStep state.properties next := by
  obtain ⟨later, foundLater, same, edges⟩ := adds.exists_later found
  obtain ⟨reached, isReached, sameReached, _⟩ := adds.holds.stored
  refine ⟨plain, query, id, later, reached, foundLater, same, isReached, sameReached, ?_⟩
  rw [edges, if_pos rfl]
  exact KripkeEdge.held_insertInto (plain id) _

/-- **Adding a node whose step is held** changes no edges of the state it is added after, nor of any
other. -/
theorem Adds.retains (adds : before.Adds previous node id after) (orderly : before.Orderly)
    (retains : before.Retains query state)
    (held : previous = some query → before.HoldsStep state.properties node) :
    after.Retains query state := by
  obtain ⟨now, found, sameNow, edgesNow⟩ := retains
  obtain ⟨later, foundLater, same, edges⟩ := adds.exists_later found
  refine ⟨later, foundLater, same.trans sameNow, (edges.trans ?_).trans edgesNow⟩
  split
  · next here =>
      obtain ⟨source, target, holder, reached, isHolder, sameHolder, isReached, sameReached,
        isHeld⟩ := (held here).held
      cases orderly.position_unique isHolder found (sameHolder.trans sameNow.symm)
      cases isHolder.symm.trans found
      obtain ⟨stored, isStored, sameStored, _⟩ := adds.holds.stored
      obtain ⟨reachedLater, isReachedLater, sameReachedLater, _⟩ := adds.exists_later isReached
      cases adds.wellFormed.position_unique isReachedLater isStored
        (sameReachedLater.trans (sameReached.trans sameStored.symm))
      exact isHeld.insertInto_eq (orderly.edges found)
  · rfl

/-- A state that is new has the properties of the node that was added. -/
theorem Adds.properties_eq (adds : before.Adds previous node id after)
    (isNew : before.states.size ≤ query) (found : after.states[query]? = some state) :
    node.properties = state.properties := by
  obtain ⟨stored, isStored, same, _⟩ := adds.holds.stored
  have inside : query < max before.states.size (id + 1) := by
    rw [← adds.size]
    exact (Array.getElem?_eq_some_iff.mp found).choose
  have isLast : query < id + 1 := (lt_max_iff.mp inside).resolve_left (Nat.not_lt.mpr isNew)
  obtain rfl : query = id :=
    Nat.le_antisymm (Nat.le_of_lt_succ isLast) (Nat.le_trans adds.place isNew)
  cases isStored.symm.trans found
  exact same.symm

/-- Writing nodes one after the other leaves an orderly structure orderly. -/
theorem AddsAll.orderly (adds : AddsAll before previous nodes ids after)
    (orderly : before.Orderly) : after.Orderly := by
  induction adds with
  | nil => exact orderly
  | cons first _ others => exact others (first.orderly orderly)

/-- An edge that a state holds stays when nodes are written. -/
theorem HoldsStep.addsAll (step : before.HoldsStep properties next)
    (adds : AddsAll before previous nodes ids after) : after.HoldsStep properties next := by
  induction adds with
  | nil => exact step
  | cons first _ others => exact others (step.adds first)

/-- **Adding a chain** makes every node but the last hold the step to the next one. -/
theorem AddsAll.holdsStep (adds : AddsAll before previous nodes ids after) :
    (∀ node next, Node.Precedes nodes node next → ∀ target,
      (next.incoming.toEdge target).Plain) →
    ∀ node next, Node.Precedes nodes node next → after.HoldsStep node.properties next := by
  induction adds with
  | nil =>
      rintro _ node next ⟨index, isNode, _⟩
      cases isNode
  | cons first rest others =>
      rintro plain node next ⟨index, isNode, isNext⟩
      cases index with
      | zero =>
          cases isNode
          obtain ⟨stored, isStored, same, _⟩ := first.holds.stored
          cases rest with
          | nil => cases isNext
          | cons second rest =>
              cases isNext
              rw [← same]
              exact (second.holdsStep (plain _ _ ⟨0, rfl, rfl⟩) isStored).addsAll rest
      | succ index =>
          exact others (fun node next precedes => plain node next (precedes.cons _)) node next
            ⟨index, isNode, isNext⟩

/-- Adding a chain of which every step from a state is held does not change its edges. -/
theorem AddsAll.retains (adds : AddsAll before previous nodes ids after) : before.Orderly →
    before.Retains query state →
    (previous = some query → ∀ next ∈ nodes.head?, before.HoldsStep state.properties next) →
    (∀ node next, Node.Precedes nodes node next → node.properties = state.properties →
      before.HoldsStep state.properties next) → after.Retains query state := by
  induction adds with
  | nil => exact fun _ retains _ _ => retains
  | @cons _ middle _ _ node id nodes _ first _ others =>
      intro orderly retains start steps
      have retainsMiddle := first.retains orderly retains fun here => start here node rfl
      refine others (first.orderly orderly) retainsMiddle ?_ fun node next precedes same =>
        (steps node next (precedes.cons _) same).adds first
      rintro ⟨⟩ next isNext
      -- The chain has come to the state itself.
      obtain ⟨now, found, sameNow, _⟩ := retainsMiddle
      obtain ⟨stored, isStored, same, _⟩ := first.holds.stored
      cases found.symm.trans isStored
      rw [Option.mem_def, List.head?_eq_getElem?] at isNext
      exact (steps node next ⟨0, rfl, isNext⟩ (same.symm.trans sameNow)).adds first

/-- A state that was not there before has the properties of one of the nodes that were written. -/
theorem AddsAll.exists_node (adds : AddsAll before previous nodes ids after)
    (isNew : before.states.size ≤ query) (found : after.states[query]? = some state) :
    ∃ node ∈ nodes, node.properties = state.properties := by
  induction adds with
  | nil => exact absurd (Array.getElem?_eq_some_iff.mp found).choose (Nat.not_lt.mpr isNew)
  | @cons _ middle _ _ node _ _ _ first rest others =>
      by_cases isOld : query < middle.states.size
      · have isMiddle := Array.getElem?_eq_getElem isOld
        refine ⟨node, List.mem_cons_self, (first.properties_eq isNew isMiddle).trans ?_⟩
        exact (rest.grows.properties_eq isMiddle found).symm
      · obtain ⟨node, member, shown⟩ := others (Nat.le_of_not_lt isOld) found
        exact ⟨node, List.mem_cons_of_mem _ member, shown⟩

/-- Writing chains of nodes into an orderly structure leaves it orderly. -/
theorem AddsEach.orderly (adds : AddsEach previous before chains after)
    (orderly : before.Orderly) : after.Orderly := by
  induction adds with
  | nil => exact orderly
  | cons first _ others => exact others (first.orderly orderly)

/-- An edge that a state holds stays when chains of nodes are written. -/
theorem HoldsStep.addsEach (step : before.HoldsStep properties next)
    (adds : AddsEach previous before chains after) : after.HoldsStep properties next := by
  induction adds with
  | nil => exact step
  | cons first _ others => exact others (step.addsAll first)

/-- After chains of nodes are written, every step in them is held by the state it leaves. -/
theorem AddsEach.holdsStep (adds : AddsEach previous before chains after)
    (plain : ∀ nodes ∈ chains, ∀ node next, Node.Precedes nodes node next → ∀ target,
      (next.incoming.toEdge target).Plain) :
    ∀ nodes ∈ chains, ∀ node next, Node.Precedes nodes node next →
      after.HoldsStep node.properties next := by
  induction adds with
  | nil => exact fun _ impossible => absurd impossible List.not_mem_nil
  | cons first rest others =>
      intro nodes member node next precedes
      rcases List.mem_cons.mp member with rfl | member
      · exact (first.holdsStep (plain _ member) node next precedes).addsEach rest
      · exact others (fun chain isChain => plain chain (List.mem_cons_of_mem _ isChain)) nodes
          member node next precedes

/-- **Adding chains of which every step from a state is held** does not change its edges. -/
theorem AddsEach.retains (adds : AddsEach previous before chains after)
    (orderly : before.Orderly) (retains : before.Retains query state)
    (apart : previous ≠ some query)
    (steps : ∀ nodes ∈ chains, ∀ node next, Node.Precedes nodes node next →
      node.properties = state.properties → before.HoldsStep state.properties next) :
    after.Retains query state := by
  induction adds with
  | nil => exact retains
  | cons first _ others =>
      refine others (first.orderly orderly)
        (first.retains orderly retains (fun here => absurd here apart)
          (steps _ List.mem_cons_self)) fun nodes member node next precedes same => ?_
      exact (steps nodes (List.mem_cons_of_mem _ member) node next precedes same).addsAll first

/-- A state that is new shows a node of some chain. -/
theorem AddsEach.exists_node (adds : AddsEach previous before chains after)
    (isNew : before.states.size ≤ query) (found : after.states[query]? = some state) :
    ∃ nodes ∈ chains, ∃ node ∈ nodes, node.properties = state.properties := by
  induction adds with
  | nil => exact absurd (Array.getElem?_eq_some_iff.mp found).choose (Nat.not_lt.mpr isNew)
  | @cons _ middle _ nodes _ _ first rest others =>
      by_cases isOld : query < middle.states.size
      · have isMiddle := Array.getElem?_eq_getElem isOld
        obtain ⟨node, member, shown⟩ := first.exists_node isNew isMiddle
        refine ⟨nodes, List.mem_cons_self, node, member, shown.trans ?_⟩
        exact (rest.grows.properties_eq isMiddle found).symm
      · obtain ⟨nodes, member, node, isNode, shown⟩ := others (Nat.le_of_not_lt isOld) found
        exact ⟨nodes, List.mem_cons_of_mem _ member, node, isNode, shown⟩

end Adding

end KripkeStructure

/-- Every node of a chain but the last precedes another one. -/
theorem Node.Precedes.exists_of_mem {nodes : List Node} {node : Node} (member : node ∈ nodes) :
    nodes.getLast? = some node ∨ ∃ next, Node.Precedes nodes node next := by
  obtain ⟨index, isNode⟩ := List.mem_iff_getElem?.mp member
  cases isNext : nodes[index + 1]? with
  | some next => exact .inr ⟨next, index, isNode, isNext⟩
  | none =>
      left
      have inside := (List.getElem?_eq_some_iff.mp isNode).choose
      have isLast : nodes.length - 1 = index := by
        have := List.getElem?_eq_none_iff.mp isNext
        omega
      rw [List.getLast?_eq_getElem?, isLast, isNode]

variable {ν : Type}

/-- No job has anything left to add to a state with the properties: its steps are held, and if it
can be an end, it was seen. -/
structure Run.Closed (layout : Layout) (first : Job) (properties : PropertyList)
    (run : Run ν KripkeStructure) : Prop where
  /-- The steps of all jobs are held. -/
  steps : ∀ {job : Job} {node next : Node}, Job.Reached layout first job →
    job.Steps layout node next → node.properties = properties →
      run.store.HoldsStep properties next
  ends : ∀ {job : Job}, Job.Reached layout first job → job.EndsWith layout properties →
    run.visited.elements.contains properties = true

/-- The state is one from which a job goes on: an end that was seen, and not handed over yet. -/
structure Run.Awaits (layout : Layout) (first : Job) (commits : List KripkeState)
    (run : Run ν KripkeStructure) (id : StateId) (properties : PropertyList) : Prop where
  stored : ∃ state, run.store.states[id]? = some state ∧ state.properties = properties
  seen : run.visited.elements.contains properties = true
  ends : ∃ job, Job.Reached layout first job ∧ job.EndsWith layout properties
  withheld : id ∉ commits.map KripkeState.id

/-- The states `commits` are final, and the jobs `waiting` go on from others. -/
structure Run.Final (layout : Layout) (first : Job) (waiting : List Job)
    (commits : List KripkeState) (run : Run ν KripkeStructure) : Prop where
  orderly : run.store.Orderly
  retained : ∀ state ∈ commits, run.store.Retains state.id state
  closed : ∀ state ∈ commits, run.Closed layout first state.properties
  /-- Jobs go on from states that were not handed over. -/
  waits : ∀ job ∈ waiting, ∀ source ∈ job.predecessor.map Predecessor.state,
    ∃ properties, run.Awaits layout first commits source properties
  apart : (waiting.map fun job => job.predecessor.map Predecessor.state).Nodup

namespace Job.Determined

variable {layout : Layout} {first job : Job} (determined : Job.Determined layout first)
include determined

/-- The properties in which a cycle of a reached job ended are closed once they were seen. -/
theorem closed_of_ends {run : Run ν KripkeStructure} {properties : PropertyList}
    (ends : ∃ job, Job.Reached layout first job ∧ job.EndsWith layout properties)
    (seen : run.visited.elements.contains properties = true) :
    run.Closed layout first properties where
  steps := by
    rintro other node next reached steps rfl
    obtain ⟨job, reachedJob, endsWith⟩ := ends
    exact absurd endsWith (determined.inner reached reachedJob steps)
  ends := fun _ _ => seen

/-- A node inside of a cycle that was written is closed. -/
theorem closed_of_precedes {before : KripkeStructure} {after : Run ν KripkeStructure}
    {previous : Option StateId} {variations : List ScheduleVariation}
    {variation : ScheduleVariation} {node next : Node} (reached : Job.Reached layout first job)
    (expanded : job.expand layout = .ok variations)
    (adds : KripkeStructure.AddsEach previous before (variations.map ScheduleVariation.nodes)
      after.store)
    (member : variation ∈ variations) (precedes : Node.Precedes variation.nodes node next) :
    after.Closed layout first node.properties where
  steps := by
    intro other node' next' reachedOther steps same
    obtain ⟨twin, following, ⟨own, isOwn, variation', member', precedes'⟩, sameTwin, sameFollowing,
      sameIncoming⟩ := determined.steps reached reachedOther
        ⟨variations, expanded, variation, member, precedes⟩ steps same.symm
    cases expanded.symm.trans isOwn
    have plain : ∀ nodes ∈ variations.map ScheduleVariation.nodes, ∀ node next,
        Node.Precedes nodes node next → ∀ target, (next.incoming.toEdge target).Plain := by
      intro nodes isChain node next precedes
      obtain ⟨variation, member, rfl⟩ := List.mem_map.mp isChain
      exact determined.plain reached ⟨variations, expanded, variation, member, precedes⟩
    have holds := adds.holdsStep plain _ (List.mem_map_of_mem member') twin following precedes'
    rw [sameTwin] at holds
    obtain ⟨plain, held⟩ := holds
    rw [sameFollowing] at held
    rw [sameIncoming] at plain held
    exact ⟨plain, held⟩
  ends := by
    intro other reachedOther endsWith
    exact absurd endsWith (determined.inner reached reachedOther
      ⟨variations, expanded, variation, member, precedes⟩)

end Job.Determined

namespace Verify

variable [KripkeView ν] {opening : ν} {layout : Layout} {first job : Job} {done taken : List Job}
  {variations : List ScheduleVariation} {applied : Applied} {commits more : List KripkeState}
  {run after : Run ν KripkeStructure} {properties : PropertyList}

section Step

variable (determined : Job.Determined layout first)
  (explored : Explored layout first done (job :: taken) run)
  (expanded : job.expand layout = .ok variations)
  (final : run.Final layout first (job :: taken ++ run.queue) commits)
  (wrote : Wrote (job.predecessor.map Predecessor.state) variations run after)
  (completes : Completes opening commits more job variations applied run after)

omit [KripkeView ν] in
include final wrote in
/-- No two of the jobs that wait go on from one state. -/
theorem Wrote.apart : ((taken ++ after.queue).map fun job =>
    job.predecessor.map Predecessor.state).Nodup := by
  obtain ⟨opened, queue, distinct, goOn, _⟩ := wrote.queued
  -- Jobs that are queued go on from ends that were not seen before.
  have unseen {next : PropertyList × Job} (member : next ∈ opened) {source : StateId}
      (goesOn : source ∈ next.2.predecessor.map Predecessor.state) :
      run.visited.elements.contains next.1 = false ∧
        ∃ state, after.store.states[source]? = some state ∧ state.properties = next.1 := by
    obtain ⟨isUnseen, variation, _, _, id, isNext, state, found, same⟩ := goOn next member
    rw [isNext] at goesOn
    cases goesOn
    exact ⟨isUnseen, state, found, same⟩
  have someSource {next : PropertyList × Job} (member : next ∈ opened) :
      ∃ source, next.2.predecessor.map Predecessor.state = some source := by
    obtain ⟨_, _, _, _, id, isNext, _⟩ := goOn next member
    rw [isNext]
    exact ⟨id, rfl⟩
  rw [queue, ← List.append_assoc, List.map_append, List.map_map, List.nodup_append]
  refine ⟨(List.nodup_cons.mp final.apart).2, ?_, ?_⟩
  · refine List.Nodup.map_on ?_ distinct.of_map
    intro next member other isOther same
    obtain ⟨source, goesOn⟩ := someSource member
    obtain ⟨_, state, found, shown⟩ := unseen member goesOn
    obtain ⟨_, state', found', shown'⟩ := unseen isOther (Eq.trans (Eq.symm same) goesOn)
    cases found.symm.trans found'
    exact List.inj_on_of_nodup_map distinct member isOther (shown.symm.trans shown')
  · rintro _ isOld _ isOpened rfl
    obtain ⟨old, isWaiting, same⟩ := List.mem_map.mp isOld
    obtain ⟨next, member, isNext⟩ := List.mem_map.mp isOpened
    obtain ⟨source, goesOn⟩ := someSource member
    obtain ⟨properties, awaits⟩ := final.waits old (List.mem_cons_of_mem job isWaiting) source
      (same.trans (isNext.symm.trans goesOn))
    obtain ⟨earlier, isEarlier, sameEarlier⟩ := awaits.stored
    obtain ⟨isUnseen, state, found, shown⟩ := unseen member goesOn
    have seen := awaits.seen
    rw [← sameEarlier, ← wrote.grows.properties_eq isEarlier found, shown, isUnseen] at seen
    cases seen

include wrote completes in
/-- What is closed stays closed when a job is completed. -/
theorem Completes.closed (closed : run.Closed layout first properties) :
    after.Closed layout first properties where
  steps := fun reached steps same => (closed.steps reached steps same).addsEach completes.store
  ends := fun reached ends => (wrote.visited properties).mpr (.inl (closed.ends reached ends))

include completes in
/-- The state of a job that was queued counts as deferred. -/
theorem Completes.mem_deferred {opened : List (PropertyList × Job)}
    (queue : after.queue = run.queue ++ opened.map Prod.snd) {next : PropertyList × Job}
    (member : next ∈ opened) {id : StateId}
    (goesOn : id ∈ next.2.predecessor.map Predecessor.state) : id ∈ applied.deferred := by
  obtain ⟨continued, queue', deferred⟩ := completes.opened
  have same := List.append_cancel_left (queue.symm.trans queue')
  obtain ⟨⟨variation, state⟩, inContinued, isNext⟩ :=
    List.mem_map.mp (same ▸ List.mem_map_of_mem member)
  rw [← isNext] at goesOn
  cases goesOn
  rw [deferred]
  exact List.mem_map.mpr ⟨_, inContinued, rfl⟩

include explored wrote completes in
/-- The end of a variation that is new is not handed over yet. -/
theorem Completes.mem_deferred_of_ends {id : StateId} {state : KripkeState}
    (isNew : run.store.states.size ≤ id) (found : after.store.states[id]? = some state)
    {variation : ScheduleVariation} (member : variation ∈ variations)
    (ends : Ends variation state.properties) : id ∈ applied.deferred := by
  obtain ⟨opened, queue, _, goOn, complete⟩ := wrote.queued
  rcases complete variation member _ ends with seen | ⟨next, isOpened⟩
  · obtain ⟨_, _, _, _, _, _, _, _, _, place, _, stored, isStored, same⟩ :=
      explored.resumed _ seen
    obtain ⟨later, isLater, extended⟩ := wrote.grows isStored
    cases wrote.wellFormed.position_unique isLater found (extended.properties.trans same)
    exact absurd (Array.getElem?_eq_some_iff.mp isStored).choose (Nat.not_lt.mpr isNew)
  · obtain ⟨_, _, _, _, place, isNext, stored, isStored, same⟩ := goOn _ isOpened
    cases wrote.wellFormed.position_unique isStored found same
    refine completes.mem_deferred queue isOpened ?_
    rw [isNext]
    rfl

include determined explored expanded final wrote completes in
/-- **States that are handed over are closed**: no job has anything to add to them. -/
theorem Completes.closed_fresh {state : KripkeState} (isFresh : state ∈ more) :
    after.Closed layout first state.properties := by
  obtain ⟨isCompleted, found⟩ := completes.fresh state isFresh
  rcases completes.mem_completed.mp isCompleted with goesOn | ⟨isNew, _, notDeferred⟩
  · obtain ⟨properties, awaits⟩ := final.waits job List.mem_cons_self state.id goesOn
    obtain ⟨earlier, isEarlier, same⟩ := awaits.stored
    rw [wrote.grows.properties_eq isEarlier found, same]
    exact determined.closed_of_ends awaits.ends ((wrote.visited _).mpr (.inl awaits.seen))
  · obtain ⟨nodes, isChain, node, isNode, shown⟩ := completes.store.exists_node isNew found
    obtain ⟨variation, member, rfl⟩ := List.mem_map.mp isChain
    rcases Node.Precedes.exists_of_mem isNode with isLast | ⟨next, precedes⟩
    · exact absurd (completes.mem_deferred_of_ends explored wrote isNew found member
        ⟨node, isLast, shown⟩) notDeferred
    · rw [← shown]
      exact determined.closed_of_precedes (explored.reached job (by simp)) expanded
        completes.store member precedes

include explored final wrote completes in
/-- Jobs that waited go on from states that are still not handed over. -/
theorem Completes.waits {next : Job} (member : next ∈ taken ++ run.queue) {source : StateId}
    (goesOn : source ∈ next.predecessor.map Predecessor.state) :
    ∃ properties, after.Awaits layout first (commits ++ more) source properties := by
  obtain ⟨properties, awaits⟩ :=
    final.waits next (List.mem_cons_of_mem job member) source goesOn
  obtain ⟨earlier, isEarlier, same⟩ := awaits.stored
  obtain ⟨later, isLater, extended⟩ := wrote.grows isEarlier
  refine ⟨properties, ⟨later, isLater, extended.properties.trans same⟩,
    (wrote.visited _).mpr (.inl awaits.seen), awaits.ends, ?_⟩
  rw [List.map_append, List.mem_append, not_or]
  refine ⟨awaits.withheld, fun isFresh => ?_⟩
  obtain ⟨state, isState, rfl⟩ := List.mem_map.mp isFresh
  rcases completes.mem_completed.mp (completes.fresh state isState).1 with isOwn | ⟨isNew, _⟩
  · refine (List.nodup_cons.mp final.apart).1 (List.mem_map.mpr ⟨next, member, ?_⟩)
    exact Eq.trans goesOn (Eq.symm isOwn)
  · exact absurd (explored.stored next (List.mem_cons_of_mem job member) _ goesOn)
      (Nat.not_lt.mpr isNew)

include explored expanded final wrote completes in
/-- Jobs that are queued go on from states that are not handed over. -/
theorem Completes.awaits_opened {opened : List (PropertyList × Job)}
    (queue : after.queue = run.queue ++ opened.map Prod.snd) {next : PropertyList × Job}
    (member : next ∈ opened) (unseen : run.visited.elements.contains next.1 = false)
    (goOn : GoesOn after.store variations next.1 next.2) {source : StateId}
    (goesOn : source ∈ next.2.predecessor.map Predecessor.state) :
    after.Awaits layout first (commits ++ more) source next.1 := by
  have reached := explored.reached job (by simp)
  obtain ⟨variation, isVariation, ends, id, isNext, stored, isStored, same⟩ := goOn
  have isSource : id = source := by
    rw [isNext] at goesOn
    exact Option.some.inj goesOn
  subst isSource
  have endsWith : job.EndsWith layout next.1 := ⟨variations, expanded, variation, isVariation, ends⟩
  refine ⟨⟨stored, isStored, same⟩, (wrote.visited _).mpr (.inr ⟨variation, isVariation, ends⟩),
    ⟨job, reached, endsWith⟩, ?_⟩
  have notSeen : run.visited.elements.contains next.1 ≠ true := by simp [unseen]
  rw [List.map_append, List.mem_append, not_or]
  constructor
  · intro isCommit
    obtain ⟨state, isState, rfl⟩ := List.mem_map.mp isCommit
    obtain ⟨earlier, isEarlier, sameEarlier, _⟩ := final.retained state isState
    have shown := sameEarlier.symm.trans
      ((wrote.grows.properties_eq isEarlier isStored).symm.trans same)
    refine notSeen ?_
    rw [← shown]
    exact (final.closed state isState).ends reached (shown ▸ endsWith)
  · intro isFresh
    obtain ⟨state, isState, rfl⟩ := List.mem_map.mp isFresh
    rcases completes.mem_completed.mp (completes.fresh state isState).1 with
      isOwn | ⟨_, _, notDeferred⟩
    · obtain ⟨properties, awaits⟩ := final.waits job List.mem_cons_self _ isOwn
      obtain ⟨earlier, isEarlier, sameEarlier⟩ := awaits.stored
      refine notSeen ?_
      rw [← same, wrote.grows.properties_eq isEarlier isStored, sameEarlier]
      exact awaits.seen
    · exact notDeferred (completes.mem_deferred queue member goesOn)

include determined explored expanded final wrote completes in
/-- **Applying a job** leaves final what was handed over, and what it hands over is final. -/
theorem Completes.final_after :
    after.Final layout first (taken ++ after.queue) (commits ++ more) where
  orderly := completes.store.orderly final.orderly
  retained := by
    intro state member
    rcases List.mem_append.mp member with isCommit | isFresh
    · refine completes.store.retains final.orderly (final.retained state isCommit) ?_ ?_
      · intro goesOn
        obtain ⟨_, awaits⟩ := final.waits job List.mem_cons_self _ goesOn
        exact awaits.withheld (List.mem_map_of_mem isCommit)
      · intro nodes isChain node next precedes same
        obtain ⟨variation, isVariation, rfl⟩ := List.mem_map.mp isChain
        exact (final.closed state isCommit).steps (explored.reached job (by simp))
          ⟨variations, expanded, variation, isVariation, precedes⟩ same
    · exact ⟨state, (completes.fresh state isFresh).2, rfl, rfl⟩
  closed := by
    intro state member
    rcases List.mem_append.mp member with isCommit | isFresh
    · exact completes.closed wrote (final.closed state isCommit)
    · exact completes.closed_fresh determined explored expanded final wrote isFresh
  waits := by
    intro next member source goesOn
    obtain ⟨opened, queue, _, goOn, _⟩ := wrote.queued
    rw [queue, ← List.append_assoc] at member
    rcases List.mem_append.mp member with isOld | isOpened
    · exact completes.waits explored final wrote isOld goesOn
    · obtain ⟨continuation, inOpened, rfl⟩ := List.mem_map.mp isOpened
      obtain ⟨unseen, goesOnFrom⟩ := goOn continuation inOpened
      exact ⟨continuation.1, completes.awaits_opened explored expanded final wrote queue inOpened
        unseen goesOnFrom goesOn⟩
  apart := wrote.apart final

end Step

/-- That all states handed over are final is an invariant. -/
theorem invariant_final (determined : Job.Determined layout first) (limit : Time) (opening : ν) :
    Invariant layout first limit fun _ taken (run : Run ν KripkeStructure) =>
      ∃ commits, run.Booked opening commits ∧
        run.Final layout first (taken ++ run.queue) commits where
  take := by
    rintro done run width ⟨commits, booked, final⟩
    refine ⟨commits, ⟨booked.received, booked.stored, booked.once, booked.marked,
      booked.counted⟩, ?_⟩
    rw [List.take_append_drop]
    exact { final with
      closed := fun state member => { final.closed state member with }
      waits := fun job member source goesOn => by
        obtain ⟨properties, awaits⟩ := final.waits job member source goesOn
        exact ⟨properties, { awaits with }⟩ }
  apply := by
    rintro done taken job variations run after explored ⟨commits, booked, final⟩ expanded ran
    have stored := explored.stored job List.mem_cons_self
    have wrote := applyJob_wrote limit job variations explored.wellFormed stored
    rw [ran] at wrote
    obtain ⟨applied, more, completes⟩ := applyJob_completes explored.wellFormed stored booked ran
    exact ⟨commits ++ more, completes.booked,
      completes.final_after determined explored expanded final wrote⟩

end Verify

/-- **What is handed over is final.** Where threads are independent, no section has two timeslots
of one executable and states tell their positions, every state that was handed to the view has at
the end the edges it was handed over with. -/
theorem verify_commits_final [KripkeView ν] {settings : VerificationSettings} {schedule : Schedule}
    {pool : Pool} {raised : ν → Nat → List CancellationToken} {bound : Nat} {view : ν}
    {report : VerificationReport} {run : Run ν KripkeStructure} (wellFormed : pool.WellFormed)
    (independent : ScheduleThread.Independent pool schedule.threads)
    (few : schedule.timeslots.length ≤ 18446744073709551616)
    (told : schedule.hasRepeatedExecutables = true ∨
      pool.TellsApart (schedule.timeslots.map Timeslot.executable))
    (distinct : pool.names.Nodup)
    (verified : verify settings schedule pool raised bound view KripkeStructure.empty =
      (.ok report, run)) :
    ∃ commits : List KripkeState,
      Receives view (.reset settings.usingClocks :: commits.map .commit ++ [.finish]) run.view ∧
      ∀ state ∈ commits, ∃ stored, run.store.states[state.id]? = some stored ∧
        stored.properties = state.properties ∧ stored.edges = state.edges := by
  obtain ⟨opening, processed, reset, worked, finish, sameRun, _⟩ := verify_eq_ok verified
  have determined := Job.determined wellFormed independent few told distinct
  have final : (Run.opening schedule pool opening KripkeStructure.empty).Final
      (Layout.new schedule) (schedule.firstJob pool) [schedule.firstJob pool] [] :=
    { orderly := KripkeStructure.orderly_empty
      retained := fun _ impossible => nomatch impossible
      closed := fun _ impossible => nomatch impossible
      waits := by
        intro job isFirst source goesOn
        rw [List.mem_singleton.mp isFirst] at goesOn
        cases goesOn
      apart := List.pairwise_singleton _ _ }
  have ends := (Verify.invariant_final determined settings.starvationLimit opening).processQueue
    raised bound (explored_opening schedule pool opening KripkeStructure.wellFormed_empty)
    ⟨[], booked_opening schedule pool opening, final⟩
  rw [worked] at ends
  cases ends with
  | done all explored holds =>
      obtain ⟨commits, booked, final⟩ := holds
      rw [sameRun]
      exact ⟨commits, .cons reset (booked.received.append (.single finish)), final.retained⟩

namespace Switch

/-- The switch runs on one thread, so its threads are independent. -/
theorem independent : ScheduleThread.Independent pool schedule.threads where
  ordered := by
    intro thread isThread
    rw [List.mem_singleton.mp isThread]
    cbv
  apart := by
    intro thread isThread part isPart
    rw [List.mem_singleton.mp isThread] at isPart
    rw [List.mem_singleton.mp isPart]
    exact List.pairwise_singleton _ _
  separate := by
    intro place place' thread thread' isThread isThread' differ
    have first := (List.getElem?_eq_some_iff.mp isThread).choose
    have second := (List.getElem?_eq_some_iff.mp isThread').choose
    simp only [schedule, List.length_singleton] at first second
    omega

/-- The only executable of the switch cannot be mistaken for another. -/
theorem tellsApart : pool.TellsApart (schedule.timeslots.map Timeslot.executable) := by
  intro first isFirst second isSecond differ
  exact absurd ((List.mem_singleton.mp isFirst).trans (List.mem_singleton.mp isSecond).symm) differ

end Switch

/-- The recording view of the switch holds every state with the edges it has at the end. -/
theorem switch_commits_final : ∃ bound report run,
    verify Switch.settings Switch.schedule Switch.pool (fun _ _ => []) bound
      ({} : RecordingView) KripkeStructure.empty = (.ok report, run) ∧
    ∀ state ∈ run.view.states, ∃ stored, run.store.states[state.id]? = some stored ∧
      stored.edges = state.edges := by
  obtain ⟨bound, report, run, verified⟩ := Switch.verified
  obtain ⟨commits, received, final⟩ := verify_commits_final Switch.wellFormed Switch.independent
    (by decide) (.inr Switch.tellsApart) (by decide) verified
  cases received with
  | cons made rest =>
      cases made
      refine ⟨bound, report, run, verified, ?_⟩
      rw [rest.eq_of_recording]
      intro state member
      obtain ⟨stored, found, _, edges⟩ := final state (by simpa [RecordingView.reset] using member)
      exact ⟨stored, found, edges⟩

end TimedKripke
