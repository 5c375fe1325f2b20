import TimedKripke.Proofs.Verification.Finality
import TimedKripke.Proofs.Verification.Ledger

/-! # Verifying again

A node that was written is *settled* in the structure from then on: its state is there, and the
state before it holds the edge (`KripkeStructure.Settles`). This needs that no constraint of a node
is a disjunction (`Job.plain_of_expand`), since only then it is found again among the alternatives
of an edge that it was merged into. Writing a settled node finds its state and changes nothing, so
that a second verification into the same structure writes what the first one wrote, in the same
order, and leaves the structure as it is (`verify_again`).
-/

namespace TimedKripke

/-- No step of the path has a disjunction as its constraint. -/
def SectionPath.Plain (path : SectionPath) : Prop :=
  ∀ step ∈ path.steps, ∀ constraint, step.conditional.edgeConstraint? = some constraint →
    constraint.disjuncts = [constraint]

/-- Expanding a branch adds steps whose constraints are not disjunctions. -/
theorem SectionBranch.plain_of_expand {timing : ScheduleTiming} {slot : Timeslot}
    {branch : SectionBranch} {children : List SectionBranch} (plain : branch.toPath.Plain)
    (expanded : branch.expand timing slot = .ok children) :
    ∀ child ∈ children, child.toPath.Plain := by
  intro child member
  obtain ⟨_, combinations, branches, _, _, visited, rfl⟩ := expand_eq_ok expanded
  obtain ⟨found, isFound, member⟩ := List.mem_flatten.mp member
  obtain ⟨_, _, assigned⟩ := Outcome.mem_of_mapM visited isFound
  obtain ⟨_, _, ringlets, _, _, sampled, rfl⟩ := expandAssignment_eq_ok assigned
  obtain ⟨conditional, chosen, rfl⟩ := List.mem_map.mp member
  intro step isStep constraint isConstraint
  rcases List.mem_append.mp isStep with earlier | here
  · exact plain step earlier constraint isConstraint
  · rw [List.mem_singleton.mp here] at isConstraint
    exact Ringlet.disjuncts_timeAware sampled chosen isConstraint

/-- No step of a section's variations has a disjunction as its constraint. -/
theorem SnapshotSection.plain_of_variations {part : SnapshotSection} {pool : Pool}
    {timing : ScheduleTiming} {paths : List SectionPath}
    (varied : part.variations pool timing = .ok paths) : ∀ path ∈ paths, path.Plain := by
  intro path member
  obtain ⟨_, branches, explored, rfl⟩ := variations_eq_ok varied
  obtain ⟨branch, isBranch, rfl⟩ := List.mem_map.mp member
  have start : (SectionBranch.start pool).toPath.Plain :=
    fun _ impossible => absurd impossible List.not_mem_nil
  exact @Search.explore_preserves _ _ _ _ (fun _ (branch : SectionBranch) => branch.toPath.Plain)
    SectionBranch.plain_of_expand _ _ _ start explored branch isBranch

/-- No step of a thread's variations has a disjunction as its constraint. -/
theorem ScheduleThread.plain_of_variations {thread : ScheduleThread} {pool : Pool}
    {timing : ScheduleTiming} {pathways : List Pathway}
    (varied : thread.variations pool timing = .ok pathways) {pathway : Pathway}
    (member : pathway ∈ pathways) : ∀ path ∈ pathway.sections, path.Plain := by
  rw [ScheduleThread.variations, Search.run_eq_explore] at varied
  refine @Search.explore_preserves _ _ _ _ (fun _ (pathway : Pathway) =>
    ∀ path ∈ pathway.sections, path.Plain) ?_ _ { entry := pool, sections := [] } _
      (fun _ impossible => absurd impossible List.not_mem_nil) varied pathway member
  intro part _ pathway children plain expanded child isChild
  obtain ⟨paths, variedPart, rfl⟩ := Outcome.map_eq_ok.mp expanded
  obtain ⟨path, isPath, rfl⟩ := List.mem_map.mp isChild
  intro other isOther
  rcases List.mem_append.mp isOther with earlier | here
  · exact plain other earlier
  · rw [List.mem_singleton.mp here]
    exact SnapshotSection.plain_of_variations variedPart path isPath

namespace Unfolding

/-- The nodes of such steps are reached by plain edges. -/
theorem plain_of_stepNodes {shared base : Pool} {layout : Layout} {scheduled : ScheduledPath}
    {steps : List SectionStep} : ∀ {index : Nat} {time last : Time} {nodes : List Node},
    (∀ step ∈ steps, ∀ constraint, step.conditional.edgeConstraint? = some constraint →
      constraint.disjuncts = [constraint]) →
    stepNodes shared layout scheduled base index time steps = .ok (nodes, last) →
      ∀ node ∈ nodes, ∀ target, (node.incoming.toEdge target).Plain := by
  induction steps with
  | nil =>
      intro index time last nodes _ laid
      cases laid
      exact fun _ impossible => absurd impossible List.not_mem_nil
  | cons step rest others =>
      intro index time last nodes plain laid
      rw [stepNodes] at laid
      obtain ⟨executable, _, laid⟩ := Outcome.bind_eq_ok.mp laid
      obtain ⟨observed, _, laid⟩ := Outcome.bind_eq_ok.mp laid
      obtain ⟨⟨later, final⟩, laidLater, laid⟩ := Outcome.bind_eq_ok.mp laid
      cases laid
      intro node member target
      rcases List.mem_cons.mp member with rfl | member
      · exact plain step List.mem_cons_self
      · exact others (fun step isStep => plain step (List.mem_cons_of_mem _ isStep)) laidLater node
          member target

/-- All nodes that sections add are reached by plain edges, since a reading has no constraint. -/
theorem plain_of_addSections {layout : Layout} {job : Job}
    {sections : List (ScheduledPath × Nat)} : ∀ {unfolding final : Unfolding},
    (∀ scheduled ∈ sections, scheduled.1.path.Plain) →
    (∀ node ∈ unfolding.nodes, ∀ target, (node.incoming.toEdge target).Plain) →
      sections.foldlM (addSection layout job) unfolding = .ok final →
        ∀ node ∈ final.nodes, ∀ target, (node.incoming.toEdge target).Plain := by
  induction sections with
  | nil =>
      intro unfolding final _ plain folded
      cases folded
      exact plain
  | cons scheduled rest others =>
      intro unfolding final each plain folded
      rw [List.foldlM_cons] at folded
      obtain ⟨next, added, folded⟩ := Outcome.bind_eq_ok.mp folded
      refine others (fun later member => each later (List.mem_cons_of_mem _ member)) ?_ folded
      rcases addSection_cases added with rfl | ⟨_, _, _, nodes, _, _, laid, rfl⟩
      · exact plain
      · intro node member target
        rcases List.mem_append.mp member with earlier | member
        · exact plain node earlier target
        · rcases List.mem_cons.mp member with rfl | member
          · exact fun _ impossible => nomatch impossible
          · exact plain_of_stepNodes (each scheduled List.mem_cons_self) laid node member target

end Unfolding

/-- **No constraint of a node is a disjunction**, so the edges that lead to nodes are plain. -/
theorem Job.plain_of_expand {job : Job} {layout : Layout} {variations : List ScheduleVariation}
    (expanded : job.expand layout = .ok variations) {variation : ScheduleVariation}
    (member : variation ∈ variations) {node : Node} (isNode : node ∈ variation.nodes)
    (target : StateId) : (node.incoming.toEdge target).Plain := by
  obtain ⟨chosen, follows, made⟩ := mem_expand expanded member
  unfold Job.variation at made
  obtain ⟨unfolded, folded, made⟩ := Outcome.bind_eq_ok.mp made
  have plain : ∀ node ∈ unfolded.nodes, ∀ target, (node.incoming.toEdge target).Plain := by
    refine Unfolding.plain_of_addSections ?_ (fun _ impossible =>
      absurd impossible List.not_mem_nil)
      folded
    rintro ⟨scheduled, place⟩ isScheduled
    obtain ⟨pathway, isPathway, isPath⟩ := ScheduledPath.mem_ofPathways
      (List.mem_mergeSort.mp (List.fst_mem_of_mem_zipIdx isScheduled))
    obtain ⟨thread, _, pathways, varied, isVaried⟩ :=
      Outcome.exists_left follows (List.mem_of_getElem? isPathway)
    exact ScheduleThread.plain_of_variations varied isVaried _ isPath
  split at made
  · cases made
  · cases made
    exact plain node isNode target

namespace KripkeStructure

open KripkeStore

variable {before after : KripkeStructure} {write : Write} {writes : List Write}

/-- The state of a node is there, and the state before it holds the edge to it. -/
structure Settles (kripke : KripkeStructure) (write : Write) : Prop where
  plain : (write.node.incoming.toEdge write.id).Plain
  stored : ∃ state, kripke.states[write.id]? = some state ∧
    state.properties = write.node.properties ∧
      (write.node.isInitial = true → state.isInitial = true)
  held : ∀ source ∈ write.previous, ∃ state, kripke.states[source]? = some state ∧
    (write.node.incoming.toEdge write.id).Held state.edges

/-- An edge is only added to a state that exists. -/
theorem stored_of_addEdge {edge : KripkeEdge} {source : StateId}
    (added : before.addEdge edge source = (.ok (), after)) : source < before.states.size := by
  unfold addEdge at added
  split at added
  · next found => exact (Array.getElem?_eq_some_iff.mp found).choose
  · cases added

/-- A write that a well-formed store accepts adds its node. -/
theorem adds_of_accepts (wellFormed : before.WellFormed) (accepts : Accepts before write after) :
    before.Adds write.previous write.node write.id after := by
  cases accepts with
  | @first node id state after added =>
      obtain ⟨_, _, _, again, wellFormedAfter, grows, found, same, initial⟩ :=
        add_eq_ok wellFormed node.properties node.isInitial
      cases (show before.add _ _ = _ from added).symm.trans again
      obtain ⟨place, size, states⟩ := add_states wellFormed node added
      have holds : after.Holds none node id :=
        ⟨⟨state, found, same, initial⟩, fun _ impossible => nomatch impossible⟩
      refine ⟨wellFormedAfter, grows, holds, place, size, fun query => ?_⟩
      rw [states query]
      simp
  | @next source node id state middle after added linked =>
      obtain ⟨_, _, _, again, wellFormedMiddle, grows, found, same, initial⟩ :=
        add_eq_ok wellFormed node.properties node.isInitial
      cases (show before.add _ _ = _ from added).symm.trans again
      obtain ⟨place, size, states⟩ := add_states wellFormed node added
      obtain ⟨_, again, wellFormedAfter, growsMore, last, isLast, wide, isWide, covers⟩ :=
        addEdge_eq_ok wellFormedMiddle (node.incoming.toEdge id) (stored_of_addEdge linked)
      cases (show middle.addEdge _ _ = _ from linked).symm.trans again
      obtain ⟨sameSize, edges⟩ := addEdge_states linked
      have holds : middle.Holds none node id :=
        ⟨⟨state, found, same, initial⟩, fun _ impossible => nomatch impossible⟩
      have reached : ∀ other ∈ some source, ∃ state, after.states[other]? = some state ∧
          ∃ wide ∈ state.edges, wide.Covers (node.incoming.toEdge id) := by
        intro other isSource
        cases isSource
        exact ⟨last, isLast, wide, isWide, covers⟩
      refine ⟨wellFormedAfter, grows.trans growsMore, ⟨(holds.mono growsMore).stored, reached⟩,
        place,
        sameSize.trans size, fun query => ?_⟩
      rw [edges query, states query]

/-- A node that is added by a plain edge is settled: writing it again would change nothing. -/
theorem Adds.settles (adds : before.Adds write.previous write.node write.id after)
    (plain : (write.node.incoming.toEdge write.id).Plain) : after.Settles write := by
  refine ⟨plain, adds.holds.stored, fun source isSource => ?_⟩
  obtain ⟨state, found, _⟩ := adds.holds.reached source isSource
  refine ⟨state, found, ?_⟩
  rw [adds.states source] at found
  obtain ⟨base, _, rfl⟩ := Option.map_eq_some_iff.mp found
  rw [if_pos (show write.previous = some source from isSource)]
  exact KripkeEdge.held_insertInto plain base.edges

/-- **Nodes that are settled stay settled**, whatever node is added. -/
theorem Settles.adds (settles : before.Settles write) {other : Write}
    (adds : before.Adds other.previous other.node other.id after) : after.Settles write := by
  refine ⟨settles.plain, ?_, fun source isSource => ?_⟩
  · obtain ⟨state, found, same, initial⟩ := settles.stored
    obtain ⟨later, foundLater, extended⟩ := adds.grows found
    exact ⟨later, foundLater, extended.properties.trans same,
      fun isInitial => extended.isInitial (initial isInitial)⟩
  · obtain ⟨state, found, held⟩ := settles.held source isSource
    obtain ⟨later, foundLater, _, edges⟩ := adds.exists_later found
    refine ⟨later, foundLater, ?_⟩
    rw [edges]
    split
    · exact held.insertInto settles.plain _
    · exact held

/-- **Writing a node that is settled** finds its state and changes nothing. -/
theorem Settles.accepts (settles : before.Settles write) (orderly : before.Orderly) :
    Accepts before write before := by
  obtain ⟨previous, node, id⟩ := write
  obtain ⟨state, found, same, initial⟩ := settles.stored
  have added : before.add node.properties node.isInitial = (.ok (id, state), before) := by
    have known : before.ids[node.properties]? = some id := orderly.indexed.mpr ⟨state, found, same⟩
    have unchanged : (state.isInitial || node.isInitial) = state.isInitial := by
      cases isInitial : node.isInitial with
      | false => exact Bool.or_false _
      | true => rw [initial isInitial, Bool.or_true]
    unfold add
    simp only [known, show before.states[id]? = some state from found, unchanged]
    rw [setIfInBounds_self found]
  cases previous with
  | none => exact .first added
  | some source =>
      obtain ⟨holder, isHolder, held⟩ := settles.held source rfl
      refine .next added ?_
      have unchanged : holder.addEdge (node.incoming.toEdge id) = holder := by
        rw [KripkeState.addEdge, held.insertInto_eq (orderly.edges isHolder)]
      change before.addEdge _ _ = _
      unfold addEdge
      rw [isHolder]
      simp only [unchanged]
      rw [setIfInBounds_self isHolder]

/-- Writing is determined by the store and the node. -/
theorem accepts_unique {previous : Option StateId} {node : Node} {id id' : StateId}
    {other : KripkeStructure} (accepts : Accepts before { previous, node, id } after)
    (again : Accepts before { previous, node, id := id' } other) : id = id' ∧ after = other := by
  cases accepts with
  | first added =>
      cases again with
      | first addedAgain =>
          cases added.symm.trans addedAgain
          exact ⟨rfl, rfl⟩
  | next added linked =>
      cases again with
      | next addedAgain linkedAgain =>
          cases added.symm.trans addedAgain
          cases linked.symm.trans linkedAgain
          exact ⟨rfl, rfl⟩

/-- **Nodes that are written one after the other** are all settled at the end. -/
theorem settles_of_acceptsAll (accepts : AcceptsAll before writes after) : before.Orderly →
    (∀ write ∈ writes, (write.node.incoming.toEdge write.id).Plain) →
      after.Orderly ∧ (∀ write, before.Settles write → after.Settles write) ∧
        ∀ write ∈ writes, after.Settles write := by
  induction accepts with
  | nil =>
      intro orderly _
      exact ⟨orderly, fun _ settles => settles, fun _ impossible =>
        absurd impossible List.not_mem_nil⟩
  | cons first _ others =>
      intro orderly plain
      have adds := adds_of_accepts orderly.toWellFormed first
      obtain ⟨orderlyAfter, keeps, each⟩ := others (adds.orderly orderly)
        fun write member => plain write (List.mem_cons_of_mem _ member)
      refine ⟨orderlyAfter, fun write settles => keeps write (settles.adds adds), ?_⟩
      intro write member
      rcases List.mem_cons.mp member with rfl | member
      · exact keeps write (adds.settles (plain write List.mem_cons_self))
      · exact each write member

open WrittenVariation

/-- Writing a chain of settled nodes gives the numbers again and changes nothing. -/
theorem eq_of_chain (orderly : before.Orderly) {nodes : List Node} :
    ∀ {previous : Option StateId} {ids others : List StateId}, ids.length = nodes.length →
      others.length = nodes.length →
      (∀ write ∈ chain previous nodes ids, before.Settles write) →
      AcceptsAll before (chain previous nodes others) after → others = ids ∧ after = before := by
  induction nodes with
  | nil =>
      intro previous ids others length lengthOthers _ accepts
      rw [List.length_eq_zero_iff.mp length, List.length_eq_zero_iff.mp lengthOthers] at *
      cases accepts
      exact ⟨rfl, rfl⟩
  | cons node nodes shorter =>
      intro previous ids others length lengthOthers settles accepts
      obtain ⟨id, ids, rfl⟩ := List.exists_cons_of_length_eq_add_one length
      obtain ⟨other, others, rfl⟩ := List.exists_cons_of_length_eq_add_one lengthOthers
      cases accepts with
      | cons first rest =>
          have again := (settles _ List.mem_cons_self).accepts orderly
          obtain ⟨rfl, rfl⟩ := accepts_unique first again
          obtain ⟨rfl, rfl⟩ := shorter (Nat.succ.inj length) (Nat.succ.inj lengthOthers)
            (fun write member => settles write (List.mem_cons_of_mem _ member)) rest
          exact ⟨rfl, rfl⟩

/-- Writing settled variations gives the numbers again and changes nothing. -/
theorem eq_of_written (orderly : before.Orderly) {previous : Option StateId}
    {written : List WrittenVariation} : ∀ {others : List WrittenVariation},
      others.map variation = written.map variation →
      (∀ one ∈ written, one.ids.length = one.variation.nodes.length) →
      (∀ one ∈ others, one.ids.length = one.variation.nodes.length) →
      (∀ write ∈ written.flatMap (WrittenVariation.writes previous), before.Settles write) →
      AcceptsAll before (others.flatMap (WrittenVariation.writes previous)) after →
        others = written ∧ after = before := by
  induction written with
  | nil =>
      intro others same _ _ _ accepts
      rw [List.map_eq_nil_iff.mp same] at *
      cases accepts
      exact ⟨rfl, rfl⟩
  | cons one written shorter =>
      intro others same numbered numberedOthers settles accepts
      obtain ⟨other, others, rfl, sameVariation, sameRest⟩ := List.map_eq_cons_iff.mp same
      obtain ⟨variation, ids⟩ := one
      obtain ⟨_, otherIds⟩ := other
      cases sameVariation
      rw [List.flatMap_cons] at settles accepts
      obtain ⟨middle, first, rest⟩ := accepts.of_append
      have length : ids.length = variation.nodes.length := numbered _ List.mem_cons_self
      have lengthOther : otherIds.length = variation.nodes.length :=
        numberedOthers _ List.mem_cons_self
      obtain ⟨rfl, rfl⟩ := eq_of_chain orderly length lengthOther
        (fun write member => settles write (List.mem_append_left _ member)) first
      obtain ⟨rfl, rfl⟩ := shorter sameRest
        (fun later member => numbered later (List.mem_cons_of_mem _ member))
        (fun later member => numberedOthers later (List.mem_cons_of_mem _ member))
        (fun write member => settles write (List.mem_append_right _ member)) rest
      exact ⟨rfl, rfl⟩

end KripkeStructure

open WrittenVariation KripkeStore

/-- A chain writes its nodes and no others. -/
theorem WrittenVariation.mem_nodes_of_chain {nodes : List Node} : ∀ {previous : Option StateId}
    {ids : List StateId} {write : Write}, write ∈ chain previous nodes ids →
        write.node ∈ nodes := by
  induction nodes with
  | nil => exact fun impossible => absurd impossible List.not_mem_nil
  | cons node nodes others =>
      intro previous ids write member
      cases ids with
      | nil => exact absurd member List.not_mem_nil
      | cons id ids =>
          rcases List.mem_cons.mp member with rfl | member
          · exact List.mem_cons_self
          · exact List.mem_cons_of_mem _ (others member)

/-- Every number of a chain is that of one of its writes. -/
theorem WrittenVariation.exists_write_of_mem {nodes : List Node} : ∀ {previous : Option StateId}
    {ids : List StateId}, ids.length = nodes.length → ∀ {id : StateId}, id ∈ ids →
      ∃ write ∈ chain previous nodes ids, write.id = id := by
  induction nodes with
  | nil =>
      intro previous ids length id member
      rw [List.length_eq_zero_iff.mp length] at member
      exact absurd member List.not_mem_nil
  | cons node nodes others =>
      intro previous ids length id member
      obtain ⟨first, ids, rfl⟩ := List.exists_cons_of_length_eq_add_one length
      rcases List.mem_cons.mp member with rfl | member
      · exact ⟨_, List.mem_cons_self, rfl⟩
      · obtain ⟨write, isWrite, same⟩ := others (Nat.succ.inj length) member
        exact ⟨write, List.mem_cons_of_mem _ isWrite, same⟩

/-- A job that goes on from written variations goes on from the state of one of their nodes. -/
theorem WrittenVariation.exists_write_of_successors {written : List WrittenVariation} :
    ∀ {seen : List PropertyList} {job : Job}, job ∈ successors seen written →
      (∀ one ∈ written, one.ids.length = one.variation.nodes.length) →
      ∀ (previous : Option StateId), ∀ source ∈ job.predecessor.map Predecessor.state,
        ∃ write ∈ written.flatMap (WrittenVariation.writes previous), write.id = source := by
  induction written with
  | nil => exact fun impossible => absurd impossible List.not_mem_nil
  | cons one written others =>
      intro seen job member numbered previous source isSource
      rw [successors] at member
      rw [List.flatMap_cons]
      rcases List.mem_append.mp member with here | later
      · obtain ⟨last, isEnd, goesOn⟩ := Option.bind_eq_some_iff.mp (Option.mem_toList.mp here)
        split at goesOn
        · cases goesOn
        · cases goesOn
          cases isSource
          have isLast : one.ids.getLast? = some last.2 := by
            unfold WrittenVariation.end? at isEnd
            split at isEnd
            · next lastId _ isId =>
                cases isEnd
                exact isId
            · cases isEnd
          obtain ⟨write, isWrite, same⟩ := exists_write_of_mem (numbered one List.mem_cons_self)
            (List.mem_of_getLast? isLast)
          exact ⟨write, List.mem_append_left _ isWrite, same⟩
      · obtain ⟨write, isWrite, same⟩ := others later
          (fun later member => numbered later (List.mem_cons_of_mem _ member)) previous source
            isSource
        exact ⟨write, List.mem_append_right _ isWrite, same⟩

/-- All edges that a job writes are plain. -/
theorem LedgerEntry.Complete.plain {layout : Layout} {entry : LedgerEntry}
    (complete : entry.Complete layout) :
    ∀ write ∈ entry.writes, (write.node.incoming.toEdge write.id).Plain := by
  intro write member
  obtain ⟨one, isOne, isWrite⟩ := List.mem_flatMap.mp member
  exact Job.plain_of_expand complete.expanded (List.mem_map_of_mem isOne)
    (mem_nodes_of_chain isWrite) write.id

namespace Verify

variable {ν ν' : Type} [KripkeView ν] [KripkeView ν'] {layout : Layout} {limit : Time}
  {before after : Run ν KripkeStructure} {queue jobs left : List Job} {seen : List PropertyList}

/-- Processing jobs keeps the structure orderly and leaves settled what was settled. -/
theorem Processes.settles (processes : Processes layout limit before queue jobs after left)
    (empty : before.queue = []) (visited : before.HasSeen seen)
    (orderly : before.store.Orderly) : after.store.Orderly ∧
      ∀ write, before.store.Settles write → after.store.Settles write := by
  obtain ⟨ledger, _, balances⟩ := processes.exists_ledger empty visited
  have plain : ∀ write ∈ ledger.flatMap LedgerEntry.writes,
      (write.node.incoming.toEdge write.id).Plain := by
    intro write member
    obtain ⟨entry, isEntry, isWrite⟩ := List.mem_flatMap.mp member
    exact (balances.complete entry isEntry).plain write isWrite
  obtain ⟨orderlyAfter, keeps, _⟩ :=
    KripkeStructure.settles_of_acceptsAll balances.recorded orderly plain
  exact ⟨orderlyAfter, keeps⟩

/-- **Processing jobs again.** Jobs that were processed can be processed once more, into the
structure they left; this changes nothing in it. -/
theorem Processes.again
    (takes : ∀ (call : ViewCall) (view : ν'), ∃ after, call.make view = (.ok (), after))
    (limitAgain : Time) (processes : Processes layout limit before queue jobs after left) :
    ∀ {seen : List PropertyList} {again : Run ν' KripkeStructure}, before.queue = [] →
      before.HasSeen seen →
      before.store.Orderly → again.queue = [] →
      again.HasSeen seen →
      again.store = after.store →
      (∀ job ∈ queue, ∀ source ∈ job.predecessor.map Predecessor.state,
        source < after.store.states.size) →
      ∃ last, Processes layout limitAgain again queue jobs last left ∧ last.store =
          after.store := by
  induction processes with
  | nil run queue =>
      intro seen again _ _ _ _ _ same _
      exact ⟨again, .nil _ _, same⟩
  | @cons before middle after job queue jobs left variations expanded applied rest others =>
      intro seen again empty visited orderly emptyAgain visitedAgain sameStore stored
      -- The first time the variations of the job were written, and they are settled since.
      obtain ⟨written, isWritten, enters, _⟩ := applyJob_enters expanded visited applied
      have complete : LedgerEntry.Complete layout ⟨job, written⟩ :=
        ⟨isWritten ▸ expanded, enters.numbered⟩
      obtain ⟨orderlyMiddle, _, settlesMiddle⟩ :=
        KripkeStructure.settles_of_acceptsAll enters.store orderly complete.plain
      obtain ⟨orderlyAfter, keeps⟩ := rest.settles rfl enters.visited orderlyMiddle
      have settled : ∀ write ∈ LedgerEntry.writes ⟨job, written⟩, after.store.Settles write :=
        fun write member => keeps write (settlesMiddle write member)
      have orderlyAgain : again.store.Orderly := sameStore ▸ orderlyAfter
      have storedHere : ∀ source ∈ job.predecessor.map Predecessor.state,
          source < again.store.states.size := by
        intro source isSource
        rw [sameStore]
        exact stored job List.mem_cons_self source isSource
      cases ran : applyJob limitAgain job variations again with
      | mk outcome middleAgain =>
          cases outcome with
          | error error =>
              obtain ⟨call, view, _, _, refused, _⟩ :=
                applyJob_error_ofView orderlyAgain.toWellFormed storedHere ran
              obtain ⟨_, took⟩ := takes call view
              cases took.symm.trans refused
          | ok _ =>
              obtain ⟨writtenAgain, isWrittenAgain, entersAgain, _⟩ :=
                applyJob_enters expanded visitedAgain ran
              obtain ⟨rfl, sameMiddle⟩ := KripkeStructure.eq_of_written orderlyAgain
                (isWrittenAgain.trans isWritten.symm) enters.numbered entersAgain.numbered
                (fun write member => sameStore ▸ settled write member) entersAgain.store
              have sameQueue : middleAgain.queue = middle.queue := by
                rw [entersAgain.queue, enters.queue, empty, emptyAgain]
              have storedLater : ∀ next ∈ queue ++ middle.queue,
                  ∀ source ∈ next.predecessor.map Predecessor.state,
                    source < after.store.states.size := by
                intro next member source isSource
                rcases List.mem_append.mp member with member | member
                · exact stored next (List.mem_cons_of_mem _ member) source isSource
                · rw [enters.queue, empty, List.nil_append] at member
                  obtain ⟨write, isWrite, rfl⟩ := exists_write_of_successors member enters.numbered
                    (job.predecessor.map Predecessor.state) source isSource
                  obtain ⟨_, found, _⟩ := (settled write isWrite).stored
                  exact (Array.getElem?_eq_some_iff.mp found).choose
              obtain ⟨last, later, sameLast⟩ := @others _ middleAgain.unqueued rfl enters.visited
                orderlyMiddle rfl entersAgain.visited (sameMiddle.trans sameStore) storedLater
              rw [← sameQueue] at later
              exact ⟨last, .cons expanded ran later, sameLast⟩

end Verify

/-- **Verifying again changes nothing.** Let a verification into the empty structure succeed. A
second one of the same schedule and pool into the structure that it left succeeds as well, without
limit and cancellation and with a view that takes every call, and leaves the structure as it is. -/
theorem verify_again {ν ν' : Type} [KripkeView ν] [KripkeView ν']
    {settings again : VerificationSettings} {schedule : Schedule} {pool : Pool}
    {raised : ν → Nat → List CancellationToken} {raisedAgain : ν' → Nat → List CancellationToken}
    {bound boundAgain : Nat} {view : ν} {viewAgain : ν'} {report : VerificationReport}
    {run : Run ν KripkeStructure}
    (verified : verify settings schedule pool raised bound view KripkeStructure.empty =
      (.ok report, run))
    (takes : ∀ (call : ViewCall) (view : ν'), ∃ after, call.make view = (.ok (), after))
    (quiet : ∀ view jobs, again.isCancelled (raisedAgain view jobs) = false)
    (unlimited : again.maxJobs = none) (enough : report.stats.jobsProcessed ≤ boundAgain) :
    ∃ reportAgain runAgain,
      verify again schedule pool raisedAgain boundAgain viewAgain run.store =
        (.ok reportAgain, runAgain) ∧ runAgain.store = run.store := by
  obtain ⟨validated, shown, jobs, last, _, processes, flushed, _, stats⟩ :=
    processes_of_verify verified
  have same : last.store = run.store := congrArg Prod.snd flushed
  obtain ⟨shownAgain, reset⟩ := takes (.reset again.usingClocks) viewAgain
  have counted : report.stats.jobsProcessed = jobs.length := by
    have counted := processes.jobsProcessed_eq
    rw [stats] at counted
    exact counted.trans (Nat.zero_add _)
  have firstStored : ∀ job ∈ [schedule.firstJob pool],
      ∀ source ∈ job.predecessor.map Predecessor.state, source < last.store.states.size := by
    intro job member source isSource
    rw [List.mem_singleton.mp member] at isSource
    cases isSource
  have noQueue :
      ({ view := shownAgain, store := last.store } : Run ν' KripkeStructure).queue = [] := rfl
  obtain ⟨lastAgain, processesAgain, sameLast⟩ := processes.again takes again.starvationLimit rfl
    (Run.hasSeen_nil _ _) KripkeStructure.orderly_empty noQueue (Run.hasSeen_nil _ _) rfl
    firstStored
  obtain ⟨finished, finish⟩ := takes .finish lastAgain.view
  rw [same] at processesAgain
  obtain ⟨reportAgain, runAgain, verifiedAgain, isStore, _⟩ := verify_of_processes quiet validated
    reset processesAgain (fun limit limited => nomatch unlimited.symm.trans limited)
    (counted ▸ enough) rfl finish
  exact ⟨reportAgain, runAgain, verifiedAgain, isStore.trans (sameLast.trans same)⟩

/-- Verifying the switch a second time leaves the structure as it is. -/
theorem switch_again : ∃ (bound : Nat) (report reportAgain : VerificationReport)
    (run runAgain : Run RecordingView KripkeStructure),
    verify Switch.settings Switch.schedule Switch.pool (fun _ _ => []) bound
      ({} : RecordingView) KripkeStructure.empty = (.ok report, run) ∧
    verify Switch.settings Switch.schedule Switch.pool (fun _ _ => []) report.stats.jobsProcessed
      ({} : RecordingView) run.store = (.ok reportAgain, runAgain) ∧
    runAgain.store = run.store := by
  obtain ⟨bound, report, run, verified⟩ := Switch.verified
  have quiet : ∀ (_ : RecordingView) (_ : Nat), Switch.settings.isCancelled [] = false :=
    fun _ _ => rfl
  obtain ⟨reportAgain, runAgain, verifiedAgain, same⟩ :=
    verify_again verified RecordingView.takes_call quiet rfl (Nat.le_refl _)
  exact ⟨bound, report, reportAgain, run, runAgain, verified, verifiedAgain, same⟩

end TimedKripke
