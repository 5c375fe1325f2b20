import Mathlib.Data.List.Nodup
import Mathlib.Tactic.Common
import TimedKripke.Proofs.Kripke.Structure
import TimedKripke.Verification.Run

/-! # What a verification writes

The parts of a verification that write to a Kripke structure never fail on a well-formed
one. Writing a chain of nodes leaves a trace of it in the structure
(`KripkeStructure.Traced`), and every later structure still holds the trace
(`KripkeStructure.Traced.mono`). Writing a variation (`Verify.applyVariation_eq_ok`) marks
its end as seen and queues the job that goes on from it, unless the end was seen
before; committing states leaves structure, queue and seen ends alone.
-/

namespace TimedKripke

/-- The job that a verification starts from. -/
def Schedule.firstJob (schedule : Schedule) (pool : Pool) : Job :=
  { pool, threads := schedule.threads, predecessor := none, initial := true }

namespace ScheduleVariation

/-- The job that goes on from the end of a variation, which is stored under `state`. -/
def successor (variation : ScheduleVariation) (state : StateId) : Job :=
  { pool := variation.pool
    threads := variation.threads
    predecessor := some { state, slot := variation.lastSlot }
    initial := false }

end ScheduleVariation

namespace KripkeStructure

/-- The state `id` is that of a node, and the state before it, if there is one, has an
edge to it that covers the edge of the node. -/
structure Holds (kripke : KripkeStructure) (previous : Option StateId) (node : Node)
    (id : StateId) : Prop where
  /-- The state has the properties of the node and is initial if the node is. -/
  stored : ∃ state, kripke.states[id]? = some state ∧ state.properties = node.properties ∧
    (node.isInitial = true → state.isInitial = true)
  /-- The node can be reached from the state before. -/
  reached : ∀ source ∈ previous, ∃ state, kripke.states[source]? = some state ∧
    ∃ wide ∈ state.edges, wide.Covers (node.incoming.toEdge id)

/-- The nodes are stored one after the other, the first one after `previous`. -/
def Traced (kripke : KripkeStructure) : (previous : Option StateId) → List Node → Prop
  | _, [] => True
  | previous, node :: rest => ∃ id, kripke.Holds previous node id ∧ kripke.Traced (some id) rest

/-- A stored node and the edge to it stay when the structure grows. -/
theorem Holds.mono {before after : KripkeStructure} (grows : before.Extends after)
    {previous : Option StateId} {node : Node} {id : StateId}
    (holds : before.Holds previous node id) : after.Holds previous node id := by
  constructor
  · obtain ⟨state, found, same, initial⟩ := holds.stored
    obtain ⟨later, foundLater, extended⟩ := grows found
    exact ⟨later, foundLater, extended.properties.trans same,
      fun isInitial => extended.isInitial (initial isInitial)⟩
  · intro source member
    obtain ⟨state, found, wide, inside, covers⟩ := holds.reached source member
    obtain ⟨later, foundLater, extended⟩ := grows found
    obtain ⟨wider, inside', covers'⟩ := extended.edges wide inside
    exact ⟨later, foundLater, wider, inside', covers'.trans covers⟩

/-- Stored nodes one after the other stay so when the structure grows. -/
theorem Traced.mono {before after : KripkeStructure} (grows : before.Extends after) :
    ∀ {nodes : List Node} {previous : Option StateId},
      before.Traced previous nodes → after.Traced previous nodes
  | [], _, _ => trivial
  | _ :: _, _, ⟨id, holds, rest⟩ => ⟨id, holds.mono grows, Traced.mono grows rest⟩

end KripkeStructure

namespace Verify

variable {ν σ α β : Type}

/-- After a part that answers, the next one goes on from its answer. -/
theorem bind_of_ok {part : Verify ν σ α} {next : α → Verify ν σ β} {run after : Run ν σ}
    {answer : α} (answered : part run = (.ok answer, after)) :
    (part >>= next) run = next answer after := by
  change ExceptT.bindCont next (part run).1 (part run).2 = _
  rw [answered]
  rfl

/-- After a part that fails, nothing else is done. -/
theorem bind_of_error {part : Verify ν σ α} {next : α → Verify ν σ β} {run after : Run ν σ}
    {error : VerificationError} (failed : part run = (.error error, after)) :
    (part >>= next) run = (.error error, after) := by
  change ExceptT.bindCont next (part run).1 (part run).2 = _
  rw [failed]
  rfl

/-- Reading the run hands it on. -/
theorem get_bind (next : Run ν σ → Verify ν σ β) (run : Run ν σ) :
    ((get : Verify ν σ (Run ν σ)) >>= next) run = next run run :=
  rfl

/-- Changing the run goes on with the changed one. -/
theorem modify_bind (change : Run ν σ → Run ν σ) (next : Unit → Verify ν σ β) (run : Run ν σ) :
    ((modify change : Verify ν σ Unit) >>= next) run = next () (change run) :=
  rfl

/-- A sequence of parts that succeeds has a first part that succeeds. -/
theorem bind_eq_ok {part : Verify ν σ α} {next : α → Verify ν σ β} {run after : Run ν σ}
    {answer : β} (answered : (part >>= next) run = (.ok answer, after)) :
    ∃ first middle, part run = (.ok first, middle) ∧ next first middle = (.ok answer, after) := by
  cases ran : part run with
  | mk outcome middle =>
      cases outcome with
      | ok first => exact ⟨first, middle, rfl, (bind_of_ok ran).symm.trans answered⟩
      | error error =>
          rw [bind_of_error ran] at answered
          cases answered

/-- Writing a node succeeds and leaves it stored after the state before it. -/
theorem writeNode_eq_ok {run : Run ν KripkeStructure} (wellFormed : run.store.WellFormed)
    (written : Written) (node : Node)
    (stored : ∀ source ∈ written.previous, source < run.store.states.size) :
    ∃ id created store, writeNode written node run =
        (.ok { previous := some id, created }, { run with store }) ∧
      store.WellFormed ∧ run.store.Extends store ∧ store.Holds written.previous node id ∧
        ∀ new ∈ created, new ∈ written.created ∨ new = id := by
  obtain ⟨id, state, added, addition, wellFormedAdded, growsAdded, found, same, initial⟩ :=
    KripkeStructure.add_eq_ok wellFormed node.properties node.isInitial
  have addStep : (onStore fun store => KripkeStore.add store node.properties node.isInitial :
      Verify ν KripkeStructure _) run = (.ok (id, state), { run with store := added }) := by
    change (((run.store.add node.properties node.isInitial).1.mapError _),
      { run with store := (run.store.add node.properties node.isInitial).2 }) = _
    rw [addition]
    rfl
  let created := if run.store.states.size < added.states.size then written.created ++ [id]
    else written.created
  have createdNew : ∀ new ∈ created, new ∈ written.created ∨ new = id := by
    intro new member
    by_cases grew : run.store.states.size < added.states.size
    · simpa [created, grew] using member
    · exact .inl (by simpa [created, grew] using member)
  cases before : written.previous with
  | none =>
      refine ⟨id, created, added, ?_, wellFormedAdded, growsAdded,
        ⟨⟨state, found, same, initial⟩, fun _ impossible => nomatch impossible⟩, createdNew⟩
      unfold writeNode
      refine (get_bind _ run).trans ?_
      refine (bind_of_ok addStep).trans ?_
      rw [before]
      rfl
  | some source =>
      have sourceStored : source < added.states.size :=
        Nat.lt_of_lt_of_le (stored source before) growsAdded.size_le
      obtain ⟨linked, link, wellFormedLinked, growsLinked, sourceState, foundSource, wide, inside,
        covers⟩ := KripkeStructure.addEdge_eq_ok wellFormedAdded (node.incoming.toEdge id)
          sourceStored
      have linkStep : (onStore fun store =>
          KripkeStore.addEdge store (node.incoming.toEdge id) source :
            Verify ν KripkeStructure _) { run with store := added } =
          (.ok (), { run with store := linked }) := by
        change (((added.addEdge (node.incoming.toEdge id) source).1.mapError _),
          { run with store := (added.addEdge (node.incoming.toEdge id) source).2 }) = _
        rw [link]
        rfl
      obtain ⟨later, foundLater, extended⟩ := growsLinked found
      refine ⟨id, created, linked, ?_, wellFormedLinked, growsAdded.trans growsLinked,
        ⟨⟨later, foundLater, extended.properties.trans same,
          fun isInitial => extended.isInitial (initial isInitial)⟩, ?_⟩, createdNew⟩
      · unfold writeNode
        refine (get_bind _ run).trans ?_
        refine (bind_of_ok addStep).trans ?_
        rw [before]
        exact bind_of_ok linkStep
      · intro other member
        cases member
        exact ⟨sourceState, foundSource, wide, inside, covers⟩

/-- Writing a chain of nodes succeeds and leaves a trace of it. The state written last is
that of the last node. -/
theorem writeNodes_eq_ok (nodes : List Node) : ∀ {run : Run ν KripkeStructure} (written : Written),
    run.store.WellFormed → (∀ source ∈ written.previous, source < run.store.states.size) →
    ∃ (last : Written) (store : KripkeStructure),
      nodes.foldlM writeNode written run = (.ok last, { run with store }) ∧
      store.WellFormed ∧ run.store.Extends store ∧ store.Traced written.previous nodes ∧
      (nodes = [] → last.previous = written.previous) ∧
      (∀ final ∈ nodes.getLast?, ∃ id state, last.previous = some id ∧
        store.states[id]? = some state ∧ state.properties = final.properties) ∧
      ∀ new ∈ last.created, new ∈ written.created ∨ new < store.states.size := by
  induction nodes with
  | nil =>
      intro run written wellFormed _
      exact ⟨written, run.store, rfl, wellFormed, .refl _, trivial, fun _ => rfl,
        fun _ impossible => (nomatch impossible), fun _ => .inl⟩
  | cons node rest shorter =>
      intro run written wellFormed stored
      obtain ⟨id, created, store, first, wellFormedStore, grows, holds, createdNew⟩ :=
        writeNode_eq_ok wellFormed written node stored
      obtain ⟨state, found, same, _⟩ := holds.stored
      have idStored : id < store.states.size := (Array.getElem?_eq_some_iff.mp found).choose
      obtain ⟨last, final, others, wellFormedFinal, growsFinal, traced, unchanged, ends, newer⟩ :=
        @shorter { run with store } { previous := some id, created } wellFormedStore
          (fun source member => by cases member; exact idStored)
      refine ⟨last, final, ?_, wellFormedFinal, grows.trans growsFinal,
        ⟨id, holds.mono growsFinal, traced⟩, fun impossible => (nomatch impossible), ?_, ?_⟩
      · rw [List.foldlM_cons]
        exact (bind_of_ok first).trans others
      · intro lastNode member
        cases rest with
        | nil =>
            cases member
            obtain ⟨later, foundLater, extended⟩ := growsFinal found
            exact ⟨id, later, unchanged rfl, foundLater, extended.properties.trans same⟩
        | cons second more => exact ends lastNode member
      · intro new member
        rcases newer new member with member | inside
        · rcases createdNew new member with member | rfl
          · exact .inl member
          · exact .inr (Nat.lt_of_lt_of_le idStored growsFinal.size_le)
        · exact .inr inside

/-- What writing a variation does to the seen ends and to the queue. -/
inductive Continues (variation : ScheduleVariation) (before after : Run ν KripkeStructure) : Prop
  /-- A variation without nodes leaves everything as it was. -/
  | empty (noNodes : variation.nodes = []) (visited : after.visited = before.visited)
      (queue : after.queue = before.queue)
  /-- The end was seen before. -/
  | closed (last : Node) (ends : variation.nodes.getLast? = some last)
      (seen : before.visited.elements.contains last.properties = true)
      (visited : after.visited = (before.visited.visit last.properties).2)
      (queue : after.queue = before.queue)
  /-- The end is new, and a job goes on from it. -/
  | opened (last : Node) (id : StateId) (ends : variation.nodes.getLast? = some last)
      (unseen : before.visited.elements.contains last.properties = false)
      (stored : ∃ state, after.store.states[id]? = some state ∧ state.properties = last.properties)
      (visited : after.visited = (before.visited.visit last.properties).2)
      (queue : after.queue = before.queue ++ [variation.successor id])

/-- **Writing a variation.** It succeeds on a well-formed structure, leaves a trace of the
nodes after the state the job goes on from, and continues from the end if that is
new. -/
theorem applyVariation_eq_ok (limit : Time) (predecessor : Option Predecessor) (applied : Applied)
    (variation : ScheduleVariation) {run : Run ν KripkeStructure}
    (wellFormed : run.store.WellFormed)
    (stored : ∀ source ∈ predecessor.map Predecessor.state, source < run.store.states.size) :
    ∃ (result : Applied) (after : Run ν KripkeStructure),
      applyVariation limit predecessor applied variation run = (.ok result, after) ∧
      after.store.WellFormed ∧ run.store.Extends after.store ∧
      after.store.Traced (predecessor.map Predecessor.state) variation.nodes ∧
      Continues variation run after ∧
      (∀ new ∈ result.created, new ∈ applied.created ∨ new < after.store.states.size) ∧
      after.stats.jobsProcessed = run.stats.jobsProcessed := by
  obtain ⟨last, store, writes, wellFormedStore, grows, traced, unchanged, ends, newer⟩ :=
    writeNodes_eq_ok (ν := ν) variation.nodes
      { previous := predecessor.map Predecessor.state, created := applied.created }
        wellFormed stored
  let noted : Run ν KripkeStructure :=
    { run with store, liveness := variation.cycles.foldl (noteStuck limit) run.liveness }
  cases final : variation.nodes.getLast? with
  | none =>
      refine ⟨{ applied with created := last.created }, noted, ?_, wellFormedStore, grows, traced,
        .empty (List.getLast?_eq_none_iff.mp final) rfl rfl, newer, rfl⟩
      unfold applyVariation
      refine (bind_of_ok writes).trans ?_
      refine (modify_bind _ _ _).trans ?_
      rw [final]
      rfl
  | some node =>
      obtain ⟨id, state, current, found, same⟩ := ends node final
      cases seen : run.visited.elements.contains node.properties with
      | true =>
          refine ⟨{ applied with created := last.created },
            { noted with
              visited := (run.visited.visit node.properties).2
              stats := { noted.stats with cyclesClosed := noted.stats.cyclesClosed + 1 } },
            ?_, wellFormedStore, grows, traced, .closed node final seen rfl rfl, newer, rfl⟩
          unfold applyVariation
          refine (bind_of_ok writes).trans ?_
          refine (modify_bind _ _ _).trans ?_
          rw [final, current]
          refine (get_bind _ _).trans ?_
          have visit : noted.visited.visit node.properties =
              (true, (run.visited.visit node.properties).2) := by
            rw [← seen]
            rfl
          rw [visit]
          rfl
      | false =>
          refine ⟨{ created := last.created, deferred := applied.deferred ++ [id] },
            { noted with
              visited := (run.visited.visit node.properties).2
              queue := run.queue ++ [variation.successor id]
              stats := { noted.stats with
                maxQueueLength := max noted.stats.maxQueueLength
                  (run.queue ++ [variation.successor id]).length } },
            ?_, wellFormedStore, grows, traced,
            .opened node id final seen ⟨state, found, same⟩ rfl rfl, newer, rfl⟩
          unfold applyVariation
          refine (bind_of_ok writes).trans ?_
          refine (modify_bind _ _ _).trans ?_
          rw [final, current]
          refine (get_bind _ _).trans ?_
          have visit : noted.visited.visit node.properties =
              (false, (run.visited.visit node.properties).2) := by
            rw [← seen]
            rfl
          rw [visit]
          rfl

/-- The properties at the end of a variation. -/
def Ends (variation : ScheduleVariation) (properties : PropertyList) : Prop :=
  ∃ last, variation.nodes.getLast? = some last ∧ last.properties = properties

/-- The job goes on from one of the variations, whose end has the given properties and is
stored under the number that the job names. -/
def GoesOn (store : KripkeStructure) (variations : List ScheduleVariation)
    (properties : PropertyList) (job : Job) : Prop :=
  ∃ variation ∈ variations, Ends variation properties ∧ ∃ id, job = variation.successor id ∧
    ∃ state, store.states[id]? = some state ∧ state.properties = properties

/-- A job that goes on starts after a stored state. -/
theorem GoesOn.stored {store : KripkeStructure} {variations : List ScheduleVariation}
    {properties : PropertyList} {job : Job} (goesOn : GoesOn store variations properties job) :
    ∀ source ∈ job.predecessor.map Predecessor.state, source < store.states.size := by
  obtain ⟨variation, _, _, id, rfl, state, found, _⟩ := goesOn
  rintro _ ⟨⟩
  exact (Array.getElem?_eq_some_iff.mp found).choose

/-- What writing some variations comes to, for the run `before` and the run `after`. -/
structure Wrote (previous : Option StateId) (variations : List ScheduleVariation)
    (before after : Run ν KripkeStructure) : Prop where
  wellFormed : after.store.WellFormed
  grows : before.store.Extends after.store
  traced : ∀ variation ∈ variations, after.store.Traced previous variation.nodes
  /-- The ends of the variations are seen, and no others. -/
  visited : ∀ properties, after.visited.elements.contains properties = true ↔
    before.visited.elements.contains properties = true ∨
      ∃ variation ∈ variations, Ends variation properties
  /-- Jobs are queued behind the others: for every end that was not seen before, one that goes
  on from it. -/
  queued : ∃ opened : List (PropertyList × Job),
    after.queue = before.queue ++ opened.map Prod.snd ∧ (opened.map Prod.fst).Nodup ∧
    (∀ next ∈ opened, before.visited.elements.contains next.1 = false ∧
      GoesOn after.store variations next.1 next.2) ∧
    ∀ variation ∈ variations, ∀ properties, Ends variation properties →
      before.visited.elements.contains properties = true ∨ ∃ job, (properties, job) ∈ opened

/-- A job goes on from a variation also in a grown structure and among more variations. -/
theorem GoesOn.mono {before after : KripkeStructure} (grows : before.Extends after)
    {fewer more : List ScheduleVariation} (subset : ∀ variation ∈ fewer, variation ∈ more)
    {properties : PropertyList} {job : Job} (goesOn : GoesOn before fewer properties job) :
    GoesOn after more properties job := by
  obtain ⟨variation, member, ends, id, rfl, state, found, same⟩ := goesOn
  obtain ⟨later, foundLater, extended⟩ := grows found
  exact ⟨variation, subset variation member, ends, id, rfl, later, foundLater,
    extended.properties.trans same⟩

theorem Wrote.refl {previous : Option StateId} {run : Run ν KripkeStructure}
    (wellFormed : run.store.WellFormed) : Wrote previous [] run run where
  wellFormed := wellFormed
  grows := KripkeStructure.Extends.refl _
  traced := fun _ impossible => nomatch impossible
  visited := by simp
  queued := ⟨[], (List.append_nil _).symm, .nil, fun _ impossible => (nomatch impossible),
    fun _ impossible => (nomatch impossible)⟩

/-- Writing variations after others comes to what writing all of them comes to. -/
theorem Wrote.trans {previous : Option StateId} {first second : List ScheduleVariation}
    {before middle after : Run ν KripkeStructure} (left : Wrote previous first before middle)
    (right : Wrote previous second middle after) :
    Wrote previous (first ++ second) before after where
  wellFormed := right.wellFormed
  grows := left.grows.trans right.grows
  traced := by
    intro variation member
    rcases List.mem_append.mp member with member | member
    · exact (left.traced variation member).mono right.grows
    · exact right.traced variation member
  visited := by
    intro properties
    rw [right.visited, left.visited, or_assoc]
    simp only [List.mem_append, or_and_right, exists_or]
  queued := by
    obtain ⟨opened, queue, distinct, goOn, complete⟩ := left.queued
    obtain ⟨opened', queue', distinct', goOn', complete'⟩ := right.queued
    have inFirst : ∀ variation ∈ first, variation ∈ first ++ second :=
      fun _ member => List.mem_append_left _ member
    have inSecond : ∀ variation ∈ second, variation ∈ first ++ second :=
      fun _ member => List.mem_append_right _ member
    -- What the first variations open is seen by now, what the second ones open is not.
    have seen : ∀ next ∈ opened, middle.visited.elements.contains next.1 = true := by
      intro next member
      obtain ⟨_, variation, isVariation, ends, _⟩ := goOn next member
      exact (left.visited next.1).mpr (.inr ⟨variation, isVariation, ends⟩)
    have apart : (opened.map Prod.fst).Disjoint (opened'.map Prod.fst) := by
      intro properties inOpened inOpened'
      obtain ⟨next, member, rfl⟩ := List.mem_map.mp inOpened
      obtain ⟨next', member', same⟩ := List.mem_map.mp inOpened'
      have unseen := (goOn' next' member').1
      rw [same, seen next member] at unseen
      cases unseen
    have fromFirst : ∀ variation ∈ first, ∀ properties, Ends variation properties →
        before.visited.elements.contains properties = true ∨
          ∃ job, (properties, job) ∈ opened ++ opened' := by
      intro variation member properties ends
      rcases complete variation member properties ends with wasSeen | ⟨job, inOpened⟩
      · exact .inl wasSeen
      · exact .inr ⟨job, List.mem_append_left _ inOpened⟩
    refine ⟨opened ++ opened', by rw [queue', queue, List.map_append, List.append_assoc],
      ?_, ?_, ?_⟩
    · rw [List.map_append]
      exact distinct.append distinct' apart
    · intro next member
      rcases List.mem_append.mp member with member | member
      · obtain ⟨unseen, goesOn⟩ := goOn next member
        exact ⟨unseen, goesOn.mono right.grows inFirst⟩
      · obtain ⟨unseen, goesOn⟩ := goOn' next member
        refine ⟨?_, goesOn.mono (KripkeStructure.Extends.refl _) inSecond⟩
        rw [Bool.eq_false_iff] at unseen ⊢
        exact fun wasSeen => unseen ((left.visited next.1).mpr (.inl wasSeen))
    · intro variation member properties ends
      rcases List.mem_append.mp member with member | member
      · exact fromFirst variation member properties ends
      · rcases complete' variation member properties ends with nowSeen | ⟨job, inOpened⟩
        · -- Seen by now: before all of this, or at the end of one of the first variations.
          rcases (left.visited properties).mp nowSeen with wasSeen | ⟨earlier, member, ends⟩
          · exact .inl wasSeen
          · exact fromFirst earlier member properties ends
        · exact .inr ⟨job, List.mem_append_right _ inOpened⟩

/-- Writing one variation is a case of writing several. -/
theorem Continues.wrote {previous : Option StateId} {variation : ScheduleVariation}
    {before after : Run ν KripkeStructure} (wellFormed : after.store.WellFormed)
    (grows : before.store.Extends after.store)
    (traced : after.store.Traced previous variation.nodes)
    (continues : Continues variation before after) : Wrote previous [variation] before after := by
  have ended : ∀ last, variation.nodes.getLast? = some last → ∀ properties,
      (∃ other ∈ [variation], Ends other properties) ↔ last.properties = properties := by
    intro last isLast properties
    constructor
    · rintro ⟨other, member, node, ends, same⟩
      rw [List.mem_singleton.mp member, isLast] at ends
      cases ends
      exact same
    · exact fun same => ⟨variation, List.mem_singleton_self _, last, isLast, same⟩
  have visits : ∀ last, variation.nodes.getLast? = some last →
      after.visited = (before.visited.visit last.properties).2 → ∀ properties,
        after.visited.elements.contains properties = true ↔
          before.visited.elements.contains properties = true ∨
            ∃ other ∈ [variation], Ends other properties := by
    intro last isLast visited properties
    rw [visited, ended last isLast, Visited.visit]
    simp only [Std.HashSet.contains_insert, Bool.or_eq_true, beq_iff_eq]
    exact or_comm
  have one : ∀ other ∈ [variation], after.store.Traced previous other.nodes := by
    intro other member
    rw [List.mem_singleton.mp member]
    exact traced
  cases continues with
  | empty noNodes visited queue =>
      have noEnd : ∀ properties, ¬ ∃ other ∈ [variation], Ends other properties := by
        rintro properties ⟨other, member, last, ends, _⟩
        rw [List.mem_singleton.mp member, noNodes] at ends
        cases ends
      refine ⟨wellFormed, grows, one, fun properties => ?_, [], ?_, .nil, ?_, ?_⟩
      · rw [visited]
        simp only [noEnd properties, or_false]
      · rw [queue, List.map_nil, List.append_nil]
      · exact fun _ impossible => absurd impossible List.not_mem_nil
      · exact fun other member properties ends => absurd ⟨other, member, ends⟩ (noEnd properties)
  | closed last ends seen visited queue =>
      refine ⟨wellFormed, grows, one, visits last ends visited, [], ?_, .nil, ?_, ?_⟩
      · rw [queue, List.map_nil, List.append_nil]
      · exact fun _ impossible => absurd impossible List.not_mem_nil
      · intro other member properties here
        have same := (ended last ends properties).mp ⟨other, member, here⟩
        exact .inl (same ▸ seen)
  | opened last id ends unseen stored visited queue =>
      have here : Ends variation last.properties := ⟨last, ends, rfl⟩
      have goesOn : GoesOn after.store [variation] last.properties (variation.successor id) :=
        ⟨variation, List.mem_singleton_self _, here, id, rfl, stored⟩
      refine ⟨wellFormed, grows, one, visits last ends visited,
        [(last.properties, variation.successor id)], queue, List.nodup_singleton _, ?_, ?_⟩
      · intro next member
        rw [List.mem_singleton.mp member]
        exact ⟨unseen, goesOn⟩
      · intro other member properties here
        have same := (ended last ends properties).mp ⟨other, member, here⟩
        exact .inr ⟨variation.successor id, by rw [same]; exact List.mem_singleton_self _⟩

/-- **Writing the variations of a job.** It succeeds on a well-formed structure. -/
theorem applyVariations_eq_ok (limit : Time) (predecessor : Option Predecessor)
    (variations : List ScheduleVariation) : ∀ {run : Run ν KripkeStructure} (applied : Applied),
    run.store.WellFormed →
    (∀ source ∈ predecessor.map Predecessor.state, source < run.store.states.size) →
    ∃ (result : Applied) (after : Run ν KripkeStructure),
      variations.foldlM (applyVariation limit predecessor) applied run = (.ok result, after) ∧
      Wrote (predecessor.map Predecessor.state) variations run after ∧
      (∀ new ∈ result.created, new ∈ applied.created ∨ new < after.store.states.size) ∧
      after.stats.jobsProcessed = run.stats.jobsProcessed := by
  induction variations with
  | nil =>
      intro run applied wellFormed _
      exact ⟨applied, run, rfl, .refl wellFormed, fun _ => .inl, rfl⟩
  | cons variation rest shorter =>
      intro run applied wellFormed stored
      obtain ⟨result, middle, first, wellFormedMiddle, grows, traced, continues, created, count⟩ :=
        applyVariation_eq_ok limit predecessor applied variation wellFormed stored
      obtain ⟨last, after, others, wrote, createdLater, countLater⟩ :=
        shorter result wellFormedMiddle
        (fun source member => Nat.lt_of_lt_of_le (stored source member) grows.size_le)
      refine ⟨last, after, ?_, (continues.wrote wellFormedMiddle grows traced).trans wrote, ?_,
        countLater.trans count⟩
      · rw [List.foldlM_cons]
        exact (bind_of_ok first).trans others
      · intro new member
        rcases createdLater new member with member | inside
        · rcases created new member with member | inside
          · exact .inl member
          · exact .inr (Nat.lt_of_lt_of_le inside wrote.grows.size_le)
        · exact .inr inside

/-- The part changes nothing but the view and the books about it. -/
def OnlyShows (part : Verify ν σ α) : Prop :=
  ∀ run, ∃ view committed shown, (part run).2 =
    { run with view, committed, stats := { run.stats with statesCommitted := shown } }

theorem OnlyShows.pure (answer : α) : OnlyShows (pure answer : Verify ν σ α) :=
  fun run => ⟨run.view, run.committed, run.stats.statesCommitted, rfl⟩

/-- Two parts that only show states do so one after the other. -/
theorem OnlyShows.bind {part : Verify ν σ α} {next : α → Verify ν σ β} (first : OnlyShows part)
    (later : ∀ answer, OnlyShows (next answer)) : OnlyShows (part >>= next) := by
  intro run
  obtain ⟨view, committed, shown, same⟩ := first run
  cases ran : part run with
  | mk outcome middle =>
      rw [ran] at same
      cases outcome with
      | error error =>
          rw [bind_of_error ran]
          exact ⟨view, committed, shown, same⟩
      | ok answer =>
          rw [bind_of_ok ran]
          obtain ⟨view', committed', shown', same'⟩ := later answer middle
          refine ⟨view', committed', shown', same'.trans ?_⟩
          rw [show middle = _ from same]

/-- A loop of parts that only show states only shows states. -/
theorem OnlyShows.forM {part : α → Verify ν σ Unit} (each : ∀ item, OnlyShows (part item))
    (items : List α) : OnlyShows (items.forM part) := by
  induction items with
  | nil => exact .pure ()
  | cons item rest others => exact (each item).bind fun _ => others

/-- Handing a state to the view leaves the store and the queue alone. -/
theorem onlyShows_commit [KripkeView ν] [KripkeStore σ] (id : StateId) :
    OnlyShows (commit id : Verify ν σ Unit) := by
  intro run
  unfold commit
  rw [get_bind]
  split
  · exact OnlyShows.pure () run
  · refine OnlyShows.bind ?_ (fun _ => ?_) run
    · exact fun run => ⟨run.view, _, run.stats.statesCommitted, rfl⟩
    · refine OnlyShows.bind ?_ fun state => OnlyShows.bind ?_ fun _ => ?_
      · exact fun run => ⟨run.view, run.committed, run.stats.statesCommitted, rfl⟩
      · exact fun run => ⟨_, run.committed, run.stats.statesCommitted, rfl⟩
      · exact fun run => ⟨run.view, run.committed, _, rfl⟩

/-- The states a job completes: the one it goes on from, and those it wrote first from
which no job goes on. -/
def completed (job : Job) (applied : Applied) : List StateId :=
  (job.predecessor.map Predecessor.state).toList ++
    (applied.created.mergeSort fun first second => decide (first ≤ second)).filter fun id =>
      !applied.deferred.contains id

/-- Counts variations as written. -/
def countVariations (count : Nat) (run : Run ν σ) : Run ν σ :=
  { run with
    stats := { run.stats with scheduleVariations := run.stats.scheduleVariations + count } }

/-- Counts a job as processed. -/
def countJob (run : Run ν σ) : Run ν σ :=
  { run with stats := { run.stats with jobsProcessed := run.stats.jobsProcessed + 1 } }

/-- Applying a job writes its variations and commits the states it completes. -/
theorem applyJob_eq [KripkeView ν] [KripkeStore σ] (limit : Time) (job : Job)
    (variations : List ScheduleVariation) :
    (applyJob limit job variations : Verify ν σ Unit) = (do
      modify (countVariations variations.length)
      let applied ← variations.foldlM (applyVariation limit job.predecessor)
        { created := [], deferred := [] }
      (completed job applied).forM commit
      modify countJob) := by
  unfold applyJob completed
  cases job.predecessor with
  | none => rfl
  | some predecessor =>
      refine bind_congr fun _ => bind_congr fun applied => ?_
      exact (bind_assoc (commit predecessor.state) _ _).symm

variable [KripkeView ν]

/-- **Applying a job.** Whether the view takes the states or not, the variations of the job
are written. -/
theorem applyJob_wrote (limit : Time) (job : Job) (variations : List ScheduleVariation)
    {run : Run ν KripkeStructure} (wellFormed : run.store.WellFormed)
    (stored : ∀ source ∈ job.predecessor.map Predecessor.state, source < run.store.states.size) :
    Wrote (job.predecessor.map Predecessor.state) variations run
      (applyJob limit job variations run).2 := by
  obtain ⟨applied, middle, writes, wrote, _, _⟩ := applyVariations_eq_ok limit job.predecessor
    variations { created := [], deferred := [] }
    (show (countVariations variations.length run).store.WellFormed from wellFormed) stored
  obtain ⟨view, committed, shown, commits⟩ :=
    OnlyShows.forM onlyShows_commit (completed job applied)
    middle
  have written : ∃ view committed stats, (applyJob limit job variations run).2 =
      { middle with view, committed, stats } := by
    rw [applyJob_eq, modify_bind, bind_of_ok writes]
    cases ran : (completed job applied).forM commit middle with
    | mk outcome after =>
        rw [ran] at commits
        cases outcome with
        | error error =>
            rw [bind_of_error ran]
            exact ⟨_, _, _, commits⟩
        | ok done =>
            rw [bind_of_ok ran, show after = _ from commits]
            exact ⟨_, _, _, rfl⟩
  obtain ⟨view, committed, stats, same⟩ := written
  rw [same]
  exact ⟨wrote.wellFormed, wrote.grows, wrote.traced, wrote.visited, wrote.queued⟩

end Verify

end TimedKripke
