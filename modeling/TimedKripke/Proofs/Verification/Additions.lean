import TimedKripke.Proofs.Verification.Batching

/-! # What writing adds, and nothing else

`KripkeStructure.Adds` says exactly what writing a node makes of a structure: one state is
found or created, and the state before it gets one more edge. A chain of nodes adds one after
the other (`KripkeStructure.AddsAll`), and the variations of a job add their chains, all of
them after the state that the job goes on from (`Verify.applyVariations_adds`). The states
that are new are numbered without gaps.
-/

namespace TimedKripke

namespace KripkeStructure

/-- The state of a number as a node leaves it: the stored one, made initial if the node is, or a
new one. -/
def settled (kripke : KripkeStructure) (node : Node) (id : StateId) : KripkeState :=
  match kripke.states[id]? with
  | some state => { state with isInitial := state.isInitial || node.isInitial }
  | none => .new id node.properties node.isInitial

/-- What writing a node after the state `previous` makes of a structure; the node is stored
under `id`. -/
structure Adds (before : KripkeStructure) (previous : Option StateId) (node : Node) (id : StateId)
    (after : KripkeStructure) : Prop where
  wellFormed : after.WellFormed
  grows : before.Extends after
  holds : after.Holds previous node id
  /-- The number was in use or is the next one. -/
  place : id ≤ before.states.size
  /-- At most the one state is new. -/
  size : after.states.size = max before.states.size (id + 1)
  /-- All other states stay as they are, but for the edge. -/
  states : ∀ query, after.states[query]? =
    (if query = id then some (before.settled node id) else before.states[query]?).map fun state =>
      if previous = some query then state.addEdge (node.incoming.toEdge id) else state

/-- The state of a node that was added is stored. -/
theorem Adds.stored {before after : KripkeStructure} {previous : Option StateId} {node : Node}
    {id : StateId} (adds : before.Adds previous node id after) :
    ∀ source ∈ some id, source < after.states.size := by
  intro source isSource
  cases isSource
  rw [adds.size]
  exact Nat.lt_of_lt_of_le (Nat.lt_succ_self _) (Nat.le_max_right ..)

/-- Writing nodes one after the other, the first one after `previous`; they are stored under the
given numbers. -/
inductive AddsAll : (before : KripkeStructure) → (previous : Option StateId) → List Node →
    List StateId → (after : KripkeStructure) → Prop
  | nil (kripke : KripkeStructure) (previous : Option StateId) :
      AddsAll kripke previous [] [] kripke
  | cons {before middle after : KripkeStructure} {previous : Option StateId} {node : Node}
      {id : StateId} {nodes : List Node} {ids : List StateId}
      (first : before.Adds previous node id middle)
      (rest : AddsAll middle (some id) nodes ids after) :
      AddsAll before previous (node :: nodes) (id :: ids) after

/-- Writing nodes one after the other only adds to the structure. -/
theorem AddsAll.grows {before after : KripkeStructure} {previous : Option StateId}
    {nodes : List Node} {ids : List StateId} (adds : AddsAll before previous nodes ids after) :
    before.Extends after := by
  induction adds with
  | nil => exact .refl _
  | cons first _ later => exact first.grows.trans later

/-- Writing chains of nodes, every one of them after `previous`. -/
inductive AddsEach (previous : Option StateId) : (before : KripkeStructure) → List (List Node) →
    (after : KripkeStructure) → Prop
  | nil (kripke : KripkeStructure) : AddsEach previous kripke [] kripke
  | cons {before middle after : KripkeStructure} {nodes : List Node} {ids : List StateId}
      {chains : List (List Node)} (first : AddsAll before previous nodes ids middle)
      (rest : AddsEach previous middle chains after) :
      AddsEach previous before (nodes :: chains) after

/-- Writing chains of nodes only adds to the structure. -/
theorem AddsEach.grows {previous : Option StateId} {before after : KripkeStructure}
    {chains : List (List Node)} (adds : AddsEach previous before chains after) :
    before.Extends after := by
  induction adds with
  | nil => exact .refl _
  | cons first _ later => exact first.grows.trans later

/-- Chains written after others are written with them. -/
theorem AddsEach.append {previous : Option StateId} {before middle after : KripkeStructure}
    {chains more : List (List Node)} (first : AddsEach previous before chains middle)
    (second : AddsEach previous middle more after) :
    AddsEach previous before (chains ++ more) after := by
  induction first with
  | nil => exact second
  | cons chain _ later => exact .cons chain (later second)

/-- Adding properties changes at most the one state, which is new or was there before. -/
theorem add_states {kripke : KripkeStructure} (wellFormed : kripke.WellFormed) (node : Node)
    {id : StateId} {state : KripkeState} {after : KripkeStructure}
    (added : kripke.add node.properties node.isInitial = (.ok (id, state), after)) :
    id ≤ kripke.states.size ∧ after.states.size = max kripke.states.size (id + 1) ∧
      ∀ query, after.states[query]? =
        if query = id then some (kripke.settled node id) else kripke.states[query]? := by
  unfold add at added
  cases known : kripke.ids[node.properties]? with
  | some place =>
      obtain ⟨stored, found, _⟩ := wellFormed.indexed.mp known
      have bound : place < kripke.states.size := (Array.getElem?_eq_some_iff.mp found).choose
      simp only [known, found] at added
      cases added
      refine ⟨Nat.le_of_lt bound, ?_, fun query => ?_⟩
      · rw [Array.size_setIfInBounds]
        exact (Nat.max_eq_left bound).symm
      · rw [Array.getElem?_setIfInBounds, settled, found]
        by_cases here : query = id
        · subst here
          simp [bound]
        · simp [here, Ne.symm here]
  | none =>
      simp only [known] at added
      cases added
      refine ⟨Nat.le_refl _, ?_, fun query => ?_⟩
      · rw [Array.size_push]
        exact (Nat.max_eq_right (Nat.le_succ _)).symm
      · have fresh : kripke.states[kripke.states.size]? = none :=
          Array.getElem?_eq_none (Nat.le_refl _)
        rw [Array.getElem?_push, settled, fresh]

/-- Adding an edge changes its source only, and no number of a state. -/
theorem addEdge_states {kripke after : KripkeStructure} {edge : KripkeEdge} {source : StateId}
    (added : kripke.addEdge edge source = (.ok (), after)) :
    after.states.size = kripke.states.size ∧ ∀ query, after.states[query]? =
      kripke.states[query]?.map fun state =>
        if some source = some query then state.addEdge edge else state := by
  unfold addEdge at added
  cases found : kripke.states[source]? with
  | none =>
      simp only [found] at added
      cases added
  | some state =>
      have bound : source < kripke.states.size := (Array.getElem?_eq_some_iff.mp found).choose
      simp only [found] at added
      cases added
      refine ⟨Array.size_setIfInBounds, fun query => ?_⟩
      rw [Array.getElem?_setIfInBounds]
      by_cases here : source = query
      · subst here
        rw [if_pos rfl, if_pos bound, found]
        simp
      · simp [here]

end KripkeStructure

namespace Verify

variable {ν : Type}

/-- An operation of the store that succeeds changes the store only. -/
theorem onStore_eq_ok {σ α : Type} {operation : σ → Except StoreError α × σ} {run after : Run ν σ}
    {answer : α} (performed : (onStore operation : Verify ν σ α) run = (.ok answer, after)) :
    operation run.store = (.ok answer, after.store) ∧
        after = { run with store := after.store } := by
  unfold onStore at performed
  cases outcome : operation run.store with
  | mk result store =>
      rw [outcome] at performed
      cases result with
      | error error => cases performed
      | ok found =>
          cases performed
          exact ⟨rfl, rfl⟩

/-- An operation of the view that succeeds changes the view only. -/
theorem onView_eq_ok {σ α : Type} {operation : ν → Except ViewError α × ν} {run after : Run ν σ}
    {answer : α} (performed : (onView operation : Verify ν σ α) run = (.ok answer, after)) :
    operation run.view = (.ok answer, after.view) ∧ after = { run with view := after.view } := by
  unfold onView at performed
  cases outcome : operation run.view with
  | mk result view =>
      rw [outcome] at performed
      cases result with
      | error error => cases performed
      | ok found =>
          cases performed
          exact ⟨rfl, rfl⟩

/-- **Writing a node.** It adds the node, and the number of its state counts as created if it
is new. -/
theorem writeNode_adds {run : Run ν KripkeStructure} (wellFormed : run.store.WellFormed)
    (written : Written) (node : Node)
    (stored : ∀ source ∈ written.previous, source < run.store.states.size) :
    ∃ id after, run.store.Adds written.previous node id after ∧
      writeNode written node run =
        (.ok { previous := some id
               created := if id < run.store.states.size then written.created
                 else written.created ++ [id] }, { run with store := after }) := by
  obtain ⟨id, created, after, ran, wellFormedAfter, grows, holds, _⟩ :=
    writeNode_eq_ok wellFormed written node stored
  refine ⟨id, after, ?_⟩
  have wrote := ran
  unfold writeNode at wrote
  rw [get_bind] at wrote
  obtain ⟨⟨place, state⟩, middle, addStep, wrote⟩ := bind_eq_ok wrote
  obtain ⟨added, sameMiddle⟩ := onStore_eq_ok addStep
  obtain ⟨isPlace, size, states⟩ := KripkeStructure.add_states wellFormed node added
  dsimp only at wrote
  rw [get_bind] at wrote
  have isNew : (if KripkeStore.size run.store < KripkeStore.size middle.store then
      written.created ++ [place] else written.created) =
        if place < run.store.states.size then written.created else written.created ++ [place] := by
    have grew : KripkeStore.size run.store < KripkeStore.size middle.store ↔
        ¬ place < run.store.states.size := by
      change run.store.states.size < middle.store.states.size ↔ _
      rw [size, Nat.not_lt]
      exact ⟨fun grew => Nat.le_of_not_lt fun known => Nat.lt_irrefl _
        (Nat.max_eq_left known ▸ grew), fun known => Nat.lt_of_lt_of_le (Nat.lt_succ_of_le known)
          (Nat.le_max_right ..)⟩
    by_cases known : place < run.store.states.size <;> simp [grew, known]
  rw [isNew] at wrote
  cases before : written.previous with
  | none =>
      rw [before] at wrote holds
      cases wrote
      refine ⟨⟨wellFormedAfter, grows, holds, isPlace, size, fun query => ?_⟩, ran⟩
      rw [states query]
      simp
  | some source =>
      rw [before] at wrote holds
      obtain ⟨_, last, linkStep, wrote⟩ := bind_eq_ok wrote
      obtain ⟨linked, sameLast⟩ := onStore_eq_ok linkStep
      obtain ⟨sameSize, edges⟩ := KripkeStructure.addEdge_states linked
      cases wrote
      refine ⟨⟨wellFormedAfter, grows, holds, isPlace, sameSize.trans size, fun query => ?_⟩, ran⟩
      rw [edges query, states query]

/-- Numbers that are handed out one by one are handed out without gaps. -/
theorem range'_grown (created : List Nat) {id size later last : Nat} (place : id ≤ size)
    (grown : later = max size (id + 1)) (more : later ≤ last) :
    (if id < size then created else created ++ [id]) ++ List.range' later (last - later) =
      created ++ List.range' size (last - size) := by
  by_cases known : id < size
  · rw [if_pos known, grown, Nat.max_eq_left known]
  · have isNext : id = size := by omega
    have rest : last - size = last - later + 1 := by omega
    rw [if_neg known, rest, List.range'_succ, isNext, List.append_assoc]
    have next : later = size + 1 := by omega
    rw [next]
    rfl

/-- **Writing a chain of nodes.** The numbers that count as created are those that were not in
use before. -/
theorem writeNodes_adds (nodes : List Node) : ∀ {run : Run ν KripkeStructure} (written : Written),
    run.store.WellFormed → (∀ source ∈ written.previous, source < run.store.states.size) →
    ∃ ids after, run.store.AddsAll written.previous nodes ids after ∧
      nodes.foldlM writeNode written run =
        (.ok { previous := ids.getLast?.or written.previous
               created := written.created ++ List.range' run.store.states.size
                 (after.states.size - run.store.states.size) }, { run with store := after }) := by
  induction nodes with
  | nil =>
      intro run written _ _
      refine ⟨[], run.store, .nil _ _, ?_⟩
      simp only [List.getLast?_nil, Option.none_or, Nat.sub_self, List.range'_zero, List.append_nil]
      rfl
  | cons node rest others =>
      intro run written wellFormed stored
      obtain ⟨id, middle, adds, ran⟩ := writeNode_adds wellFormed written node stored
      obtain ⟨ids, after, addsAll, ranLater⟩ := @others { run with store := middle }
        { previous := some id
          created := if id < run.store.states.size then written.created
            else written.created ++ [id] } adds.wellFormed adds.stored
      refine ⟨id :: ids, after, .cons adds addsAll, ?_⟩
      rw [List.foldlM_cons]
      refine (bind_of_ok ran).trans (ranLater.trans ?_)
      have created := range'_grown written.created adds.place adds.size addsAll.grows.size_le
      rw [created, List.getLast?_cons]
      cases ids.getLast? <;> rfl

/-- The states that were handed to the view are the same, and so are the books about them. -/
structure SameBooks (before after : Run ν KripkeStructure) : Prop where
  view : after.view = before.view
  committed : after.committed = before.committed
  counted : after.stats.statesCommitted = before.stats.statesCommitted

/-- What writing the variations of a job adds, and what it queues. -/
structure Added (previous : Option StateId) (variations : List ScheduleVariation)
    (applied result : Applied) (before after : Run ν KripkeStructure) : Prop where
  store : KripkeStructure.AddsEach previous before.store (variations.map ScheduleVariation.nodes)
    after.store
  /-- The numbers that were not in use before count as created. -/
  created : result.created = applied.created ++ List.range' before.store.states.size
    (after.store.states.size - before.store.states.size)
  /-- The states from which jobs go on count as deferred. -/
  opened : ∃ opened : List (ScheduleVariation × StateId),
    after.queue = before.queue ++ opened.map (fun next => next.1.successor next.2) ∧
      result.deferred = applied.deferred ++ opened.map Prod.snd
  books : SameBooks before after

/-- **Writing a variation** adds its chain of nodes after the state of the predecessor, and queues a
job if its end is new. -/
theorem applyVariation_added {limit : Time} {predecessor : Option Predecessor}
    {applied result : Applied} {variation : ScheduleVariation} {run after : Run ν KripkeStructure}
    (wellFormed : run.store.WellFormed)
    (stored : ∀ source ∈ predecessor.map Predecessor.state, source < run.store.states.size)
    (ran : applyVariation limit predecessor applied variation run = (.ok result, after)) :
    Added (predecessor.map Predecessor.state) [variation] applied result run after := by
  obtain ⟨ids, store, adds, wrote⟩ := writeNodes_adds (ν := ν) variation.nodes
    { previous := predecessor.map Predecessor.state, created := applied.created } wellFormed stored
  unfold applyVariation at ran
  rw [bind_of_ok wrote, modify_bind] at ran
  cases ends : variation.nodes.getLast? with
  | none =>
      rw [ends] at ran
      cases ran
      exact ⟨.cons adds (.nil _), rfl, ⟨[], by simp, by simp⟩, ⟨rfl, rfl, rfl⟩⟩
  | some last =>
      rw [ends] at ran
      cases current : ids.getLast?.or (predecessor.map Predecessor.state) with
      | none =>
          simp only [current] at ran
          cases ran
          exact ⟨.cons adds (.nil _), rfl, ⟨[], by simp, by simp⟩, ⟨rfl, rfl, rfl⟩⟩
      | some id =>
          simp only [current] at ran
          rw [get_bind] at ran
          dsimp only at ran
          rw [modify_bind] at ran
          split at ran
          · cases ran
            exact ⟨.cons adds (.nil _), rfl, ⟨[], by simp, by simp⟩, ⟨rfl, rfl, rfl⟩⟩
          · cases ran
            exact ⟨.cons adds (.nil _), rfl, ⟨[(variation, id)], rfl, rfl⟩, ⟨rfl, rfl, rfl⟩⟩

theorem Added.refl (previous : Option StateId) (applied : Applied)
    (run : Run ν KripkeStructure) : Added previous [] applied applied run run where
  store := .nil _
  created := by simp
  opened := ⟨[], by simp, by simp⟩
  books := ⟨rfl, rfl, rfl⟩

/-- What two lists of variations add is what they add one after the other. -/
theorem Added.trans {previous : Option StateId} {first second : List ScheduleVariation}
    {applied middleApplied result : Applied} {before middle after : Run ν KripkeStructure}
    (left : Added previous first applied middleApplied before middle)
    (right : Added previous second middleApplied result middle after) :
    Added previous (first ++ second) applied result before after where
  store := by
    rw [List.map_append]
    exact left.store.append right.store
  created := by
    have more := left.store.grows.size_le
    have evenMore := right.store.grows.size_le
    rw [right.created, left.created, List.append_assoc]
    refine congrArg (applied.created ++ ·) ?_
    have start : middle.store.states.size = before.store.states.size +
        (middle.store.states.size - before.store.states.size) := by omega
    have whole : after.store.states.size - before.store.states.size =
        (middle.store.states.size - before.store.states.size) +
          (after.store.states.size - middle.store.states.size) := by omega
    rw [whole, ← List.range'_append_1, ← start]
  opened := by
    obtain ⟨opened, queue, deferred⟩ := left.opened
    obtain ⟨opened', queue', deferred'⟩ := right.opened
    refine ⟨opened ++ opened', ?_, ?_⟩
    · rw [queue', queue, List.map_append, List.append_assoc]
    · rw [deferred', deferred, List.map_append, List.append_assoc]
  books := ⟨right.books.view.trans left.books.view,
    right.books.committed.trans left.books.committed,
    right.books.counted.trans left.books.counted⟩

/-- **Writing the variations of a job** adds their chains one after the other. The induction follows
the variations. -/
theorem applyVariations_added {limit : Time} {predecessor : Option Predecessor}
    {variations : List ScheduleVariation} : ∀ {applied result : Applied}
      {run after : Run ν KripkeStructure}, run.store.WellFormed →
      (∀ source ∈ predecessor.map Predecessor.state, source < run.store.states.size) →
      variations.foldlM (applyVariation limit predecessor) applied run = (.ok result, after) →
        Added (predecessor.map Predecessor.state) variations applied result run after := by
  induction variations with
  | nil =>
      intro applied result run after _ _ ran
      cases ran
      exact .refl _ _ _
  | cons variation rest others =>
      intro applied result run after wellFormed stored ran
      rw [List.foldlM_cons] at ran
      obtain ⟨between, middle, first, ran⟩ := bind_eq_ok ran
      have added := applyVariation_added wellFormed stored first
      obtain ⟨_, _, again, wellFormedMiddle, grows, _⟩ :=
        applyVariation_eq_ok limit predecessor applied variation wellFormed stored
      cases first.symm.trans again
      exact added.trans (others wellFormedMiddle
        (fun source isSource => Nat.lt_of_lt_of_le (stored source isSource) grows.size_le) ran)

/-- **Applying a job.** When it succeeds, the variations were added and then the completed
states, all of them stored, were handed to the view. -/
theorem applyJob_added [KripkeView ν] {limit : Time} {job : Job}
    {variations : List ScheduleVariation} {run after : Run ν KripkeStructure}
    (wellFormed : run.store.WellFormed)
    (stored : ∀ source ∈ job.predecessor.map Predecessor.state, source < run.store.states.size)
    (ran : applyJob limit job variations run = (.ok (), after)) :
    ∃ applied middle shown, Added (job.predecessor.map Predecessor.state) variations
        { created := [], deferred := [] } applied run middle ∧ middle.store.WellFormed ∧
      (∀ id ∈ completed job applied, id < middle.store.states.size) ∧
      (completed job applied).forM commit middle = (.ok (), shown) ∧ after = countJob shown := by
  obtain ⟨applied, middle, writes, wrote, _, _⟩ := applyVariations_eq_ok limit job.predecessor
    variations { created := [], deferred := [] }
    (show (countVariations variations.length run).store.WellFormed from wellFormed) stored
  have added := applyVariations_added
    (show (countVariations variations.length run).store.WellFormed from wellFormed) stored writes
  rw [applyJob_eq, modify_bind, bind_of_ok writes] at ran
  obtain ⟨_, shown, commits, ran⟩ := bind_eq_ok ran
  refine ⟨applied, middle, shown, ⟨added.store, added.created, added.opened,
    ⟨added.books.view, added.books.committed, added.books.counted⟩⟩, wrote.wellFormed, ?_,
      commits, ?_⟩
  · intro id member
    rcases List.mem_append.mp member with member | member
    · exact Nat.lt_of_lt_of_le (stored id (Option.mem_toList.mp member)) wrote.grows.size_le
    · have isCreated := List.mem_mergeSort.mp (List.mem_filter.mp member).1
      rw [added.created, List.nil_append, List.mem_range'_1] at isCreated
      have more := wrote.grows.size_le
      exact Nat.lt_of_lt_of_eq isCreated.2 (Nat.add_sub_cancel' more)
  · cases ran
    rfl

end Verify

end TimedKripke
