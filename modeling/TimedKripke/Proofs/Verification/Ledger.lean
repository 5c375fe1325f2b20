import Mathlib.Data.Finset.Card
import TimedKripke.Proofs.Verification.Expansion
import TimedKripke.Proofs.Verification.Queue
import TimedKripke.Proofs.Verification.Termination

/-! # The ledger of a verification

A verification can be read back from what it wrote. Its *ledger* has an entry for every job that
was processed, with all variations of the job and the numbers of the states they were written to.
Nothing is left out between the two: the jobs are the first one and, in the order of writing, one
for every end that no variation before had (`Verify.successors`), and the counters say how many
there are of each (`verify_balances`). This holds of all views and stores.
-/

namespace TimedKripke

variable {ν σ : Type}

/-- One node as it was written: the state before it, and the number of its own state. -/
structure Write where
  previous : Option StateId
  node : Node
  id : StateId

namespace KripkeStore

variable [KripkeStore σ]

/-- Writing a node to a store adds its state, and then the edge to it from the state before. -/
inductive Accepts (before : σ) : Write → (after : σ) → Prop
  | first {node : Node} {id : StateId} {state : KripkeState} {after : σ}
      (added : add before node.properties node.isInitial = (.ok (id, state), after)) :
      Accepts before { previous := none, node, id } after
  | next {source : StateId} {node : Node} {id : StateId} {state : KripkeState} {middle after : σ}
      (added : add before node.properties node.isInitial = (.ok (id, state), middle))
      (linked : addEdge middle (node.incoming.toEdge id) source = (.ok (), after)) :
      Accepts before { previous := some source, node, id } after

/-- Nodes are written one after the other. -/
inductive AcceptsAll : (before : σ) → List Write → (after : σ) → Prop
  | nil (store : σ) : AcceptsAll store [] store
  | cons {before middle after : σ} {write : Write} {writes : List Write}
      (first : Accepts before write middle) (rest : AcceptsAll middle writes after) :
      AcceptsAll before (write :: writes) after

/-- Writes after others are accepted as one list. -/
theorem AcceptsAll.append {before middle after : σ} {first second : List Write}
    (left : AcceptsAll before first middle) (right : AcceptsAll middle second after) :
    AcceptsAll before (first ++ second) after := by
  induction left with
  | nil => exact right
  | cons here _ others => exact .cons here (others right)

/-- A list of writes is accepted part by part. -/
theorem AcceptsAll.of_append {before after : σ} {first second : List Write}
    (accepts : AcceptsAll before (first ++ second) after) :
    ∃ middle, AcceptsAll before first middle ∧ AcceptsAll middle second after := by
  induction first generalizing before with
  | nil => exact ⟨before, .nil before, accepts⟩
  | cons write first others =>
      cases accepts with
      | cons here rest =>
          obtain ⟨middle, left, right⟩ := others rest
          exact ⟨middle, .cons here left, right⟩

end KripkeStore

/-- A variation with the numbers of the states of its nodes. -/
structure WrittenVariation where
  variation : ScheduleVariation
  ids : List StateId

namespace WrittenVariation

/-- Every node is written after the one before it, the first one after `previous`. -/
def chain (previous : Option StateId) : List Node → List StateId → List Write
  | node :: nodes, id :: ids => { previous, node, id } :: chain (some id) nodes ids
  | _, _ => []

/-- The nodes of a variation after the state `previous`. -/
def writes (previous : Option StateId) (written : WrittenVariation) : List Write :=
  chain previous written.variation.nodes written.ids

/-- The properties at the end, and the number of the state there. -/
def end? (written : WrittenVariation) : Option (PropertyList × StateId) :=
  match written.variation.nodes.getLast?, written.ids.getLast? with
  | some last, some id => some (last.properties, id)
  | _, _ => none

/-- The properties at the ends of variations. -/
def ends (written : List WrittenVariation) : List PropertyList :=
  written.filterMap fun one => one.end?.map Prod.fst

/-- The job that goes on from a variation, unless its end was seen before. -/
def successor? (seen : List PropertyList) (written : WrittenVariation) : Option Job :=
  written.end?.bind fun last =>
    if last.1 ∈ seen then none else some (written.variation.successor last.2)

/-- The jobs that go on from variations in turn, where some ends were seen before. -/
def successors (seen : List PropertyList) : List WrittenVariation → List Job
  | [] => []
  | written :: rest => (written.successor? seen).toList ++ successors (seen ++ ends [written]) rest

/-- The ends of two lists of variations are those of the one and of the other. -/
theorem ends_append (first second : List WrittenVariation) :
    ends (first ++ second) = ends first ++ ends second :=
  List.filterMap_append

/-- The jobs that go on from two lists are those of the first, and those of the second where the
ends of the first count as seen. -/
theorem successors_append (first second : List WrittenVariation) : ∀ seen : List PropertyList,
    successors seen (first ++ second) =
        successors seen first ++ successors (seen ++ ends first) second := by
  induction first with
  | nil => exact fun seen => (congrArg (successors · second) (List.append_nil seen)).symm
  | cons written rest others =>
      intro seen
      have parts : ends (written :: rest) = ends [written] ++ ends rest :=
        ends_append [written] rest
      rw [List.cons_append, successors, successors, others, parts, List.append_assoc,
        List.append_assoc]

/-- **Every end that is new gets one job**, so there are as many of them as ends are added to those
seen. -/
theorem length_successors (written : List WrittenVariation) : ∀ seen : List PropertyList,
    (successors seen written).length + seen.toFinset.card =
        (seen ++ ends written).toFinset.card := by
  induction written with
  | nil => exact fun seen => by rw [successors, ends, List.filterMap_nil, List.append_nil]; simp
  | cons one rest others =>
      intro seen
      have parts : ends (one :: rest) = ends [one] ++ ends rest := ends_append [one] rest
      have later := others (seen ++ ends [one])
      rw [successors, List.length_append, parts, ← List.append_assoc, ← later]
      suffices here : (one.successor? seen).toList.length + seen.toFinset.card =
          (seen ++ ends [one]).toFinset.card by omega
      cases last : one.end? with
      | none => simp [successor?, ends, last]
      | some pair =>
          by_cases known : pair.1 ∈ seen
          · have same : (seen ++ [pair.1]).toFinset = seen.toFinset := by
              rw [List.toFinset_append, List.toFinset_cons, List.toFinset_nil,
                Finset.union_insert, Finset.union_empty]
              exact Finset.insert_eq_self.mpr (List.mem_toFinset.mpr known)
            simp [successor?, ends, last, known, same]
          · simp [successor?, ends, last, known, Nat.add_comm]

end WrittenVariation

/-- A job with its variations as they were written. -/
structure LedgerEntry where
  job : Job
  written : List WrittenVariation

namespace LedgerEntry

/-- The nodes of all variations, each of which starts after the state that the job goes on from. -/
def writes (entry : LedgerEntry) : List Write :=
  entry.written.flatMap (WrittenVariation.writes (entry.job.predecessor.map Predecessor.state))

/-- The entry has all variations of its job, and a number for each of their nodes. -/
structure Complete (layout : Layout) (entry : LedgerEntry) : Prop where
  expanded : entry.job.expand layout = .ok (entry.written.map WrittenVariation.variation)
  numbered : ∀ written ∈ entry.written, written.ids.length = written.variation.nodes.length

end LedgerEntry

namespace Unfolding

/-- Once a timeslot has ended, there are nodes. -/
theorem nodes_ne_nil_of_addSection {layout : Layout} {job : Job} {unfolding next : Unfolding}
    {scheduled : ScheduledPath × Nat} (nonempty : unfolding.latest ≠ none → unfolding.nodes ≠ [])
    (added : addSection layout job unfolding scheduled = .ok next) :
    next.latest ≠ none → next.nodes ≠ [] := by
  rcases addSection_cases added with rfl | ⟨_, _, _, _, _, _, _, rfl⟩
  · exact nonempty
  · exact fun _ => List.append_ne_nil_of_right_ne_nil _ (List.cons_ne_nil _ _)

end Unfolding

/-- No variation is without nodes, since a job without timeslots does not expand. -/
theorem Job.nodes_ne_nil_of_expand {job : Job} {layout : Layout}
    {variations : List ScheduleVariation} (expanded : job.expand layout = .ok variations)
    {variation : ScheduleVariation} (member : variation ∈ variations) : variation.nodes ≠ [] := by
  obtain ⟨chosen, _, made⟩ := mem_expand expanded member
  unfold Job.variation at made
  obtain ⟨unfolded, folded, made⟩ := Outcome.bind_eq_ok.mp made
  have nonempty := @Outcome.foldlM_preserves _ _ _ _
    (fun _ unfolding => Unfolding.latest unfolding ≠ none → unfolding.nodes ≠ [])
    Unfolding.nodes_ne_nil_of_addSection _ _ _ (fun impossible => absurd rfl impossible) folded
  split at made
  · cases made
  · rename_i lastSlot isLast
    cases made
    exact nonempty (by simp [isLast])

open KripkeStore WrittenVariation

/-- Exactly the given ends were seen. -/
def Run.HasSeen (run : Run ν σ) (seen : List PropertyList) : Prop :=
  ∀ properties, run.visited.elements.contains properties = true ↔ properties ∈ seen

/-- A run at its start has seen no ends. -/
theorem Run.hasSeen_nil (view : ν) (store : σ) : ({ view, store } : Run ν σ).HasSeen [] := by
  simp [HasSeen]

namespace Verify

variable [KripkeStore σ]

/-- Writing a node makes one write of the store, and nothing else of the run changes. -/
theorem writeNode_accepts {written result : Written} {node : Node} {run after : Run ν σ}
    (ran : writeNode written node run = (.ok result, after)) :
    ∃ id, Accepts run.store { previous := written.previous, node, id } after.store ∧
      result.previous = some id ∧ after = { run with store := after.store } := by
  unfold writeNode at ran
  rw [get_bind] at ran
  obtain ⟨⟨id, state⟩, middle, addStep, ran⟩ := bind_eq_ok ran
  obtain ⟨added, sameMiddle⟩ := onStore_eq_ok addStep
  dsimp only at ran
  rw [get_bind] at ran
  cases before : written.previous with
  | none =>
      rw [before] at ran
      cases ran
      exact ⟨id, .first added, rfl, sameMiddle⟩
  | some source =>
      rw [before] at ran
      obtain ⟨_, last, linkStep, ran⟩ := bind_eq_ok ran
      obtain ⟨linked, sameLast⟩ := onStore_eq_ok linkStep
      cases ran
      refine ⟨id, .next added linked, rfl, ?_⟩
      rw [sameMiddle] at sameLast
      exact sameLast

/-- Writing nodes makes a chain of writes of the store, and nothing else of the run changes. -/
theorem writeNodes_accepts (nodes : List Node) : ∀ {written result : Written} {run after : Run ν σ},
    nodes.foldlM writeNode written run = (.ok result, after) →
      ∃ ids, AcceptsAll run.store (chain written.previous nodes ids) after.store ∧
        ids.length = nodes.length ∧ result.previous = ids.getLast?.or written.previous ∧
        after = { run with store := after.store } := by
  induction nodes with
  | nil =>
      intro written result run after ran
      cases ran
      exact ⟨[], .nil _, rfl, rfl, rfl⟩
  | cons node nodes others =>
      intro written result run after ran
      rw [List.foldlM_cons] at ran
      obtain ⟨between, middle, here, ran⟩ := bind_eq_ok ran
      obtain ⟨id, first, isId, sameMiddle⟩ := writeNode_accepts here
      obtain ⟨ids, rest, length, isLast, sameAfter⟩ := others ran
      rw [isId] at rest isLast
      refine ⟨id :: ids, .cons first rest, congrArg (· + 1) length, ?_, ?_⟩
      · rw [isLast, List.getLast?_cons]
        cases ids.getLast? <;> rfl
      · rw [sameMiddle] at sameAfter
        exact sameAfter

/-- What writing variations makes of a run in which the ends `seen` were seen before. -/
structure Enters (previous : Option StateId) (seen : List PropertyList)
    (written : List WrittenVariation) (before after : Run ν σ) : Prop where
  store : AcceptsAll before.store (written.flatMap (WrittenVariation.writes previous)) after.store
  numbered : ∀ one ∈ written, one.ids.length = one.variation.nodes.length
  queue : after.queue = before.queue ++ successors seen written
  visited : after.HasSeen (seen ++ ends written)
  /-- All others are counted as closed. -/
  closed : after.stats.cyclesClosed + (successors seen written).length =
    before.stats.cyclesClosed + written.length

theorem Enters.refl (previous : Option StateId) {seen : List PropertyList} {run : Run ν σ}
    (visited : run.HasSeen seen) :
    Enters previous seen [] run run where
  store := .nil _
  numbered := fun _ impossible => absurd impossible List.not_mem_nil
  queue := (List.append_nil _).symm
  visited := by simpa [ends] using visited
  closed := rfl

/-- Writing variations after others enters both, where the ends of the first count as seen for the
second. -/
theorem Enters.trans {previous : Option StateId} {seen : List PropertyList}
    {first second : List WrittenVariation} {before middle after : Run ν σ}
    (left : Enters previous seen first before middle)
    (right : Enters previous (seen ++ ends first) second middle after) :
    Enters previous seen (first ++ second) before after where
  store := by
    rw [List.flatMap_append]
    exact left.store.append right.store
  numbered := by
    intro one member
    rcases List.mem_append.mp member with member | member
    · exact left.numbered one member
    · exact right.numbered one member
  queue := by rw [right.queue, left.queue, successors_append, List.append_assoc]
  visited := by
    intro properties
    rw [right.visited, ends_append, List.append_assoc]
  closed := by
    have here := left.closed
    have later := right.closed
    rw [successors_append, List.length_append, List.length_append]
    omega

/-- **Writing a variation** enters it: its nodes are written after the state of the predecessor, and
its end is counted as seen. -/
theorem applyVariation_enters {limit : Time} {predecessor : Option Predecessor}
    {applied result : Applied} {variation : ScheduleVariation} {run after : Run ν σ}
    {seen : List PropertyList} (nonempty : variation.nodes ≠ [])
    (visited : run.HasSeen seen)
    (ran : applyVariation limit predecessor applied variation run = (.ok result, after)) :
    ∃ ids, Enters (predecessor.map Predecessor.state) seen [⟨variation, ids⟩] run after := by
  unfold applyVariation at ran
  obtain ⟨written, middle, nodes, ran⟩ := bind_eq_ok ran
  obtain ⟨ids, writes, length, isLast, sameMiddle⟩ := writeNodes_accepts variation.nodes nodes
  rw [modify_bind] at ran
  refine ⟨ids, ?_⟩
  -- The nodes are not empty, so the variation has an end.
  obtain ⟨last, lastNode⟩ := Option.ne_none_iff_exists'.mp
    (mt List.getLast?_eq_none_iff.mp nonempty)
  have idsNonempty : ids ≠ [] := by
    intro none
    rw [none] at length
    exact nonempty (List.length_eq_zero_iff.mp length.symm)
  obtain ⟨id, lastId⟩ := Option.ne_none_iff_exists'.mp (mt List.getLast?_eq_none_iff.mp idsNonempty)
  have isEnd : WrittenVariation.end? ⟨variation, ids⟩ = some (last.properties, id) := by
    simp only [WrittenVariation.end?, lastNode, lastId]
  have isEnds : ends [⟨variation, ids⟩] = [last.properties] := by
    simp [ends, isEnd]
  have marked : ∀ properties : PropertyList,
      (run.visited.elements.insert last.properties).contains properties = true ↔
        properties ∈ seen ++ ends [⟨variation, ids⟩] := by
    intro properties
    rw [Std.HashSet.contains_insert, Bool.or_eq_true, visited, isEnds, List.mem_append,
      List.mem_singleton, beq_iff_eq]
    exact ⟨fun known => known.symm.imp_right Eq.symm, fun known => known.symm.imp_left Eq.symm⟩
  have seenIff : (run.visited.visit last.properties).1 = true ↔ last.properties ∈ seen :=
    visited last.properties
  have store : AcceptsAll run.store ([⟨variation, ids⟩].flatMap
      (WrittenVariation.writes (predecessor.map Predecessor.state))) middle.store := by
    rw [List.flatMap_singleton]
    exact writes
  have numbered : ∀ one ∈ [(⟨variation, ids⟩ : WrittenVariation)],
      one.ids.length = one.variation.nodes.length := by
    intro one member
    rw [List.mem_singleton.mp member]
    exact length
  generalize middle.store = written at sameMiddle store
  subst sameMiddle
  rw [isLast, lastId, Option.some_or, lastNode] at ran
  simp only at ran
  rw [get_bind, modify_bind] at ran
  by_cases known : last.properties ∈ seen
  · rw [if_pos (seenIff.mpr known)] at ran
    cases ran
    have none : successors seen [⟨variation, ids⟩] = [] := by
      simp [successors, successor?, isEnd, known]
    refine ⟨store, numbered, ?_, marked, ?_⟩
    · rw [none, List.append_nil]
    · rw [none]
      rfl
  · rw [if_neg (mt seenIff.mp known)] at ran
    cases ran
    have one : successors seen [⟨variation, ids⟩] = [variation.successor id] := by
      simp [successors, successor?, isEnd, known]
    refine ⟨store, numbered, ?_, marked, ?_⟩
    · rw [one]
      rfl
    · rw [one]
      rfl

/-- **Writing the variations of a job** enters all of them in their order. -/
theorem applyVariations_enters {limit : Time} {predecessor : Option Predecessor}
    {variations : List ScheduleVariation} : ∀ {applied result : Applied} {run after : Run ν σ}
      {seen : List PropertyList}, (∀ variation ∈ variations, variation.nodes ≠ []) →
      run.HasSeen seen →
      variations.foldlM (applyVariation limit predecessor) applied run = (.ok result, after) →
        ∃ written : List WrittenVariation, written.map WrittenVariation.variation = variations ∧
          Enters (predecessor.map Predecessor.state) seen written run after := by
  induction variations with
  | nil =>
      intro applied result run after seen _ visited ran
      cases ran
      exact ⟨[], rfl, .refl _ visited⟩
  | cons variation rest others =>
      intro applied result run after seen nonempty visited ran
      rw [List.foldlM_cons] at ran
      obtain ⟨between, middle, here, ran⟩ := bind_eq_ok ran
      obtain ⟨ids, first⟩ :=
        applyVariation_enters (nonempty variation List.mem_cons_self) visited here
      obtain ⟨written, isRest, later⟩ := others
        (fun other member => nonempty other (List.mem_cons_of_mem _ member)) first.visited ran
      exact ⟨⟨variation, ids⟩ :: written, congrArg (variation :: ·) isRest, first.trans later⟩

variable [KripkeView ν]

/-- **Processing a job** enters all its variations, each of which is counted. -/
theorem applyJob_enters {layout : Layout} {limit : Time} {job : Job}
    {variations : List ScheduleVariation} {run after : Run ν σ} {seen : List PropertyList}
    (expanded : job.expand layout = .ok variations)
    (visited : run.HasSeen seen)
    (ran : applyJob limit job variations run = (.ok (), after)) :
    ∃ written : List WrittenVariation, written.map WrittenVariation.variation = variations ∧
      Enters (job.predecessor.map Predecessor.state) seen written run after ∧
      after.stats.scheduleVariations = run.stats.scheduleVariations + written.length := by
  obtain ⟨applied, middle, shown, writes, books, commits, rfl⟩ := applyJob_parts ran
  obtain ⟨view, committed, count, same⟩ := OnlyShows.forM onlyShows_commit (completed job applied)
    middle
  rw [commits] at same
  change shown = _ at same
  subst same
  have start : (countVariations variations.length run).HasSeen seen := visited
  obtain ⟨written, isWritten, enters⟩ := applyVariations_enters
    (fun _ member => Job.nodes_ne_nil_of_expand expanded member) start writes
  refine ⟨written, isWritten, ⟨enters.store, enters.numbered, enters.queue,
    enters.visited, enters.closed⟩, ?_⟩
  have counted : middle.stats.scheduleVariations =
      run.stats.scheduleVariations + variations.length := congrArg Books.scheduleVariations books
  rw [← isWritten, List.length_map] at counted
  exact counted

/-- The ledger of the jobs that were processed from the run `before`, in which the ends `seen` were
seen, to the run `after`; the queue of jobs was `queue` and is `left`. -/
structure Balances (layout : Layout) (seen : List PropertyList) (queue : List Job)
    (ledger : List LedgerEntry) (before after : Run ν σ) (left : List Job) : Prop where
  complete : ∀ entry ∈ ledger, entry.Complete layout
  recorded : AcceptsAll before.store (ledger.flatMap LedgerEntry.writes) after.store
  /-- The jobs that were queued were processed in this order, or are left. -/
  order : queue ++ successors seen (ledger.flatMap LedgerEntry.written) =
    ledger.map LedgerEntry.job ++ left
  /-- Every variation is counted. -/
  counted : after.stats.scheduleVariations =
    before.stats.scheduleVariations + (ledger.flatMap LedgerEntry.written).length
  /-- Those from which no job goes on are counted as closed. -/
  closed : after.stats.cyclesClosed +
      (successors seen (ledger.flatMap LedgerEntry.written)).length =
    before.stats.cyclesClosed + (ledger.flatMap LedgerEntry.written).length

/-- **Jobs that are processed leave a ledger** in the order of the queue that balances with the
counters of the run. -/
theorem Processes.exists_ledger {layout : Layout} {limit : Time} {before after : Run ν σ}
    {queue jobs left : List Job} (processes : Processes layout limit before queue jobs after left) :
    ∀ {seen : List PropertyList}, before.queue = [] →
      before.HasSeen seen →
      ∃ ledger : List LedgerEntry, ledger.map LedgerEntry.job = jobs ∧
        Balances layout seen queue ledger before after left := by
  induction processes with
  | nil =>
      intro seen _ _
      refine ⟨[], rfl, fun _ impossible => absurd impossible List.not_mem_nil, .nil _, ?_, rfl, rfl⟩
      exact List.append_nil _
  | @cons before middle _ job queue jobs _ variations expanded applied _ others =>
      intro seen empty visited
      obtain ⟨written, isWritten, enters, counted⟩ := applyJob_enters expanded visited applied
      have isQueue : middle.queue = successors seen written := by
        rw [enters.queue, empty, List.nil_append]
      obtain ⟨ledger, sameJobs, balances⟩ := others rfl enters.visited
      refine ⟨⟨job, written⟩ :: ledger, congrArg (job :: ·) sameJobs, ?_, ?_, ?_, ?_, ?_⟩
      · intro entry member
        rcases List.mem_cons.mp member with rfl | member
        · exact ⟨isWritten ▸ expanded, enters.numbered⟩
        · exact balances.complete entry member
      · rw [List.flatMap_cons]
        exact enters.store.append balances.recorded
      · have order := balances.order
        rw [isQueue, List.append_assoc, ← successors_append] at order
        exact congrArg (job :: ·) order
      · have later := balances.counted
        change _ = middle.stats.scheduleVariations + _ at later
        rw [later, counted, List.flatMap_cons, List.length_append, Nat.add_assoc]
      · have later := balances.closed
        have here := enters.closed
        change _ = middle.stats.cyclesClosed + _ at later
        rw [List.flatMap_cons, successors_append, List.length_append, List.length_append]
        dsimp only
        omega

end Verify

/-- **No branch is dropped.** A verification that succeeds has processed the jobs of a ledger, in
the order in which they were queued: the first one, and one for every end that was new. Of each job
all variations were written, node by node with an edge from each to the next. There is one job more
than there are ends of variations, and every variation that did not lead to a job was counted as
closed. -/
theorem verify_balances [KripkeView ν] [KripkeStore σ] {settings : VerificationSettings}
    {schedule : Schedule} {pool : Pool} {raised : ν → Nat → List CancellationToken} {bound : Nat}
    {view : ν} {store : σ} {report : VerificationReport} {run : Run ν σ}
    (verified : verify settings schedule pool raised bound view store = (.ok report, run)) :
    ∃ (shown : ν) (last : Run ν σ) (ledger : List LedgerEntry),
      Verify.Processes (Layout.new schedule) settings.starvationLimit { view := shown, store }
        [schedule.firstJob pool] (ledger.map LedgerEntry.job) last [] ∧
      ledger.map LedgerEntry.job = schedule.firstJob pool ::
        successors [] (ledger.flatMap LedgerEntry.written) ∧
      (∀ entry ∈ ledger, entry.Complete (Layout.new schedule)) ∧
      AcceptsAll store (ledger.flatMap LedgerEntry.writes) last.store ∧
      KripkeStore.flush last.store = (.ok (), run.store) ∧
      report.stats.jobsProcessed = ledger.length ∧
      report.stats.scheduleVariations = (ledger.flatMap LedgerEntry.written).length ∧
      report.stats.scheduleVariations =
        report.stats.cyclesClosed + report.stats.jobsProcessed - 1 ∧
      report.stats.jobsProcessed - 1 =
        (ends (ledger.flatMap LedgerEntry.written)).toFinset.card := by
  obtain ⟨_, shown, jobs, last, _, processes, flushed, _, stats⟩ := processes_of_verify verified
  obtain ⟨ledger, rfl, balances⟩ := processes.exists_ledger rfl (Run.hasSeen_nil shown store)
  have order := balances.order
  rw [List.append_nil] at order
  have jobs : report.stats.jobsProcessed = ledger.length := by
    have counted := processes.jobsProcessed_eq
    rw [stats, List.length_map] at counted
    exact counted.trans (Nat.zero_add _)
  have variations : report.stats.scheduleVariations =
      (ledger.flatMap LedgerEntry.written).length := by
    have counted := balances.counted
    rw [stats] at counted
    exact counted.trans (Nat.zero_add _)
  have closed : report.stats.cyclesClosed +
      (successors [] (ledger.flatMap LedgerEntry.written)).length =
        (ledger.flatMap LedgerEntry.written).length := by
    have closed := balances.closed
    rw [stats] at closed
    exact closed.trans (Nat.zero_add _)
  have length :
      ledger.length = (successors [] (ledger.flatMap LedgerEntry.written)).length + 1 := by
    have length := congrArg List.length order
    rw [List.length_map] at length
    exact length.symm
  have new := length_successors (ledger.flatMap LedgerEntry.written) []
  rw [List.toFinset_nil, Finset.card_empty, Nat.add_zero, List.nil_append] at new
  refine ⟨shown, last, ledger, processes, order.symm, balances.complete, balances.recorded, flushed,
    jobs, variations, ?_, ?_⟩
  · omega
  · omega

/-- The verification of the switch leaves a ledger that balances. -/
theorem switch_balances : ∃ (bound : Nat) (report : VerificationReport)
    (run : Run RecordingView KripkeStructure) (ledger : List LedgerEntry),
    verify Switch.settings Switch.schedule Switch.pool (fun _ _ => []) bound
      ({} : RecordingView) KripkeStructure.empty = (.ok report, run) ∧
    AcceptsAll KripkeStructure.empty (ledger.flatMap LedgerEntry.writes) run.store ∧
    report.stats.jobsProcessed = ledger.length ∧
    report.stats.scheduleVariations = report.stats.cyclesClosed + report.stats.jobsProcessed - 1 ∧
    report.stats.jobsProcessed - 1 =
      (ends (ledger.flatMap LedgerEntry.written)).toFinset.card := by
  obtain ⟨bound, report, run, verified⟩ := Switch.verified
  obtain ⟨_, last, ledger, _, _, _, recorded, flushed, counted, _, balance, distinct⟩ :=
    verify_balances verified
  have same : last.store = run.store := congrArg Prod.snd flushed
  exact ⟨bound, report, run, ledger, verified, same ▸ recorded, counted, balance, distinct⟩

end TimedKripke
