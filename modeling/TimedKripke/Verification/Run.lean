import Std.Data.HashSet
import TimedKripke.Schedule.Validation
import TimedKripke.Verification.Expansion
import TimedKripke.Verification.Report
import TimedKripke.Verification.Settings

/-! # Verifying a schedule

A verification explores every execution of a schedule. It works through a queue of
jobs: a job is expanded into its variations, their nodes and edges are written to the
store, and the end of each variation that was not seen before becomes a job of its
own. States go to the view when their edges are complete: the end of a variation with
the job that goes on from it, all other states with the job that wrote them first.

Several jobs may be expanded together; they are then written in the order of the
queue. The number of batches is bounded by an argument, since an exploration of
unbounded data need not end.
-/

namespace TimedKripke

/-- Remembers what was seen. -/
structure Visited (α : Type) [BEq α] [Hashable α] where
  elements : Std.HashSet α := ∅

namespace Visited

variable {α : Type} [BEq α] [Hashable α]

/-- Whether an element was seen before, and what was seen with it. -/
def visit (visited : Visited α) (element : α) : Bool × Visited α :=
  (visited.elements.contains element, { elements := visited.elements.insert element })

/-- The number of elements seen. -/
def size (visited : Visited α) : Nat :=
  visited.elements.size

end Visited

/-- The state of a verification. -/
structure Run (ν σ : Type) where
  view : ν
  store : σ
  /-- The ends of variations seen so far. -/
  visited : Visited PropertyList := {}
  /-- The states handed to the view. -/
  committed : Std.HashSet StateId := ∅
  /-- The jobs still to be explored. -/
  queue : List Job := []
  stats : VerificationStats := {}
  /-- The findings, oldest first. -/
  liveness : List Stuck := []

/-- A part of a verification; it may fail and then keeps what it did before. -/
abbrev Verify (ν σ α : Type) := ExceptT VerificationError (StateM (Run ν σ)) α

namespace Verify

variable {ν σ : Type} [KripkeView ν] [KripkeStore σ]

/-- Performs an operation of the store. -/
def onStore {α : Type} (operation : σ → Except StoreError α × σ) : Verify ν σ α :=
  fun run =>
    let performed := operation run.store
    (performed.1.mapError .store, { run with store := performed.2 })

/-- Performs an operation of the view. -/
def onView {α : Type} (operation : ν → Except ViewError α × ν) : Verify ν σ α :=
  fun run =>
    let performed := operation run.view
    (performed.1.mapError .view, { run with view := performed.2 })

/-- Passes on a fault. -/
def liftFault {α : Type} (result : Except Fault α) : Verify ν σ α :=
  fun run => (result.mapError .fault, run)

/-- Queues a job. -/
def push (job : Job) : Verify ν σ Unit :=
  modify fun run =>
    let queue := run.queue ++ [job]
    { run with
      queue
      stats := { run.stats with maxQueueLength := max run.stats.maxQueueLength queue.length } }

/-- What writing nodes has come to: the last state, and the states that are new. -/
structure Written where
  /-- The state written last. -/
  previous : Option StateId
  /-- The states that were not in the store, in the order of writing. -/
  created : List StateId

/-- Writes a node and the edge to it. -/
def writeNode (written : Written) (node : Node) : Verify ν σ Written := do
  let known := KripkeStore.size (← get).store
  let (id, _) ← onStore fun store => KripkeStore.add store node.properties node.isInitial
  let created :=
    if known < KripkeStore.size (← get).store then written.created ++ [id] else written.created
  match written.previous with
  | some source => onStore fun store => KripkeStore.addEdge store (node.incoming.toEdge id) source
  | none => pure ()
  return { previous := some id, created }

/-- Notes machines that made too many idle steps, each machine once. -/
def noteStuck (limit : Time) (liveness : List Stuck) (count : ExecutableId × Time) : List Stuck :=
  if limit < count.2 && !liveness.any (fun finding => finding.executable == count.1) then
    liveness ++ [{ executable := count.1, cycles := count.2 }]
  else liveness

/-- What applying a job has come to. -/
structure Applied where
  /-- The states that were not in the store, in the order of writing. -/
  created : List StateId
  /-- The new states from which jobs go on. -/
  deferred : List StateId

/-- Writes a variation and queues the job that goes on from its end, unless its end was
seen before. -/
def applyVariation (limit : Time) (predecessor : Option Predecessor) (applied : Applied)
    (variation : ScheduleVariation) : Verify ν σ Applied := do
  let written ← variation.nodes.foldlM writeNode
    { previous := predecessor.map Predecessor.state, created := applied.created }
  modify fun run =>
    { run with liveness := variation.cycles.foldl (noteStuck limit) run.liveness }
  match variation.nodes.getLast?, written.previous with
  | some last, some id =>
      let (seen, visited) := (← get).visited.visit last.properties
      modify fun run => { run with visited }
      if seen then
        modify fun run =>
          { run with stats := { run.stats with cyclesClosed := run.stats.cyclesClosed + 1 } }
        return { applied with created := written.created }
      else
        push {
          pool := variation.pool
          threads := variation.threads
          predecessor := some { state := id, slot := variation.lastSlot }
          initial := false }
        return { created := written.created, deferred := applied.deferred ++ [id] }
  | _, _ => return { applied with created := written.created }

/-- Hands a state to the view, if it has not been. -/
def commit (id : StateId) : Verify ν σ Unit := do
  let run ← get
  if run.committed.contains id then return
  else
    modify fun run => { run with committed := run.committed.insert id }
    let state ← onStore fun store => (KripkeStore.state store id, store)
    onView fun view => KripkeView.commit view state
    modify fun run =>
      { run with stats := { run.stats with statesCommitted := run.stats.statesCommitted + 1 } }

/-- Writes the variations of a job and commits the states it completes. -/
def applyJob (limit : Time) (job : Job) (variations : List ScheduleVariation) :
    Verify ν σ Unit := do
  modify fun run => { run with
    stats := { run.stats with
      scheduleVariations := run.stats.scheduleVariations + variations.length } }
  let applied ← variations.foldlM (applyVariation limit job.predecessor)
    { created := [], deferred := [] }
  match job.predecessor with
  | some predecessor => commit predecessor.state
  | none => pure ()
  let created := applied.created.mergeSort fun first second => decide (first ≤ second)
  (created.filter fun id => !applied.deferred.contains id).forM commit
  modify fun run =>
    { run with stats := { run.stats with jobsProcessed := run.stats.jobsProcessed + 1 } }

/-- The number of jobs to expand together, or the reason to stop. -/
def batchWidth (settings : VerificationSettings) (run : Run ν σ) : Except VerificationError Nat :=
  let width := min (max settings.workers 1) run.queue.length
  match settings.maxJobs with
  | none => .ok width
  | some limit =>
      let remaining := limit - run.stats.jobsProcessed
      if remaining = 0 then .error (.jobLimitExceeded limit) else .ok (min width remaining)

/-- Expands the first jobs of the queue and then applies them in order. Programs of
machines do not panic, so a batch fails only with the fault of the first job in it that
cannot be expanded, or while its jobs are applied. -/
def processBatch (settings : VerificationSettings) (layout : Layout) (width : Nat) :
    Verify ν σ Unit := do
  let batch := (← get).queue.take width
  modify fun run => { run with queue := run.queue.drop width }
  let expansions ← liftFault (batch.mapM fun job => job.expand layout)
  (batch.zip expansions).forM fun expanded =>
    applyJob settings.starvationLimit expanded.1 expanded.2

/-- Works through the queue, in at most `bound` batches. `raised` tells which
cancellation flags are up, from the view and the number of jobs processed. -/
def processQueue (settings : VerificationSettings) (layout : Layout)
    (raised : ν → Nat → List CancellationToken) : (bound : Nat) → Verify ν σ Unit
  | 0 => do
      if (← get).queue.isEmpty then return else throw .unfinished
  | bound + 1 => do
      let run ← get
      if run.queue.isEmpty then return
      else if settings.isCancelled (raised run.view run.stats.jobsProcessed) then
        throw (.cancelled run.stats.jobsProcessed)
      else
        let width ← (fun state => (batchWidth settings run, state) : Verify ν σ Nat)
        processBatch settings layout width
        processQueue settings layout raised bound

/-- A verification from start to end. -/
def verification (settings : VerificationSettings) (schedule : Schedule) (pool : Pool)
    (raised : ν → Nat → List CancellationToken) (bound : Nat) :
    Verify ν σ VerificationReport := do
  liftFault (schedule.validate pool)
  onView fun view => KripkeView.reset view settings.usingClocks
  push { pool, threads := schedule.threads, predecessor := none, initial := true }
  processQueue settings (Layout.new schedule) raised bound
  onStore KripkeStore.flush
  onView KripkeView.finish
  let run ← get
  return { stats := run.stats, liveness := run.liveness }

end Verify

/-- Explores every execution of a schedule from a pool, writing the states to a store
and handing them to a view. Gives back the view and the store also when it fails. -/
def verify {ν σ : Type} [KripkeView ν] [KripkeStore σ] (settings : VerificationSettings)
    (schedule : Schedule) (pool : Pool) (raised : ν → Nat → List CancellationToken)
    (bound : Nat) (view : ν) (store : σ) :
    Except VerificationError VerificationReport × Run ν σ :=
  Verify.verification settings schedule pool raised bound { view, store }

end TimedKripke
