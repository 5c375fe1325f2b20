import TimedKripke.Proofs.Verification.Deviation
import TimedKripke.Proofs.Verification.Provenance
import TimedKripke.Proofs.Verification.Termination

/-! # No deadlock in time

A state of a verified structure that can be left by a step can be left by a step at every clock
value (`exists_open_edge`), if machines issue no calls, no section has two timeslots of one
executable and timeslots start without open calls. The last is needed: an open call lets a timeslot
run the executable of another one (`relay_deadlock`).
-/

namespace TimedKripke

/-- Jobs that were reached are alike to those that stand for them. -/
theorem Layout.Closed.exists_alike {layout : Layout} {jobs : List Job} (closed : layout.Closed jobs)
    {first job : Job} (isFirst : first ∈ jobs) (reached : Job.Reached layout first job) :
    ∃ known ∈ jobs, job.Alike known := by
  induction reached with
  | first => exact ⟨first, isFirst, .refl _⟩
  | next _ expanded member state others =>
      obtain ⟨known, isKnown, alike⟩ := others
      obtain ⟨variations, expandedKnown, goOn⟩ := closed known isKnown
      obtain ⟨own, expandedOwn, twins⟩ := alike.expand_eq_ok expandedKnown
      cases expanded.symm.trans expandedOwn
      obtain ⟨twin, isTwin, same⟩ := twins _ member
      obtain ⟨next, isNext, alikeNext⟩ := goOn twin isTwin
      exact ⟨next, isNext, (ScheduleVariation.alike_of_uncounted same state 0).trans alikeNext⟩

/-- The steps of a job that was reached are steps of one of the jobs that stand for all of them. -/
theorem Layout.Closed.exists_steps {layout : Layout} {jobs : List Job} (closed : layout.Closed jobs)
    {first job : Job} (isFirst : first ∈ jobs) (reached : Job.Reached layout first job)
    {node next : Node} (steps : job.Steps layout node next) :
    ∃ known ∈ jobs, known.Steps layout node next := by
  obtain ⟨known, isKnown, alike⟩ := closed.exists_alike isFirst reached
  obtain ⟨variations, expandedKnown, _⟩ := closed known isKnown
  obtain ⟨own, expandedOwn, twins⟩ := alike.expand_eq_ok expandedKnown
  obtain ⟨variations', expanded, variation, member, precedes⟩ := steps
  cases expanded.symm.trans expandedOwn
  obtain ⟨twin, isTwin, same⟩ := twins variation member
  obtain ⟨nodes, _⟩ := ScheduleVariation.eq_of_uncounted same
  exact ⟨known, isKnown, variations, expandedKnown, twin, isTwin, nodes ▸ precedes⟩

/-- The job has a step that passes a test. -/
def Job.hasStep (job : Job) (layout : Layout) (test : Node → Node → Bool) : Except Fault Bool :=
  (job.expand layout).map fun variations => variations.any fun variation =>
    (variation.nodes.zip variation.nodes.tail).any fun pair =>
      !pair.2.incoming.takeSnapshot && test pair.1 pair.2

/-- A node precedes another one if they stand next to each other. -/
theorem Node.precedes_iff_mem_zip {nodes : List Node} {node next : Node} :
    Node.Precedes nodes node next ↔ (node, next) ∈ nodes.zip nodes.tail := by
  simp only [List.mem_iff_getElem?, List.getElem?_zip_eq_some, List.getElem?_tail]
  rfl

/-- The search for a step of a job that passes a test answers whether there is one. -/
theorem Job.hasStep_eq_ok {job : Job} {layout : Layout} {test : Node → Node → Bool} {answer : Bool}
    (answered : job.hasStep layout test = .ok answer) : answer = true ↔
      ∃ node next, job.Steps layout node next ∧ next.incoming.takeSnapshot = false ∧
        test node next = true := by
  obtain ⟨variations, expanded, rfl⟩ := Outcome.map_eq_ok.mp answered
  simp only [List.any_eq_true, Prod.exists, Bool.and_eq_true, Bool.not_eq_true',
    ← Node.precedes_iff_mem_zip]
  constructor
  · rintro ⟨variation, member, node, next, precedes, passed⟩
    exact ⟨node, next, ⟨variations, expanded, variation, member, precedes⟩, passed⟩
  · rintro ⟨node, next, ⟨variations', expanded', variation, member, precedes⟩, passed⟩
    cases expanded.symm.trans expanded'
    exact ⟨variation, member, node, next, precedes, passed⟩

/-- A step of a chain that left its trace can be taken. -/
theorem KripkeStructure.Traced.exists_step {kripke : KripkeStructure} {node next : Node}
    {nodes : List Node} : ∀ {previous : Option StateId}, kripke.Traced previous nodes →
      Node.Precedes nodes node next → ∃ (id : StateId) (state : KripkeState) (target : StateId),
        kripke.states[id]? = some state ∧ state.properties = node.properties ∧
          ∃ wide ∈ state.edges, wide.Covers (next.incoming.toEdge target) := by
  induction nodes with
  | nil =>
      rintro previous _ ⟨_, impossible, _⟩
      cases impossible
  | cons first rest others =>
      rintro previous ⟨id, holds, traced⟩ ⟨index, isNode, isNext⟩
      cases index with
      | zero =>
          cases isNode
          cases rest with
          | nil => cases isNext
          | cons second more =>
              cases isNext
              obtain ⟨target, holdsNext, _⟩ := traced
              obtain ⟨state, found, same, _⟩ := holds.stored
              obtain ⟨source, isSource, wide, inside, covers⟩ := holdsNext.reached id rfl
              cases found.symm.trans isSource
              exact ⟨id, state, target, found, same, wide, inside, covers⟩
      | succ index => exact others traced ⟨index, isNode, isNext⟩

/-- A step of an explored job left an edge that can be taken whenever the step can. -/
theorem Explored.exists_edge {ν : Type} {layout : Layout} {first job : Job} {done taken : List Job}
    {run : Run ν KripkeStructure} (explored : Explored layout first done taken run)
    (isExplored : job ∈ done) {node next : Node} (steps : job.Steps layout node next)
    (isStep : next.incoming.takeSnapshot = false) :
    ∃ (id : StateId) (state : KripkeState), run.store.states[id]? = some state ∧
      state.properties = node.properties ∧ ∃ edge ∈ state.edges, edge.takeSnapshot = false ∧
        ∀ value, (∀ target, (next.incoming.toEdge target).admits value = true) →
          edge.admits value = true := by
  obtain ⟨variations, expanded, variation, member, precedes⟩ := steps
  obtain ⟨variations', expanded', each⟩ := explored.traced job isExplored
  cases expanded.symm.trans expanded'
  obtain ⟨id, state, target, found, shown, wide, isWide, covers⟩ :=
    (each variation member).1.exists_step precedes
  have transition := (KripkeEdge.sameTransition_iff.mp covers.transition).2.2.1
  exact ⟨id, state, found, shown, wide, isWide, transition.trans isStep,
    fun value admits => covers.admits value (admits target)⟩

/-- A schedule that was verified passed the validation. -/
theorem validated_of_verify {ν : Type} [KripkeView ν] {settings : VerificationSettings}
    {schedule : Schedule} {pool : Pool} {raised : ν → Nat → List CancellationToken} {bound : Nat}
    {view : ν} {report : VerificationReport} {run : Run ν KripkeStructure}
    (verified : verify settings schedule pool raised bound view KripkeStructure.empty =
      (.ok report, run)) : schedule.validate pool = .ok () := by
  rw [verify_eq_ended] at verified
  cases validated : schedule.validate pool with
  | error cause =>
      rw [validated] at verified
      cases verified
  | ok _ => rfl

/-- **No deadlock in time.** A state that can be left by a step can be left by a step at every
clock value, if machines issue no calls, timeslots start without open calls and no section has two
timeslots of one executable. -/
theorem exists_open_edge {ν : Type} [KripkeView ν] {settings : VerificationSettings}
    {schedule : Schedule} {pool : Pool} {raised : ν → Nat → List CancellationToken} {bound : Nat}
    {view : ν} {report : VerificationReport} {run : Run ν KripkeStructure}
    (wellFormed : pool.WellFormed) (callFree : pool.CallFree)
    (once : ∀ thread ∈ schedule.threads, ∀ part ∈ thread.sections,
      (part.timeslots.map Timeslot.executable).Nodup)
    (unopened : ∀ slot ∈ schedule.timeslots, slot.callChain.calls = [])
    (verified : verify settings schedule pool raised bound view KripkeStructure.empty =
      (.ok report, run)) {id : StateId} {state : KripkeState}
    (found : run.store.states[id]? = some state)
    (leaves : ∃ edge ∈ state.edges, edge.takeSnapshot = false) (value : Time) :
    ∃ edge ∈ state.edges, edge.takeSnapshot = false ∧ edge.admits value = true := by
  obtain ⟨all, explored, sourced⟩ := sourced_of_verify verified
  obtain ⟨edge, isEdge, isStep⟩ := leaves
  obtain ⟨node, next, ⟨job, isExplored, variations, expanded, variation, isVariation, precedes⟩,
    shown, takes⟩ := (sourced id state found edge isEdge isStep).step
  -- The job has the threads of the schedule, but for counts and order.
  have reached := explored.reached job (by simp [isExplored])
  obtain ⟨descends, threads⟩ := reached.kept wellFormed.descends
  have separate : ScheduleThread.Separate schedule.threads := by
    refine ⟨once, fun thread isThread chain isChain => ?_,
      Schedule.disjoint_of_validate (validated_of_verify verified)⟩
    obtain ⟨slot, isSlot, rfl⟩ := List.mem_map.mp isChain
    exact unopened slot (List.mem_flatMap.mpr ⟨thread, isThread, isSlot⟩)
  have owning := (separate.congr threads).owning callFree
  -- Some variation takes a step at the clock value, and left its trace.
  obtain ⟨other, isOther, node', next', precedes', same, takes', admits⟩ :=
    Job.exists_detour descends owning expanded isVariation precedes takes value
  obtain ⟨id', state', found', shown', wide, isWide, isOpen⟩ := explored.exists_edge isExplored
    ⟨variations, expanded, other, isOther, precedes'⟩ takes'
  have samePlace : id' = id :=
    explored.wellFormed.position_unique found' found (shown'.trans (same.trans shown))
  subst samePlace
  cases found.symm.trans found'
  exact ⟨wide, isWide, isOpen.1, isOpen.2 value admits⟩

namespace Relay

/-- A state without actions. -/
def state (name : String) (transitions : List Transition) (observes : List String) : MachineState :=
  { name
    onEntry := none
    onExit := none
    internal := none
    transitions
    observes := some observes }

/-- The machine that does nothing. -/
def caller : Machine :=
  { name := "Caller"
    states := [state "Calling" [] []]
    initialState := 0
    exitState := none
    suspendState := none
    variableTypes := []
    initialVariables := []
    initialExternals := [] }

/-- The sensor with a given value. -/
def sensor (value : Bool) : External :=
  { name := "ready", direction := .sensor, type := .bool, value := .bool value }

/-- The worker. -/
def worker : Machine :=
  { name := "Worker"
    states := [
      state "Wait" [⟨2, .ask (.after 5) .done⟩, ⟨1, .done true⟩] [],
      state "Look" [⟨2, .done true⟩] ["ready"],
      state "Done" [] []]
    initialState := 0
    exitState := some 2
    suspendState := none
    variableTypes := []
    initialVariables := []
    initialExternals := [sensor false] }

/-- Both machines. The worker waits, looks at a sensor unless its time is up, and is done; the
caller does nothing. Each has a timeslot, and where a call to the worker is open in that of the
caller, the worker runs in both. -/
def poolOf (calling working : Instance) : Pool :=
  { entries := [
      { registration := { id := 0, name := "Caller", dependencies := [] }
        executable := .scheduled calling },
      { registration := { id := 1, name := "Worker", dependencies := [] }
        executable := .scheduled working }] }

/-- The pool at the start. -/
def pool : Pool :=
  poolOf caller.start worker.start

/-- The schedule with a given timeslot before that of the worker. -/
def schedule (slot : Timeslot) : Schedule :=
  { threads := [{ sections := [{ timeslots := [slot, Timeslot.new 1 2 1] }] }] }

/-- The timeslot of the caller with a call to the worker. -/
def opened : Timeslot :=
  { Timeslot.new 0 0 1 with callChain := { root := 0, calls := [⟨0, 1, [], .synchronous⟩] } }

/-- The schedule with the open call. -/
def relayed : Schedule :=
  schedule opened

/-- The worker in a state that it came to from another one. -/
def after (current : Nat) (previous : String) (moved value : Bool) : Instance :=
  { machine := worker
    currentState := current
    previousStateName := previous
    entryPending := moved
    resumeState := none
    variableValues := []
    externals := [sensor value] }

/-- The caller after a step. -/
def called : Instance :=
  { caller.start with previousStateName := "Calling", entryPending := false }

/-- The worker when it is done, with a given value of the sensor. -/
def done (value : Bool) : List Instance :=
  [after 2 "Wait" true value, after 2 "Look" true value, after 2 "Done" false value]

/-- The job that goes on with the worker. -/
def jobOf (slot : Timeslot) (calling working : Instance) : Job :=
  { pool := poolOf calling working
    threads := (schedule slot).threads
    predecessor := some { state := 0, slot := Timeslot.new 1 2 1 }
    initial := false }

/-- What goes on from a job. -/
def goesOn (slot : Timeslot) (job : Job) (next : List Job) : Prop :=
  (job.expand (Layout.new (schedule slot))).map
    (List.map fun variation => (variation.successor 0).view) = .ok (next.map Job.view)

/-- The jobs in which the worker is done. -/
def doneJobs (slot : Timeslot) (calling : Instance) : List Job :=
  (done false ++ done true).map (jobOf slot calling)

/-- When the worker is done, it stays so: the jobs that go on are again of that kind. -/
theorem goesOn_done {slot : Timeslot} {calling : Instance}
    (known : (slot, calling) ∈ [(opened, caller.start), (Timeslot.new 0 0 1, called)]) {job : Job}
    (isDone : job ∈ doneJobs slot calling) :
    ∃ next, (∀ successor ∈ next, successor ∈ doneJobs slot calling) ∧ goesOn slot job next := by
  obtain ⟨working, isWorking, rfl⟩ := List.mem_map.mp isDone
  obtain ⟨value, isWorking⟩ : ∃ value, working ∈ done value :=
    (List.mem_append.mp isWorking).elim (⟨_, ·⟩) (⟨_, ·⟩)
  refine ⟨[jobOf slot calling (after 2 "Done" false value)], ?_, ?_⟩
  · cases value <;> simp [doneJobs, done]
  · simp only [List.mem_cons, List.not_mem_nil, or_false, Prod.mk.injEq] at known
    simp only [done, List.mem_cons, List.not_mem_nil, or_false] at isWorking
    unfold goesOn
    rcases known with ⟨rfl, rfl⟩ | ⟨rfl, rfl⟩ <;> rcases isWorking with rfl | rfl | rfl <;>
      cases value <;> cbv

/-- The jobs that stand for all that the relay comes to, if the call is open. -/
def jobs : List Job :=
  relayed.firstJob pool :: doneJobs opened caller.start

/-- The jobs of the relay are closed: whatever their variations end in is again among them. -/
theorem closed : (Layout.new relayed).Closed jobs := by
  refine Layout.closed_of_views fun job isJob => ?_
  rcases List.mem_cons.mp isJob with rfl | isDone
  · have first : goesOn opened (relayed.firstJob pool) ([after 2 "Look" true false,
        after 2 "Look" true true, after 2 "Done" false false].map (jobOf opened caller.start)) := by
      unfold goesOn
      cbv
    refine ⟨_, ?_, first⟩
    simp [jobs, doneJobs, done]
  · obtain ⟨next, within, goesOn⟩ := goesOn_done (by simp) isDone
    exact ⟨next, fun successor isNext => List.mem_cons_of_mem _ (within successor isNext), goesOn⟩

/-- The pool of the relay is well-formed. -/
theorem wellFormed : pool.WellFormed := by
  refine ⟨by decide, fun entry member => ?_⟩
  simp only [pool, poolOf, List.mem_cons, List.not_mem_nil, or_false] at member
  rcases member with rfl | rfl
  · refine Machine.WellFormed.start ⟨?_, ?_, ?_, ?_, ?_, ?_⟩ <;>
      simp [caller, state, External.Typed]
  · refine Machine.WellFormed.start ⟨?_, ?_, ?_, ?_, ?_, ?_⟩ <;>
      simp [worker, state, sensor, External.Typed, ValueType.accepts]

/-- No machine of the relay issues calls. -/
theorem callFree : pool.CallFree := by
  intro entry member
  refine Machine.callFree_of_mayRequest ?_
  rintro method name parameters ⟨state, isState, may⟩
  simp only [pool, poolOf, List.mem_cons, List.not_mem_nil, or_false] at member
  rcases member with rfl | rfl
  · simp [Executable.running, Machine.start, caller, Relay.state] at isState
    simp [isState, MachineState.mayRequest_iff] at may
  · simp [Executable.running, Machine.start, worker, Relay.state] at isState
    rcases isState with rfl | rfl | rfl
    · simp [MachineState.mayRequest_iff] at may
    · simp [MachineState.mayRequest_iff] at may
    · simp [MachineState.mayRequest_iff] at may

/-- What is read at the start, if the sensor is on. -/
def asked : PropertyList :=
  (Layout.new relayed).properties
    (poolOf caller.start { worker.start with externals := [sensor true] })
    { executable := "Caller", state := "Calling", phase := .read } 0

/-- The step goes on from there. -/
def answers (node _next : Node) : Bool :=
  node.properties == asked

/-- It can be taken when the time is up. -/
def answersLate (node next : Node) : Bool :=
  node.properties == asked && (next.incoming.toEdge 0).admits 6

/-- The first job of the relay has a step from the read state in question. -/
theorem answered : (relayed.firstJob pool).hasStep (Layout.new relayed) answers = .ok true := by
  cbv

/-- No job has a step from that read state that can be taken when the time is up. -/
theorem not_answered {job : Job} (isJob : job ∈ jobs) :
    job.hasStep (Layout.new relayed) answersLate = .ok false := by
  rcases List.mem_cons.mp isJob with rfl | isJob
  · cbv
  · obtain ⟨working, isWorking, rfl⟩ := List.mem_map.mp isJob
    simp only [done, List.cons_append, List.nil_append, List.mem_cons, List.not_mem_nil, or_false]
      at isWorking
    rcases isWorking with rfl | rfl | rfl | rfl | rfl | rfl <;> cbv

/-- The relay is verified without a fault. -/
theorem verified : ∃ bound report run, verify Switch.settings relayed pool (fun _ _ => []) bound
    ({} : RecordingView) KripkeStructure.empty = (.ok report, run) := by
  refine verify_eq_ok_of_closed ?_ rfl (by cbv) List.mem_cons_self closed _
    KripkeStructure.wellFormed_empty
  exact fun _ _ => rfl

end Relay

/-- **Open calls may lead to a deadlock in time.** With the call open, no executable has two
timeslots, but if the sensor is on at the start, no step can be taken when the time is up. -/
theorem relay_deadlock : Relay.relayed.validate Relay.pool = .ok () ∧ Relay.pool.WellFormed ∧
    Relay.pool.CallFree ∧
    (∀ thread ∈ Relay.relayed.threads, ∀ part ∈ thread.sections,
      (part.timeslots.map Timeslot.executable).Nodup) ∧
    ∃ (bound : Nat) (report : VerificationReport) (run : Run RecordingView KripkeStructure)
      (id : StateId) (state : KripkeState),
      verify Switch.settings Relay.relayed Relay.pool (fun _ _ => []) bound ({} : RecordingView)
        KripkeStructure.empty = (.ok report, run) ∧
      run.store.states[id]? = some state ∧ (∃ edge ∈ state.edges, edge.takeSnapshot = false) ∧
      ∀ edge ∈ state.edges, edge.takeSnapshot = false → edge.admits 6 = false := by
  obtain ⟨bound, report, run, verified⟩ := Relay.verified
  refine ⟨by cbv, Relay.wellFormed, Relay.callFree, by decide, bound, report, run, ?_⟩
  obtain ⟨all, explored, sourced⟩ := sourced_of_verify verified
  obtain ⟨finished, _⟩ := explored_of_verify verified
  have started : Relay.relayed.firstJob Relay.pool ∈ all := by
    simpa [finished] using explored.started
  -- The first cycle goes on from what was asked.
  obtain ⟨node, next, steps, isStep, asked⟩ := (Job.hasStep_eq_ok Relay.answered).mp rfl
  obtain ⟨id, state, found, shown, edge, isEdge, takes, _⟩ :=
    explored.exists_edge started steps isStep
  refine ⟨id, state, verified, found, ⟨edge, isEdge, takes⟩, ?_⟩
  -- No job goes on from there when the time is up.
  intro edge isEdge takes
  rw [Bool.eq_false_iff]
  intro admits
  obtain ⟨node', next', ⟨job, isJob, steps'⟩, shown', isStep', admits'⟩ :=
    (sourced id state found edge isEdge takes).admits 6 admits
  obtain ⟨known, isKnown, stepsKnown⟩ :=
    Relay.closed.exists_steps List.mem_cons_self (explored.reached job (by simp [isJob])) steps'
  have never := (Job.hasStep_eq_ok (Relay.not_answered isKnown)).not.mp Bool.false_ne_true
  refine never ⟨node', next', stepsKnown, isStep', ?_⟩
  have asked' : node'.properties = Relay.asked :=
    shown'.trans (shown.trans (beq_iff_eq.mp asked))
  rw [Relay.answersLate, asked', admits', beq_self_eq_true, Bool.and_self]

namespace Relay

/-- The schedule without the open call. -/
def plain : Schedule :=
  schedule (Timeslot.new 0 0 1)

/-- The jobs that stand for all that the relay comes to, if no call is open. -/
def plainJobs : List Job :=
  plain.firstJob pool :: jobOf (Timeslot.new 0 0 1) called (after 1 "Wait" true false) ::
    doneJobs (Timeslot.new 0 0 1) called

/-- The jobs of the relay without the open call are closed. -/
theorem plain_closed : (Layout.new plain).Closed plainJobs := by
  refine Layout.closed_of_views fun job isJob => ?_
  simp only [plainJobs, List.mem_cons] at isJob
  rcases isJob with rfl | rfl | isDone
  · have first : goesOn (Timeslot.new 0 0 1) (plain.firstJob pool) ([after 1 "Wait" true false,
        after 2 "Wait" true false].map (jobOf (Timeslot.new 0 0 1) called)) := by
      unfold goesOn
      cbv
    refine ⟨_, ?_, first⟩
    simp [plainJobs, doneJobs, done]
  · have look : goesOn (Timeslot.new 0 0 1)
        (jobOf (Timeslot.new 0 0 1) called (after 1 "Wait" true false)) ([after 2 "Look" true false,
        after 2 "Look" true true].map (jobOf (Timeslot.new 0 0 1) called)) := by
      unfold goesOn
      cbv
    refine ⟨_, ?_, look⟩
    simp [plainJobs, doneJobs, done]
  · obtain ⟨next, within, goesOn⟩ := goesOn_done (by simp) isDone
    refine ⟨next, fun successor isNext => ?_, goesOn⟩
    simp [plainJobs, within successor isNext]

/-- The first job of the relay without the open call has a step. -/
theorem plain_steps :
    (plain.firstJob pool).hasStep (Layout.new plain) (fun _ _ => true) = .ok true := by
  cbv

/-- The relay without the open call is verified without a fault. -/
theorem plain_verified : ∃ bound report run, verify Switch.settings plain pool (fun _ _ => []) bound
    ({} : RecordingView) KripkeStructure.empty = (.ok report, run) := by
  refine verify_eq_ok_of_closed ?_ rfl (by cbv) List.mem_cons_self plain_closed _
    KripkeStructure.wellFormed_empty
  exact fun _ _ => rfl

end Relay

/-- With no call open, the worker can always leave its state when the time is up. -/
theorem relay_exists_open_edge : ∃ (bound : Nat) (report : VerificationReport)
    (run : Run RecordingView KripkeStructure) (id : StateId) (state : KripkeState),
    verify Switch.settings Relay.plain Relay.pool (fun _ _ => []) bound ({} : RecordingView)
      KripkeStructure.empty = (.ok report, run) ∧
    run.store.states[id]? = some state ∧ (∃ edge ∈ state.edges, edge.takeSnapshot = false) ∧
    ∃ edge ∈ state.edges, edge.takeSnapshot = false ∧ edge.admits 6 = true := by
  obtain ⟨bound, report, run, verified⟩ := Relay.plain_verified
  obtain ⟨finished, all, explored⟩ := explored_of_verify verified
  have started : Relay.plain.firstJob Relay.pool ∈ all := by
    simpa [finished] using explored.started
  obtain ⟨node, next, steps, isStep, _⟩ := (Job.hasStep_eq_ok Relay.plain_steps).mp rfl
  obtain ⟨id, state, found, _, edge, isEdge, takes, _⟩ := explored.exists_edge started steps isStep
  have leaves : ∃ edge ∈ state.edges, edge.takeSnapshot = false := ⟨edge, isEdge, takes⟩
  exact ⟨bound, report, run, id, state, verified, found, leaves,
    exists_open_edge Relay.wellFormed Relay.callFree (by decide) (by decide) verified found leaves
      6⟩

end TimedKripke
