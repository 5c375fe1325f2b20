import TimedKripke.Proofs.Verification.Serialization

/-! # What a variation shows

The nodes of a variation show the course of its cycle, beat by beat: a section shows what its
moves on the shared pool come to (`SectionPath.Plays.addSection`), and so does the whole variation.
The variations of a job whose threads are independent are the courses of its cycle
(`Job.course_of_variation`, `Job.variation_of_course`).
-/

namespace TimedKripke

/-- Executables of a descendant have the names of their machines in the origin. -/
theorem Pool.Descends.nameOf {origin pool : Pool} (descends : Descends origin pool)
    {id : ExecutableId} {executable : Executable} (found : pool.get? id = some executable) :
    Position.nameOf origin id = executable.name := by
  obtain ⟨known, isKnown, machine⟩ := descends.exists_known found
  simp only [Position.nameOf, isKnown, Option.map_some, Option.getD_some, Executable.name,
    Instance.name, machine]

/-- Timeslots that differ in counts only have the same executable. -/
theorem Timeslot.executable_eq_of_uncounted {first second : Timeslot}
    (same : first.uncounted = second.uncounted) : first.executable = second.executable := by
  have executables := congrArg Timeslot.executable same
  exact executables

/-- Timeslots that differ in counts only end at the same time. -/
theorem Timeslot.endTime_eq_of_uncounted {first second : Timeslot}
    (same : first.uncounted = second.uncounted) : first.endTime = second.endTime := by
  have ends := congrArg Timeslot.endTime same
  exact ends

/-- The steps that present an execution are of the executables of the timeslots. -/
theorem Presents.roots {base shared : Pool} {slots : List Timeslot} {steps : List SectionStep}
    {conditionals : List ConditionalRinglet}
    (presents : Presents base shared slots steps conditionals) :
    steps.map SectionStep.executable = Timeslot.roots slots := by
  induction presents with
  | nil => rfl
  | cons timeslot _ _ _ _ _ others =>
      rw [List.map_cons, others, Timeslot.roots_cons]
      exact congrArg (· :: _) (Timeslot.executable_eq_of_uncounted timeslot)

/-- The first step that presents an execution is in the first timeslot. -/
theorem Presents.exists_cons {base shared : Pool} {slot : Timeslot} {slots : List Timeslot}
    {steps : List SectionStep} {conditionals : List ConditionalRinglet}
    (presents : Presents base shared (slot :: slots) steps conditionals) :
    ∃ first rest, steps = first :: rest ∧ first.timeslot.uncounted = slot.uncounted := by
  cases presents with
  | cons timeslot => exact ⟨_, _, rfl, timeslot⟩

/-- The time at which a section reads is that of the position. -/
theorem Unfolding.readAt_eq (unfolding : Unfolding) {scheduled : ScheduledPath}
    {part : SnapshotSection} (start : scheduled.start = part.startingTime) :
    unfolding.readAt scheduled = Position.readAt unfolding.now part := by
  cases now : unfolding.now <;> simp only [Unfolding.readAt, Position.readAt, now, start]

/-- The schedule time up to a reading is that of the position. -/
theorem Unfolding.snapshotTime_readAt (unfolding : Unfolding) {layout : Layout} {job : Job}
    {part : SnapshotSection} : unfolding.snapshotTime layout job part.startingTime
      (Position.readAt unfolding.now part) =
        Position.snapshotTime layout job.predecessor unfolding.now part := by
  unfold Unfolding.snapshotTime Position.snapshotTime
  cases unfolding.now <;> cases job.predecessor <;> rfl

/-- The nodes of a section's steps show what the timeslots do on the shared pool. -/
theorem Unfolding.stepNodes_shows {origin base shared : Pool} {layout : Layout}
    {placed : Indexed SectionPath} (frame : Pool.Descends origin placed.item.snapshot)
    (distinct : (placed.item.steps.map SectionStep.executable).Nodup) {slots : List Timeslot}
    {steps : List SectionStep} {conditionals : List ConditionalRinglet}
    (presents : Presents base shared slots steps conditionals) : ∀ {earlier : List SectionStep}
      {time last : Time} {nodes : List Node}, placed.item.steps = earlier ++ steps →
      stepNodes shared layout (.ofIndexed placed) base earlier.length time steps =
        .ok (nodes, last) →
      List.Forall₂ (Node.Shows layout origin) nodes
          ((Position.ofSlots (layout.firstSlot placed.thread placed.part) earlier.length time
            slots).1.zip (conditionals.map .ofConditional)) ∧
        last = (Position.ofSlots (layout.firstSlot placed.thread placed.part) earlier.length time
          slots).2 := by
  induction presents with
  | nil =>
      intro earlier time last nodes _ laid
      cases laid
      exact ⟨.nil, rfl⟩
  | @cons slot slots step steps conditional conditionals timeslot condition transitioned
      executedState shows later others =>
      intro earlier time last nodes isPath laid
      rw [stepNodes] at laid
      obtain ⟨executable, isExecutable, laid⟩ := Outcome.bind_eq_ok.mp laid
      obtain ⟨observed, isObserved, laid⟩ := Outcome.bind_eq_ok.mp laid
      obtain ⟨⟨nodesLater, final⟩, laidLater, laid⟩ := Outcome.bind_eq_ok.mp laid
      cases laid
      have longer : (earlier ++ [step]).length = earlier.length + 1 := List.length_append
      -- Once a step has run, it is not shown again: the steps to come have other executables.
      have unrun : ∀ id ∈ Timeslot.roots slots,
          id ∉ (earlier ++ [step]).map SectionStep.executable := by
        intro id isLater isEarlier
        rw [isPath, List.append_cons, List.map_append, later.roots] at distinct
        exact (List.nodup_append.mp distinct).2.2 id isEarlier id isLater rfl
      obtain ⟨seen, assigned, isShown⟩ := shows _ unrun
      have sameObserved : observed = seen := by
        have place : placed.item.steps[earlier.length]? = some step := by simp [isPath]
        have run : placed.item.steps.take (earlier.length + 1) = earlier ++ [step] := by
          rw [isPath, List.append_cons, ← longer, List.take_left]
        have unrun : placed.item.steps.drop (earlier.length + 1) = steps := by
          rw [isPath, List.append_cons, ← longer, List.drop_left]
        have observes : placed.item.observedAfter earlier.length = .ok observed := isObserved
        rw [SectionPath.observedAfter, place] at observes
        dsimp only at observes
        rw [run, unrun, assigned] at observes
        exact (Except.ok.inj observes).symm
      have name := frame.nameOf (Pool.get_eq_ok_iff.mp isExecutable)
      have root : step.executable = slot.executable := Timeslot.executable_eq_of_uncounted timeslot
      have ends : step.timeslot.endTime = slot.endTime :=
        Timeslot.endTime_eq_of_uncounted timeslot
      have empty : steps.isEmpty = slots.isEmpty := by
        cases later <;> rfl
      rw [← longer, ends] at laidLater
      obtain ⟨showLater, isLast⟩ := others (isPath.trans (List.append_cons ..)) laidLater
      rw [longer] at showLater isLast
      subst sameObserved
      refine ⟨.cons ⟨?_, ?_⟩ showLater, isLast⟩
      · simp only [Position.properties, Move.ofConditional, isShown, ← name, root, executedState,
          empty]
        rfl
      · simp only [Position.incoming, Move.ofConditional, ← name, root, condition,
          transitioned, ends]

/-- Reading the environment leaves machines in their states. -/
theorem SnapshotSection.Executes.currentStateName {part : SnapshotSection} {timing : ScheduleTiming}
    {pool read result : Pool} {conditionals : List ConditionalRinglet}
    (executes : part.Executes timing pool read conditionals result) {id : ExecutableId}
    (isRoot : id ∈ Timeslot.roots part.timeslots) {before after : Executable}
    (found : pool.get? id = some before) (isRead : read.get? id = some after) :
    after.running.currentStateName = before.running.currentStateName := by
  obtain ⟨valuation, _, rfl, _⟩ := executes
  rw [Pool.get?_reads, if_pos isRoot, found] at isRead
  cases isRead
  rw [Executable.reads, Executable.running_withRunning]
  rfl

/-- What has been laid out of a variation, beside moves on the shared pool. -/
structure Unfolding.Shows (layout : Layout) (origin : Pool) (bases : List Pool) (shared : Pool)
    (now : Option Time) (nodes : List Node) (happened : List (Position × Move))
    (unfolding : Unfolding) : Prop where
  bases : unfolding.bases = bases
  shared : unfolding.shared = shared
  now : unfolding.now = now
  /-- The nodes that were added show the moves. -/
  nodes : ∃ added, unfolding.nodes = nodes ++ added ∧
    List.Forall₂ (Node.Shows layout origin) added happened

section Layout

variable {origin shared : Pool} {threads : List ScheduleThread} {bases : List Pool}
  {timing : ScheduleTiming} {layout : Layout} {job : Job} {unfolding next : Unfolding}
  {moves : List Move} {result : Pool}

/-- Laying out a section that plays moves adds nodes that show them. -/
theorem SectionPath.Plays.addSection {chains : List CallChain} {base : Pool}
    {placed : Indexed (SnapshotSection × SectionPath)}
    (plays : placed.item.2.Plays origin chains timing base unfolding.shared placed.item.1
      moves result)
    (alongside : Pool.Alongside origin chains base unfolding.shared)
    (apart : Timeslot.Apart origin placed.item.1.timeslots)
    (based : unfolding.bases[placed.thread]? = some base) {index : Nat}
    (added : Unfolding.addSection layout job unfolding
      (.ofIndexed (placed.map Prod.snd), index) = .ok next) :
    next.Shows layout origin (unfolding.bases.set placed.thread placed.item.2.after) result
      (some (Position.ofSection layout job.predecessor unfolding.now (placed.map Prod.fst)).2)
      unfolding.nodes
      ((Position.ofSection layout job.predecessor unfolding.now (placed.map Prod.fst)).1.zip
          moves) := by
  obtain ⟨_, slot, slots, root, read, conditionals, isPart, found, rfl, executes, presented⟩ :=
    plays
  obtain ⟨first, steps, isPath, timeslot⟩ := (isPart ▸ presented.steps).exists_cons
  have head : (ScheduledPath.ofIndexed (placed.map Prod.snd)).path.steps.head? = some first :=
    congrArg List.head? isPath
  have start : (ScheduledPath.ofIndexed (placed.map Prod.snd)).start = placed.item.1.startingTime :=
    placed.item.2.start_eq isPath isPart timeslot
  rw [Unfolding.addSection_eq head based, unfolding.readAt_eq start] at added
  obtain ⟨shown, isShown, added⟩ := Outcome.bind_eq_ok.mp added
  obtain ⟨⟨nodes, last⟩, stepped, added⟩ := Outcome.bind_eq_ok.mp added
  cases added
  have distinct : (placed.item.2.steps.map SectionStep.executable).Nodup :=
    presented.steps.roots ▸ apart.spared.nodup
  have frame : Pool.Descends origin (placed.map Prod.snd).item.snapshot := presented.frame
  obtain ⟨showSteps, isLast⟩ := Unfolding.stepNodes_shows frame distinct presented.steps
    (List.nil_append _).symm stepped
  have isRoot : slot.executable ∈ Timeslot.roots placed.item.1.timeslots := by
    rw [isPart]
    exact List.mem_cons_self
  rw [SectionStep.executable, Timeslot.executable_eq_of_uncounted timeslot] at isShown
  have isRead := (presented.shown _ isRoot).trans (Pool.get_eq_ok_iff.mp isShown)
  have name := presented.frame.nameOf (Pool.get_eq_ok_iff.mp isShown)
  have isFirst : ((placed.map Prod.fst).item.timeslots.head?.map Timeslot.executable).getD 0 =
      slot.executable := by
    rw [Indexed.map, isPart]
    rfl
  refine ⟨rfl, presented.carries.overlaid_eq alongside, congrArg some isLast, _, rfl,
    .cons ⟨?_, ?_⟩ showSteps⟩
  · have state := executes.currentStateName isRoot found isRead
    simp only [Position.properties, Unfolding.readNode, Move.ofReading, isFirst, ← state, ← name]
    exact congrArg (layout.properties · _ _) presented.snapshot
  · simp only [Position.incoming, Unfolding.readNode, Move.ofReading, start,
      unfolding.snapshotTime_readAt]
    rfl

/-- **Laying out sections shows their moves**, one section after the other. -/
theorem Serializes.addSections (independent : ScheduleThread.Independent origin threads)
    {placed : List (Indexed (SnapshotSection × SectionPath))}
    (serializes : Serializes origin threads timing bases shared placed moves result) :
    ∀ {unfolding last : Unfolding} {index : Nat}, Pool.Synced origin threads bases shared →
      ScheduleThread.Places threads (placed.map (Indexed.map Prod.fst)) →
      unfolding.bases = bases → unfolding.shared = shared →
      ((placed.map fun one => ScheduledPath.ofIndexed (one.map Prod.snd)).zipIdx index).foldlM
        (Unfolding.addSection layout job) unfolding = .ok last →
      last.shared = result ∧ ∃ added, last.nodes = unfolding.nodes ++ added ∧
        List.Forall₂ (Node.Shows layout origin) added
          ((Position.ofSections layout job.predecessor unfolding.now
            (placed.map (Indexed.map Prod.fst))).zip moves) := by
  induction serializes with
  | nil bases shared =>
      intro unfolding last index _ _ _ isShared folded
      cases folded
      exact ⟨isShared, [], (List.append_nil _).symm, .nil⟩
  | @cons bases base shared result final thread one rest moves more isThread based plays later
      others =>
      intro unfolding last index synced places isBases isShared folded
      subst isBases isShared
      rw [List.map_cons, List.zipIdx_cons, List.foldlM_cons] at folded
      obtain ⟨next, added, folded⟩ := Outcome.bind_eq_ok.mp folded
      obtain ⟨thread', isThread', isPart⟩ := places _ List.mem_cons_self
      cases isThread.symm.trans isThread'
      have apart := independent.apart thread (List.mem_of_getElem? isThread) _ isPart
      have shows := plays.addSection (synced.each isThread based) apart based added
      obtain ⟨isFinal, nodesLater, isNodes, showLater⟩ := others
        (synced.step independent isThread plays.carries)
        (fun next isNext => places next (List.mem_cons_of_mem _ isNext)) shows.bases shows.shared
        folded
      obtain ⟨nodes, areNodes, showHere⟩ := shows.nodes
      refine ⟨isFinal, nodes ++ nodesLater, ?_, ?_⟩
      · rw [isNodes, areNodes, List.append_assoc]
      · have sameLength : (Position.ofSection layout job.predecessor unfolding.now
            (one.map Prod.fst)).1.length = moves.length := by
          rw [plays.course.length_eq]
          have beats := Position.map_beat_ofSection layout job.predecessor unfolding.now
            (one.map Prod.fst)
          exact (List.length_map ..).symm.trans (congrArg List.length beats)
        rw [List.map_cons, Position.ofSections, List.zip_append sameLength]
        rw [shows.now] at showLater
        exact List.rel_append showHere showLater

end Layout

namespace Job

variable {job : Job} {layout : Layout} {origin : Pool} {chosen : List Pathway}

/-- The pathways that a job follows stroll through its threads. -/
theorem Follows.stroll (follows : job.Follows layout chosen) :
    Pathway.Stroll layout.timing job.pool job.threads chosen :=
  follows.imp fun _ _ ⟨_, varied, member⟩ => (ScheduleThread.mem_variations_iff varied).mp member

/-- Pathways that stroll through the threads of a job are a choice that it follows. -/
theorem follows_of_stroll {pathways : List (List Pathway)}
    (found : job.pathways layout = .ok pathways)
    (stroll : Pathway.Stroll layout.timing job.pool job.threads chosen) :
    job.Follows layout chosen := by
  have related := Outcome.mapM_eq_ok_iff.mp found
  clear found
  unfold Follows
  unfold Pathway.Stroll at stroll
  generalize job.threads = threads at related stroll
  induction related generalizing chosen with
  | nil =>
      cases stroll
      exact .nil
  | cons varied _ others =>
      cases stroll with
      | cons walked stroll =>
          exact .cons ⟨_, varied, (ScheduleThread.mem_variations_iff varied).mpr walked⟩
            (others stroll)

variable (descends : Pool.Descends origin job.pool)
  (independent : ScheduleThread.Independent origin job.threads)
include descends independent

/-- A variation shows the moves that its pathways play. -/
theorem shows_of_serializes {variation : ScheduleVariation} (follows : job.Follows layout chosen)
    (made : job.variation layout chosen = .ok variation) {moves : List Move} {final : Pool}
    (serializes : Serializes origin job.threads layout.timing (job.threads.map fun _ => job.pool)
      job.pool (Pathway.interleaved job.threads chosen) moves final) :
    variation.pool = final ∧ List.Forall₂ (Node.Shows layout origin) variation.nodes
      ((job.positions layout).zip moves) := by
  have stroll := follows.stroll
  unfold Job.variation at made
  rw [← stroll.map_snd_interleaved, stroll.map_entry] at made
  obtain ⟨unfolded, folded, made⟩ := Outcome.bind_eq_ok.mp made
  have places : ScheduleThread.Places job.threads
      ((Pathway.interleaved job.threads chosen).map (Indexed.map Prod.fst)) := by
    rw [stroll.map_fst_interleaved]
    exact fun _ => ScheduleThread.mem_interleaved
  obtain ⟨isFinal, nodes, isNodes, shows⟩ := serializes.addSections independent
    (.start descends job.threads) places rfl rfl folded
  rw [stroll.map_fst_interleaved] at shows
  cases last : unfolded.latest with
  | none =>
      rw [last] at made
      cases made
  | some slot =>
      rw [last] at made
      cases made
      rw [List.nil_append] at isNodes
      exact ⟨isFinal, isNodes ▸ shows⟩

variable {variations : List ScheduleVariation} (expanded : job.expand layout = .ok variations)
include expanded

/-- **Variations are courses**: the nodes of a variation show the moves of a course from the pool of
the job to the pool where it ends. -/
theorem course_of_variation {variation : ScheduleVariation} (member : variation ∈ variations) :
    ∃ moves, Course layout.timing (ScheduleThread.beats job.threads) job.pool moves variation.pool ∧
      List.Forall₂ (Node.Shows layout origin) variation.nodes
        ((job.positions layout).zip moves) := by
  obtain ⟨chosen, follows, made⟩ := mem_expand expanded member
  have stroll := follows.stroll
  have places : ScheduleThread.Places job.threads
      ((Pathway.interleaved job.threads chosen).map (Indexed.map Prod.fst)) := by
    rw [stroll.map_fst_interleaved]
    exact fun _ => ScheduleThread.mem_interleaved
  obtain ⟨moves, final, serializes⟩ := Serializes.exists_of_strolls independent
    (.start descends job.threads) places fun _ _ => stroll.strolls independent
  obtain ⟨rfl, shows⟩ := shows_of_serializes descends independent follows made serializes
  rw [← stroll.beats_eq]
  exact ⟨moves, serializes.course, shows⟩

/-- The threads of a job that can be expanded are abreast at its start. -/
theorem abreast : Pool.Abreast origin job.threads layout.timing
    (ScheduleThread.interleaved job.threads) (job.threads.map fun _ => job.pool) job.pool := by
  obtain ⟨pathways, found, _⟩ := expand_eq_ok expanded
  have each := Outcome.mapM_eq_ok_iff.mp found
  refine ⟨.start descends job.threads, fun _ => ScheduleThread.mem_interleaved, ?_⟩
  intro place base based
  rw [List.getElem?_map] at based
  obtain ⟨thread, isThread, rfl⟩ := Option.map_eq_some_iff.mp based
  obtain ⟨_, _, varied⟩ := Outcome.exists_right each (List.mem_of_getElem? isThread)
  rw [independent.itemsOf_interleaved, isThread]
  exact ScheduleThread.varies varied

/-- **Courses are variations**: the moves of every course through the beats of the job are shown by
the nodes of one. -/
theorem variation_of_course {moves : List Move} {final : Pool}
    (course : Course layout.timing (ScheduleThread.beats job.threads) job.pool moves final) :
    ∃ variation ∈ variations, variation.pool = final ∧
      List.Forall₂ (Node.Shows layout origin) variation.nodes
        ((job.positions layout).zip moves) := by
  obtain ⟨pathways, found, _⟩ := expand_eq_ok expanded
  obtain ⟨placed, isPlaced, serializes⟩ :=
    Serializes.of_course independent (abreast descends independent expanded) course
  have follows := follows_of_stroll found (serializes.stroll independent isPlaced)
  obtain ⟨variation, member, made⟩ := exists_of_follows expanded follows
  have inOrder := serializes.interleaved_ofPlaced independent isPlaced
  exact ⟨variation, member, shows_of_serializes descends independent follows made
    (inOrder.symm ▸ serializes)⟩

/-- A job that can be expanded starts with some section. Whatever this may read, some variation
starts by showing it. -/
theorem exists_first : ∃ one rest, ScheduleThread.interleaved job.threads = one :: rest ∧
    ∀ valuation, job.pool.Admits valuation (Timeslot.roots one.item.timeslots) →
      ∃ variation ∈ variations, ∃ node counter slot, variation.nodes.head? = some node ∧
        node.properties = layout.properties
          (job.pool.reads valuation (Timeslot.roots one.item.timeslots)) counter slot := by
  have abreast := abreast descends independent expanded
  obtain ⟨one, rest, isFirst⟩ : ∃ one rest, ScheduleThread.interleaved job.threads =
      one :: rest := by
    obtain ⟨moves, final, course⟩ := abreast.exists_course independent
    obtain ⟨variation, member, _, shows⟩ := variation_of_course descends independent expanded course
    obtain ⟨chosen, follows, made⟩ := mem_expand expanded member
    obtain ⟨node, isNode, _⟩ := (closes_of_variation descends follows made).started
    refine List.exists_cons_of_ne_nil fun none => ?_
    rw [positions, none, Position.ofSections, List.zip_nil_left,
      List.forall₂_nil_right_iff] at shows
    rw [shows] at isNode
    cases isNode
  refine ⟨one, rest, isFirst, fun valuation admits => ?_⟩
  rw [isFirst] at abreast
  obtain ⟨root, conditionals, more, final, course⟩ :=
    abreast.exists_course_of_admits independent admits
  rw [← isFirst, ← ScheduleThread.beats] at course
  obtain ⟨variation, member, _, shows⟩ := variation_of_course descends independent expanded course
  rw [positions, isFirst, Position.ofSections, Position.ofSection, List.cons_append,
    SnapshotSection.moves, List.cons_append, List.zip_cons_cons] at shows
  obtain ⟨node, nodes, here, _, isNodes⟩ := List.forall₂_cons_right_iff.mp shows
  exact ⟨variation, member, node, _, _, by rw [isNodes]; rfl, here.properties⟩

/-- A job that can be expanded goes through the beats of its threads. -/
theorem proceeds : Proceeds layout.timing (ScheduleThread.beats job.threads) job.pool :=
  (abreast descends independent expanded).proceeds independent

end Job

end TimedKripke
