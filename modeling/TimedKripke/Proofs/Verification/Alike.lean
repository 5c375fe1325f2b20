import TimedKripke.Proofs.Schedule.Order
import TimedKripke.Proofs.Verification.Expansion
import TimedKripke.Proofs.Verification.Writing

/-! # Jobs that are alike

Two jobs are alike if they start from the same pool, with threads that differ only in their
counts of idle steps, after cycles that end at the same time (`Job.Alike`). Such jobs expand
to the same nodes (`Job.Alike.expand`), wherever in the exploration they come up.
-/

namespace TimedKripke

/-- The section of a pathway without counts. -/
def ScheduledPath.uncounted (scheduled : ScheduledPath) : ScheduledPath :=
  { scheduled with path := scheduled.path.uncounted }

/-- The variation in the making without counts. -/
def Unfolding.uncounted (unfolding : Unfolding) : Unfolding :=
  { unfolding with cycles := [], latest := unfolding.latest.map Timeslot.uncounted }

/-- The variation without counts. -/
def ScheduleVariation.uncounted (variation : ScheduleVariation) : ScheduleVariation :=
  { variation with
    threads := variation.threads.map ScheduleThread.uncounted
    lastSlot := variation.lastSlot.uncounted
    cycles := [] }

/-- The jobs are alike: they differ only in counts and in where they go on from. -/
structure Job.Alike (first second : Job) : Prop where
  pool : first.pool = second.pool
  /-- Their threads differ in counts only. -/
  threads : first.threads.map ScheduleThread.uncounted =
    second.threads.map ScheduleThread.uncounted
  /-- The cycles before them end at the same time. -/
  ended : first.predecessor.map (fun predecessor => predecessor.slot.endTime) =
    second.predecessor.map fun predecessor => predecessor.slot.endTime
  initial : first.initial = second.initial

theorem Job.Alike.refl (job : Job) : job.Alike job :=
  ⟨rfl, rfl, rfl, rfl⟩

theorem Job.Alike.symm {first second : Job} (alike : first.Alike second) : second.Alike first :=
  ⟨alike.pool.symm, alike.threads.symm, alike.ended.symm, alike.initial.symm⟩

theorem Job.Alike.trans {first second third : Job} (left : first.Alike second)
    (right : second.Alike third) : first.Alike third :=
  ⟨left.pool.trans right.pool, left.threads.trans right.threads, left.ended.trans right.ended,
    left.initial.trans right.initial⟩

/-- Variations that differ in counts only have the same nodes and end in the same pool. -/
theorem ScheduleVariation.eq_of_uncounted {first second : ScheduleVariation}
    (same : first.uncounted = second.uncounted) :
    first.nodes = second.nodes ∧ first.pool = second.pool := by
  simp only [uncounted, ScheduleVariation.mk.injEq] at same
  exact ⟨same.1, same.2.1⟩

/-- Jobs go on alike from variations that differ in counts only. -/
theorem ScheduleVariation.alike_of_uncounted {first second : ScheduleVariation}
    (same : first.uncounted = second.uncounted) (state state' : StateId) :
    (first.successor state).Alike (second.successor state') := by
  have pool := (eq_of_uncounted same).2
  have threads : first.threads.map ScheduleThread.uncounted =
      second.threads.map ScheduleThread.uncounted := congrArg ScheduleVariation.threads same
  have ended : first.lastSlot.uncounted.endTime = second.lastSlot.uncounted.endTime :=
    congrArg (fun variation => variation.lastSlot.endTime) same
  exact ⟨pool, threads, congrArg some ended, rfl⟩

/-- What is observed along a path does not depend on counts. -/
theorem SectionPath.observedAfter_uncounted (path : SectionPath) (index : Nat) :
    path.uncounted.observedAfter index = path.observedAfter index := by
  have later : ∀ (ran : List ExecutableId) (steps : List SectionStep) (pool : Pool),
      assignLater ran pool (steps.map SectionStep.uncounted) = assignLater ran pool steps := by
    intro ran steps
    induction steps with
    | nil => exact fun _ => rfl
    | cons step rest others =>
        intro pool
        rw [List.map_cons, assignLater, assignLater]
        have same : step.uncounted.executable = step.executable := rfl
        have given : step.uncounted.assignments = step.assignments := rfl
        simp only [same, given, others]
  unfold observedAfter uncounted
  simp only [List.getElem?_map]
  cases path.steps[index]? with
  | none => rfl
  | some step =>
      rw [Option.map_some, ← List.map_take, ← List.map_drop, List.map_map]
      exact later _ _ _

namespace Unfolding

variable {layout : Layout} {job job' : Job}

/-- The nodes of the steps of a section do not depend on counts. -/
theorem stepNodes_uncounted (shared : Pool) (layout : Layout) (scheduled : ScheduledPath)
    (base : Pool) (steps : List SectionStep) : ∀ (index : Nat) (time : Time),
    stepNodes shared layout scheduled.uncounted base index time (steps.map SectionStep.uncounted) =
      stepNodes shared layout scheduled base index time steps := by
  induction steps with
  | nil => exact fun _ _ => rfl
  | cons step rest others =>
      intro index time
      have observed : scheduled.uncounted.path.observedAfter index =
          scheduled.path.observedAfter index :=
        scheduled.path.observedAfter_uncounted index
      have empty : (rest.map SectionStep.uncounted).isEmpty = rest.isEmpty := by
        cases rest <;> rfl
      rw [List.map_cons, stepNodes, stepNodes, observed, empty]
      simp only [others]
      rfl

/-- Which of two timeslots is the later one does not depend on counts. -/
theorem laterSlot_uncounted (latest : Option Timeslot) (slot : Timeslot) :
    (laterSlot latest slot).uncounted =
      laterSlot (latest.map Timeslot.uncounted) slot.uncounted := by
  cases latest with
  | none => rfl
  | some latest =>
      have ends : ∀ slot : Timeslot, slot.uncounted.endTime = slot.endTime := fun _ => rfl
      simp only [laterSlot, Option.map_some, ends]
      split <;> rfl

/-- The latest timeslot of some steps does not depend on counts. -/
theorem latest_uncounted (steps : List SectionStep) : ∀ latest : Option Timeslot,
    (steps.foldl (fun latest step => some (laterSlot latest step.timeslot)) latest).map
        Timeslot.uncounted =
      (steps.map SectionStep.uncounted).foldl
        (fun latest step => some (laterSlot latest step.timeslot))
        (latest.map Timeslot.uncounted) := by
  induction steps with
  | nil => exact fun _ => rfl
  | cons step rest others =>
      intro latest
      rw [List.foldl_cons, others, List.map_cons, List.foldl_cons, Option.map_some,
        laterSlot_uncounted]
      rfl

/-- The schedule time since the cycle before depends on its end only, in which jobs that are alike
agree. -/
theorem snapshotTime_eq (alike : job.Alike job') (unfolding : Unfolding) (start readAt : Time) :
    unfolding.snapshotTime layout job start readAt =
      unfolding.snapshotTime layout job' start readAt := by
  have ended := alike.ended
  unfold snapshotTime
  cases unfolding.now with
  | some now => rfl
  | none =>
      cases before : job.predecessor with
      | none =>
          cases before' : job'.predecessor with
          | none => rfl
          | some predecessor => simp [before, before'] at ended
      | some predecessor =>
          cases before' : job'.predecessor with
          | none => simp [before, before'] at ended
          | some predecessor' =>
              have same : predecessor.slot.endTime = predecessor'.slot.endTime := by
                simpa [before, before'] using ended
              simp only [Timeslot.timeUntil, same]

/-- The node at which a section reads does not depend on counts. -/
theorem readNode_uncounted (alike : job.Alike job') (unfolding : Unfolding) (isFirst : Bool)
    (scheduled : ScheduledPath) (base : Pool) (readAt : Time) (root : Executable) :
    unfolding.readNode layout job isFirst scheduled base readAt root =
      unfolding.uncounted.readNode layout job' isFirst scheduled.uncounted base readAt root := by
  unfold readNode
  rw [alike.initial, snapshotTime_eq alike]
  rfl

/-- What is unfolded with one more section does not depend on counts. -/
theorem withSection_uncounted (unfolding : Unfolding) (scheduled : ScheduledPath) (base : Pool)
    (nodes : List Node) (last : Time) :
    (unfolding.withSection scheduled base nodes last).uncounted =
      (unfolding.uncounted.withSection scheduled.uncounted base nodes last).uncounted := by
  have latest := latest_uncounted scheduled.path.steps unfolding.latest
  have twice : ∀ slot : Option Timeslot,
      (slot.map Timeslot.uncounted).map Timeslot.uncounted = slot.map Timeslot.uncounted := by
    intro slot
    cases slot <;> rfl
  unfold withSection uncounted
  dsimp only
  rw [← twice, latest]
  rfl

/-- Laying out a section needs no counts, and none of where the job goes on from but the end of
the cycle before. -/
theorem addSection_uncounted (alike : job.Alike job') (unfolding : Unfolding)
    (scheduled : ScheduledPath × Nat) :
    (addSection layout job unfolding scheduled).map uncounted =
      (addSection layout job' unfolding.uncounted
        (scheduled.map ScheduledPath.uncounted id)).map uncounted := by
  have again : unfolding.uncounted.uncounted = unfolding.uncounted := by
    unfold uncounted
    rw [Option.map_map]
    rfl
  have head : (scheduled.map ScheduledPath.uncounted id).1.path.steps.head? =
      scheduled.1.path.steps.head?.map SectionStep.uncounted := List.head?_map ..
  have bases : unfolding.uncounted.bases[(scheduled.map ScheduledPath.uncounted id).1.thread]? =
      unfolding.bases[scheduled.1.thread]? := rfl
  cases first : scheduled.1.path.steps.head? with
  | none =>
      rw [addSection_eq_self (.inl first), addSection_eq_self (.inl (by rw [head, first]; rfl))]
      exact congrArg Except.ok again.symm
  | some step =>
      cases based : unfolding.bases[scheduled.1.thread]? with
      | none =>
          rw [addSection_eq_self (.inr based), addSection_eq_self (.inr (bases.trans based))]
          exact congrArg Except.ok again.symm
      | some base =>
          rw [first, Option.map_some] at head
          rw [addSection_eq first based, addSection_eq head (bases.trans based)]
          refine Outcome.map_bind_congr_right fun root => ?_
          have laid : stepNodes unfolding.uncounted.shared layout
              (scheduled.map ScheduledPath.uncounted id).1 base 0
              (unfolding.uncounted.readAt (scheduled.map ScheduledPath.uncounted id).1)
              (scheduled.map ScheduledPath.uncounted id).1.path.steps =
            stepNodes unfolding.shared layout scheduled.1 base 0 (unfolding.readAt scheduled.1)
              scheduled.1.path.steps := stepNodes_uncounted ..
          rw [laid]
          refine Outcome.map_bind_congr_right fun nodes => congrArg Except.ok ?_
          rw [withSection_uncounted, readNode_uncounted alike]
          rfl

/-- Sections that differ in counts only are added alike to unfoldings that do, for jobs that are
alike. -/
theorem addSection_congr (alike : job.Alike job') {unfolding unfolding' : Unfolding}
    (same : unfolding.uncounted = unfolding'.uncounted) {scheduled scheduled' : ScheduledPath × Nat}
    (sameSection : scheduled.map ScheduledPath.uncounted id =
      scheduled'.map ScheduledPath.uncounted id) :
    (addSection layout job unfolding scheduled).map uncounted =
      (addSection layout job' unfolding' scheduled').map uncounted := by
  rw [addSection_uncounted alike, same, sameSection, ← addSection_uncounted (.refl job')]

end Unfolding

/-- Scheduling pathways does not look at counts. -/
theorem ScheduledPath.ofPathways_uncounted (chosen : List Pathway) :
    (ofPathways chosen).map uncounted = ofPathways (chosen.map Pathway.uncounted) := by
  unfold ofPathways
  rw [List.zipIdx_map, List.flatMap_map, List.map_flatMap]
  refine List.flatMap_congr fun pathway _ => ?_
  have sections : (pathway.map Pathway.uncounted id).1.sections =
      pathway.1.sections.map SectionPath.uncounted := rfl
  rw [sections, List.zipIdx_map, List.map_map, List.map_map]
  refine List.map_congr_left fun path _ => ?_
  have head : (path.map SectionPath.uncounted id).1.steps.head? =
      path.1.steps.head?.map SectionStep.uncounted := List.head?_map ..
  simp only [Function.comp_apply, head]
  cases path.1.steps.head? <;> rfl

/-- Selecting by a reading commutes with changing the choices. -/
theorem Odometer.select_map {α β : Type} (change : α → β) (choices : List (Array α)) :
    ∀ reading : List Nat, select reading (choices.map (Array.map change)) =
      (select reading choices).map change := by
  induction choices with
  | nil =>
      intro reading
      cases reading <;> rfl
  | cons array choices others =>
      intro reading
      cases reading with
      | nil => rfl
      | cons position positions =>
          simp only [List.map_cons, select, Array.getElem?_map]
          cases array[position]? with
          | none => exact others positions
          | some choice =>
              dsimp only [Option.map_some]
              rw [others, List.map_cons]

namespace Job.Alike

variable {job job' : Job} {layout : Layout}

/-- Alike jobs run alike along pathways that differ in counts only. -/
theorem variation (alike : job.Alike job') {chosen chosen' : List Pathway}
    (same : chosen.map Pathway.uncounted = chosen'.map Pathway.uncounted) :
    (job.variation layout chosen).map ScheduleVariation.uncounted =
      (job'.variation layout chosen').map ScheduleVariation.uncounted := by
  have sections : ∀ chosen : List Pathway,
      (((ScheduledPath.ofPathways chosen).mergeSort ScheduledPath.startsBefore).zipIdx.map
          fun scheduled => scheduled.map ScheduledPath.uncounted id) =
        ((ScheduledPath.ofPathways (chosen.map Pathway.uncounted)).mergeSort
          ScheduledPath.startsBefore).zipIdx := by
    intro chosen
    have sorted : ((ScheduledPath.ofPathways chosen).mergeSort ScheduledPath.startsBefore).map
        ScheduledPath.uncounted = ((ScheduledPath.ofPathways chosen).map
          ScheduledPath.uncounted).mergeSort ScheduledPath.startsBefore :=
      List.map_mergeSort fun _ _ _ _ => rfl
    rw [← ScheduledPath.ofPathways_uncounted, ← sorted, List.zipIdx_map]
  have entries : ∀ first second : Pathway, first.uncounted = second.uncounted →
      first.entry = second.entry := by
    intro first second one
    simpa [Pathway.uncounted] using congrArg Pathway.entry one
  have bases : chosen.map Pathway.entry = chosen'.map Pathway.entry :=
    Outcome.map_congr_of_view entries same
  have threads : (chosen.map Pathway.thread).map ScheduleThread.uncounted =
      (chosen'.map Pathway.thread).map ScheduleThread.uncounted := by
    rw [List.map_map, List.map_map]
    refine Outcome.map_congr_of_view (fun first second one => ?_) same
    rw [Function.comp_apply, Function.comp_apply, Pathway.thread_uncounted, one,
      Pathway.thread_uncounted]
  have step : ∀ unfolding unfolding' scheduled scheduled',
      Unfolding.uncounted unfolding = Unfolding.uncounted unfolding' →
      Prod.map ScheduledPath.uncounted id scheduled =
        Prod.map ScheduledPath.uncounted id scheduled' →
      (Unfolding.addSection layout job unfolding scheduled).map Unfolding.uncounted =
        (Unfolding.addSection layout job' unfolding' scheduled').map Unfolding.uncounted :=
    fun _ _ _ _ same sameSection => Unfolding.addSection_congr alike same sameSection
  unfold Job.variation
  rw [alike.pool, bases]
  refine Outcome.map_bind_congr (Outcome.map_foldlM_congr step
    ((sections chosen).trans (same ▸ (sections chosen').symm)) rfl) ?_
  intro unfolded unfolded' sameEnd
  have latest : unfolded.latest.map Timeslot.uncounted = unfolded'.latest.map Timeslot.uncounted :=
    congrArg Unfolding.latest sameEnd
  have nodes : unfolded.nodes = unfolded'.nodes := by
    simpa [Unfolding.uncounted] using congrArg Unfolding.nodes sameEnd
  have shared : unfolded.shared = unfolded'.shared := by
    simpa [Unfolding.uncounted] using congrArg Unfolding.shared sameEnd
  cases last : unfolded.latest with
  | none =>
      cases last' : unfolded'.latest with
      | none => rfl
      | some slot => simp [last, last'] at latest
  | some slot =>
      cases last' : unfolded'.latest with
      | none => simp [last, last'] at latest
      | some slot' =>
          have sameSlot : slot.uncounted = slot'.uncounted := by simpa [last, last'] using latest
          refine congrArg Except.ok ?_
          simp only [ScheduleVariation.uncounted, nodes, shared, threads, sameSlot]

/-- Jobs that are alike have pathways that differ in counts only. -/
theorem pathways (alike : job.Alike job') :
    (job.pathways layout).map (List.map (List.map Pathway.uncounted)) =
      (job'.pathways layout).map (List.map (List.map Pathway.uncounted)) := by
  unfold Job.pathways
  rw [alike.pool]
  exact Outcome.map_mapM_congr
    (fun _ _ same => ScheduleThread.variations_uncounted same job'.pool layout.timing) alike.threads

/-- **Alike jobs expand alike**: to variations that differ in counts only, or with the same fault.
-/
theorem expand (alike : job.Alike job') (layout : Layout) :
    (job.expand layout).map (List.map ScheduleVariation.uncounted) =
      (job'.expand layout).map (List.map ScheduleVariation.uncounted) := by
  rw [expand_eq, expand_eq]
  refine Outcome.map_bind_congr alike.pathways fun found found' same => ?_
  have choices : (found.map List.toArray).map (Array.map Pathway.uncounted) =
      (found'.map List.toArray).map (Array.map Pathway.uncounted) := by
    rw [List.map_map, List.map_map]
    refine Outcome.map_congr_of_view (fun first second one => ?_) same
    simp only [Function.comp_apply, List.map_toArray, one]
  have sizes : found.map List.length = found'.map List.length := by
    refine Outcome.map_congr_of_view (fun first second one => ?_) same
    simpa using congrArg List.length one
  rw [sizes]
  refine Outcome.map_mapM_congr_right (fun reading => alike.variation ?_) _
  rw [← Odometer.select_map, ← Odometer.select_map, choices]

/-- A job that is alike to one that expands does so too, to variations that differ in counts
only. -/
theorem expand_eq_ok (alike : job.Alike job')
    {variations : List ScheduleVariation} (expanded : job'.expand layout = .ok variations) :
    ∃ own, job.expand layout = .ok own ∧ ∀ variation ∈ own, ∃ twin ∈ variations,
      variation.uncounted = twin.uncounted := by
  rcases Outcome.cases_of_map_eq (alike.expand layout) with
    ⟨fault, _, impossible⟩ | ⟨own, others, isOwn, isOthers, same⟩
  · cases expanded.symm.trans impossible
  · cases expanded.symm.trans isOthers
    refine ⟨own, isOwn, fun variation member => ?_⟩
    have inside : variation.uncounted ∈ variations.map ScheduleVariation.uncounted :=
      same ▸ List.mem_map_of_mem member
    obtain ⟨twin, isTwin, alikeTwin⟩ := List.mem_map.mp inside
    exact ⟨twin, isTwin, alikeTwin.symm⟩

end Job.Alike

end TimedKripke
