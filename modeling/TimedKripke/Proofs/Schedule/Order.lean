import TimedKripke.Proofs.Variation.Section

/-! # Threads in order

A cycle leaves every thread with new counts and with its sections and timeslots in the order
of their start (`ScheduleThread.ordered`). Later cycles find them in that order
(`ScheduleThread.ordered_ordered`), so from the second cycle on threads differ in counts only.
-/

namespace TimedKripke

/-- When a section starts does not depend on the counts of its timeslots. -/
theorem SnapshotSection.startingTime_uncounted (part : SnapshotSection) :
    part.uncounted.startingTime = part.startingTime := by
  unfold startingTime uncounted
  rw [List.head?_map]
  cases part.timeslots.head? <;> rfl

/-- A section made of timeslots without counts is the section made of them without its counts:
sorting does not look at counts. -/
theorem SnapshotSection.uncounted_new (slots : List Timeslot) :
    (new slots).uncounted = new (slots.map Timeslot.uncounted) := by
  unfold new uncounted
  exact congrArg SnapshotSection.mk (List.map_mergeSort fun _ _ _ _ => rfl)

/-- A thread made of sections without counts is the thread made of them without its counts. -/
theorem ScheduleThread.uncounted_new (sections : List SnapshotSection) :
    (new sections).uncounted = new (sections.map SnapshotSection.uncounted) := by
  unfold new uncounted
  refine congrArg ScheduleThread.mk (List.map_mergeSort fun part _ other _ => ?_)
  rw [part.startingTime_uncounted, other.startingTime_uncounted]

/-- A pathway without counts leaves its thread without counts. -/
theorem Pathway.thread_uncounted (pathway : Pathway) :
    pathway.thread.uncounted = pathway.uncounted.thread := by
  unfold thread uncounted
  rw [ScheduleThread.uncounted_new, List.map_map, List.map_map]
  refine congrArg ScheduleThread.new (List.map_congr_left fun path _ => ?_)
  rw [Function.comp_apply, SnapshotSection.uncounted_new, List.map_map, Function.comp_apply,
    SectionPath.uncounted, List.map_map]
  rfl

namespace ScheduleThread

/-- The thread with its sections and their timeslots in the order of their start. -/
def ordered (thread : ScheduleThread) : ScheduleThread :=
  new (thread.sections.map fun part => SnapshotSection.new part.timeslots)

/-- Putting a thread in order does not look at counts. -/
theorem ordered_uncounted (thread : ScheduleThread) :
    thread.uncounted.ordered = thread.ordered.uncounted := by
  rw [ordered, ordered, uncounted_new, uncounted, List.map_map, List.map_map]
  refine congrArg new (List.map_congr_left fun part _ => ?_)
  exact (SnapshotSection.uncounted_new part.timeslots).symm

end ScheduleThread

/-- The order in which timeslots start is transitive. -/
theorem Timeslot.startsBefore_trans (first second third : Timeslot)
    (left : first.startsBefore second = true) (right : second.startsBefore third = true) :
    first.startsBefore third = true := by
  unfold startsBefore at *
  simp only [Bool.or_eq_true, Bool.and_eq_true, decide_eq_true_eq, beq_iff_eq] at *
  rcases left with left | ⟨left, before⟩
  · rcases right with right | ⟨right, _⟩
    · exact .inl (UInt64.lt_trans left right)
    · exact .inl (right ▸ left)
  · rcases right with right | ⟨right, before'⟩
    · exact .inl (left ▸ right)
    · exact .inr ⟨left.trans right, Nat.le_trans before before'⟩

/-- The order in which timeslots start is total. -/
theorem Timeslot.startsBefore_total (first second : Timeslot) :
    (first.startsBefore second || second.startsBefore first) = true := by
  unfold startsBefore
  simp only [Bool.or_eq_true, Bool.and_eq_true, decide_eq_true_eq, beq_iff_eq]
  by_cases same : first.startingTime = second.startingTime
  · rcases Nat.le_total first.executable second.executable with before | after
    · exact .inl (.inr ⟨same, before⟩)
    · exact .inr (.inr ⟨same.symm, after⟩)
  · rcases UInt64.lt_or_lt_of_ne same with before | after
    · exact .inl (.inl before)
    · exact .inr (.inl after)

/-- Timeslots that are in order stay so, as sorting twice is sorting once. -/
theorem SnapshotSection.new_new (slots : List Timeslot) : new (new slots).timeslots = new slots :=
  congrArg SnapshotSection.mk (List.mergeSort_of_pairwise
    (List.pairwise_mergeSort Timeslot.startsBefore_trans Timeslot.startsBefore_total slots))

namespace ScheduleThread

/-- A new thread has its sections in the order of their start. -/
theorem pairwise_new (sections : List SnapshotSection) : (new sections).sections.Pairwise
    fun first second => decide (first.startingTime ≤ second.startingTime) = true := by
  refine List.pairwise_mergeSort ?_ ?_ _
  · intro first second third left right
    rw [decide_eq_true_eq] at *
    exact UInt64.le_trans left right
  · intro first second
    rw [Bool.or_eq_true, decide_eq_true_eq, decide_eq_true_eq]
    exact UInt64.le_total _ _

/-- **Threads that are in order stay so**, section by section. -/
theorem ordered_ordered (thread : ScheduleThread) : thread.ordered.ordered = thread.ordered := by
  have sections : (thread.ordered.sections.map fun part => SnapshotSection.new part.timeslots) =
      thread.ordered.sections := by
    refine (List.map_congr_left fun part member => ?_).trans (List.map_id _)
    rw [ordered, new] at member
    obtain ⟨original, _, rfl⟩ := List.mem_map.mp (List.mem_mergeSort.mp member)
    exact SnapshotSection.new_new original.timeslots
  rw [ordered, sections]
  exact congrArg ScheduleThread.mk (List.mergeSort_of_pairwise (pairwise_new _))

/-- The timeslots of a thread in order are those of the thread. -/
theorem mem_timeslots_ordered {thread : ScheduleThread} {slot : Timeslot} :
    slot ∈ thread.ordered.timeslots ↔ slot ∈ thread.timeslots := by
  simp [ordered, new, timeslots, SnapshotSection.new]

end ScheduleThread

namespace Pathway

/-- A pathway leaves its thread in order, with counts of its own. -/
theorem Runs.thread {origin : Pool} {thread : ScheduleThread} {pathway : Pathway}
    (runs : pathway.Runs origin thread.sections) :
    pathway.thread.uncounted = thread.ordered.uncounted := by
  have sections : ∀ {sections : List SnapshotSection} {paths : List SectionPath},
      List.Forall₂ (fun (part : SnapshotSection) (path : SectionPath) =>
        part.timeslots ≠ [] ∧ path.Runs origin part.timeslots) sections paths →
      (paths.map fun path =>
        (SnapshotSection.new (path.steps.map SectionStep.timeslot)).uncounted) =
        sections.map fun part => (SnapshotSection.new part.timeslots).uncounted := by
    intro sections paths related
    induction related with
    | nil => rfl
    | cons related _ others =>
        rw [List.map_cons, List.map_cons, others, SnapshotSection.uncounted_new,
          SnapshotSection.uncounted_new, List.map_map, ← related.2.slots]
        rfl
  unfold Pathway.thread ScheduleThread.ordered
  rw [ScheduleThread.uncounted_new, ScheduleThread.uncounted_new, List.map_map, List.map_map]
  exact congrArg ScheduleThread.new (sections runs.sections)

end Pathway

end TimedKripke
