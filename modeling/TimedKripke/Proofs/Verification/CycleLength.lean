import TimedKripke.Proofs.Schedule.Interleaving
import TimedKripke.Proofs.Verification.Aliasing
import TimedKripke.Proofs.Verification.CycleClosure

/-! # A cycle takes one cycle length

The nodes of a variation are due when their sections start and when their timeslots end; a node
whose time has passed when the node before it stands, stands together with it (`instants`). The
schedule times of the edges are the gaps between these instants, so from the first node to the last
they add up to the distance from the first start to the latest end, whatever overlaps. With the
edge from the cycle before, they add up to the length of a cycle (`cycle_takes_cycleLength`).
-/

namespace TimedKripke

/-- The later of two times is the greater one as a number. -/
theorem Time.toNat_max (first second : Time) :
    (max first second).toNat = max first.toNat second.toNat := by
  have choice : max first second = if first ≤ second then second else first := rfl
  rw [choice]
  split
  · next ordered => rw [Nat.max_eq_right (UInt64.le_iff_toNat_le.mp ordered)]
  · next unordered =>
      rw [UInt64.le_iff_toNat_le, Nat.not_le] at unordered
      rw [Nat.max_eq_left (Nat.le_of_lt unordered)]

theorem Time.max_zero (time : Time) : max time 0 = time := by
  rw [← UInt64.toNat_inj, toNat_max]
  exact Nat.max_zero _

theorem Time.le_max_right (first second : Time) : second ≤ max first second := by
  rw [UInt64.le_iff_toNat_le, toNat_max]
  exact Nat.le_max_right _ _

/-- The instants at which nodes stand that are due at given times, after one that stands at `now`:
each when it is due, or together with the one before it. -/
def instants (now : Time) : List Time → List Time
  | [] => []
  | due :: rest => max due now :: instants (max due now) rest

/-- The last of the instants, `now` if there is none. -/
def lastInstant (now : Time) (due : List Time) : Time :=
  due.foldl (fun now due => max due now) now

/-- The distances between an instant and those that follow it. -/
def gaps (earlier : Time) : List Time → List Time
  | [] => []
  | later :: rest => (later - earlier) :: gaps later rest

/-- No instant comes before the one that it follows. -/
theorem isChain_instants (due : List Time) : ∀ now : Time,
    (now :: instants now due).IsChain (· ≤ ·) := by
  induction due with
  | nil => exact fun now => .singleton now
  | cons time rest others =>
      intro now
      exact List.isChain_cons_cons.mpr ⟨Time.le_max_right time now, others (max time now)⟩

/-- The gaps of nodes due one after the other are those of the first part, and those of the second
from where the first ended. -/
theorem gaps_instants_append (first second : List Time) : ∀ now : Time,
    gaps now (instants now (first ++ second)) = gaps now (instants now first) ++
      gaps (lastInstant now first) (instants (lastInstant now first) second) := by
  induction first with
  | nil => exact fun _ => rfl
  | cons time rest others =>
      intro now
      exact congrArg ((max time now - now) :: ·) (others (max time now))

/-- **Gaps telescope**: added to the first instant, without any overflow, they give the last one. -/
theorem sum_gaps_instants (due : List Time) : ∀ now : Time,
    now.toNat + ((gaps now (instants now due)).map UInt64.toNat).sum =
      (lastInstant now due).toNat := by
  induction due with
  | nil => exact fun _ => rfl
  | cons time rest others =>
      intro now
      have later := others (max time now)
      have ordered := Time.le_max_right time now
      have gap := UInt64.toNat_sub_of_le _ _ ordered
      have before := UInt64.le_iff_toNat_le.mp ordered
      rw [instants, gaps, List.map_cons, List.sum_cons, gap]
      change _ = (lastInstant (max time now) rest).toNat
      omega

/-- The last instant is the latest of all times: it is within a bound exactly if the others are. -/
theorem toNat_lastInstant_le {due : List Time} : ∀ {now : Time} {bound : Nat},
    (lastInstant now due).toNat ≤ bound ↔ now.toNat ≤ bound ∧ ∀ time ∈ due, time.toNat ≤ bound := by
  induction due with
  | nil => simp [lastInstant]
  | cons time rest others =>
      intro now bound
      change (lastInstant (max time now) rest).toNat ≤ bound ↔ _
      rw [others, Time.toNat_max, Nat.max_le, List.forall_mem_cons]
      tauto

/-- The latest of some times is within a bound exactly if all of them are. -/
theorem toNat_latestOf_le {times : List Time} {bound : Nat} :
    (latestOf times).toNat ≤ bound ↔ ∀ time ∈ times, time.toNat ≤ bound := by
  have folded : ∀ (times : List Time) (now : Time), (times.foldl max now).toNat ≤ bound ↔
      now.toNat ≤ bound ∧ ∀ time ∈ times, time.toNat ≤ bound := by
    intro times
    induction times with
    | nil => simp
    | cons time rest others =>
        intro now
        rw [List.foldl_cons, others, Time.toNat_max, Nat.max_le, List.forall_mem_cons]
        tauto
  have zero : (0 : Time).toNat ≤ bound := Nat.zero_le bound
  rw [latestOf, folded]
  exact and_iff_right zero

/-- No timeslot ends before it starts. -/
theorem Timeslot.startingTime_le_endTime (slot : Timeslot) : slot.startingTime ≤ slot.endTime := by
  have bound := slot.startingTime.toNat_lt
  rw [UInt64.le_iff_toNat_le, endTime, Time.toNat_saturatingAdd]
  omega

/-- From the end of a cycle, a time of the next cycle is as far away as from its start. -/
theorem Timeslot.timeUntil_of_lt (slot : Timeslot) {time cycleLength : Time}
    (ends : slot.endTime = cycleLength) (early : time < cycleLength) :
    slot.timeUntil time cycleLength = time := by
  have bound := time.toNat_lt
  rw [timeUntil, ends, if_neg (UInt64.not_le.mpr early), ← UInt64.toNat_inj,
    Time.toNat_saturatingAdd, Time.toNat_saturatingSub]
  omega

namespace SnapshotSection

/-- The times at which the nodes of a section are due: when it starts and when its timeslots
end. -/
def due (part : SnapshotSection) : List Time :=
  part.startingTime :: part.timeslots.map Timeslot.endTime

/-- When the nodes of a section are due does not depend on counts. -/
theorem due_uncounted (part : SnapshotSection) : part.uncounted.due = part.due := by
  rw [due, due, startingTime_uncounted, uncounted, List.map_map]
  rfl

/-- The ends of its timeslots are the latest times at which nodes of a section are due. -/
theorem forall_due_iff {part : SnapshotSection} (someSlot : part.timeslots ≠ []) {bound : Nat} :
    (∀ time ∈ part.due, time.toNat ≤ bound) ↔
      ∀ slot ∈ part.timeslots, slot.endTime.toNat ≤ bound := by
  rw [due, List.forall_mem_cons, List.forall_mem_map]
  refine and_iff_right_of_imp fun ends => ?_
  obtain ⟨first, rest, isPart⟩ := List.exists_cons_of_ne_nil someSlot
  have starts := UInt64.le_iff_toNat_le.mp first.startingTime_le_endTime
  have within := ends first (isPart ▸ List.mem_cons_self)
  rw [startingTime, isPart]
  exact Nat.le_trans starts within

end SnapshotSection

namespace ScheduledPath

/-- The section whose timeslots a path has run. -/
def toSection (scheduled : ScheduledPath) : SnapshotSection :=
  { timeslots := scheduled.path.steps.map SectionStep.timeslot }

/-- The path starts with its section. -/
def Starts (scheduled : ScheduledPath) : Prop :=
  scheduled.start = scheduled.toSection.startingTime

end ScheduledPath

namespace Unfolding

/-- The steps of a section take the time between their instants. -/
theorem stepNodes_times {shared base : Pool} {layout : Layout} {scheduled : ScheduledPath}
    {steps : List SectionStep} : ∀ {index : Nat} {time last : Time} {nodes : List Node},
    stepNodes shared layout scheduled base index time steps = .ok (nodes, last) →
      nodes.map (fun node => node.incoming.time) =
          gaps time (instants time (steps.map fun step => step.timeslot.endTime)) ∧
        last = lastInstant time (steps.map fun step => step.timeslot.endTime) := by
  induction steps with
  | nil =>
      intro index time last nodes laid
      cases laid
      exact ⟨rfl, rfl⟩
  | cons step rest others =>
      intro index time last nodes laid
      rw [stepNodes] at laid
      obtain ⟨executable, _, laid⟩ := Outcome.bind_eq_ok.mp laid
      obtain ⟨observed, _, laid⟩ := Outcome.bind_eq_ok.mp laid
      obtain ⟨⟨later, final⟩, laidLater, laid⟩ := Outcome.bind_eq_ok.mp laid
      cases laid
      obtain ⟨times, isLast⟩ := others laidLater
      exact ⟨congrArg ((max step.timeslot.endTime time - time) :: ·) times, isLast⟩

variable {layout : Layout} {job : Job} {unfolding next : Unfolding} {scheduled : ScheduledPath}
  {position : Nat}

/-- **Laying out a section** adds a node where it reads the environment and nodes for its steps. -/
theorem addSection_times (isThread : scheduled.thread < unfolding.bases.length)
    (someStep : scheduled.path.steps ≠ [])
    (added : addSection layout job unfolding (scheduled, position) = .ok next) :
    ∃ read nodes, next.nodes = unfolding.nodes ++ read :: nodes ∧
      read.incoming.time = unfolding.snapshotTime layout job scheduled.start
        (unfolding.readAt scheduled) ∧
      nodes.map (fun node => node.incoming.time) = gaps (unfolding.readAt scheduled)
        (instants (unfolding.readAt scheduled)
          (scheduled.toSection.timeslots.map Timeslot.endTime)) ∧
      next.now = some (lastInstant (unfolding.readAt scheduled)
        (scheduled.toSection.timeslots.map Timeslot.endTime)) ∧
      next.bases.length = unfolding.bases.length := by
  obtain ⟨first, head⟩ : ∃ first, scheduled.path.steps.head? = some first :=
    ⟨_, List.head?_eq_some_head someStep⟩
  obtain ⟨base, based⟩ : ∃ base, unfolding.bases[scheduled.thread]? = some base :=
    ⟨_, List.getElem?_eq_getElem isThread⟩
  rw [addSection_eq head based] at added
  obtain ⟨root, _, added⟩ := Outcome.bind_eq_ok.mp added
  obtain ⟨⟨nodes, last⟩, stepped, added⟩ := Outcome.bind_eq_ok.mp added
  cases added
  obtain ⟨times, isLast⟩ := stepNodes_times stepped
  have ends : scheduled.toSection.timeslots.map Timeslot.endTime =
      scheduled.path.steps.map fun step => step.timeslot.endTime := List.map_map ..
  refine ⟨_, nodes, rfl, rfl, ?_, ?_, List.length_set⟩
  · rw [ends]
    exact times
  · rw [ends]
    exact congrArg some isLast

/-- **Laying out sections** after a node that stands at `now` takes the time between the instants
at which their nodes are due. -/
theorem addSections_times {sections : List ScheduledPath} : ∀ {unfolding final : Unfolding}
    {now : Time} {position : Nat}, (∀ scheduled ∈ sections, scheduled.Starts ∧
      scheduled.thread < unfolding.bases.length ∧ scheduled.path.steps ≠ []) →
    unfolding.now = some now →
    (sections.zipIdx position).foldlM (addSection layout job) unfolding = .ok final →
      ∃ nodes, final.nodes = unfolding.nodes ++ nodes ∧
        nodes.map (fun node => node.incoming.time) = gaps now (instants now
          (sections.flatMap fun scheduled => scheduled.toSection.due)) := by
  induction sections with
  | nil =>
      intro unfolding final now position _ _ folded
      cases folded
      exact ⟨[], (List.append_nil _).symm, rfl⟩
  | cons scheduled rest others =>
      intro unfolding final now position each isNow folded
      rw [List.zipIdx_cons, List.foldlM_cons] at folded
      obtain ⟨next, added, folded⟩ := Outcome.bind_eq_ok.mp folded
      obtain ⟨starts, isThread, someStep⟩ := each scheduled List.mem_cons_self
      obtain ⟨read, nodes, areNodes, readTime, times, isNext, bases⟩ :=
        addSection_times isThread someStep added
      obtain ⟨nodesLater, areLater, timesLater⟩ := others (fun later member => by
        obtain ⟨startsLater, isThreadLater, someStepLater⟩ :=
          each later (List.mem_cons_of_mem _ member)
        exact ⟨startsLater, bases ▸ isThreadLater, someStepLater⟩) isNext folded
      refine ⟨read :: nodes ++ nodesLater, ?_, ?_⟩
      · rw [areLater, areNodes, List.append_assoc]
      · have readAt : unfolding.readAt scheduled = max scheduled.toSection.startingTime now := by
          rw [Unfolding.readAt, isNow, ← starts]
        have waits : unfolding.snapshotTime layout job scheduled.start
            (unfolding.readAt scheduled) = unfolding.readAt scheduled - now := by
          rw [snapshotTime, isNow]
        rw [List.flatMap_cons, gaps_instants_append, List.map_append, List.map_cons, readTime,
          waits, times, timesLater, readAt]
        rfl

/-- The first section starts on time. Before it there is the rest of the cycle before. -/
theorem addSections_times_of_first {rest : List ScheduledPath} {final : Unfolding}
    (each : ∀ other ∈ scheduled :: rest, other.Starts ∧
      other.thread < unfolding.bases.length ∧ other.path.steps ≠ [])
    (isNow : unfolding.now = none)
    (folded : ((scheduled :: rest).zipIdx position).foldlM (addSection layout job) unfolding =
      .ok final) :
    ∃ read nodes, final.nodes = unfolding.nodes ++ read :: nodes ∧
      read.incoming.time = (job.predecessor.elim 0 fun predecessor =>
        predecessor.slot.timeUntil scheduled.toSection.startingTime layout.cycleLength) ∧
      nodes.map (fun node => node.incoming.time) = gaps scheduled.toSection.startingTime
        (instants scheduled.toSection.startingTime
          (scheduled.toSection.timeslots.map Timeslot.endTime ++
            rest.flatMap fun other => other.toSection.due)) := by
  rw [List.zipIdx_cons, List.foldlM_cons] at folded
  obtain ⟨next, added, folded⟩ := Outcome.bind_eq_ok.mp folded
  obtain ⟨starts, isThread, someStep⟩ := each scheduled List.mem_cons_self
  obtain ⟨read, nodes, areNodes, readTime, times, isNext, bases⟩ :=
    addSection_times isThread someStep added
  obtain ⟨nodesLater, areLater, timesLater⟩ := addSections_times (fun other member => by
    rw [bases]
    exact each other (List.mem_cons_of_mem _ member)) isNext folded
  have readAt : unfolding.readAt scheduled = scheduled.toSection.startingTime := by
    rw [Unfolding.readAt, isNow, ← starts]
  refine ⟨read, nodes ++ nodesLater, ?_, ?_, ?_⟩
  · rw [areLater, areNodes, List.append_assoc]
    rfl
  · rw [readTime, snapshotTime, isNow, ← starts]
    cases job.predecessor <;> rfl
  · rw [List.map_append, times, timesLater, gaps_instants_append, readAt]

end Unfolding

namespace ScheduleThread

/-- The instants at which the nodes of a cycle of some threads stand. -/
def instants (threads : List ScheduleThread) : List Time :=
  TimedKripke.instants 0 ((interleaved threads).flatMap fun placed => placed.item.due)

/-- The ends of the timeslots of threads. -/
def ends (threads : List ScheduleThread) : List Time :=
  threads.flatMap fun thread => thread.timeslots.map Timeslot.endTime

/-- Every section of a thread has a place among the interleaved ones. -/
theorem exists_interleaved {threads : List ScheduleThread} {thread : ScheduleThread}
    {part : SnapshotSection} (isThread : thread ∈ threads) (isPart : part ∈ thread.sections) :
    ∃ placed ∈ interleaved threads, placed.item = part := by
  obtain ⟨place, isThread⟩ := List.mem_iff_getElem?.mp isThread
  have items : part ∈ Indexed.itemsOf place (Indexed.all (threads.map sections)) := by
    rw [Indexed.itemsOf_all, List.getElem?_map, isThread]
    exact isPart
  obtain ⟨placed, inside, isItem⟩ := List.mem_map.mp items
  exact ⟨placed, List.mem_mergeSort.mpr (List.mem_of_mem_filter inside), isItem⟩

/-- The ends of the timeslots of interleaved sections are those of the threads. -/
theorem mem_ends_interleaved {threads : List ScheduleThread} {time : Time} :
    (∃ placed ∈ interleaved threads, ∃ slot ∈ placed.item.timeslots, slot.endTime = time) ↔
      time ∈ ends threads := by
  simp only [ends, timeslots, List.mem_flatMap, List.mem_map]
  constructor
  · rintro ⟨placed, isPlaced, slot, isSlot, rfl⟩
    obtain ⟨thread, isThread, isPart⟩ := mem_interleaved isPlaced
    exact ⟨thread, List.mem_of_getElem? isThread, slot, ⟨_, isPart, isSlot⟩, rfl⟩
  · rintro ⟨thread, isThread, slot, ⟨part, isPart, isSlot⟩, rfl⟩
    obtain ⟨placed, isPlaced, rfl⟩ := exists_interleaved isThread isPart
    exact ⟨placed, isPlaced, slot, isSlot, rfl⟩

/-- Putting threads in order changes none of the ends. -/
theorem mem_ends_ordered {threads : List ScheduleThread} {time : Time} :
    time ∈ ends (threads.map fun thread => thread.ordered.uncounted) ↔ time ∈ ends threads := by
  have uncounted : ends (threads.map fun thread => thread.ordered.uncounted) =
      ends (threads.map ordered) := by
    have both : threads.map (fun thread => thread.ordered.uncounted) =
        (threads.map ordered).map uncounted := by
      rw [List.map_map]
      rfl
    rw [both]
    exact ends_uncounted (threads.map ordered)
  rw [uncounted]
  simp only [ends, List.flatMap_map, List.mem_flatMap, List.mem_map, mem_timeslots_ordered]

end ScheduleThread

namespace Job

variable {job : Job} {layout : Layout} {chosen : List Pathway} {variation : ScheduleVariation}

/-- The pathways of a job are laid out as the sections of its threads are. -/
theorem Follows.sections_eq (follows : job.Follows layout chosen) :
    ((ScheduledPath.ofPathways chosen).mergeSort ScheduledPath.startsBefore).map
        (fun scheduled => scheduled.toSection.uncounted) =
      (ScheduleThread.interleaved job.threads).map fun placed => placed.item.uncounted := by
  let taken : SectionPath → SnapshotSection := fun path =>
    { timeslots := path.steps.map fun step => step.timeslot.uncounted }
  have starts : ∀ path : SectionPath, (taken path).startingTime = path.start := by
    intro path
    unfold SectionPath.start SnapshotSection.startingTime
    rw [List.head?_map]
    cases path.steps.head? <;> rfl
  have lists : (chosen.map Pathway.sections).map (List.map taken) =
      (job.threads.map ScheduleThread.sections).map (List.map SnapshotSection.uncounted) := by
    rw [List.map_map, List.map_map, eq_comm, ← List.forall₂_eq_eq_eq, List.forall₂_map_left_iff,
      List.forall₂_map_right_iff]
    refine follows.takes.imp fun thread pathway takes => ?_
    rw [Function.comp_apply, Function.comp_apply, ← List.forall₂_eq_eq_eq,
      List.forall₂_map_left_iff, List.forall₂_map_right_iff]
    exact takes.2.imp fun part path isTaken => congrArg SnapshotSection.mk isTaken.2.symm
  have left : ((Indexed.all (chosen.map Pathway.sections)).mergeSort
      (Indexed.startsBefore SectionPath.start)).map (Indexed.map taken) = _ :=
    Indexed.map_sorted fun path _ => starts path.item
  have right : ((Indexed.all (job.threads.map ScheduleThread.sections)).mergeSort
      (Indexed.startsBefore SnapshotSection.startingTime)).map
        (Indexed.map SnapshotSection.uncounted) = _ :=
    Indexed.map_sorted fun placed _ => placed.item.startingTime_uncounted
  rw [Indexed.map_all, lists, ← Indexed.map_all, ← right] at left
  have items := congrArg (List.map Indexed.item) left
  rw [List.map_map, List.map_map] at items
  rw [ScheduledPath.sorted_ofPathways, List.map_map]
  refine Eq.trans (List.map_congr_left fun placed _ => ?_) items
  exact congrArg SnapshotSection.mk (List.map_map ..)

/-- The sections of the chosen pathways can be laid out. -/
theorem Follows.laysOut (follows : job.Follows layout chosen) {scheduled : ScheduledPath}
    (member : scheduled ∈ (ScheduledPath.ofPathways chosen).mergeSort ScheduledPath.startsBefore) :
    scheduled.Starts ∧ scheduled.thread < (chosen.map Pathway.entry).length ∧
      scheduled.path.steps ≠ [] := by
  have inside := List.mem_mergeSort.mp member
  obtain ⟨isThread, someStep⟩ := follows.steps_ne_nil inside
  refine ⟨?_, by rwa [List.length_map], someStep⟩
  obtain ⟨⟨pathway, thread⟩, _, isPath⟩ := List.mem_flatMap.mp inside
  obtain ⟨⟨path, part⟩, _, rfl⟩ := List.mem_map.mp isPath
  rw [ScheduledPath.Starts, ScheduledPath.toSection, SnapshotSection.startingTime, List.head?_map]
  cases path.steps.head? <;> rfl

/-- The sections of a job that can be expanded have timeslots. -/
theorem Follows.timeslots_ne_nil (follows : job.Follows layout chosen)
    {placed : Indexed SnapshotSection} (member : placed ∈ ScheduleThread.interleaved job.threads) :
    placed.item.timeslots ≠ [] := by
  obtain ⟨thread, isThread, isPart⟩ := ScheduleThread.mem_interleaved member
  obtain ⟨pathway, _, _, takes⟩ :=
    Outcome.exists_right follows.takes (List.mem_of_getElem? isThread)
  obtain ⟨_, _, someSlot, _⟩ := Outcome.exists_right takes isPart
  exact someSlot

/-- **The times of a variation** are the schedule time up to its first reading, and then the gaps
between the instants at which its nodes are due. -/
theorem times_of_variation (follows : job.Follows layout chosen)
    (made : job.variation layout chosen = .ok variation) : ∃ first rest read nodes,
      ScheduleThread.interleaved job.threads = first :: rest ∧ variation.nodes = read :: nodes ∧
      read.incoming.time = (job.predecessor.elim 0 fun predecessor =>
        predecessor.slot.timeUntil first.item.startingTime layout.cycleLength) ∧
      nodes.map (fun node => node.incoming.time) = gaps first.item.startingTime
        (instants first.item.startingTime (first.item.timeslots.map Timeslot.endTime ++
          rest.flatMap fun placed => placed.item.due)) := by
  have layOut := @Follows.laysOut _ _ _ follows
  have same := follows.sections_eq
  unfold Job.variation at made
  obtain ⟨unfolded, folded, made⟩ := Outcome.bind_eq_ok.mp made
  generalize (ScheduledPath.ofPathways chosen).mergeSort ScheduledPath.startsBefore = sections
    at layOut same folded
  cases sections with
  | nil =>
      cases folded
      cases made
  | cons scheduled others =>
      cases sorted : ScheduleThread.interleaved job.threads with
      | nil =>
          rw [sorted] at same
          cases same
      | cons first rest =>
          rw [sorted] at same
          obtain ⟨here, later⟩ := List.cons.inj same
          obtain ⟨read, nodes, areNodes, readTime, times⟩ :=
            Unfolding.addSections_times_of_first (fun _ => layOut) rfl folded
          have due := congrArg SnapshotSection.due here
          have dueLater := congrArg (List.flatMap SnapshotSection.due) later
          simp only [List.flatMap_map, SnapshotSection.due_uncounted] at due dueLater
          obtain ⟨starts, ends⟩ := List.cons.inj due
          rw [starts] at readTime
          rw [starts, ends, dueLater] at times
          cases last : unfolded.latest with
          | none =>
              rw [last] at made
              cases made
          | some slot =>
              rw [last] at made
              cases made
              exact ⟨first, rest, read, nodes, rfl, areNodes, readTime, times⟩

/-- The last node of a cycle stands at the end of the latest timeslot. -/
theorem Follows.lastInstant_le (follows : job.Follows layout chosen) {bound : Nat} :
    (lastInstant 0 ((ScheduleThread.interleaved job.threads).flatMap fun placed =>
      placed.item.due)).toNat ≤ bound ↔
      ∀ time ∈ ScheduleThread.ends job.threads, time.toNat ≤ bound := by
  have zero : (0 : Time).toNat ≤ bound := Nat.zero_le bound
  rw [toNat_lastInstant_le, and_iff_right zero, List.forall_mem_flatMap]
  constructor
  · intro each time isEnd
    obtain ⟨placed, isPlaced, slot, isSlot, rfl⟩ := ScheduleThread.mem_ends_interleaved.mpr isEnd
    exact (SnapshotSection.forall_due_iff (follows.timeslots_ne_nil isPlaced)).mp
      (each placed isPlaced) slot isSlot
  · intro each placed isPlaced
    refine (SnapshotSection.forall_due_iff (follows.timeslots_ne_nil isPlaced)).mpr ?_
    exact fun slot isSlot => each _
      (ScheduleThread.mem_ends_interleaved.mp ⟨placed, isPlaced, slot, isSlot, rfl⟩)

/-- The timeslots of every job that is reached end when those of the schedule do. -/
theorem Reached.mem_ends {schedule : Schedule} {pool : Pool} (wellFormed : pool.WellFormed)
    (reached : Job.Reached layout (schedule.firstJob pool) job) {time : Time} :
    time ∈ ScheduleThread.ends job.threads ↔ time ∈ schedule.timeslots.map Timeslot.endTime := by
  have threads := (reached.kept wellFormed.descends).2
  rw [← ScheduleThread.mem_ends_ordered, threads, ScheduleThread.mem_ends_ordered,
    ScheduleThread.ends, Schedule.timeslots, List.map_flatMap]
  rfl

/-- A cycle lasts until the latest timeslot of the schedule ends. -/
theorem Reached.lastInstant_eq {schedule : Schedule} {pool : Pool} (wellFormed : pool.WellFormed)
    (reached : Job.Reached layout (schedule.firstJob pool) job)
    (follows : job.Follows layout chosen) :
    (lastInstant 0 ((ScheduleThread.interleaved job.threads).flatMap fun placed =>
      placed.item.due)).toNat = schedule.cycleLength.toNat := by
  have same : ∀ bound,
      (lastInstant 0 ((ScheduleThread.interleaved job.threads).flatMap fun placed =>
      placed.item.due)).toNat ≤ bound ↔ schedule.cycleLength.toNat ≤ bound := by
    intro bound
    rw [follows.lastInstant_le, Schedule.cycleLength, toNat_latestOf_le]
    exact forall_congr' fun time => by rw [reached.mem_ends wellFormed]
  exact Nat.le_antisymm ((same _).mpr (Nat.le_refl _)) ((same _).mp (Nat.le_refl _))

/-- The cycle before ended with a timeslot that ends last. -/
theorem Reached.endTime_predecessor {schedule : Schedule} {pool : Pool}
    (wellFormed : pool.WellFormed) (reached : Job.Reached layout (schedule.firstJob pool) job)
    {predecessor : Predecessor} (isLater : job.predecessor = some predecessor) :
    predecessor.slot.endTime = schedule.cycleLength := by
  have isReached := reached
  cases reached with
  | first => cases isLater
  | next reached expanded member state =>
      cases isLater
      obtain ⟨closes, _⟩ := reached.closes wellFormed.descends expanded member
      obtain ⟨isEnd, greatest⟩ := closes.latest.2 _ rfl
      refine UInt64.le_antisymm ?_ ?_
      · rw [UInt64.le_iff_toNat_le]
        exact toNat_latestOf_le.mp (Nat.le_refl _) _ ((isReached.mem_ends wellFormed).mp isEnd)
      · rw [UInt64.le_iff_toNat_le, Schedule.cycleLength, toNat_latestOf_le]
        intro time isTime
        exact UInt64.le_iff_toNat_le.mp
          (greatest time ((isReached.mem_ends wellFormed).mpr isTime))

end Job

/-- **A cycle takes one cycle length.** Along every variation of a job that a verification can
reach, the nodes stand at the instants of the job's threads, none before the other. The edges
between them take the time from the start of the first section to the end of the cycle; with the
edge from the cycle before, they take the length of a cycle. -/
theorem cycle_takes_cycleLength {schedule : Schedule} {pool : Pool} (wellFormed : pool.WellFormed)
    {job : Job} (reached : Job.Reached (Layout.new schedule) (schedule.firstJob pool) job)
    {variations : List ScheduleVariation}
    (expanded : job.expand (Layout.new schedule) = .ok variations)
    {variation : ScheduleVariation} (member : variation ∈ variations) :
    ∃ start later, (ScheduleThread.interleaved job.threads).head?.map
        (fun placed => placed.item.startingTime) = some start ∧
      ScheduleThread.instants job.threads = start :: later ∧
      (start :: later).IsChain (· ≤ ·) ∧
      variation.nodes.tail.map (fun node => node.incoming.time) = gaps start later ∧
      start.toNat + (variation.nodes.tail.map fun node => node.incoming.time.toNat).sum =
        schedule.cycleLength.toNat ∧
      (job.predecessor.isSome → start < schedule.cycleLength →
        (variation.nodes.map fun node => node.incoming.time.toNat).sum =
          schedule.cycleLength.toNat) := by
  obtain ⟨chosen, follows, made⟩ := Job.mem_expand expanded member
  obtain ⟨first, rest, read, nodes, sorted, areNodes, readTime, times⟩ :=
    Job.times_of_variation follows made
  have stands : ScheduleThread.instants job.threads = first.item.startingTime ::
      instants first.item.startingTime (first.item.timeslots.map Timeslot.endTime ++
        rest.flatMap fun placed => placed.item.due) := by
    rw [ScheduleThread.instants, sorted, List.flatMap_cons, SnapshotSection.due, List.cons_append,
      instants, Time.max_zero]
  have telescoped := sum_gaps_instants (first.item.timeslots.map Timeslot.endTime ++
    rest.flatMap fun placed => placed.item.due) first.item.startingTime
  have ends : (lastInstant first.item.startingTime (first.item.timeslots.map Timeslot.endTime ++
      rest.flatMap fun placed => placed.item.due)).toNat = schedule.cycleLength.toNat := by
    rw [← reached.lastInstant_eq wellFormed follows, sorted, List.flatMap_cons,
      SnapshotSection.due, List.cons_append, lastInstant, lastInstant, List.foldl_cons,
      Time.max_zero]
  rw [← times, List.map_map, ends] at telescoped
  have tail : variation.nodes.tail = nodes := by rw [areNodes, List.tail_cons]
  refine ⟨_, _, by rw [sorted]; rfl, stands, isChain_instants _ _, tail ▸ times,
    tail ▸ telescoped, ?_⟩
  intro isLater early
  obtain ⟨predecessor, isPredecessor⟩ := Option.isSome_iff_exists.mp isLater
  have before := reached.endTime_predecessor wellFormed isPredecessor
  have waits : read.incoming.time = first.item.startingTime := by
    rw [readTime, isPredecessor]
    exact predecessor.slot.timeUntil_of_lt before early
  rw [areNodes, List.map_cons, List.sum_cons, waits]
  exact telescoped

/-- The machines on threads of their own: the second runs while the first does. -/
def Duo.overlapping : Schedule :=
  { threads := [{ sections := [{ timeslots := [Timeslot.new 0 2 6] }] },
      { sections := [{ timeslots := [Timeslot.new 1 3 2] }] }] }

/-- The second cycle of the machines takes eight ticks. The first timeslot starts after two of them
and outlasts the second, which overlaps it. -/
theorem duo_takes_cycleLength : ∃ job variations variation,
    Job.Reached (Layout.new Duo.overlapping) (Duo.overlapping.firstJob Duo.pool) job ∧
    job.expand (Layout.new Duo.overlapping) = .ok variations ∧ variation ∈ variations ∧
    job.predecessor.isSome ∧ ScheduleThread.instants job.threads = [2, 8, 8, 8] ∧
    (variation.nodes.map fun node => node.incoming.time.toNat).sum = 8 := by
  have expands : ((do
      let variations ← (Duo.overlapping.firstJob Duo.pool).expand (Layout.new Duo.overlapping)
      variations.mapM fun variation => do
        let later ← (variation.successor 0).expand (Layout.new Duo.overlapping)
        return (later.length, ScheduleThread.instants variation.threads)) :
          Except Fault (List (Nat × List Time))) = .ok [(1, [2, 8, 8, 8])] := by cbv
  obtain ⟨firsts, expandedFirst, expands⟩ := Outcome.bind_eq_ok.mp expands
  obtain ⟨first, isFirst, expands⟩ :=
    Outcome.exists_left (Outcome.mapM_eq_ok_iff.mp expands) List.mem_cons_self
  obtain ⟨variations, expanded, isView⟩ := Outcome.bind_eq_ok.mp expands
  have stands : ScheduleThread.instants first.threads = [2, 8, 8, 8] :=
    congrArg Prod.snd (Except.ok.inj isView)
  obtain ⟨variation, member⟩ := Job.exists_variation expanded
  have reached : Job.Reached (Layout.new Duo.overlapping) (Duo.overlapping.firstJob Duo.pool)
      (first.successor 0) := .next .first expandedFirst isFirst 0
  obtain ⟨start, later, _, instants, _, _, _, sums⟩ :=
    cycle_takes_cycleLength Duo.wellFormed reached expanded member
  refine ⟨_, _, variation, reached, expanded, member, rfl, stands, ?_⟩
  have early : start = 2 := (List.cons.inj (instants.symm.trans stands)).1
  exact sums rfl (early ▸ by decide)

end TimedKripke
