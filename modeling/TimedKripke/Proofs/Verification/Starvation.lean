import TimedKripke.Proofs.Schedule.Validation
import TimedKripke.Proofs.Variation.IdleSteps
import TimedKripke.Proofs.Verification.Ledger
import TimedKripke.Proofs.Verification.Unfolding

/-! # Machines that do not get on

A verification notes a machine when the count of one of its timeslots passes the limit. Counts go
from a cycle to the next with the timeslots, so a count stands for as many steps in a row, of those
taken in its timeslot, in which the machine made no transition (`Job.Unrolls.idle`). Every finding
of a report is such a count (`findings_of_verify`). The steps are all that the machine has taken if
it has no other timeslot; a machine with several of them may have made transitions in the others.
-/

namespace TimedKripke

variable {ν σ : Type}

/-- The counts after all steps of a job, in all its variations. -/
def Job.counts (layout : Layout) (job : Job) : List (ExecutableId × Time) :=
  (job.variations layout).flatMap ScheduleVariation.cycles

/-- The counts of a job are those of its variations. -/
theorem Job.mem_counts {layout : Layout} {job : Job} {count : ExecutableId × Time}
    (member : count ∈ job.counts layout) : ∃ variations, job.expand layout = .ok variations ∧
      ∃ variation ∈ variations, count ∈ variation.cycles := by
  obtain ⟨variation, isVariation, isCount⟩ := List.mem_flatMap.mp member
  unfold Job.variations at isVariation
  split at isVariation
  · rename_i variations expanded
    exact ⟨variations, expanded, variation, isVariation, isCount⟩
  · cases isVariation

namespace Verify

/-- The findings that were noted of some counts. -/
structure Noted (limit : Time) (counts : List (ExecutableId × Time)) (findings : List Stuck) :
    Prop where
  once : (findings.map Stuck.executable).Nodup
  /-- Findings are counts above the limit. -/
  counted : ∀ finding ∈ findings,
    limit < finding.cycles ∧ (finding.executable, finding.cycles) ∈ counts
  /-- Every machine with a count above the limit is noted. -/
  complete : ∀ count ∈ counts, limit < count.2 → count.1 ∈ findings.map Stuck.executable

variable {limit : Time} {counts : List (ExecutableId × Time)} {findings : List Stuck}

theorem noted_nil (limit : Time) : Noted limit [] [] :=
  ⟨List.nodup_nil, by simp, by simp⟩

/-- Noting one more count keeps the findings those of the counts so far. -/
theorem Noted.noteStuck (noted : Noted limit counts findings) (count : ExecutableId × Time) :
    Noted limit (counts ++ [count]) (noteStuck limit findings count) := by
  have known : findings.any (fun finding => finding.executable == count.1) = true ↔
      count.1 ∈ findings.map Stuck.executable := by
    simp
  unfold Verify.noteStuck
  split
  · rename_i isNew
    rw [Bool.and_eq_true, decide_eq_true_eq, Bool.not_eq_true', ← Bool.not_eq_true, known] at isNew
    obtain ⟨above, unknown⟩ := isNew
    constructor
    · rw [List.map_append, List.map_singleton, ← List.concat_eq_append]
      exact noted.once.concat unknown
    · intro finding member
      rcases List.mem_append.mp member with member | member
      · exact (noted.counted finding member).imp_right (List.mem_append_left _)
      · rw [List.mem_singleton.mp member]
        exact ⟨above, List.mem_append_right _ (List.mem_singleton_self _)⟩
    · intro other member isAbove
      rw [List.map_append, List.mem_append]
      rcases List.mem_append.mp member with member | member
      · exact .inl (noted.complete other member isAbove)
      · rw [List.mem_singleton.mp member]
        exact .inr (List.mem_singleton_self _)
  · rename_i notNew
    rw [Bool.and_eq_true, decide_eq_true_eq, Bool.not_eq_true', ← Bool.not_eq_true, known,
      not_and_not_right] at notNew
    refine ⟨noted.once, ?_, ?_⟩
    · intro finding member
      exact (noted.counted finding member).imp_right (List.mem_append_left _)
    · intro other member isAbove
      rcases List.mem_append.mp member with member | member
      · exact noted.complete other member isAbove
      · rw [List.mem_singleton.mp member] at isAbove ⊢
        exact notNew isAbove

/-- Noting any number of counts keeps the findings those of the counts so far. -/
theorem Noted.foldl (more : List (ExecutableId × Time)) : ∀ {counts : List (ExecutableId × Time)}
    {findings : List Stuck}, Noted limit counts findings →
      Noted limit (counts ++ more) (more.foldl (Verify.noteStuck limit) findings) := by
  induction more with
  | nil =>
      intro counts findings noted
      rwa [List.append_nil]
  | cons count more others =>
      intro counts findings noted
      rw [List.append_cons]
      exact others (noted.noteStuck count)

section Run

variable [KripkeStore σ]

/-- Writing a variation notes the counts of its steps. -/
theorem liveness_applyVariation {predecessor : Option Predecessor} {applied result : Applied}
    {variation : ScheduleVariation} {run after : Run ν σ}
    (ran : applyVariation limit predecessor applied variation run = (.ok result, after)) :
    after.liveness = variation.cycles.foldl (noteStuck limit) run.liveness := by
  unfold applyVariation at ran
  obtain ⟨written, middle, writes, ran⟩ := bind_eq_ok ran
  obtain ⟨_, _, _, _, sameMiddle⟩ := writeNodes_accepts variation.nodes writes
  rw [modify_bind] at ran
  have kept : middle.liveness = run.liveness := by rw [sameMiddle]
  rw [← kept]
  cases ended : variation.nodes.getLast? with
  | none =>
      rw [ended] at ran
      cases ran
      rfl
  | some last =>
      cases reached : written.previous with
      | none =>
          rw [ended, reached] at ran
          cases ran
          rfl
      | some id =>
          rw [ended, reached] at ran
          dsimp only at ran
          rw [get_bind, modify_bind] at ran
          split at ran
          · cases ran
            rfl
          · cases ran
            rfl

/-- **Writing variations** notes their counts, in the order of the variations. -/
theorem liveness_applyVariations {predecessor : Option Predecessor}
    {variations : List ScheduleVariation} : ∀ {applied result : Applied} {run after : Run ν σ},
    variations.foldlM (applyVariation limit predecessor) applied run = (.ok result, after) →
      after.liveness =
        (variations.flatMap ScheduleVariation.cycles).foldl (noteStuck limit) run.liveness := by
  induction variations with
  | nil =>
      intro applied result run after ran
      cases ran
      rfl
  | cons variation variations others =>
      intro applied result run after ran
      rw [List.foldlM_cons] at ran
      obtain ⟨between, middle, here, later⟩ := bind_eq_ok ran
      rw [others later, liveness_applyVariation here, List.flatMap_cons, List.foldl_append]

variable [KripkeView ν]

/-- Writing a job notes the counts of all its variations, in order. -/
theorem liveness_applyJob {layout : Layout} {job : Job} {variations : List ScheduleVariation}
    {run after : Run ν σ} (expanded : job.expand layout = .ok variations)
    (ran : applyJob limit job variations run = (.ok (), after)) :
    after.liveness = (job.counts layout).foldl (noteStuck limit) run.liveness := by
  obtain ⟨applied, middle, shown, writes, _, commits, rfl⟩ := applyJob_parts ran
  obtain ⟨view, committed, count, same⟩ := OnlyShows.forM onlyShows_commit (completed job applied)
    middle
  rw [commits] at same
  change shown = _ at same
  subst same
  have noted := liveness_applyVariations writes
  rw [Job.counts, Job.variations, expanded]
  exact noted

end Run

end Verify

namespace Verify.Processes

variable [KripkeView ν] [KripkeStore σ] {layout : Layout} {limit : Time} {before after : Run ν σ}
  {queue jobs left : List Job}

/-- **Processing jobs** notes their counts, so that the findings are those of all counts so far. -/
theorem noted (processes : Processes layout limit before queue jobs after left) :
    ∀ {counts : List (ExecutableId × Time)}, Noted limit counts before.liveness →
      Noted limit (counts ++ jobs.flatMap (Job.counts layout)) after.liveness := by
  induction processes with
  | nil =>
      intro counts noted
      rwa [List.flatMap_nil, List.append_nil]
  | @cons before middle _ job _ jobs _ variations expanded applied _ others =>
      intro counts noted
      have here := noted.foldl (job.counts layout)
      rw [← liveness_applyJob expanded applied] at here
      rw [List.flatMap_cons, ← List.append_assoc]
      exact others here

end Verify.Processes

/-- The steps of a cycle, thread by thread: the steps of a thread come in the order in which they
are executed, and so do those of a machine, which is scheduled on one thread only. -/
def Pathway.cycle (chosen : List Pathway) : List SectionStep :=
  chosen.flatMap Pathway.steps

/-- The timeslots of all threads, with their counts. -/
def Job.timeslots (job : Job) : List Timeslot :=
  job.threads.flatMap ScheduleThread.timeslots

/-- Cycles of jobs that were processed, each of which goes on from the one before: `history` has the
pathways that were chosen, and the next cycle starts as the job. -/
inductive Job.Unrolls (layout : Layout) (jobs : List Job) (first : Job) :
    (history : List (List Pathway)) → Job → Prop
  | start : Unrolls layout jobs first [] first
  | cycle {history : List (List Pathway)} {job : Job} {chosen : List Pathway}
      {variation : ScheduleVariation} (earlier : Unrolls layout jobs first history job)
      (processed : job ∈ jobs) (follows : job.Follows layout chosen)
      (made : job.variation layout chosen = .ok variation) (state : StateId) :
      Unrolls layout jobs first (history ++ [chosen]) (variation.successor state)

/-- For every step in a timeslot of the given kind, whether it made a transition. -/
def transitions (keep : Timeslot → Bool) (history : List (List Pathway)) : List Bool :=
  ((history.flatMap Pathway.cycle).filter fun step => keep step.timeslot).map fun step =>
    step.ringlet.transitioned

/-- One more cycle adds the outcomes of its steps in timeslots of the given kind. -/
theorem transitions_append (keep : Timeslot → Bool) (history : List (List Pathway))
    (chosen : List Pathway) : transitions keep (history ++ [chosen]) = transitions keep history ++
      ((Pathway.cycle chosen).filter fun step => keep step.timeslot).map fun step =>
        step.ringlet.transitioned := by
  simp [transitions]

/-- A job that goes on stems from one of the variations. -/
theorem WrittenVariation.exists_of_mem_successors {written : List WrittenVariation} :
    ∀ {seen : List PropertyList} {job : Job}, job ∈ successors seen written →
      ∃ one ∈ written, ∃ state, job = one.variation.successor state := by
  induction written with
  | nil => exact fun impossible => absurd impossible List.not_mem_nil
  | cons one written others =>
      intro seen job member
      rw [successors] at member
      rcases List.mem_append.mp member with here | later
      · obtain ⟨last, _, goesOn⟩ := Option.bind_eq_some_iff.mp (Option.mem_toList.mp here)
        split at goesOn
        · cases goesOn
        · cases goesOn
          exact ⟨one, List.mem_cons_self, last.2, rfl⟩
      · obtain ⟨other, isOther, state, same⟩ := others later
        exact ⟨other, List.mem_cons_of_mem _ isOther, state, same⟩

/-- **Jobs are processed along chains of cycles**, if those in the queue are. -/
theorem Verify.Processes.unrolls [KripkeView ν] [KripkeStore σ] {layout : Layout} {limit : Time}
    {before after : Run ν σ} {queue jobs left all : List Job} {first : Job}
    (processes : Processes layout limit before queue jobs after left) :
    ∀ {seen : List PropertyList}, before.queue = [] → before.HasSeen seen →
      (∀ job ∈ jobs, job ∈ all) →
      (∀ job ∈ queue, ∃ history, Job.Unrolls layout all first history job) →
        ∀ job ∈ jobs, ∃ history, Job.Unrolls layout all first history job := by
  induction processes with
  | nil => exact fun _ _ _ _ _ impossible => absurd impossible List.not_mem_nil
  | @cons before middle _ job queue jobs _ variations expanded applied _ others =>
      intro seen empty visited within queued
      obtain ⟨written, isWritten, enters, _⟩ := applyJob_enters expanded visited applied
      obtain ⟨history, unrolls⟩ := queued job List.mem_cons_self
      have queuedLater : ∀ next ∈ queue ++ middle.queue,
          ∃ history, Job.Unrolls layout all first history next := by
        intro next member
        rcases List.mem_append.mp member with member | member
        · exact queued next (List.mem_cons_of_mem _ member)
        · -- What was queued goes on from a variation of the job at hand.
          rw [enters.queue, empty, List.nil_append] at member
          obtain ⟨one, isOne, state, rfl⟩ := WrittenVariation.exists_of_mem_successors member
          have isVariation : one.variation ∈ variations := isWritten ▸ List.mem_map_of_mem isOne
          obtain ⟨chosen, follows, made⟩ := Job.mem_expand expanded isVariation
          exact ⟨_, unrolls.cycle (within job List.mem_cons_self) follows made state⟩
      have later := others rfl enters.visited
        (fun next member => within next (List.mem_cons_of_mem _ member)) queuedLater
      intro next member
      rcases List.mem_cons.mp member with rfl | member
      · exact ⟨history, unrolls⟩
      · exact later next member

/-- A variation in the making of the chosen pathways. -/
structure Unfolding.Counted (chosen : List Pathway) (rest : List (ScheduledPath × Nat))
    (unfolding : Unfolding) : Prop where
  /-- The sections to come are those of the pathways. -/
  rest : ∀ scheduled ∈ rest, ∃ pathway ∈ chosen, scheduled.1.path ∈ pathway.sections
  /-- The counts are those after the steps. -/
  cycles : ∀ count ∈ unfolding.cycles, ∃ step ∈ Pathway.cycle chosen,
    count = (step.executable, step.timeslot.idleSteps)

/-- Adding a section adds the counts after its steps. -/
theorem Unfolding.Counted.addSection {chosen : List Pathway} {layout : Layout} {job : Job}
    {scheduled : ScheduledPath × Nat} {rest : List (ScheduledPath × Nat)}
    {unfolding next : Unfolding} (counted : Counted chosen (scheduled :: rest) unfolding)
    (added : unfolding.addSection layout job scheduled = .ok next) : Counted chosen rest next := by
  constructor
  · exact fun later member => counted.rest later (List.mem_cons_of_mem _ member)
  · rcases addSection_cases added with rfl | ⟨_, _, _, _, _, _, _, rfl⟩
    · exact counted.cycles
    · intro count member
      rcases List.mem_append.mp member with member | member
      · exact counted.cycles count member
      · obtain ⟨step, isStep, rfl⟩ := List.mem_map.mp member
        obtain ⟨pathway, isPathway, isPath⟩ := counted.rest scheduled List.mem_cons_self
        exact ⟨step, List.mem_flatMap.mpr ⟨pathway, isPathway,
          List.mem_flatMap.mpr ⟨_, isPath, isStep⟩⟩, rfl⟩

namespace Job

variable {layout : Layout} {job : Job} {chosen : List Pathway} {variation : ScheduleVariation}

/-- The steps of a cycle count on from the timeslots of the job. -/
theorem Follows.counts (follows : job.Follows layout chosen) :
    List.Forall₂ SectionStep.Counts job.timeslots (Pathway.cycle chosen) := by
  refine List.rel_flatMap follows ?_
  intro thread pathway ⟨pathways, varied, member⟩
  exact ScheduleThread.counts_of_variations varied pathway member

/-- A variation goes on with the threads of the chosen pathways. -/
theorem threads_of_variation (made : job.variation layout chosen = .ok variation) :
    variation.threads = chosen.map Pathway.thread := by
  unfold Job.variation at made
  obtain ⟨unfolded, _, made⟩ := Outcome.bind_eq_ok.mp made
  split at made
  · cases made
  · cases made
    rfl

/-- The counts of a variation are those after its steps. -/
theorem exists_step_of_count (made : job.variation layout chosen = .ok variation) :
    ∀ count ∈ variation.cycles, ∃ step ∈ Pathway.cycle chosen,
      count = (step.executable, step.timeslot.idleSteps) := by
  have scheduled : ∀ scheduled ∈
      ((ScheduledPath.ofPathways chosen).mergeSort ScheduledPath.startsBefore).zipIdx,
      ∃ pathway ∈ chosen, scheduled.1.path ∈ pathway.sections := by
    intro scheduled member
    obtain ⟨pathway, isPathway, isPath⟩ := ScheduledPath.mem_ofPathways
      (List.mem_mergeSort.mp (List.fst_mem_of_mem_zipIdx member))
    exact ⟨pathway, List.mem_of_getElem? isPathway, isPath⟩
  unfold Job.variation at made
  obtain ⟨unfolded, folded, made⟩ := Outcome.bind_eq_ok.mp made
  have counted := Outcome.foldlM_preserves Unfolding.Counted.addSection
    ⟨scheduled, fun _ impossible => absurd impossible List.not_mem_nil⟩ folded
  split at made
  · cases made
  · cases made
    exact counted.cycles

end Job

/-- A pathway leaves the timeslots of its steps, in order. -/
theorem Pathway.timeslots_thread_perm (pathway : Pathway) :
    pathway.thread.timeslots.Perm (pathway.steps.map SectionStep.timeslot) := by
  unfold Pathway.thread ScheduleThread.new ScheduleThread.timeslots Pathway.steps
  refine ((List.mergeSort_perm _ _).flatMap_right _).trans ?_
  rw [List.flatMap_map, List.map_flatMap]
  exact List.Perm.flatMap_left _ fun path _ => List.mergeSort_perm _ _

/-- The timeslots of the next job are those that the steps of the cycle have counted on. -/
theorem Job.timeslots_perm {layout : Layout} {job : Job} {chosen : List Pathway}
    {variation : ScheduleVariation} (made : job.variation layout chosen = .ok variation)
    (state : StateId) : (variation.successor state).timeslots.Perm
      ((Pathway.cycle chosen).map SectionStep.timeslot) := by
  have threads : (variation.successor state).threads = chosen.map Pathway.thread :=
    threads_of_variation made
  rw [timeslots, threads, Pathway.cycle, List.flatMap_map, List.map_flatMap]
  exact List.Perm.flatMap_left _ fun pathway _ => pathway.timeslots_thread_perm

/-- After a step, the count beyond `origin` is still one of steps in a row without a transition. -/
theorem SectionStep.Counts.suffix {slot : Timeslot} {step : SectionStep} (counts : Counts slot step)
    {origin : Nat} {earlier : List Bool}
    (idle : List.replicate (slot.idleSteps.toNat - origin) false <:+ earlier) :
    List.replicate (step.timeslot.idleSteps.toNat - origin) false <:+
      earlier ++ [step.ringlet.transitioned] := by
  have counted : step.timeslot.idleSteps = SectionBranch.idleCount slot step.ringlet :=
    congrArg Timeslot.idleSteps counts
  rw [counted, SectionBranch.idleCount]
  cases step.ringlet.transitioned with
  | true =>
      have none : UInt64.toNat 0 - origin = 0 := Nat.zero_sub origin
      rw [if_pos rfl, none]
      exact List.nil_suffix
  | false =>
      -- A count at its greatest value stays there while the steps go on, so this is no equation.
      have atMost : (Time.saturatingAdd slot.idleSteps 1).toNat - origin ≤
          slot.idleSteps.toNat - origin + 1 := by
        have one : UInt64.toNat 1 = 1 := rfl
        rw [Time.toNat_saturatingAdd, one]
        omega
      have shorter : List.replicate ((Time.saturatingAdd slot.idleSteps 1).toNat - origin) false <:+
          List.replicate (slot.idleSteps.toNat - origin + 1) false :=
        List.suffix_replicate_iff.mpr (by simpa using atMost)
      rw [if_neg Bool.false_ne_true]
      refine shorter.trans ?_
      rw [List.replicate_succ']
      exact List.suffix_append_self_iff.mpr idle

namespace Job.Unrolls

variable {layout : Layout} {jobs : List Job} {first job : Job} {history : List (List Pathway)}

/-- The timeslots of a job that is reached are those of the first job, apart from their counts. -/
theorem uncounted_perm (unrolls : Unrolls layout jobs first history job) :
    (job.timeslots.map Timeslot.uncounted).Perm (first.timeslots.map Timeslot.uncounted) := by
  induction unrolls with
  | start => exact .refl _
  | @cycle history job chosen variation _ _ follows made state earlier =>
      refine (((timeslots_perm made state).map Timeslot.uncounted).trans ?_).trans earlier
      have same : List.Forall₂ (· = ·) (job.timeslots.map Timeslot.uncounted)
          (((Pathway.cycle chosen).map SectionStep.timeslot).map Timeslot.uncounted) := by
        rw [List.map_map, List.forall₂_map_left_iff, List.forall₂_map_right_iff]
        refine follows.counts.imp ?_
        intro slot step counts
        exact (congrArg Timeslot.uncounted counts).symm
      rw [List.forall₂_eq_eq_eq] at same
      rw [same]

/-- The counts of a job are those of the timeslots that its cycles leave. -/
theorem exists_timeslot (earlier : Unrolls layout jobs first history job) (processed : job ∈ jobs)
    {count : ExecutableId × Time} (member : count ∈ job.counts layout) :
    ∃ history next, Unrolls layout jobs first history next ∧
      ∃ slot ∈ next.timeslots, count = (slot.executable, slot.idleSteps) := by
  obtain ⟨variations, expanded, variation, isVariation, isCount⟩ := mem_counts member
  obtain ⟨chosen, follows, made⟩ := mem_expand expanded isVariation
  obtain ⟨step, isStep, same⟩ := exists_step_of_count made _ isCount
  refine ⟨_, _, earlier.cycle processed follows made 0, step.timeslot, ?_, same⟩
  exact (timeslots_perm made 0).mem_iff.mpr (List.mem_map_of_mem isStep)

variable {keep : Timeslot → Bool}
  (uncounting : ∀ slot count, keep (slot.withIdleSteps count) = keep slot)
include uncounting

/-- Where there is one timeslot of a kind, there is one step of the kind in every cycle. -/
theorem exists_slot {origin : Timeslot} (alone : first.timeslots.filter keep = [origin])
    (unrolls : Unrolls layout jobs first history job) :
    ∃ slot, job.timeslots.filter keep = [slot] ∧
      List.replicate (slot.idleSteps.toNat - origin.idleSteps.toNat) false <:+
        transitions keep history := by
  induction unrolls with
  | start =>
      refine ⟨origin, alone, ?_⟩
      rw [Nat.sub_self]
      exact List.nil_suffix
  | @cycle history job chosen variation _ _ follows made state earlier =>
      obtain ⟨slot, isSlot, idle⟩ := earlier
      -- The cycle has one step of the kind, which counts on from the one timeslot of the kind.
      have kept : List.Forall₂ SectionStep.Counts (job.timeslots.filter keep)
          ((Pathway.cycle chosen).filter fun step => keep step.timeslot) := by
        refine List.rel_filter ?_ follows.counts
        intro slot step counts
        have same : keep step.timeslot = keep slot :=
          (congrArg keep counts).trans (uncounting slot _)
        simp only [same]
      rw [isSlot] at kept
      generalize taken : ((Pathway.cycle chosen).filter fun step => keep step.timeslot) = steps
        at kept
      cases kept with
      | @cons _ step _ _ counts none =>
          cases none
          refine ⟨step.timeslot, ?_, ?_⟩
          · have left := (timeslots_perm made state).filter keep
            rw [List.filter_map] at left
            have steps : (Pathway.cycle chosen).filter (keep ∘ SectionStep.timeslot) = [step] :=
              taken
            rw [steps] at left
            exact List.perm_singleton.mp left
          · rw [transitions_append, taken]
            exact counts.suffix idle

/-- **A count is one of steps in a row without a transition**, beyond what was counted at first. -/
theorem idle {origin : Timeslot} (alone : first.timeslots.filter keep = [origin])
    (unrolls : Unrolls layout jobs first history job) {slot : Timeslot}
    (member : slot ∈ job.timeslots) (isKept : keep slot = true) :
    List.replicate (slot.idleSteps.toNat - origin.idleSteps.toNat) false <:+
      transitions keep history := by
  obtain ⟨only, isOnly, suffix⟩ := unrolls.exists_slot uncounting alone
  have same : slot ∈ [only] := isOnly ▸ List.mem_filter.mpr ⟨member, isKept⟩
  rw [List.mem_singleton.mp same]
  exact suffix

end Job.Unrolls

namespace Schedule

variable {schedule : Schedule} {pool : Pool}

/-- No timeslot of a schedule that was validated is there twice. -/
theorem nodup_of_validate (validated : schedule.validate pool = .ok ()) :
    (schedule.timeslots.map Timeslot.uncounted).Nodup := by
  refine List.pairwise_map.mpr (List.pairwise_flatMap.mpr ⟨?_, ?_⟩)
  · intro thread member
    have valid := isValid_of_validate validated thread member
    rw [ScheduleThread.isValid, Bool.and_eq_true, decide_eq_true_eq] at valid
    refine valid.2.imp ?_
    intro first second apart same
    have starts := congrArg Timeslot.startingTime same
    change first.startingTime = second.startingTime at starts
    have overlap : first.overlaps second = true := by
      rw [Timeslot.overlaps, Bool.and_eq_true, decide_eq_true_eq, decide_eq_true_eq, starts]
      exact ⟨second.startingTime_le_endTime, starts ▸ first.startingTime_le_endTime⟩
    rw [overlap] at apart
    cases apart
  · refine (disjoint_of_validate validated).imp ?_
    intro thread thread' apart first isFirst second isSecond same
    have root := Timeslot.executable_eq_of_uncounted same
    exact apart first.executable (List.mem_map_of_mem isFirst)
      (root ▸ List.mem_map_of_mem isSecond)

/-- In a valid schedule no two timeslots are the same but for their counts. -/
theorem filter_uncounted (validated : schedule.validate pool = .ok ()) {slot : Timeslot}
    (member : slot ∈ schedule.timeslots) :
    schedule.timeslots.filter (fun other => other.uncounted == slot.uncounted) = [slot] := by
  have once := List.count_eq_one_of_mem (nodup_of_validate validated) (List.mem_map_of_mem member)
  rw [List.count, List.countP_map, List.countP_eq_length_filter] at once
  obtain ⟨only, isOnly⟩ := List.length_eq_one_iff.mp once
  have isSlot : slot ∈ [only] := by
    rw [← isOnly]
    exact List.mem_filter.mpr ⟨member, beq_self_eq_true _⟩
  rw [List.mem_singleton.mp isSlot] at isOnly ⊢
  exact isOnly

end Schedule

/-- **Every finding of a verification is a count of idle steps.** It is above the limit, and its
machine is found once. The count is that of a timeslot of the machine after cycles that were
explored one after the other: the last steps in the timeslot, as many as it has counted beyond what
the schedule starts with, made no transition. If the machine has no other timeslot and its count
starts with zero, these are the last steps of the machine. -/
theorem findings_of_verify [KripkeView ν] [KripkeStore σ] {settings : VerificationSettings}
    {schedule : Schedule} {pool : Pool} {raised : ν → Nat → List CancellationToken} {bound : Nat}
    {view : ν} {store : σ} {report : VerificationReport} {run : Run ν σ}
    (verified : verify settings schedule pool raised bound view store = (.ok report, run)) :
    ∃ (shown : ν) (jobs : List Job) (last : Run ν σ),
      Verify.Processes (Layout.new schedule) settings.starvationLimit { view := shown, store }
        [schedule.firstJob pool] jobs last [] ∧
      (report.liveness.map Stuck.executable).Nodup ∧
      ∀ finding ∈ report.liveness, settings.starvationLimit < finding.cycles ∧
        ∃ slot ∈ schedule.timeslots, slot.executable = finding.executable ∧
          ∃ history next, Job.Unrolls (Layout.new schedule) jobs (schedule.firstJob pool) history
              next ∧
            List.replicate (finding.cycles.toNat - slot.idleSteps.toNat) false <:+
              transitions (fun other => other.uncounted == slot.uncounted) history ∧
            (schedule.timeslots.filter (fun other => other.executable == finding.executable) =
                [slot] → slot.idleSteps = 0 →
              List.replicate finding.cycles.toNat false <:+
                transitions (fun other => other.executable == finding.executable) history) := by
  obtain ⟨validated, shown, jobs, last, _, processes, _, _, _, reported⟩ :=
    report_of_verify verified
  have noted := processes.noted (Verify.noted_nil settings.starvationLimit)
  rw [reported, List.nil_append] at noted
  have unrolled : ∀ job ∈ jobs, ∃ history,
      Job.Unrolls (Layout.new schedule) jobs (schedule.firstJob pool) history job := by
    refine processes.unrolls rfl (Run.hasSeen_nil shown store) (fun _ member => member) ?_
    intro job member
    rw [List.mem_singleton.mp member]
    exact ⟨[], .start⟩
  refine ⟨shown, jobs, last, processes, noted.once, ?_⟩
  intro finding member
  obtain ⟨above, isCount⟩ := noted.counted finding member
  refine ⟨above, ?_⟩
  obtain ⟨job, isJob, isCount⟩ := List.mem_flatMap.mp isCount
  obtain ⟨_, earlier⟩ := unrolled job isJob
  obtain ⟨history, next, unrolls, left, isLeft, same⟩ := earlier.exists_timeslot isJob isCount
  have root : finding.executable = left.executable := congrArg Prod.fst same
  have counted : finding.cycles = left.idleSteps := congrArg Prod.snd same
  -- Apart from its count, the timeslot is one of the schedule.
  obtain ⟨slot, isSlot, isUncounted⟩ := List.mem_map.mp
    (unrolls.uncounted_perm.mem_iff.mp (List.mem_map_of_mem isLeft))
  have sameRoot : slot.executable = finding.executable :=
    (Timeslot.executable_eq_of_uncounted isUncounted).trans root.symm
  refine ⟨slot, isSlot, sameRoot, history, next, unrolls, ?_, ?_⟩
  · rw [counted]
    refine unrolls.idle (fun _ _ => rfl) (Schedule.filter_uncounted validated isSlot) isLeft ?_
    exact beq_iff_eq.mpr isUncounted.symm
  · intro alone fresh
    have isKept : (left.executable == finding.executable) = true := beq_iff_eq.mpr root.symm
    have suffix := unrolls.idle (fun _ _ => rfl) alone isLeft isKept
    rw [← counted, fresh] at suffix
    exact suffix

/-- The settings of the switch with a limit of no idle step at all. -/
def Switch.impatient : VerificationSettings :=
  VerificationSettings.oneByOne { starvationLimit := 0 }

/-- The switch is noted when the button stays as it is, after as many cycles without a transition as
the finding says. -/
theorem switch_findings : ∃ (bound : Nat) (report : VerificationReport)
    (run : Run RecordingView KripkeStructure) (jobs : List Job) (finding : Stuck)
    (history : List (List Pathway)) (next : Job),
    verify Switch.impatient Switch.schedule Switch.pool (fun _ _ => []) bound
      ({} : RecordingView) KripkeStructure.empty = (.ok report, run) ∧
    finding ∈ report.liveness ∧ finding.executable = 0 ∧ 0 < finding.cycles ∧
    Job.Unrolls (Layout.new Switch.schedule) jobs (Switch.schedule.firstJob Switch.pool) history
      next ∧
    List.replicate finding.cycles.toNat false <:+
      transitions (fun slot => slot.executable == 0) history := by
  have quiet : ∀ (_ : RecordingView) (_ : Nat), Switch.impatient.isCancelled [] = false :=
    fun _ _ => rfl
  obtain ⟨bound, report, run, verified⟩ := verify_eq_ok_of_closed quiet rfl
    (show Switch.schedule.validate Switch.pool = .ok () by cbv) List.mem_cons_self Switch.closed {}
    KripkeStructure.wellFormed_empty
  obtain ⟨_, _, jobs, _, _, processes, _, _, _, reported⟩ := report_of_verify verified
  have noted := processes.noted (Verify.noted_nil 0)
  have isFirst : Switch.schedule.firstJob Switch.pool ∈ jobs := by
    cases processes with
    | cons => exact List.mem_cons_self
  have counts : (Switch.schedule.firstJob Switch.pool).counts (Layout.new Switch.schedule) =
      [(0, 1), (0, 0)] := by cbv
  have isNoted := noted.complete (0, 1) (List.mem_flatMap.mpr
    ⟨_, isFirst, counts ▸ List.mem_cons_self⟩) (by decide)
  rw [reported] at isNoted
  obtain ⟨finding, member, isSwitch⟩ := List.mem_map.mp isNoted
  obtain ⟨_, jobs, _, _, _, findings⟩ := findings_of_verify verified
  obtain ⟨above, slot, isSlot, _, history, next, unrolls, _, alone⟩ := findings finding member
  change finding.executable = 0 at isSwitch
  rw [List.mem_singleton.mp isSlot, isSwitch] at alone
  exact ⟨bound, report, run, jobs, finding, history, next, verified, member, isSwitch, above,
    unrolls, alone rfl rfl⟩

end TimedKripke
