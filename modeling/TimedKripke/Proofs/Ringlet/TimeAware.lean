import TimedKripke.Proofs.Outcome
import TimedKripke.Proofs.Ringlet.Dispatch
import TimedKripke.Ringlet.TimeAware

/-! # Ringlets are executions

Every conditional ringlet of a timeslot is an execution of the timeslot at the time at
which it was sampled (`Ringlet.mem_timeAware`).
-/

namespace TimedKripke

namespace Ringlet

/-- A ringlet that succeeds records the execution of its timeslot: the pools before and after it,
the calls, and the externals of its executable. -/
theorem execute_eq_ok {pool : Pool} {slot : Timeslot} {timing : ScheduleTiming} {elapsed : Time}
    {ringlet : Ringlet} (executed : execute pool slot timing elapsed = .ok ringlet) :
    ∃ executable execution final after, pool.get? slot.executable = some executable ∧
      executeTimeslot pool slot (Clock.new timing elapsed) = (.ok execution, final) ∧
      final.pool.get? slot.executable = some after ∧
      ringlet =
        { timeslot := slot
          before := pool
          after := final.pool
          transitioned := execution.transitioned
          externalsBefore := externalValues executable.running.observedInputs
          externalsAfter := externalValues after.running.outputs
          snapshotBefore := executable.snapshot
          snapshotAfter := after.snapshot
          calls := execution.calls
          executedState := executable.running.currentStateName
          elapsed
          queried := final.clock.queried } := by
  unfold execute at executed
  split at executed
  · cases executed
  · rename_i executable found
    split at executed
    · cases executed
    · rename_i execution final ran
      split at executed
      · cases executed
      · rename_i after foundAfter
        cases executed
        exact ⟨executable, execution, final, after, Pool.get_eq_ok_iff.mp found, ran,
          Pool.get_eq_ok_iff.mp foundAfter, rfl⟩

/-- A ringlet that succeeds leaves a descendant of the pool. -/
theorem execute_descends {origin pool : Pool} (descends : Pool.Descends origin pool)
    {slot : Timeslot} {timing : ScheduleTiming} {elapsed : Time} {ringlet : Ringlet}
    (executed : execute pool slot timing elapsed = .ok ringlet) :
    Pool.Descends origin ringlet.after := by
  obtain ⟨executable, execution, final, after, _, ran, _, rfl⟩ := execute_eq_ok executed
  have kept := executeTimeslot_descends descends slot (Clock.new timing elapsed)
  rwa [ran] at kept

variable {execute execute' : Time → Except Fault Ringlet}

/-- The threshold that is found is not before the start. -/
theorem start_le_of_found {start threshold : Time} {asked : List Time}
    (found : asked.find? (fun threshold => decide (start ≤ threshold)) = some threshold) :
    start ≤ threshold := by
  simpa using List.find?_some found

/-- A threshold below the latest time has a successor. -/
theorem lt_add_one_of_ne_latest {threshold : Time} (below : threshold ≠ Time.latest) :
    threshold < threshold + 1 := by
  rw [UInt64.lt_iff_toNat_lt, toNat_add_one_of_ne_latest below]
  exact Nat.lt_succ_self _

/-- One round of taking samples finds the first threshold from the start on, executes just past it,
and goes on with the thresholds that were asked about there. -/
theorem samplesFrom_eq (execute : Time → Except Fault Ringlet) (start : Time) (asked : List Time) :
    samplesFrom execute start asked =
      match asked.find? fun threshold => decide (start ≤ threshold) with
      | none => .ok []
      | some threshold =>
          if threshold = Time.latest then .ok []
          else execute (threshold + 1) >>= fun ringlet =>
            (samplesFrom execute (threshold + 1) (OrderedSet.union asked ringlet.queried)).map
              ((.past threshold, ringlet) :: ·) := by
  rw [samplesFrom]
  split
  · rename_i none
    rw [none]
  · rename_i threshold found
    by_cases last : threshold = Time.latest
    · rw [dif_pos last]
      simp only [found, if_pos last]
    · rw [dif_neg last]
      simp only [found, if_neg last]
      cases execute (threshold + 1) <;> rfl

/-- A round of taking samples that finds a threshold below the latest time puts its sample before
those of the later rounds. -/
theorem samplesFrom_of_found {start threshold : Time} {asked : List Time} {ringlet : Ringlet}
    {more : List (SamplePoint × Ringlet)}
    (found : asked.find? (fun threshold => decide (start ≤ threshold)) = some threshold)
    (below : threshold ≠ Time.latest) (executed : execute (threshold + 1) = .ok ringlet)
    (later : samplesFrom execute (threshold + 1) (OrderedSet.union asked ringlet.queried) =
      .ok more) :
    samplesFrom execute start asked = .ok ((.past threshold, ringlet) :: more) := by
  rw [samplesFrom_eq, found]
  simp only [if_neg below, executed]
  exact Outcome.map_eq_ok.mpr ⟨more, later, rfl⟩

/-- Samples after the first are taken just past thresholds. -/
theorem mem_samplesFrom {start : Time} {asked : List Time} :
    ∀ {samples : List (SamplePoint × Ringlet)}, samplesFrom execute start asked = .ok samples →
      ∀ sample ∈ samples, ∃ threshold, sample.1 = .past threshold ∧ start ≤ threshold ∧
        threshold ≠ Time.latest ∧ execute (threshold + 1) = .ok sample.2 := by
  fun_induction samplesFrom execute start asked with
  | case1 start asked none =>
      rintro samples ⟨⟩ sample impossible
      cases impossible
  | case2 start asked found =>
      rintro samples ⟨⟩ sample impossible
      cases impossible
  | case3 start asked threshold found last _ fault failed =>
      rintro samples ⟨⟩
  | case4 start asked threshold found last _ ringlet executed others =>
      intro samples sampled sample member
      obtain ⟨more, later, rfl⟩ := Outcome.map_eq_ok.mp sampled
      have reached := start_le_of_found found
      rcases List.mem_cons.mp member with rfl | member
      · exact ⟨threshold, rfl, reached, last, executed⟩
      · obtain ⟨next, point, beyond, below, isNext⟩ := others later sample member
        have passed := UInt64.le_of_lt (lt_add_one_of_ne_latest last)
        exact ⟨next, point, UInt64.le_trans reached (UInt64.le_trans passed beyond), below, isNext⟩

/-- Sampling executes at the start and then past every threshold that was asked about. -/
theorem samples_eq (execute : Time → Except Fault Ringlet) (start : Time) :
    samples execute start = execute start >>= fun ringlet =>
      (samplesFrom execute start ringlet.queried).map ((.start start, ringlet) :: ·) := by
  unfold samples
  cases execute start <;> rfl

/-- Samples that were taken begin with that of the start. -/
theorem samples_eq_ok {start : Time} {taken : List (SamplePoint × Ringlet)}
    (sampled : samples execute start = .ok taken) :
    ∃ ringlet more, execute start = .ok ringlet ∧
      samplesFrom execute start ringlet.queried = .ok more ∧
        taken = (.start start, ringlet) :: more := by
  obtain ⟨ringlet, executed, rest⟩ :=
    Outcome.bind_eq_ok.mp ((samples_eq execute start).symm.trans sampled)
  obtain ⟨more, later, rfl⟩ := Outcome.map_eq_ok.mp rest
  exact ⟨ringlet, more, executed, later, rfl⟩

/-- Every conditional ringlet stems from a sample. -/
theorem mem_conditions {taken : List (SamplePoint × Ringlet)} {conditional : ConditionalRinglet}
    (member : conditional ∈ conditions taken) :
    (conditional.point, conditional.ringlet) ∈ taken := by
  induction taken with
  | nil => cases member
  | cons sample rest others =>
      rcases List.mem_cons.mp member with rfl | member
      · exact List.mem_cons_self
      · exact List.mem_cons_of_mem _ (others member)

/-- The condition of a ringlet is the interval of its sample point, up to the next one if there is
one. -/
theorem exists_interval {taken : List (SamplePoint × Ringlet)} {conditional : ConditionalRinglet}
    (member : conditional ∈ conditions taken) :
    ∃ upper, conditional.condition = conditional.point.interval upper := by
  induction taken with
  | nil => cases member
  | cons sample rest others =>
      rcases List.mem_cons.mp member with rfl | member
      · exact ⟨_, rfl⟩
      · exact others member

/-- **Conditional ringlets are executions**: each of them was executed at some time. -/
theorem mem_timeAware {pool : Pool} {slot : Timeslot} {timing : ScheduleTiming} {start : Time}
    {ringlets : List ConditionalRinglet}
    (sampled : timeAware pool slot timing start = .ok ringlets) {conditional : ConditionalRinglet}
    (member : conditional ∈ ringlets) :
    ∃ time, Ringlet.execute pool slot timing time = .ok conditional.ringlet := by
  obtain ⟨taken, isTaken, rfl⟩ := Outcome.map_eq_ok.mp sampled
  obtain ⟨first, more, executed, later, rfl⟩ := samples_eq_ok isTaken
  rcases List.mem_cons.mp (mem_conditions member) with same | inside
  · exact ⟨start, executed.trans (congrArg (fun sample => Except.ok sample.2) same.symm)⟩
  · obtain ⟨threshold, _, _, _, isRinglet⟩ := mem_samplesFrom later _ inside
    exact ⟨threshold + 1, isRinglet⟩

end Ringlet

/-- An interval is not a disjunction, so it counts as a single alternative. -/
theorem SamplePoint.disjuncts_interval (point : SamplePoint) (upper : Option Time) :
    (point.interval upper).disjuncts = [point.interval upper] := by
  cases point with
  | start time =>
      by_cases zero : time = 0
      · cases upper <;> simp [interval, lower?, zero, Constraint.disjuncts]
      · cases upper <;> simp [interval, lower?, zero, Constraint.disjuncts]
  | past threshold => cases upper <;> rfl

/-- The conditions of ringlets are not disjunctions. -/
theorem Ringlet.disjuncts_timeAware {pool : Pool} {slot : Timeslot} {timing : ScheduleTiming}
    {start : Time} {ringlets : List ConditionalRinglet}
    (sampled : timeAware pool slot timing start = .ok ringlets) {conditional : ConditionalRinglet}
    (member : conditional ∈ ringlets) {constraint : Constraint}
    (isConstraint : conditional.edgeConstraint? = some constraint) :
    constraint.disjuncts = [constraint] := by
  obtain ⟨taken, _, rfl⟩ := Outcome.map_eq_ok.mp sampled
  obtain ⟨upper, isInterval⟩ := exists_interval member
  unfold ConditionalRinglet.edgeConstraint? at isConstraint
  split at isConstraint
  · cases isConstraint
  · cases isConstraint
    rw [isInterval]
    exact conditional.point.disjuncts_interval upper

end TimedKripke
