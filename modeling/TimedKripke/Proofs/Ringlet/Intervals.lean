import TimedKripke.Proofs.Ringlet.Locality
import TimedKripke.Proofs.Ringlet.TimeAware

/-! # Samples stand for intervals of time

The samples of a timeslot tile the times from the start on (`Ringlet.tiling_timeAware`): each one
stands for an interval that starts where the one before it ends, and asks about no threshold
inside its interval. So every time from the start on satisfies the condition of exactly one sample
(`Ringlet.timeAware_partitions`), whatever the machines ask of their clocks. Where they ask about
thresholds only, the timeslot executed at any time goes as the sample that stands for the time
(`Ringlet.execute_of_standsFor`).
-/

namespace TimedKripke

/-- No machine of the pool reads the time itself. -/
def Pool.Untimed (pool : Pool) : Prop :=
  ∀ entry ∈ pool.entries, ¬ entry.executable.running.machine.MayRequest .elapsed

/-- What descends from a pool whose machines do not read the time does not read it either, as the
machines stay the same. -/
theorem Pool.Untimed.of_descends {origin pool : Pool} (untimed : origin.Untimed)
    (descends : Pool.Descends origin pool) : pool.Untimed := by
  intro entry member
  obtain ⟨known, isKnown, same⟩ := List.mem_map.mp
    (descends.frame ▸ List.mem_map_of_mem member : entry.frame ∈ origin.frame)
  have machine : known.executable.running.machine = entry.executable.running.machine :=
    Executable.machine_eq_of_frame (congrArg Prod.snd same)
  rw [← machine]
  exact untimed known isKnown

/-- At a time that no threshold tells apart, executing a timeslot has the same effects. -/
theorem executeTimeslot_movedTo {pool : Pool} (wellFormed : pool.WellFormed)
    (untimed : pool.Untimed) {slot : Timeslot} {timing : ScheduleTiming} {start time : Time}
    (readsAs : (executeTimeslot pool slot (Clock.new timing start)).2.clock.ReadsAs time) :
    (executeTimeslot pool slot (Clock.new timing time)).1 =
        (executeTimeslot pool slot (Clock.new timing start)).1 ∧
      (executeTimeslot pool slot (Clock.new timing time)).2.pool =
        (executeTimeslot pool slot (Clock.new timing start)).2.pool ∧
      (executeTimeslot pool slot (Clock.new timing time)).2.clock.queried =
        (executeTimeslot pool slot (Clock.new timing start)).2.clock.queried := by
  have anything : pool.Confined (fun _ => True) (fun _ => True) :=
    ⟨fun _ _ _ _ => trivial, fun _ _ _ _ => trivial⟩
  have timeless : Dispatch.Untimed pool (fun _ => True) start time := by
    intro id executable _ found may
    obtain ⟨entry, member, _, rfl⟩ := Pool.mem_of_get? found
    exact absurd may (untimed entry member)
  obtain ⟨outcome, agrees⟩ := executeTimeslot_agrees anything timeless wellFormed.descends
    ⟨rfl, fun _ _ => rfl, fun _ _ => rfl⟩ trivial (fun _ _ => trivial) readsAs
  refine ⟨outcome, ?_, by rw [agrees.clock]; rfl⟩
  have later := executeTimeslot_descends wellFormed.descends slot (Clock.new timing time)
  exact Pool.ext_of_get? later.wellFormed.nodup agrees.pool.frame fun id =>
    agrees.pool.runs id trivial

/-- No time is later than the latest. -/
theorem Time.le_latest (time : Time) : time ≤ Time.latest := by
  have bound := time.toNat_lt
  rw [UInt64.le_iff_toNat_le, Time.toNat_latest]
  omega

/-- The sample stands for a time. -/
def ConditionalRinglet.standsFor (time : Time) (conditional : ConditionalRinglet) : Bool :=
  conditional.condition.satisfiedBy time

namespace Ringlet

/-- The same ringlet at another time. -/
def movedTo (ringlet : Ringlet) (time : Time) : Ringlet :=
  { ringlet with elapsed := time }

/-- Executions tell times apart only by the thresholds they ask about. -/
structure Uniform (execute : Time → Except Fault Ringlet) : Prop where
  /-- At a time that no threshold tells apart the execution is the same. -/
  same : ∀ {start time : Time} {ringlet : Ringlet}, execute start = .ok ringlet →
    (∀ threshold ∈ ringlet.queried, threshold < start ↔ threshold < time) →
      execute time = .ok (ringlet.movedTo time)
  /-- Thresholds are recorded in ascending order. -/
  ascending : ∀ {start : Time} {ringlet : Ringlet}, execute start = .ok ringlet →
    ringlet.queried.Pairwise (· < ·)

/-- The thresholds of an execution are recorded in ascending order. -/
theorem ascending_execute {pool : Pool} {slot : Timeslot} {timing : ScheduleTiming} {start : Time}
    {ringlet : Ringlet} (executed : execute pool slot timing start = .ok ringlet) :
    ringlet.queried.Pairwise (· < ·) := by
  obtain ⟨executable, execution, final, after, _, ran, _, rfl⟩ := execute_eq_ok executed
  have leads := leads_executeTimeslot pool slot (Clock.new timing start)
  rw [ran] at leads
  exact leads.ascending List.Pairwise.nil

/-- Executing a timeslot of machines that read time only through thresholds is uniform. -/
theorem uniform_execute {pool : Pool} (wellFormed : pool.WellFormed) (untimed : pool.Untimed)
    (slot : Timeslot) (timing : ScheduleTiming) : Uniform (execute pool slot timing) where
  same := by
    intro start time ringlet executed indistinct
    obtain ⟨executable, execution, final, after, found, ran, foundAfter, rfl⟩ :=
      execute_eq_ok executed
    have leads := leads_executeTimeslot pool slot (Clock.new timing start)
    rw [ran] at leads
    have readsAs : (executeTimeslot pool slot (Clock.new timing start)).2.clock.ReadsAs time := by
      rw [ran]
      intro threshold asked
      rw [leads.elapsed]
      exact indistinct threshold asked
    obtain ⟨outcome, samePool, queried⟩ := executeTimeslot_movedTo wellFormed untimed readsAs
    rw [ran] at outcome samePool queried
    cases ran' : executeTimeslot pool slot (Clock.new timing time) with
    | mk answer final' =>
        rw [ran'] at outcome samePool queried
        dsimp only at outcome samePool queried
        subst outcome
        unfold execute
        simp only [Pool.get_eq_ok_iff.mpr found, ran', samePool, queried,
          Pool.get_eq_ok_iff.mpr foundAfter]
        rfl
  ascending := ascending_execute

/-- A ringlet records the time of its execution. -/
theorem elapsed_of_execute {pool : Pool} {slot : Timeslot} {timing : ScheduleTiming} {time : Time}
    {ringlet : Ringlet} (executed : execute pool slot timing time = .ok ringlet) :
    ringlet.elapsed = time := by
  obtain ⟨_, _, _, _, _, _, _, rfl⟩ := execute_eq_ok executed
  rfl

/-- No sample is taken past the latest time. -/
theorem ne_latest_of_timeAware {pool : Pool} {slot : Timeslot} {timing : ScheduleTiming}
    {start : Time} {ringlets : List ConditionalRinglet}
    (sampled : timeAware pool slot timing start = .ok ringlets) {conditional : ConditionalRinglet}
    (member : conditional ∈ ringlets) {threshold : Time}
    (isPast : conditional.point = .past threshold) : threshold ≠ Time.latest := by
  obtain ⟨taken, isTaken, rfl⟩ := Outcome.map_eq_ok.mp sampled
  obtain ⟨first, more, _, later, rfl⟩ := samples_eq_ok isTaken
  have place := mem_conditions member
  rw [isPast] at place
  rcases List.mem_cons.mp place with impossible | inside
  · cases impossible
  · obtain ⟨_, same, _, below, _⟩ := mem_samplesFrom later _ inside
    cases same
    exact below

/-- Of ascending thresholds the first one that is not before the start is the least. -/
theorem le_of_found {start threshold : Time} {asked : List Time}
    (ascending : asked.Pairwise (· < ·))
    (found : asked.find? (fun threshold => decide (start ≤ threshold)) = some threshold) :
    ∀ other ∈ asked, start ≤ other → threshold ≤ other := by
  obtain ⟨_, before, after, rfl, earlier⟩ := List.find?_eq_some_iff_append.mp found
  intro other member reached
  rcases List.mem_append.mp member with inBefore | inside
  · have passed := earlier other inBefore
    simp [reached] at passed
  · rcases List.mem_cons.mp inside with rfl | later
    · exact UInt64.le_refl _
    · obtain ⟨_, ordered, _⟩ := List.pairwise_append.mp ascending
      exact UInt64.le_of_lt ((List.pairwise_cons.mp ordered).1 other later)

/-- The interval of a sample point reaches from `start` on up to the bound, if there is one. -/
def StartsAt (point : SamplePoint) (start : Time) : Prop :=
  ∀ (upper : Option Time) (time : Time), (point.interval upper).satisfiedBy time = true ↔
    start ≤ time ∧ ∀ bound ∈ upper, time ≤ bound

/-- The interval of the first sample point reaches from the start on. -/
theorem startsAt_start (start : Time) : StartsAt (.start start) start := by
  intro upper time
  by_cases zero : start = 0
  · cases upper <;> simp [SamplePoint.interval, SamplePoint.lower?, Constraint.satisfiedBy, zero]
  · cases upper <;> simp [SamplePoint.interval, SamplePoint.lower?, Constraint.satisfiedBy, zero]

/-- Below the latest time, the successor of a threshold is the first time past it. -/
theorem add_one_le_iff {threshold time : Time} (below : threshold ≠ Time.latest) :
    threshold + 1 ≤ time ↔ threshold < time := by
  rw [UInt64.le_iff_toNat_le, UInt64.lt_iff_toNat_lt, toNat_add_one_of_ne_latest below]
  rfl

/-- The interval past a threshold reaches from its successor on. -/
theorem startsAt_past {threshold : Time} (below : threshold ≠ Time.latest) :
    StartsAt (.past threshold) (threshold + 1) := by
  intro upper time
  rw [add_one_le_iff below]
  cases upper <;> simp [SamplePoint.interval, SamplePoint.lower?, Constraint.satisfiedBy]

/-- The sample of the interval past a threshold is taken at its successor, without overflow below
the latest time. -/
theorem time_past {threshold : Time} (below : threshold ≠ Time.latest) :
    (SamplePoint.past threshold).time = threshold + 1 := by
  refine UInt64.toNat_inj.mp ?_
  have successor := toNat_add_one_of_ne_latest below
  have bound := (threshold + 1).toNat_lt
  have one : (1 : UInt64).toNat = 1 := rfl
  rw [SamplePoint.time, Time.toNat_saturatingAdd, successor, one]
  omega

/-- The sample was taken at `start` and stands for the times from there up to `bound`. -/
structure Spans (execute : Time → Except Fault Ringlet) (start bound : Time)
    (sample : ConditionalRinglet) : Prop where
  point : sample.point.time = start
  executed : execute start = .ok sample.ringlet
  ordered : start ≤ bound
  holds : ∀ time, sample.standsFor time = true ↔ start ≤ time ∧ time ≤ bound
  /-- No threshold that was asked about divides these times. -/
  undivided : ∀ threshold ∈ sample.ringlet.queried, start ≤ threshold → bound ≤ threshold

/-- The samples stand for the times from `start` on, each from where the one before it ends. -/
inductive Tiling (execute : Time → Except Fault Ringlet) : Time → List ConditionalRinglet → Prop
  /-- One sample stands for all times. -/
  | last {start : Time} {sample : ConditionalRinglet}
      (spans : Spans execute start Time.latest sample) : Tiling execute start [sample]
  /-- The first sample stands for the times up to a threshold, the others for those past it. -/
  | next {start threshold : Time} {sample : ConditionalRinglet} {rest : List ConditionalRinglet}
      (spans : Spans execute start threshold sample) (below : threshold ≠ Time.latest)
      (tiling : Tiling execute (threshold + 1) rest) : Tiling execute start (sample :: rest)

variable {execute : Time → Except Fault Ringlet}

/-- The interval of a sample without a bound reaches up to the latest time. -/
theorem spans_last {start : Time} {point : SamplePoint} {ringlet : Ringlet}
    (starts : StartsAt point start) (isTime : point.time = start)
    (executed : execute start = .ok ringlet)
    (undivided : ∀ threshold ∈ ringlet.queried, start ≤ threshold → Time.latest ≤ threshold) :
    Spans execute start Time.latest { ringlet, condition := point.interval none, point } where
  point := isTime
  executed := executed
  ordered := Time.le_latest start
  holds := by
    intro time
    have holds := starts none time
    simpa [ConditionalRinglet.standsFor, Time.le_latest] using holds
  undivided := undivided

/-- The samples from a point on tile the times from its start on. -/
theorem tiling_conditions {start : Time} {asked : List Time} :
    ∀ {point : SamplePoint} {ringlet : Ringlet} {more : List (SamplePoint × Ringlet)},
      StartsAt point start → point.time = start → execute start = .ok ringlet →
        asked.Pairwise (· < ·) → (∀ threshold ∈ ringlet.queried, threshold ∈ asked) →
          samplesFrom execute start asked = .ok more →
            Tiling execute start (conditions ((point, ringlet) :: more)) := by
  -- All that was asked so far is known and ascending, so the threshold that is found is the least
  -- one that still lies ahead.
  fun_induction samplesFrom execute start asked with
  | case1 start asked none =>
      rintro point ringlet more starts isTime executed ascending known ⟨⟩
      refine .last (spans_last starts isTime executed fun threshold isAsked reached => ?_)
      have unreached := List.find?_eq_none.mp none threshold (known threshold isAsked)
      simp [reached] at unreached
  | case2 start asked found =>
      rintro point ringlet more starts isTime executed ascending known ⟨⟩
      refine .last (spans_last starts isTime executed fun threshold isAsked reached => ?_)
      exact le_of_found ascending found threshold (known threshold isAsked) reached
  | case3 start asked threshold found below _ fault failed =>
      rintro point ringlet more _ _ _ _ _ ⟨⟩
  | case4 start asked threshold found below _ next executedNext others =>
      intro point ringlet more starts isTime executed ascending known sampled
      obtain ⟨later, isLater, rfl⟩ := Outcome.map_eq_ok.mp sampled
      have tiling := others (startsAt_past below) (time_past below) executedNext
        (OrderedSet.pairwise_union ascending)
        (fun other isAsked => OrderedSet.mem_union.mpr (.inr isAsked)) isLater
      refine .next ⟨isTime, executed, start_le_of_found found, fun time => ?_, ?_⟩ below tiling
      · have holds := starts (some threshold) time
        simp only [Option.mem_some_iff, forall_eq'] at holds
        exact holds
      · exact fun other isAsked reached =>
          le_of_found ascending found other (known other isAsked) reached

/-- **The samples of a timeslot tile the times** from the start on. -/
theorem tiling_timeAware {pool : Pool} {slot : Timeslot} {timing : ScheduleTiming} {start : Time}
    {ringlets : List ConditionalRinglet}
    (sampled : timeAware pool slot timing start = .ok ringlets) :
    Tiling (Ringlet.execute pool slot timing) start ringlets := by
  obtain ⟨taken, isTaken, rfl⟩ := Outcome.map_eq_ok.mp sampled
  obtain ⟨first, more, executed, later, rfl⟩ := samples_eq_ok isTaken
  exact tiling_conditions (startsAt_start start) rfl executed (ascending_execute executed)
    (fun _ asked => asked) later

namespace Tiling

variable {start time : Time} {samples : List ConditionalRinglet}

/-- Every sample spans an interval that begins at the start or after it. -/
theorem exists_spans (tiling : Tiling execute start samples) {sample : ConditionalRinglet}
    (member : sample ∈ samples) :
    ∃ first bound, start ≤ first ∧ Spans execute first bound sample := by
  induction tiling with
  | last spans =>
      cases List.mem_singleton.mp member
      exact ⟨_, _, UInt64.le_refl _, spans⟩
  | next spans below _ others =>
      rcases List.mem_cons.mp member with rfl | later
      · exact ⟨_, _, UInt64.le_refl _, spans⟩
      · obtain ⟨first, bound, passed, isSpan⟩ := others later
        have beyond := UInt64.le_of_lt ((add_one_le_iff below).mp passed)
        exact ⟨first, bound, UInt64.le_trans spans.ordered beyond, isSpan⟩

/-- No sample stands for a time before the start. -/
theorem start_le (tiling : Tiling execute start samples) {sample : ConditionalRinglet}
    (member : sample ∈ samples) (stands : sample.standsFor time = true) : start ≤ time := by
  obtain ⟨first, bound, notBefore, spans⟩ := tiling.exists_spans member
  exact UInt64.le_trans notBefore ((spans.holds time).mp stands).1

/-- No sample stands for a time before the start. -/
theorem filter_of_lt (tiling : Tiling execute start samples) (early : time < start) :
    samples.filter (ConditionalRinglet.standsFor time) = [] :=
  List.filter_eq_nil_iff.mpr fun _ member stands =>
    UInt64.not_le.mpr early (tiling.start_le member stands)

/-- Exactly one sample stands for a time from the start on. -/
theorem exists_filter (tiling : Tiling execute start samples) (reached : start ≤ time) :
    ∃ sample, samples.filter (ConditionalRinglet.standsFor time) = [sample] := by
  induction tiling with
  | last spans =>
      refine ⟨_, List.filter_cons_of_pos ((spans.holds time).mpr ⟨reached, Time.le_latest time⟩)⟩
  | @next start threshold sample rest spans below tiling others =>
      by_cases passed : threshold < time
      · obtain ⟨other, only⟩ := others ((add_one_le_iff below).mpr passed)
        refine ⟨other, ?_⟩
        rw [List.filter_cons_of_neg, only]
        exact fun stands => UInt64.not_lt.mpr ((spans.holds time).mp stands).2 passed
      · have within := UInt64.not_lt.mp passed
        refine ⟨sample, ?_⟩
        rw [List.filter_cons_of_pos ((spans.holds time).mpr ⟨reached, within⟩),
          tiling.filter_of_lt (UInt64.lt_of_le_of_lt within (lt_add_one_of_ne_latest below))]

/-- The intervals are in ascending order: what an earlier sample stands for comes before what a
later one stands for. -/
theorem pairwise_lt (tiling : Tiling execute start samples) :
    samples.Pairwise fun earlier later => ∀ before after, earlier.standsFor before = true →
      later.standsFor after = true → before < after := by
  induction tiling with
  | last spans => exact List.pairwise_singleton _ _
  | next spans below tiling others =>
      refine List.pairwise_cons.mpr ⟨fun later member before after isBefore isAfter => ?_, others⟩
      have within := ((spans.holds before).mp isBefore).2
      exact UInt64.lt_of_le_of_lt within
        ((add_one_le_iff below).mp (tiling.start_le member isAfter))

end Tiling

/-- **Conditions partition the times.** Every time from the start on satisfies exactly one
condition and an earlier time none; the intervals are ascending, each one holds the time at which
its sample was taken, and every threshold past which a sample was taken has a next time. -/
theorem timeAware_partitions {pool : Pool} {slot : Timeslot} {timing : ScheduleTiming}
    {start : Time} {ringlets : List ConditionalRinglet}
    (sampled : timeAware pool slot timing start = .ok ringlets) :
    (∀ time, start ≤ time →
        ∃ conditional, ringlets.filter (ConditionalRinglet.standsFor time) = [conditional]) ∧
      (∀ time, time < start → ringlets.filter (ConditionalRinglet.standsFor time) = []) ∧
      (ringlets.Pairwise fun earlier later => ∀ before after, earlier.standsFor before = true →
        later.standsFor after = true → before < after) ∧
      ∀ conditional ∈ ringlets, conditional.point.time = conditional.ringlet.elapsed ∧
        conditional.standsFor conditional.point.time = true ∧
          ∀ threshold, conditional.point = .past threshold →
            (threshold + 1).toNat = threshold.toNat + 1 := by
  have tiling := tiling_timeAware sampled
  refine ⟨fun time => tiling.exists_filter, fun time => tiling.filter_of_lt, tiling.pairwise_lt,
    fun conditional member => ?_⟩
  obtain ⟨first, bound, _, spans⟩ := tiling.exists_spans member
  refine ⟨?_, ?_, fun threshold isPast => ?_⟩
  · rw [spans.point, elapsed_of_execute spans.executed]
  · rw [spans.point]
    exact (spans.holds first).mpr ⟨UInt64.le_refl first, spans.ordered⟩
  · exact toNat_add_one_of_ne_latest (ne_latest_of_timeAware sampled member isPast)

end Ringlet

namespace Alarm

/-- Asks whether more than a time has passed. -/
def passed (threshold : Time) : Program Bool :=
  .ask (.after threshold) .done

/-- Calls the bell. -/
def ring : Program Unit :=
  .ask (.call .synchronous "Bell" []) fun _ => .done ()

/-- A machine that is quiet until its guard answers true. -/
def machine (name : String) (guard : Program Bool) (onExit : Option (Program Unit)) : Machine :=
  { name
    states := [
      { name := "Quiet", onEntry := none, onExit, internal := none
        transitions := [{ target := 1, guard }], observes := none },
      { name := "Loud", onEntry := none, onExit := none, internal := none
        transitions := [], observes := none }]
    initialState := 0
    exitState := none
    suspendState := none
    variableTypes := []
    initialVariables := []
    initialExternals := [] }

/-- The alarm and its bell at their start. The alarm goes off after a while and calls the bell,
which waits longer, so what the bell asks of the clock comes up only in samples past the alarm's own
threshold. -/
def pool : Pool :=
  { entries := [
      { registration := { id := 0, name := "Alarm", dependencies := [.callable "Bell"] }
        executable := .scheduled (machine "Alarm" (passed 5) (some ring)).start },
      { registration := { id := 1, name := "Bell", dependencies := [] }
        executable := .callable (.new (machine "Bell" (passed 8) none).start []) }] }

/-- The timeslot of the alarm. -/
def slot : Timeslot :=
  .new 0 0 1

/-- The alarm asks about its own threshold, and past it the bell about another one. -/
theorem asks : (Ringlet.execute pool slot .empty 3).map Ringlet.queried = .ok [5] ∧
    (Ringlet.execute pool slot .empty 6).map Ringlet.queried = .ok [5, 8] ∧
    (Ringlet.execute pool slot .empty 9).map Ringlet.queried = .ok [5, 8] :=
  ⟨rfl, rfl, rfl⟩

/-- The alarm is sampled in three intervals from its start on, which its threshold and that of the
bell separate. -/
theorem sampled : ∃ ringlets, Ringlet.timeAware pool slot .empty 3 = .ok ringlets ∧
    ringlets.map ConditionalRinglet.condition =
      [.and (.greaterThanEqual 3) (.lessThanEqual 5), .and (.greaterThan 5) (.lessThanEqual 8),
        .greaterThan 8] := by
  obtain ⟨first, isFirst, askedFirst⟩ := Outcome.map_eq_ok.mp asks.1
  obtain ⟨second, isSecond, askedSecond⟩ := Outcome.map_eq_ok.mp asks.2.1
  obtain ⟨third, isThird, askedThird⟩ := Outcome.map_eq_ok.mp asks.2.2
  have none : Ringlet.samplesFrom (Ringlet.execute pool slot .empty) 9 [5, 8] = .ok [] := by
    rw [Ringlet.samplesFrom_eq]
    rfl
  have last : Ringlet.samplesFrom (Ringlet.execute pool slot .empty) 6 [5, 8] =
      .ok [(.past 8, third)] :=
    Ringlet.samplesFrom_of_found rfl (by decide) isThird (by rw [askedThird]; exact none)
  have later : Ringlet.samplesFrom (Ringlet.execute pool slot .empty) 3 [5] =
      .ok [(.past 5, second), (.past 8, third)] :=
    Ringlet.samplesFrom_of_found rfl (by decide) isSecond (by rw [askedSecond]; exact last)
  have taken : Ringlet.samples (Ringlet.execute pool slot .empty) 3 =
      .ok [(.start 3, first), (.past 5, second), (.past 8, third)] := by
    rw [Ringlet.samples_eq, isFirst]
    refine Outcome.map_eq_ok.mpr ⟨_, ?_, rfl⟩
    rw [askedFirst]
    exact later
  exact ⟨_, Outcome.map_eq_ok.mpr ⟨_, taken, rfl⟩, rfl⟩

/-- The pool of the alarm is well-formed. -/
theorem wellFormed : pool.WellFormed := by
  have built : ∀ name guard onExit, (machine name guard onExit).WellFormed := by
    intro name guard onExit
    exact ⟨by simp [machine], by simp [machine], by simp [machine], by simp [machine],
      by simp [machine], by simp [External.Typed, machine]⟩
  refine ⟨by decide, fun entry member => ?_⟩
  simp only [pool, List.mem_cons, List.not_mem_nil, or_false] at member
  rcases member with rfl | rfl
  · exact (built _ _ _).start
  · exact (built _ _ _).start

/-- A machine of the alarm makes the requests of its guard and its exit action and no others. -/
theorem not_mayRequest {name : String} {guard : Program Bool} {onExit : Option (Program Unit)}
    {request : Request} (noGuard : ¬ guard.MayRequest request)
    (noExit : ∀ program ∈ onExit, ¬ program.MayRequest request) :
    ¬ (machine name guard onExit).MayRequest request := by
  rintro ⟨state, isState, may⟩
  simp only [machine, List.mem_cons, List.not_mem_nil, or_false] at isState
  rcases isState with rfl | rfl
  · rcases MachineState.mayRequest_iff.mp may with entry | guarded | exit | internal
    · simp at entry
    · simp [noGuard] at guarded
    · obtain ⟨program, isExit, asks⟩ := exit
      exact noExit program isExit asks
    · simp at internal
  · simp [MachineState.mayRequest_iff] at may

/-- No machine of the alarm reads the time itself. -/
theorem untimed : pool.Untimed := by
  intro entry member
  simp only [pool, List.mem_cons, List.not_mem_nil, or_false] at member
  rcases member with rfl | rfl
  · exact not_mayRequest (by simp [passed]) (by simp [ring])
  · exact not_mayRequest (by simp [passed]) (by simp)

/-- An alarm that reads the time itself. -/
def stopwatch : Pool :=
  { entries := [
      { registration := { id := 0, name := "Stopwatch", dependencies := [] }
        executable := .scheduled
          (machine "Stopwatch" (.ask .elapsed fun time => .done (decide (5 < time))) none).start }] }

end Alarm

namespace Ringlet

/-- The conditions of the alarm from time 3 on partition the times from there on. -/
theorem alarm_partitions : ∃ ringlets,
    timeAware Alarm.pool Alarm.slot .empty 3 = .ok ringlets ∧
      ringlets.map ConditionalRinglet.condition =
        [.and (.greaterThanEqual 3) (.lessThanEqual 5), .and (.greaterThan 5) (.lessThanEqual 8),
          .greaterThan 8] ∧
      (∀ time, 3 ≤ time →
        ∃ conditional, ringlets.filter (ConditionalRinglet.standsFor time) = [conditional]) ∧
      (∀ time, time < 3 → ringlets.filter (ConditionalRinglet.standsFor time) = []) ∧
      (ringlets.Pairwise fun earlier later => ∀ before after, earlier.standsFor before = true →
        later.standsFor after = true → before < after) ∧
      ∀ conditional ∈ ringlets, conditional.point.time = conditional.ringlet.elapsed ∧
        conditional.standsFor conditional.point.time = true ∧
          ∀ threshold, conditional.point = .past threshold →
            (threshold + 1).toNat = threshold.toNat + 1 := by
  obtain ⟨ringlets, sampled, conditions⟩ := Alarm.sampled
  exact ⟨ringlets, sampled, conditions, timeAware_partitions sampled⟩

variable {execute : Time → Except Fault Ringlet}

/-- Within the interval of a sample the execution is that of the sample. -/
theorem Uniform.execute_eq (uniform : Uniform execute) {start bound time : Time}
    {sample : ConditionalRinglet} (spans : Spans execute start bound sample)
    (stands : sample.standsFor time = true) :
    execute time = .ok (sample.ringlet.movedTo time) := by
  obtain ⟨reached, within⟩ := (spans.holds time).mp stands
  refine uniform.same spans.executed fun threshold asked => ?_
  by_cases earlier : threshold < start
  · exact iff_of_true earlier (UInt64.lt_of_lt_of_le earlier reached)
  · have beyond := spans.undivided threshold asked (UInt64.not_lt.mp earlier)
    exact iff_of_false earlier (UInt64.not_lt.mpr (UInt64.le_trans within beyond))

/-- **A ringlet represents its interval.** At every time for which it stands the timeslot can be
executed and goes as the ringlet did, if no machine reads the time itself. -/
theorem execute_of_standsFor {pool : Pool} (wellFormed : pool.WellFormed) (untimed : pool.Untimed)
    {slot : Timeslot} {timing : ScheduleTiming} {start time : Time}
    {ringlets : List ConditionalRinglet}
    (sampled : timeAware pool slot timing start = .ok ringlets)
    {conditional : ConditionalRinglet} (member : conditional ∈ ringlets)
    (stands : conditional.standsFor time = true) :
    Ringlet.execute pool slot timing time = .ok { conditional.ringlet with elapsed := time } := by
  obtain ⟨first, bound, _, spans⟩ := (tiling_timeAware sampled).exists_spans member
  exact (uniform_execute wellFormed untimed slot timing).execute_eq spans stands

/-- The alarm was sampled at time 6 for the times after 5 and up to 8; at time 7 it goes off in the
same way, and the bell that it calls stays quiet. -/
theorem alarm_execute_of_standsFor : ∃ ringlets conditional,
    timeAware Alarm.pool Alarm.slot .empty 3 = .ok ringlets ∧ conditional ∈ ringlets ∧
      conditional.condition = .and (.greaterThan 5) (.lessThanEqual 8) ∧
      Ringlet.execute Alarm.pool Alarm.slot .empty 7 =
        .ok { conditional.ringlet with elapsed := 7 } := by
  obtain ⟨ringlets, sampled, conditions⟩ := Alarm.sampled
  have second : Constraint.and (.greaterThan 5) (.lessThanEqual 8) ∈
      ringlets.map ConditionalRinglet.condition := by
    rw [conditions]
    decide
  obtain ⟨conditional, member, isSecond⟩ := List.mem_map.mp second
  have stands : conditional.standsFor 7 = true := by
    rw [ConditionalRinglet.standsFor, isSecond]
    decide
  exact ⟨ringlets, conditional, sampled, member, isSecond,
    execute_of_standsFor Alarm.wellFormed Alarm.untimed sampled member stands⟩

-- A machine that reads the time itself asks about no threshold, so that one quiet sample stands for
-- all times, and goes off all the same.
example : (Ringlet.execute Alarm.stopwatch Alarm.slot .empty 0).map
      (fun ringlet => (ringlet.queried, ringlet.transitioned)) = .ok ([], false) ∧
    (Ringlet.execute Alarm.stopwatch Alarm.slot .empty 7).map
      (fun ringlet => (ringlet.queried, ringlet.transitioned)) = .ok ([], true) :=
  ⟨rfl, rfl⟩

/-- Exactly one of the conditions holds at the time, and its sample is the execution at the
time. -/
def SampledOnce (execute : Time → Except Fault Ringlet) (time : Time)
    (conditionals : List ConditionalRinglet) : Prop :=
  ∃ conditional, conditionals.filter (ConditionalRinglet.standsFor time) = [conditional] ∧
    execute time = .ok (conditional.ringlet.movedTo time)

/-- Every time from the start on satisfies exactly one condition, and its ringlet is the execution
at that time. -/
theorem filter_timeAware {pool : Pool} (wellFormed : pool.WellFormed) (untimed : pool.Untimed)
    {slot : Timeslot} {timing : ScheduleTiming} {start time : Time} (reached : start ≤ time)
    {ringlets : List ConditionalRinglet}
    (sampled : timeAware pool slot timing start = .ok ringlets) :
    SampledOnce (Ringlet.execute pool slot timing) time ringlets := by
  have tiling := tiling_timeAware sampled
  obtain ⟨conditional, only⟩ := tiling.exists_filter reached
  obtain ⟨member, stands⟩ := List.mem_filter.mp (only ▸ List.mem_singleton_self conditional)
  obtain ⟨first, bound, _, spans⟩ := tiling.exists_spans member
  exact ⟨conditional, only, (uniform_execute wellFormed untimed slot timing).execute_eq
    spans stands⟩

end Ringlet

end TimedKripke
