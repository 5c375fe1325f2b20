import TimedKripke.Proofs.Verification.CycleLength
import TimedKripke.Proofs.Verification.Ownership

/-! # Timeslots at the same time

Validation compares timeslots of one thread with each other, but of different threads it compares
sections: from the start of the first timeslot to the latest end. So a time that is covered by
dependent timeslots of two threads lies before the first timeslot of one of their sections
(`Schedule.lt_startingTime_of_covers`). In a section that begins with its earliest timeslot there is
no such time, and no dependent timeslots run at the same time
(`Schedule.timeslots_disjoint_of_validate`).
-/

namespace TimedKripke

namespace Timeslot

/-- The time lies in the window; both ends belong to it. -/
def Covers (slot : Timeslot) (time : Time) : Prop :=
  slot.startingTime ≤ time ∧ time ≤ slot.endTime

/-- No time lies in both windows. -/
def DisjointFrom (first second : Timeslot) : Prop :=
  ∀ time, first.Covers time → ¬second.Covers time

/-- Timeslots that do not overlap by the test have no time in common. -/
theorem disjointFrom_of_overlaps {first second : Timeslot} (apart : first.overlaps second = false) :
    first.DisjointFrom second := by
  intro time isFirst isSecond
  have together : first.overlaps second = true := by
    rw [overlaps, Bool.and_eq_true, decide_eq_true_eq, decide_eq_true_eq]
    exact ⟨UInt64.le_trans isFirst.1 isSecond.2, UInt64.le_trans isSecond.1 isFirst.2⟩
  rw [together] at apart
  cases apart

end Timeslot

namespace SnapshotSection

variable {part other : SnapshotSection} {slot : Timeslot}

/-- No timeslot starts before the first one. -/
def BeginsEarliest (part : SnapshotSection) : Prop :=
  ∀ slot ∈ part.timeslots, part.startingTime ≤ slot.startingTime

/-- A section that was brought into order begins with its earliest timeslot. -/
theorem beginsEarliest_new (slots : List Timeslot) : (new slots).BeginsEarliest := by
  have sorted := List.pairwise_mergeSort Timeslot.startsBefore_trans
    Timeslot.startsBefore_total slots
  intro slot member
  unfold startingTime
  unfold new at member ⊢
  generalize slots.mergeSort Timeslot.startsBefore = inOrder at sorted member ⊢
  cases inOrder with
  | nil => cases member
  | cons first rest =>
      rw [List.head?_cons]
      cases member with
      | head => exact UInt64.le_refl _
      | tail _ isLater =>
          have before := (List.pairwise_cons.mp sorted).1 slot isLater
          simp only [Timeslot.startsBefore, Bool.or_eq_true, Bool.and_eq_true, decide_eq_true_eq,
            beq_iff_eq] at before
          rcases before with before | ⟨same, _⟩
          · exact UInt64.le_of_lt before
          · exact UInt64.le_of_eq same

/-- The executable of a timeslot is among those of its section. -/
theorem mem_executables (member : slot ∈ part.timeslots) :
    slot.executable ∈ part.executables :=
  OrderedSet.mem_union.mpr (.inr (List.mem_map_of_mem member))

/-- No timeslot ends after its section. -/
theorem endTime_le (member : slot ∈ part.timeslots) : slot.endTime ≤ part.endTime := by
  rw [UInt64.le_iff_toNat_le]
  exact toNat_latestOf_le.mp (Nat.le_refl _) _ (List.mem_map_of_mem member)

end SnapshotSection

/-- The test for common items finds one exactly if there is one. -/
theorem intersects_iff {α : Type} [BEq α] [LawfulBEq α] {first second : List α} :
    intersects first second = true ↔ ∃ item ∈ first, item ∈ second := by
  simp [intersects]

namespace Schedule

variable {schedule : Schedule} {pool : Pool}

/-- A schedule that passes validation has no fault. -/
theorem fault?_of_validate (validated : schedule.validate pool = .ok ()) :
    schedule.fault? pool = none := by
  unfold validate at validated
  split at validated
  · cases validated
  · assumption

/-- Every thread of a schedule that passes validation is valid by itself. -/
theorem isValid_of_validate (validated : schedule.validate pool = .ok ()) :
    ∀ thread ∈ schedule.threads, thread.isValid = true := by
  have faultless := (Option.or_eq_none_iff.mp (fault?_of_validate validated)).1
  intro thread member
  obtain ⟨place, inside, rfl⟩ := List.mem_iff_getElem.mp member
  have checked := List.findSome?_eq_none_iff.mp faultless (schedule.threads[place], place)
    (List.mk_mem_zipIdx_iff_getElem?.mpr (List.getElem?_eq_getElem inside))
  unfold threadFault? at checked
  split_ifs at checked with invalid
  simpa using invalid

/-- Sections of different threads that depend on each other do not overlap. -/
theorem conflict_of_validate (validated : schedule.validate pool = .ok ()) :
    schedule.threads.Pairwise fun first second => conflict pool first second = false := by
  have faultless := (Option.or_eq_none_iff.mp (fault?_of_validate validated)).2
  have pairs : (schedule.threads.zipIdx.map Prod.fst).Pairwise fun first second =>
      conflict pool first second = false := by
    refine List.pairwise_map.mpr ((pairwise_of_pairFaults? faultless).imp ?_)
    intro first second unfaulted
    unfold pairFault? at unfaulted
    split at unfaulted
    · cases unfaulted
    · split_ifs at unfaulted with free
      exact Bool.eq_false_of_not_eq_true free
  rwa [List.zipIdx_map_fst] at pairs

/-- The executables are the same, or they have the name of an external or of a dependency in
common. -/
def Dependent (pool : Pool) (first second : ExecutableId) : Prop :=
  first = second ∨ ∃ name ∈ pool.dependenciesOf first, name ∈ pool.dependenciesOf second

/-- Sections with dependent executables share dependencies by the test of the validation. -/
theorem shareDependencies_of_dependent {part other : SnapshotSection} {slot slot' : Timeslot}
    (member : slot ∈ part.timeslots) (member' : slot' ∈ other.timeslots)
    (dependent : Dependent pool slot.executable slot'.executable) :
    shareDependencies pool part.executables other.executables = true := by
  have isRoot := SnapshotSection.mem_executables member
  have isRoot' := SnapshotSection.mem_executables member'
  rw [shareDependencies, Bool.or_eq_true, intersects_iff, intersects_iff]
  rcases dependent with same | ⟨name, isName, isName'⟩
  · exact .inl ⟨slot.executable, isRoot, same ▸ isRoot'⟩
  · exact .inr ⟨name, List.mem_flatMap.mpr ⟨_, isRoot, isName⟩,
      List.mem_flatMap.mpr ⟨_, isRoot', isName'⟩⟩

/-- A time that dependent timeslots have in common comes before the first timeslot of one of the
sections. -/
theorem lt_startingTime_of_covers {first second : ScheduleThread}
    (free : conflict pool first second = false) {part other : SnapshotSection}
    (isPart : part ∈ first.sections) (isOther : other ∈ second.sections) {slot slot' : Timeslot}
    (member : slot ∈ part.timeslots) (member' : slot' ∈ other.timeslots)
    (dependent : Dependent pool slot.executable slot'.executable) {time : Time}
    (covers : slot.Covers time) (covers' : slot'.Covers time) :
    time < part.startingTime ∨ time < other.startingTime := by
  by_contra late
  rw [not_or, UInt64.not_lt, UInt64.not_lt] at late
  -- Both sections have started by the time and end no earlier, so their hulls overlap.
  have overlap : part.overlaps other = true := by
    rw [SnapshotSection.overlaps, Bool.and_eq_true, decide_eq_true_eq, decide_eq_true_eq]
    constructor
    · exact UInt64.le_trans late.1
        (UInt64.le_trans covers'.2 (SnapshotSection.endTime_le member'))
    · exact UInt64.le_trans late.2 (UInt64.le_trans covers.2 (SnapshotSection.endTime_le member))
  have conflicting : conflict pool first second = true := by
    refine List.any_eq_true.mpr ⟨part, isPart, List.any_eq_true.mpr ⟨other, isOther, ?_⟩⟩
    rw [overlap, shareDependencies_of_dependent member member' dependent]
    rfl
  rw [conflicting] at free
  cases free

/-- **No two timeslots of a thread, and no dependent timeslots of two threads, run at the same
time**, in a schedule that was validated. Between threads this is about sections that begin with
their earliest timeslot, as all sections do that are brought into order when they are made. -/
theorem timeslots_disjoint_of_validate (validated : schedule.validate pool = .ok ()) :
    (∀ thread ∈ schedule.threads, thread.timeslots.Pairwise Timeslot.DisjointFrom) ∧
      schedule.threads.Pairwise fun first second =>
        ∀ part ∈ first.sections, ∀ other ∈ second.sections,
          part.BeginsEarliest → other.BeginsEarliest →
            ∀ slot ∈ part.timeslots, ∀ slot' ∈ other.timeslots,
              Dependent pool slot.executable slot'.executable → slot.DisjointFrom slot' := by
  constructor
  · intro thread member
    have valid := isValid_of_validate validated thread member
    rw [ScheduleThread.isValid, Bool.and_eq_true, decide_eq_true_eq] at valid
    exact valid.2.imp Timeslot.disjointFrom_of_overlaps
  · refine (conflict_of_validate validated).imp ?_
    intro first second free part isPart other isOther early early' slot member slot' member'
      dependent time covers covers'
    rcases lt_startingTime_of_covers free isPart isOther member member' dependent covers covers'
      with before | before
    · exact UInt64.not_lt.mpr (UInt64.le_trans (early slot member) covers.1) before
    · exact UInt64.not_lt.mpr (UInt64.le_trans (early' slot' member') covers'.1) before

end Schedule

namespace Tank

/-- A machine that stays in its only state, with the given externals. -/
def entry (id : ExecutableId) (name : String) (externals : List External) : PoolEntry :=
  { registration := { id, name, dependencies := [] }
    executable := .scheduled (Machine.start
      { name
        states := [{ name := "Idle", onEntry := none, onExit := none, internal := none
                     transitions := [], observes := none }]
        initialState := 0
        exitState := none
        suspendState := none
        variableTypes := []
        initialVariables := []
        initialExternals := externals }) }

/-- The pool of a bell and of a gauge and a valve that have the level in common. -/
def pool : Pool :=
  { entries := [entry 0 "Bell" [], entry 1 "Gauge" [.new "level" .sensor .bool],
      entry 2 "Valve" [.new "level" .actuator .bool]] }

/-- The gauge and the bell in one section. -/
def watch : SnapshotSection :=
  .new [Timeslot.new 0 10 5, Timeslot.new 1 0 5]

/-- The valve alone. -/
def drain : SnapshotSection :=
  .new [Timeslot.new 2 20 5]

/-- The sections on threads of their own, one after the other. -/
def schedule : Schedule :=
  { threads := [.new [watch], .new [drain]] }

end Tank

/-- A gauge and a valve with the level in common, on threads of their own, have timeslots without a
common time, and so have the gauge and the bell of one section. -/
theorem tank_timeslots_disjoint :
    Tank.schedule.validate Tank.pool = .ok () ∧
      Schedule.Dependent Tank.pool (Timeslot.new 1 0 5).executable
        (Timeslot.new 2 20 5).executable ∧
      (Timeslot.new 1 0 5).DisjointFrom (Timeslot.new 0 10 5) ∧
      (Timeslot.new 1 0 5).DisjointFrom (Timeslot.new 2 20 5) := by
  have validated : Tank.schedule.validate Tank.pool = .ok () := by cbv
  have dependent : Schedule.Dependent Tank.pool 1 2 := .inr ⟨"level", by decide, by decide⟩
  have watched : Tank.watch.timeslots = [Timeslot.new 1 0 5, Timeslot.new 0 10 5] := by cbv
  obtain ⟨ofThread, ofThreads⟩ := Schedule.timeslots_disjoint_of_validate validated
  refine ⟨validated, dependent, ?_, ?_⟩
  · have inside := ofThread (.new [Tank.watch]) List.mem_cons_self
    have slots : (ScheduleThread.new [Tank.watch]).timeslots = Tank.watch.timeslots := by cbv
    rw [slots, watched, List.pairwise_pair] at inside
    exact inside
  · refine List.pairwise_pair.mp ofThreads Tank.watch (by simp [ScheduleThread.new]) Tank.drain
      (by simp [ScheduleThread.new]) (SnapshotSection.beginsEarliest_new _)
      (SnapshotSection.beginsEarliest_new _) _ ?_ _ ?_ dependent
    · rw [watched]
      exact List.mem_cons_self
    · simp [Tank.drain, SnapshotSection.new]

end TimedKripke
