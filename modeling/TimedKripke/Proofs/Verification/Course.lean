import TimedKripke.Proofs.Schedule.Interleaving
import TimedKripke.Proofs.Variation.Presentation

/-! # The course of a cycle

A cycle of a schedule goes beat by beat on one pool: at the start of a section its executables
read the environment, and then its timeslots are executed one after the other (`Beat.Leads`,
`Course`). The beats are the same in every cycle, and so is where they stand and how much time
lies between them (`Position`); what a beat does is decided by the pool and by chance alone.
-/

namespace TimedKripke

/-- One thing that happens in a cycle. -/
inductive Beat where
  /-- The executables of timeslots read the environment. -/
  | read (slots : List Timeslot)
  /-- A timeslot is executed. -/
  | execute (slot : Timeslot)

/-- What a beat has come to. -/
structure Move where
  pool : Pool
  /-- The state that the machine was in. -/
  state : String
  /-- The clock values for which this happens. -/
  constraint : Option Constraint
  transitioned : Bool

/-- The move of a conditional ringlet. -/
def Move.ofConditional (conditional : ConditionalRinglet) : Move :=
  { pool := conditional.ringlet.after
    state := conditional.ringlet.executedState
    constraint := conditional.edgeConstraint?
    transitioned := conditional.ringlet.transitioned }

/-- The move by which executables read. -/
def Move.ofReading (root : Executable) (read : Pool) : Move :=
  { pool := read
    state := root.running.currentStateName
    constraint := none
    transitioned := false }

/-- What a beat may do on a pool. -/
inductive Beat.Leads (timing : ScheduleTiming) : Beat → Pool → Move → Prop
  /-- Any environment of the right types is read. -/
  | read {slot : Timeslot} {slots : List Timeslot} {pool : Pool} {root : Executable}
      {valuation : Valuation} (admits : pool.Admits valuation (Timeslot.roots (slot :: slots)))
      (found : pool.get? slot.executable = some root) :
      Leads timing (.read (slot :: slots)) pool
        (.ofReading root (pool.reads valuation (Timeslot.roots (slot :: slots))))
  /-- Any conditional ringlet is taken. -/
  | execute {slot : Timeslot} {pool : Pool} {ringlets : List ConditionalRinglet}
      {conditional : ConditionalRinglet}
      (sampled : Ringlet.timeAware pool slot timing 0 = .ok ringlets)
      (chosen : conditional ∈ ringlets) :
      Leads timing (.execute slot) pool (.ofConditional conditional)

/-- Beats that follow one another. -/
inductive Course (timing : ScheduleTiming) : List Beat → Pool → List Move → Pool → Prop
  | nil (pool : Pool) : Course timing [] pool [] pool
  | cons {beat : Beat} {beats : List Beat} {pool final : Pool} {move : Move} {moves : List Move}
      (leads : beat.Leads timing pool move) (later : Course timing beats move.pool moves final) :
      Course timing (beat :: beats) pool (move :: moves) final

namespace Course

variable {timing : ScheduleTiming} {first second : List Beat} {pool final : Pool}

/-- A course that goes on with another one is a course. -/
theorem append {middle : Pool} {moves more : List Move}
    (before : Course timing first pool moves middle)
    (after : Course timing second middle more final) :
    Course timing (first ++ second) pool (moves ++ more) final := by
  induction before with
  | nil => exact after
  | cons leads _ others => exact .cons leads (others after)

/-- A course through two parts is one through the first and then one through the second. -/
theorem of_append {all : List Move} : ∀ {pool : Pool},
    Course timing (first ++ second) pool all final → ∃ moves more middle, all = moves ++ more ∧
      Course timing first pool moves middle ∧ Course timing second middle more final := by
  induction first generalizing all with
  | nil => exact fun course => ⟨[], all, _, rfl, .nil _, course⟩
  | cons beat beats others =>
      intro pool course
      cases course with
      | cons leads later =>
          obtain ⟨moves, more, middle, rfl, before, after⟩ := others later
          exact ⟨_ :: moves, more, middle, rfl, .cons leads before, after⟩

/-- Every beat of a course makes one move. -/
theorem length_eq {beats : List Beat} {moves : List Move}
    (course : Course timing beats pool moves final) : moves.length = beats.length := by
  induction course with
  | nil => rfl
  | cons _ _ others => simp [others]

end Course

/-- The beat can be had on a pool. -/
def Beat.Ready (timing : ScheduleTiming) : Beat → Pool → Prop
  | .read slots, _ => slots ≠ []
  | .execute slot, pool => ∃ ringlets, Ringlet.timeAware pool slot timing 0 = .ok ringlets

/-- Beats can be had one after the other, whatever those before have come to. -/
def Proceeds (timing : ScheduleTiming) : List Beat → Pool → Prop
  | [], _ => True
  | beat :: beats, pool => beat.Ready timing pool ∧
      ∀ move, beat.Leads timing pool move → Proceeds timing beats move.pool

/-- Two parts proceed if the first does and the second does from wherever a course through the first
ends. -/
theorem proceeds_append_iff {timing : ScheduleTiming} {first second : List Beat} : ∀ {pool : Pool},
    Proceeds timing (first ++ second) pool ↔ Proceeds timing first pool ∧
      ∀ moves middle, Course timing first pool moves middle → Proceeds timing second middle := by
  induction first with
  | nil =>
      intro pool
      constructor
      · intro proceeds
        refine ⟨trivial, fun moves middle course => ?_⟩
        cases course
        exact proceeds
      · exact fun proceeds => proceeds.2 [] pool (.nil pool)
  | cons beat beats others =>
      intro pool
      constructor
      · intro proceeds
        refine ⟨⟨proceeds.1, fun move leads => (others.mp (proceeds.2 move leads)).1⟩, ?_⟩
        intro moves middle course
        cases course with
        | cons leads later => exact (others.mp (proceeds.2 _ leads)).2 _ middle later
      · rintro ⟨⟨ready, each⟩, later⟩
        refine ⟨ready, fun move leads =>
          others.mpr ⟨each move leads, fun moves middle course => ?_⟩⟩
        exact later (move :: moves) middle (.cons leads course)

namespace SnapshotSection

variable {part : SnapshotSection} {timing : ScheduleTiming} {pool : Pool}

/-- The beats of a section. -/
def beats (part : SnapshotSection) : List Beat :=
  .read part.timeslots :: part.timeslots.map .execute

/-- Executing timeslots one after the other is a course of their beats. -/
theorem course_of_executes {slots : List Timeslot} {conditionals : List ConditionalRinglet}
    {result : Pool} (executes : TimedKripke.Executes timing slots pool conditionals result) :
    Course timing (slots.map .execute) pool (conditionals.map .ofConditional) result := by
  induction executes with
  | nil pool => exact .nil pool
  | cons sampled chosen _ others => exact .cons (.execute sampled chosen) others

/-- A course of beats that execute is an execution of their timeslots, with the same ringlets. -/
theorem executes_of_course {slots : List Timeslot} {moves : List Move} {result : Pool} :
    ∀ {pool : Pool}, Course timing (slots.map .execute) pool moves result → ∃ conditionals,
      TimedKripke.Executes timing slots pool conditionals result ∧
        moves = conditionals.map .ofConditional := by
  induction slots generalizing moves with
  | nil =>
      intro pool course
      cases course
      exact ⟨[], .nil _, rfl⟩
  | cons slot slots others =>
      intro pool course
      cases course with
      | cons leads later =>
          cases leads with
          | execute sampled chosen =>
              obtain ⟨conditionals, executes, rfl⟩ := others later
              exact ⟨_ :: conditionals, .cons sampled chosen executes, rfl⟩

/-- The moves of a section. -/
def moves (root : Executable) (read : Pool) (conditionals : List ConditionalRinglet) : List Move :=
  .ofReading root read :: conditionals.map .ofConditional

/-- Running a section on a pool goes through its beats. -/
theorem Executes.course {slot : Timeslot} {slots : List Timeslot} {root : Executable}
    (isPart : part.timeslots = slot :: slots) (found : pool.get? slot.executable = some root)
    {read result : Pool} {conditionals : List ConditionalRinglet}
    (executes : part.Executes timing pool read conditionals result) :
    Course timing part.beats pool (moves root read conditionals) result := by
  obtain ⟨valuation, admits, rfl, executes⟩ := executes
  have course := course_of_executes executes
  unfold beats
  rw [isPart] at admits course ⊢
  exact .cons (.read admits found) course

/-- Going through the beats of a section is running it. -/
theorem executes_of_beats {all : List Move} {result : Pool}
    (course : Course timing part.beats pool all result) :
    ∃ slot slots root read conditionals, part.timeslots = slot :: slots ∧
      pool.get? slot.executable = some root ∧ all = moves root read conditionals ∧
      part.Executes timing pool read conditionals result := by
  obtain ⟨slots⟩ := part
  cases course with
  | cons leads later =>
      cases leads with
      | @read slot slots _ root valuation admits found =>
          obtain ⟨conditionals, executes, rfl⟩ := executes_of_course later
          exact ⟨slot, slots, root, _, conditionals, rfl, found, rfl, valuation, admits, rfl,
            executes⟩

/-- The beats of timeslots proceed exactly if the timeslots can be run. -/
theorem proceeds_execute_iff {slots : List Timeslot} : ∀ {pool : Pool},
    Proceeds timing (slots.map .execute) pool ↔ Runnable timing slots pool := by
  induction slots with
  | nil => exact fun {_} => Iff.rfl
  | cons slot slots others =>
      intro pool
      constructor
      · rintro ⟨⟨ringlets, sampled⟩, each⟩
        exact ⟨ringlets, sampled, fun conditional chosen =>
          others.mp (each _ (.execute sampled chosen))⟩
      · rintro ⟨ringlets, sampled, each⟩
        refine ⟨⟨ringlets, sampled⟩, fun move leads => ?_⟩
        cases leads with
        | @execute _ _ _ conditional sampled' chosen =>
            cases sampled.symm.trans sampled'
            exact others.mpr (each conditional chosen)

/-- A section that can be run in every environment goes through its beats. -/
theorem proceeds (someSlot : part.timeslots ≠ []) (runnable : ∀ valuation,
    pool.Admits valuation (Timeslot.roots part.timeslots) →
      Runnable timing part.timeslots (pool.reads valuation (Timeslot.roots part.timeslots))) :
    Proceeds timing part.beats pool := by
  refine ⟨someSlot, fun move leads => ?_⟩
  generalize part.timeslots = slots at leads runnable
  cases leads with
  | read admits _ => exact proceeds_execute_iff.mpr (runnable _ admits)

end SnapshotSection

/-- Where a beat stands in every cycle. -/
structure Position where
  beat : Beat
  /-- The scheduled executable; for a reading the first. -/
  executable : ExecutableId
  phase : Phase
  /-- The place among the timeslots. -/
  slot : Nat
  /-- The schedule time since the beat before. -/
  time : Time

namespace Position

/-- The name of an executable's machine. -/
def nameOf (origin : Pool) (id : ExecutableId) : String :=
  ((origin.get? id).map Executable.name).getD ""

/-- What is shown after a move. -/
def properties (layout : Layout) (origin : Pool) (position : Position) (move : Move) :
    PropertyList :=
  layout.properties move.pool
    { executable := nameOf origin position.executable
      state := move.state
      phase := position.phase } position.slot

/-- The edge that leads to what is shown after a move. -/
def incoming (origin : Pool) (position : Position) (move : Move) : Incoming :=
  { clockName := match position.beat with
      | .read _ => none
      | .execute _ => some (nameOf origin position.executable)
    constraint := move.constraint
    resetClock := move.transitioned
    takeSnapshot := match position.beat with
      | .read _ => true
      | .execute _ => false
    time := position.time }

/-- The positions of timeslots from the one at `index` of the section on, the first of which starts
at `time`; with the time of the last beat. -/
def ofSlots (first : Nat) : (index : Nat) → (time : Time) → List Timeslot → List Position × Time
  | _, time, [] => ([], time)
  | index, time, slot :: rest =>
      let endTime := max slot.endTime time
      let later := ofSlots first (index + 1) endTime rest
      ({ beat := .execute slot
         executable := slot.executable
         phase := if rest.isEmpty then .write else .execute
         slot := first + index
         time := endTime - time } :: later.1, later.2)

/-- The time at which a section reads the environment, where the last beat was at `now`. -/
def readAt (now : Option Time) (part : SnapshotSection) : Time :=
  match now with
  | some now => max part.startingTime now
  | none => part.startingTime

/-- The schedule time from the last beat to the reading of the environment. -/
def snapshotTime (layout : Layout) (predecessor : Option Predecessor) (now : Option Time)
    (part : SnapshotSection) : Time :=
  match now, predecessor with
  | some now, _ => readAt (some now) part - now
  | none, some predecessor => predecessor.slot.timeUntil part.startingTime layout.cycleLength
  | none, none => 0

/-- The positions of a section, with the time of its last beat. -/
def ofSection (layout : Layout) (predecessor : Option Predecessor) (now : Option Time)
    (placed : Indexed SnapshotSection) : List Position × Time :=
  let first := layout.firstSlot placed.thread placed.part
  let steps := ofSlots first 0 (readAt now placed.item) placed.item.timeslots
  ({ beat := .read placed.item.timeslots
     executable := (placed.item.timeslots.head?.map Timeslot.executable).getD 0
     phase := .read
     slot := first
     time := snapshotTime layout predecessor now placed.item } :: steps.1, steps.2)

/-- The positions of sections that follow one another. -/
def ofSections (layout : Layout) (predecessor : Option Predecessor) :
    (now : Option Time) → List (Indexed SnapshotSection) → List Position
  | _, [] => []
  | now, placed :: rest =>
      let here := ofSection layout predecessor now placed
      here.1 ++ ofSections layout predecessor (some here.2) rest

/-- The positions of timeslots have their beats, in order. -/
theorem map_beat_ofSlots (first : Nat) (slots : List Timeslot) : ∀ (index : Nat) (time : Time),
    (ofSlots first index time slots).1.map beat = slots.map .execute := by
  induction slots with
  | nil => exact fun _ _ => rfl
  | cons slot rest others =>
      intro index time
      rw [ofSlots, List.map_cons, others, List.map_cons]

/-- The positions of a section have its beats, in order. -/
theorem map_beat_ofSection (layout : Layout) (predecessor : Option Predecessor) (now : Option Time)
    (placed : Indexed SnapshotSection) :
    (ofSection layout predecessor now placed).1.map beat = placed.item.beats := by
  rw [ofSection, List.map_cons, map_beat_ofSlots]
  rfl

/-- The positions of sections have their beats, section by section. -/
theorem map_beat_ofSections (layout : Layout) (predecessor : Option Predecessor)
    (sections : List (Indexed SnapshotSection)) : ∀ now : Option Time,
    (ofSections layout predecessor now sections).map beat =
      sections.flatMap fun placed => placed.item.beats := by
  induction sections with
  | nil => exact fun _ => rfl
  | cons placed rest others =>
      intro now
      rw [ofSections, List.map_append, others, List.flatMap_cons, map_beat_ofSection]

end Position

/-- The node shows what has happened at a position. -/
structure Node.Shows (layout : Layout) (origin : Pool) (node : Node)
    (happened : Position × Move) : Prop where
  properties : node.properties = happened.1.properties layout origin happened.2
  incoming : node.incoming = happened.1.incoming origin happened.2

/-- The positions of a job. -/
def Job.positions (layout : Layout) (job : Job) : List Position :=
  Position.ofSections layout job.predecessor none (ScheduleThread.interleaved job.threads)

/-- The beats of threads. -/
def ScheduleThread.beats (threads : List ScheduleThread) : List Beat :=
  (interleaved threads).flatMap fun placed => placed.item.beats

/-- The positions of a job have the beats of its threads, in the order in which sections are
interleaved. -/
theorem Job.map_beat_positions (layout : Layout) (job : Job) :
    (job.positions layout).map Position.beat = ScheduleThread.beats job.threads :=
  Position.map_beat_ofSections layout job.predecessor _ none

end TimedKripke
