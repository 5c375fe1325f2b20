import TimedKripke.Proofs.Verification.CycleClosure
import TimedKripke.Proofs.Verification.Places

/-! # Positions that states tell

A state of the Kripke structure shows the pool, the text of a program counter and, where an
executable has several timeslots, the place among all timeslots. The phase can always be read off
(`ProgramCounter.phase_of_display`). The timeslot can be read off where its place is shown, or
where no two scheduled executables have program counters with one text
(`slot_eq_of_properties`). Executables of one machine do have such program counters, whatever
they are registered as.
-/

namespace TimedKripke

namespace ProgramCounter

/-- **The text of a program counter tells the phase**, and what stands before it. -/
theorem phase_of_display {first second : ProgramCounter} (same : first.display = second.display) :
    first.phase = second.phase ∧
      first.executable ++ "." ++ first.state = second.executable ++ "." ++ second.state := by
  have texts :
      (first.executable ++ "." ++ first.state).toList ++ ("." ++ first.phase.letter).toList =
        (second.executable ++ "." ++ second.state).toList ++ ("." ++ second.phase.letter).toList := by
    rw [← String.toList_append, ← String.toList_append, ← String.append_assoc,
      ← String.append_assoc]
    exact congrArg String.toList same
  have short : ("." ++ first.phase.letter).toList.length =
      ("." ++ second.phase.letter).toList.length := by
    cases first.phase <;> cases second.phase <;> rfl
  obtain ⟨before, after⟩ := List.append_inj' texts short
  refine ⟨?_, String.toList_inj.mp before⟩
  revert after
  cases first.phase <;> cases second.phase <;> decide

end ProgramCounter

/-- No two of the executables have program counters with one text. -/
def Pool.TellsApart (pool : Pool) (ids : List ExecutableId) : Prop :=
  ∀ first ∈ ids, ∀ second ∈ ids, first ≠ second → ∀ left right : Executable,
    pool.get? first = some left → pool.get? second = some right →
      ∀ state other : String, left.name ++ "." ++ state ≠ right.name ++ "." ++ other

section Blocks

variable {α β : Type} {items : List α} {parts : α → List β} {index : Nat} {item : α}
  (isItem : items[index]? = some item)
include isItem

/-- The parts of some items are those of the items before an index, of the item there and of the
items after it. -/
theorem flatMap_eq_of_getElem? : items.flatMap parts =
    (items.take index).flatMap parts ++ (parts item ++ (items.drop (index + 1)).flatMap parts) := by
  have split : items = items.take index ++ item :: items.drop (index + 1) := by
    obtain ⟨inside, rfl⟩ := List.getElem?_eq_some_iff.mp isItem
    rw [List.getElem_cons_drop inside, List.take_append_drop]
  conv_lhs => rw [split]
  rw [List.flatMap_append, List.flatMap_cons]

/-- The parts of an item stand behind those of the items before it. -/
theorem getElem?_flatMap {step : Nat} {part : β} (isPart : (parts item)[step]? = some part) :
    (items.flatMap parts)[((items.take index).flatMap parts).length + step]? = some part := by
  have inside := (List.getElem?_eq_some_iff.mp isPart).choose
  rw [flatMap_eq_of_getElem? isItem, List.getElem?_append_right (Nat.le_add_right ..),
    Nat.add_sub_cancel_left, List.getElem?_append_left inside]
  exact isPart

/-- The parts of an item stand before those of the items after it. -/
theorem length_flatMap_take_le {later : Nat} (isLater : index < later) :
    ((items.take index).flatMap parts).length + (parts item).length ≤
      ((items.take later).flatMap parts).length := by
  have isTaken : (items.take later)[index]? = some item := by
    rw [List.getElem?_take_of_lt isLater]
    exact isItem
  rw [flatMap_eq_of_getElem? isTaken, List.take_take, Nat.min_eq_left (Nat.le_of_lt isLater)]
  simp only [List.length_append]
  omega

end Blocks

namespace Layout

/-- A place that fits into 64 bits can be read off the value that stands for it. -/
theorem slotValue_inj {first second : Nat} (fits : first < 18446744073709551616)
    (fits' : second < 18446744073709551616) (same : slotValue first = slotValue second) :
    first = second := by
  have value : ∀ {slot : Nat}, slot < 18446744073709551616 →
      ∃ inside, slotValue slot = .int .u64 slot inside := by
    intro slot fits
    have inside : IntKind.u64.Contains slot := ⟨Int.natCast_nonneg slot, by
      change (slot : Int) ≤ 18446744073709551615
      omega⟩
    exact ⟨inside, by simp [slotValue, ValueType.integerValue, inside]⟩
  obtain ⟨_, isFirst⟩ := value fits
  obtain ⟨_, isSecond⟩ := value fits'
  rw [isFirst, isSecond] at same
  exact Int.ofNat.inj (Value.int.inj same).2

/-- The places of sections count the timeslots before them. -/
theorem placeSections_eq (sections : List SnapshotSection) : ∀ place : Nat,
    (placeSections place sections).2 = place + (sections.flatMap SnapshotSection.timeslots).length ∧
      ∀ index < sections.length, (placeSections place sections).1[index]? =
        some (place + ((sections.take index).flatMap SnapshotSection.timeslots).length) := by
  induction sections with
  | nil =>
      exact fun place => ⟨rfl, fun index impossible => absurd impossible (Nat.not_lt_zero index)⟩
  | cons first rest others =>
      intro place
      obtain ⟨ends, each⟩ := others (place + first.timeslots.length)
      rw [placeSections, List.flatMap_cons]
      refine ⟨by simp only [ends, List.length_append]; omega, fun index inside => ?_⟩
      cases index with
      | zero => rfl
      | succ index =>
          rw [List.getElem?_cons_succ, each index (Nat.lt_of_succ_lt_succ inside),
            List.take_succ_cons,
            List.flatMap_cons, List.length_append, Nat.add_assoc]

/-- The places of threads count the timeslots before them. -/
theorem placeThreads_eq (threads : List ScheduleThread) : ∀ (place : Nat) {position index : Nat}
    {thread : ScheduleThread}, threads[position]? = some thread → index < thread.sections.length →
      ((placeThreads place threads)[position]?.bind fun sections => sections[index]?) =
        some (place + (((threads.take position).flatMap ScheduleThread.timeslots).length +
          ((thread.sections.take index).flatMap SnapshotSection.timeslots).length)) := by
  induction threads with
  | nil => exact fun _ _ _ _ impossible => nomatch impossible
  | cons first rest others =>
      intro place position index thread isThread inside
      obtain ⟨ends, each⟩ := placeSections_eq first.sections place
      rw [placeThreads]
      cases position with
      | zero =>
          cases isThread
          rw [List.getElem?_cons_zero, Option.bind_some, each index inside]
          simp
      | succ position =>
          rw [List.getElem?_cons_succ, others _ isThread inside, ends, List.take_succ_cons,
            List.flatMap_cons, List.length_append, ScheduleThread.timeslots]
          congr 1
          omega

variable {schedule : Schedule} {position index : Nat} {thread : ScheduleThread}
  (isThread : schedule.threads[position]? = some thread)
include isThread

/-- The first timeslot of a section is numbered by the timeslots of the threads before its own and
of the sections before it in the thread. -/
theorem firstSlot_eq (inside : index < thread.sections.length) :
    (new schedule).firstSlot position index =
      ((schedule.threads.take position).flatMap ScheduleThread.timeslots).length +
        ((thread.sections.take index).flatMap SnapshotSection.timeslots).length := by
  unfold firstSlot new
  rw [placeThreads_eq schedule.threads 0 isThread inside, Nat.zero_add]
  rfl

/-- The place of a timeslot of a section is its place among all timeslots. -/
theorem timeslot_firstSlot {step : Nat} {part : SnapshotSection} {slot : Timeslot}
    (isPart : thread.sections[index]? = some part) (isSlot : part.timeslots[step]? = some slot) :
    schedule.timeslots[(new schedule).firstSlot position index + step]? = some slot := by
  have inside := (List.getElem?_eq_some_iff.mp isPart).choose
  rw [firstSlot_eq isThread inside, Nat.add_assoc]
  exact getElem?_flatMap isThread (getElem?_flatMap isPart isSlot)

/-- A section's timeslots are placed before those of a later section of its thread, and of a later
thread. -/
theorem firstSlot_add_le {position' index' : Nat} {thread' : ScheduleThread}
    {part part' : SnapshotSection} (isThread' : schedule.threads[position']? = some thread')
    (isPart : thread.sections[index]? = some part)
    (isPart' : thread'.sections[index']? = some part')
    (isLater : position < position' ∨ position = position' ∧ index < index') :
    (new schedule).firstSlot position index + part.timeslots.length ≤
      (new schedule).firstSlot position' index' := by
  have inside := (List.getElem?_eq_some_iff.mp isPart).choose
  have inside' := (List.getElem?_eq_some_iff.mp isPart').choose
  rw [firstSlot_eq isThread inside, firstSlot_eq isThread' inside']
  rcases isLater with isLater | ⟨rfl, isLater⟩
  · have threads : ((schedule.threads.take position).flatMap ScheduleThread.timeslots).length +
        (thread.sections.flatMap SnapshotSection.timeslots).length ≤
          ((schedule.threads.take position').flatMap ScheduleThread.timeslots).length :=
      length_flatMap_take_le isThread isLater
    have sections : ((thread.sections.take index).flatMap SnapshotSection.timeslots).length +
        part.timeslots.length ≤ ((thread.sections.take thread.sections.length).flatMap
          SnapshotSection.timeslots).length := length_flatMap_take_le isPart inside
    rw [List.take_length] at sections
    omega
  · cases isThread.symm.trans isThread'
    have sections : ((thread.sections.take index).flatMap SnapshotSection.timeslots).length +
        part.timeslots.length ≤
          ((thread.sections.take index').flatMap SnapshotSection.timeslots).length :=
      length_flatMap_take_le isPart isLater
    omega

/-- **Places tell timeslots apart**: the same number belongs to one thread, one section of it and
one step of the section. -/
theorem firstSlot_inj {position' index' step step' : Nat} {thread' : ScheduleThread}
    {part part' : SnapshotSection} (isThread' : schedule.threads[position']? = some thread')
    (isPart : thread.sections[index]? = some part)
    (isPart' : thread'.sections[index']? = some part')
    (inside : step < part.timeslots.length) (inside' : step' < part'.timeslots.length)
    (same : (new schedule).firstSlot position index + step =
      (new schedule).firstSlot position' index' + step') :
    position = position' ∧ index = index' ∧ step = step' := by
  have before : ¬ (position < position' ∨ position = position' ∧ index < index') := by
    intro isLater
    have placed := firstSlot_add_le isThread isThread' isPart isPart' isLater
    omega
  have after : ¬ (position' < position ∨ position' = position ∧ index' < index) := by
    intro isLater
    have placed := firstSlot_add_le isThread' isThread isPart' isPart isLater
    omega
  obtain rfl : position = position' := by omega
  obtain rfl : index = index' := by omega
  exact ⟨rfl, rfl, by omega⟩

end Layout

/-- **The timeslot can be read off.** Executables in timeslots are shown in the same way only if
the timeslots are the same and so are the phases. -/
theorem Schedule.slot_eq_of_shown {schedule : Schedule} {pool : Pool}
    (few : schedule.timeslots.length ≤ 18446744073709551616)
    (told : schedule.hasRepeatedExecutables = true ∨
      pool.TellsApart (schedule.timeslots.map Timeslot.executable)) {place place' : Nat}
    {slot slot' : Timeslot} (isSlot : schedule.timeslots[place]? = some slot)
    (isSlot' : schedule.timeslots[place']? = some slot') {executable executable' : Executable}
    (found : pool.get? slot.executable = some executable)
    (found' : pool.get? slot'.executable = some executable') {shown shown' : Pool}
    {state state' : String} {phase phase' : Phase}
    (same : (Layout.new schedule).properties shown
        { executable := executable.name, state, phase } place =
      (Layout.new schedule).properties shown'
        { executable := executable'.name, state := state', phase := phase' } place') :
    place = place' ∧ phase = phase' := by
  have counters := (Prod.mk.inj (List.cons.inj (List.cons.inj same).2).1).2
  obtain ⟨phases, texts⟩ := ProgramCounter.phase_of_display (Value.string.inj counters)
  refine ⟨?_, phases⟩
  have inside := (List.getElem?_eq_some_iff.mp isSlot).choose
  have inside' := (List.getElem?_eq_some_iff.mp isSlot').choose
  cases repeats : schedule.hasRepeatedExecutables with
  | true =>
      have shows : (Layout.new schedule).repeated = true := repeats
      have slots := (List.cons.inj (List.cons.inj same).2).2
      rw [if_pos shows, if_pos shows] at slots
      have values := (Prod.mk.inj (List.cons.inj slots).1).2
      exact Layout.slotValue_inj (Nat.lt_of_lt_of_le inside few) (Nat.lt_of_lt_of_le inside' few)
        values
  | false =>
      have apart := told.resolve_left (by simp [repeats])
      have distinct : (schedule.timeslots.map Timeslot.executable).Nodup := by
        simpa [Schedule.hasRepeatedExecutables] using repeats
      have sameRoot : slot.executable = slot'.executable := by
        by_contra differ
        exact apart _ (List.mem_map_of_mem (List.mem_of_getElem? isSlot)) _
          (List.mem_map_of_mem (List.mem_of_getElem? isSlot')) differ _ _ found found' _ _ texts
      have sameEntry : (schedule.timeslots.map Timeslot.executable)[place]? =
          (schedule.timeslots.map Timeslot.executable)[place']? := by
        rw [List.getElem?_map, List.getElem?_map, isSlot, isSlot', Option.map_some, Option.map_some,
          sameRoot]
      exact (List.getElem?_inj (by rwa [List.length_map]) distinct).mp sameEntry

/-- The sections of pathways are laid out with their places. -/
theorem ScheduledPath.getElem?_of_mem {chosen : List Pathway} {scheduled : ScheduledPath}
    (member : scheduled ∈ ofPathways chosen) : ∃ pathway, chosen[scheduled.thread]? = some pathway ∧
      pathway.sections[scheduled.part]? = some scheduled.path := by
  obtain ⟨⟨pathway, thread⟩, isPathway, member⟩ := List.mem_flatMap.mp member
  obtain ⟨⟨path, part⟩, isPath, rfl⟩ := List.mem_map.mp member
  exact ⟨pathway, List.mem_zipIdx_iff_getElem?.mp isPathway, List.mem_zipIdx_iff_getElem?.mp isPath⟩

/-- Stations belong to the sections of the chosen pathways. -/
theorem Job.scheduled_of_mem_stations {chosen : List Pathway} {station : Station}
    (member : station ∈ Job.stations chosen) :
    station.scheduled ∈ ScheduledPath.ofPathways chosen := by
  have own : ∀ {scheduled : ScheduledPath} {index : Nat} {steps : List SectionStep},
      station ∈ scheduled.stationsFrom index steps → station.scheduled = scheduled := by
    intro scheduled index steps
    induction steps generalizing index with
    | nil => exact fun impossible => nomatch impossible
    | cons step rest others =>
        intro member
        rcases List.mem_cons.mp member with rfl | member
        · rfl
        · exact others member
  obtain ⟨scheduled, isSection, member⟩ := List.mem_flatMap.mp member
  have isOwn : station.scheduled = scheduled := by
    rcases List.mem_cons.mp member with rfl | member
    · rfl
    · exact own member
  rw [isOwn]
  exact List.mem_mergeSort.mp isSection

/-- The step of the station is made in the timeslot, whatever its count of idle steps is by then. -/
def Station.IsIn (station : Station) (slot : Timeslot) : Prop :=
  ∃ step, station.scheduled.path.steps[station.index]? = some step ∧
    step.timeslot.uncounted = slot.uncounted

/-- The job emits the node at the station. -/
def Job.EmitsAt (layout : Layout) (job : Job) (node : Node) (station : Station) : Prop :=
  ∃ chosen variation, job.Follows layout chosen ∧ job.variation layout chosen = .ok variation ∧
    (node, station) ∈ variation.nodes.zip (Job.stations chosen)

/-- Lists that are mapped to one list have partners at every place. -/
theorem exists_getElem?_of_map_eq {α β : Type} {view : α → β} {first second : List α}
    (same : first.map view = second.map view) {index : Nat} {item : α}
    (found : first[index]? = some item) :
    ∃ other, second[index]? = some other ∧ view item = view other := by
  have there := congrArg (fun views => views[index]?) same
  simp only [List.getElem?_map, found, Option.map_some] at there
  obtain ⟨other, isOther, viewed⟩ := Option.map_eq_some_iff.mp there.symm
  exact ⟨other, isOther, viewed.symm⟩

section Stations

variable {schedule : Schedule} {pool : Pool} {job : Job}

/-- **A node stands at its timeslot.** The timeslot of its station is the one at the station's place
among all timeslots, and the node shows the name of the machine that is scheduled there, the phase
and that place. -/
theorem Job.EmitsAt.timeslot (wellFormed : pool.WellFormed)
    (ordered : ∀ thread ∈ schedule.threads, thread.ordered = thread)
    (reached : Job.Reached (Layout.new schedule) (schedule.firstJob pool) job) {node : Node}
    {station : Station} (emits : job.EmitsAt (Layout.new schedule) node station) :
    ∃ slot executable shown state,
      schedule.timeslots[station.slot (Layout.new schedule)]? = some slot ∧ station.IsIn slot ∧
      pool.get? slot.executable = some executable ∧
      node.properties = (Layout.new schedule).properties shown
        { executable := executable.name, state, phase := station.phase }
        (station.slot (Layout.new schedule)) := by
  obtain ⟨chosen, variation, follows, made, isPair⟩ := emits
  obtain ⟨step, executable, shown, state, isStep, found, properties⟩ :=
    (List.forall₂_iff_zip.mp (Job.nodes_of_variation follows made).1).2 isPair
  -- The step, in the thread that the job was left.
  have isSection := Job.scheduled_of_mem_stations (List.of_mem_zip isPair).2
  obtain ⟨pathway, isPathway, isPath⟩ := ScheduledPath.getElem?_of_mem isSection
  have descends := (reached.kept wellFormed.descends).1
  obtain ⟨thread, isThread, _, runs⟩ :=
    Outcome.exists_getElem?_left (follows.runs descends) isPathway
  obtain ⟨part, isPart, _, runsPath⟩ := Outcome.exists_getElem?_left runs.sections isPath
  have isOwnStep : (station.scheduled.path.steps.map SectionStep.timeslot)[station.index]? =
      some step.timeslot := by rw [List.getElem?_map, isStep, Option.map_some]
  have slots : (station.scheduled.path.steps.map SectionStep.timeslot).map Timeslot.uncounted =
      part.timeslots.map Timeslot.uncounted := by
    rw [List.map_map]
    exact runsPath.slots
  obtain ⟨own, isOwn, sameStep⟩ := exists_getElem?_of_map_eq slots isOwnStep
  -- The same step in the schedule.
  obtain ⟨original, isOriginal, sameThread⟩ :=
    exists_getElem?_of_map_eq (reached.threads wellFormed.descends ordered) isThread
  obtain ⟨place, isPlace, samePart⟩ := exists_getElem?_of_map_eq
    (congrArg ScheduleThread.sections sameThread) isPart
  obtain ⟨slot, isSlot, sameSlot⟩ := exists_getElem?_of_map_eq
    (congrArg SnapshotSection.timeslots samePart) isOwn
  have sameTimeslot : step.timeslot.uncounted = slot.uncounted := sameStep.trans sameSlot
  have root : slot.executable = step.executable :=
    congrArg (fun slot => slot.callChain.root) sameTimeslot.symm
  -- The machine there is that of the pool at the start.
  have isFound := Pool.get_eq_ok_iff.mp found
  obtain ⟨known, isKnown⟩ : ∃ known, pool.get? step.executable = some known := by
    rw [Pool.exists_get?_iff, Pool.ids_eq_of_frame runsPath.snapshot.frame.symm,
      ← Pool.exists_get?_iff]
    exact ⟨executable, isFound⟩
  have sameName : known.name = executable.name := by
    have frames := Pool.frame_of_get? wellFormed.nodup runsPath.snapshot.frame.symm isKnown isFound
    exact congrArg Machine.name (Executable.machine_eq_of_frame frames)
  refine ⟨slot, known, shown, state, Layout.timeslot_firstSlot isOriginal isPlace isSlot,
    ⟨step, isStep, sameTimeslot⟩, ?_, ?_⟩
  · rw [root]
    exact isKnown
  · rw [sameName]
    exact properties

/-- **Positions that states tell.** In a schedule whose threads are in order, nodes that show the
same properties stand at the same place among all timeslots, in the timeslot that the schedule has
there, and in the same phase, if the timeslot is shown or if no two scheduled executables have
program counters with one text. -/
theorem slot_eq_of_properties (wellFormed : pool.WellFormed)
    (ordered : ∀ thread ∈ schedule.threads, thread.ordered = thread)
    (few : schedule.timeslots.length ≤ 18446744073709551616)
    (told : schedule.hasRepeatedExecutables = true ∨
      pool.TellsApart (schedule.timeslots.map Timeslot.executable)) {first second : Job}
    (reached : Job.Reached (Layout.new schedule) (schedule.firstJob pool) first)
    (reached' : Job.Reached (Layout.new schedule) (schedule.firstJob pool) second)
    {node other : Node} {station place : Station}
    (emits : first.EmitsAt (Layout.new schedule) node station)
    (emits' : second.EmitsAt (Layout.new schedule) other place)
    (same : node.properties = other.properties) :
    station.slot (Layout.new schedule) = place.slot (Layout.new schedule) ∧
      station.phase = place.phase ∧
      ∃ slot, schedule.timeslots[station.slot (Layout.new schedule)]? = some slot ∧
        station.IsIn slot ∧ place.IsIn slot := by
  obtain ⟨slot, executable, shown, state, isSlot, isIn, found, properties⟩ :=
    emits.timeslot wellFormed ordered reached
  obtain ⟨slot', executable', shown', state', isSlot', isIn', found', properties'⟩ :=
    emits'.timeslot wellFormed ordered reached'
  rw [properties, properties'] at same
  obtain ⟨samePlace, samePhase⟩ :=
    Schedule.slot_eq_of_shown few told isSlot isSlot' found found' same
  rw [← samePlace, isSlot] at isSlot'
  cases isSlot'
  exact ⟨samePlace, samePhase, slot, isSlot, isIn, isIn'⟩

end Stations

namespace Duo

/-- A machine that stays in its only state. -/
def machine (name : String) : Machine :=
  { name
    states := [{ name := "Idle", onEntry := none, onExit := none, internal := none
                 transitions := [], observes := none }]
    initialState := 0
    exitState := none
    suspendState := none
    variableTypes := []
    initialVariables := []
    initialExternals := [] }

/-- The two machines. -/
def pool : Pool :=
  { entries := [
      { registration := { id := 0, name := "a", dependencies := [] }
        executable := .scheduled (machine "Left").start },
      { registration := { id := 1, name := "b", dependencies := [] }
        executable := .scheduled (machine "Right").start }] }

/-- The machines take turns, each in its own section. Neither is ever scheduled twice, so states do
not show the timeslot; the names of the machines tell it. -/
def schedule : Schedule :=
  { threads := [{ sections := [{ timeslots := [Timeslot.new 0 0 1] },
      { timeslots := [Timeslot.new 1 5 1] }] }] }

/-- A machine of the duo is well-formed at its start. -/
theorem running (name : String) : (machine name).start.WellFormed :=
  Machine.WellFormed.start ⟨by simp [machine], by simp [machine], by simp [machine],
    by simp [machine], by simp [machine], by simp [machine, External.Typed]⟩

/-- The pool of the duo is well-formed. -/
theorem wellFormed : pool.WellFormed := by
  refine ⟨by simp [pool, Pool.ids, PoolEntry.id], ?_⟩
  simp [pool, Executable.running, running]

/-- The threads of the duo are stored in order. -/
theorem ordered : ∀ thread ∈ schedule.threads, thread.ordered = thread := by
  intro thread isThread
  rw [List.mem_singleton.mp isThread]
  cbv

/-- The two executables of the duo are told apart by their machines. -/
theorem tellsApart : pool.TellsApart (schedule.timeslots.map Timeslot.executable) := by
  have firstLetter : ∀ state other : String, "Left" ++ "." ++ state ≠ "Right" ++ "." ++ other := by
    intro state other same
    have letters := congrArg (fun text => text.toList.head?) same
    simp [String.toList_append] at letters
  intro first isFirst second isSecond differ left right found found' state other
  have ids : schedule.timeslots.map Timeslot.executable = [0, 1] := rfl
  have isLeft : pool.get? 0 = some (.scheduled (machine "Left").start) := rfl
  have isRight : pool.get? 1 = some (.scheduled (machine "Right").start) := rfl
  rw [ids] at isFirst isSecond
  simp only [List.mem_cons, List.not_mem_nil, or_false] at isFirst isSecond
  rcases isFirst with rfl | rfl <;> rcases isSecond with rfl | rfl
  · exact absurd rfl differ
  · cases isLeft.symm.trans found
    cases isRight.symm.trans found'
    exact firstLetter state other
  · cases isRight.symm.trans found
    cases isLeft.symm.trans found'
    exact (firstLetter other state).symm
  · exact absurd rfl differ

end Duo

/-- Where the two machines show the same, they stand at the same timeslot in the same phase. -/
theorem duo_slot_eq_of_properties : ∃ node station,
    (Duo.schedule.firstJob Duo.pool).EmitsAt (Layout.new Duo.schedule) node station ∧
    ∀ job other place, Job.Reached (Layout.new Duo.schedule) (Duo.schedule.firstJob Duo.pool) job →
      job.EmitsAt (Layout.new Duo.schedule) other place → node.properties = other.properties →
        station.slot (Layout.new Duo.schedule) = place.slot (Layout.new Duo.schedule) ∧
          station.phase = place.phase ∧
          ∃ slot, Duo.schedule.timeslots[station.slot (Layout.new Duo.schedule)]? = some slot ∧
            station.IsIn slot ∧ place.IsIn slot := by
  have expands : ((Duo.schedule.firstJob Duo.pool).expand (Layout.new Duo.schedule)).map
      List.length = .ok 1 := by cbv
  obtain ⟨variations, expanded, _⟩ := Outcome.map_eq_ok.mp expands
  obtain ⟨variation, member⟩ := Job.exists_variation expanded
  obtain ⟨chosen, follows, made⟩ := Job.mem_expand expanded member
  obtain ⟨shown, node, rest, nodes, _⟩ := Job.nodes_of_variation follows made
  obtain ⟨station, isPair, _⟩ := Outcome.exists_zip shown (nodes ▸ List.mem_cons_self)
  refine ⟨node, station, ⟨chosen, variation, follows, made, isPair⟩, ?_⟩
  intro job other place reached emits same
  exact slot_eq_of_properties Duo.wellFormed Duo.ordered (by decide) (.inr Duo.tellsApart) .first
    reached ⟨chosen, variation, follows, made, isPair⟩ emits same

end TimedKripke
