import Mathlib.Data.List.Forall2
import TimedKripke.Proofs.Variation.Uncounted

/-! # Paths run their sections

A path through a section takes one step for every timeslot of the section, in order, and
ends in the pool that its last step leaves (`SectionPath.Runs`); a pathway runs the sections
of its thread one after the other (`Pathway.Runs`). All pools on the way keep the frame of
the pool at the start.
-/

namespace TimedKripke

namespace SectionBranch

/-- The branches for one assignment are the conditional ringlets of the timeslot. -/
theorem expandAssignment_eq_ok {timing : ScheduleTiming} {slot : Timeslot} {branch : SectionBranch}
    {assignments : PropertyList} {children : List SectionBranch}
    (expanded : branch.expandAssignment timing slot assignments = .ok children) :
    ∃ pool snapshot ringlets, branch.pool.assign slot.executable assignments = .ok pool ∧
      branch.snapshot.assign slot.executable assignments = .ok snapshot ∧
      Ringlet.timeAware pool slot timing 0 = .ok ringlets ∧
      children = ringlets.map (branch.extend slot snapshot assignments) := by
  unfold expandAssignment at expanded
  obtain ⟨pool, isPool, expanded⟩ := Outcome.bind_eq_ok.mp expanded
  obtain ⟨snapshot, isSnapshot, expanded⟩ := Outcome.bind_eq_ok.mp expanded
  obtain ⟨ringlets, sampled, chosen⟩ := Outcome.bind_eq_ok.mp expanded
  cases chosen
  exact ⟨pool, snapshot, ringlets, isPool, isSnapshot, sampled, rfl⟩

/-- The branches of a timeslot are those for every tuple of inputs. -/
theorem expand_eq_ok {timing : ScheduleTiming} {slot : Timeslot} {branch : SectionBranch}
    {children : List SectionBranch} (expanded : branch.expand timing slot = .ok children) :
    ∃ executable combinations branches, branch.pool.get? slot.executable = some executable ∧
      Combinations.named (branch.free executable.running.observedInputs) = .ok combinations ∧
      combinations.toList.mapM (fun tuple => branch.expandAssignment timing slot
        (OrderedMap.extend (branch.shared executable.running.observedInputs)
          (((branch.free executable.running.observedInputs).map Prod.fst).zip tuple))) =
            .ok branches ∧
      children = branches.flatten := by
  unfold expand at expanded
  obtain ⟨executable, found, expanded⟩ := Outcome.bind_eq_ok.mp expanded
  obtain ⟨combinations, made, expanded⟩ := Outcome.bind_eq_ok.mp expanded
  obtain ⟨branches, visited, flat⟩ := Outcome.bind_eq_ok.mp expanded
  cases flat
  rw [Combinations.visit_eq_toList_mapM] at visited
  exact ⟨executable, combinations, branches, Pool.get_eq_ok_iff.mp found, made, visited, rfl⟩

/-- How a branch goes on through a timeslot: its inputs take a tuple of values, and one of the
conditional ringlets of the timeslot is chosen. -/
theorem exists_tuple_of_mem_expand {timing : ScheduleTiming} {slot : Timeslot}
    {branch child : SectionBranch} {children : List SectionBranch}
    (expanded : branch.expand timing slot = .ok children) (member : child ∈ children) :
    ∃ observed tuple assignments pool snapshot conditional time,
      assignments = OrderedMap.extend (branch.shared observed)
        (((branch.free observed).map Prod.fst).zip tuple) ∧
      branch.pool.assign slot.executable assignments = .ok pool ∧
      branch.snapshot.assign slot.executable assignments = .ok snapshot ∧
      Ringlet.execute pool slot timing time = .ok conditional.ringlet ∧
      child = branch.extend slot snapshot assignments conditional := by
  obtain ⟨executable, combinations, branches, _, _, visited, rfl⟩ := expand_eq_ok expanded
  obtain ⟨found, isFound, member⟩ := List.mem_flatten.mp member
  obtain ⟨tuple, _, assigned⟩ := Outcome.mem_of_mapM visited isFound
  obtain ⟨pool, snapshot, ringlets, isPool, isSnapshot, sampled, rfl⟩ :=
    expandAssignment_eq_ok assigned
  obtain ⟨conditional, isConditional, rfl⟩ := List.mem_map.mp member
  obtain ⟨time, executed⟩ := Ringlet.mem_timeAware sampled isConditional
  exact ⟨_, tuple, _, pool, snapshot, conditional, time, rfl, isPool, isSnapshot, executed, rfl⟩

/-- A child of an expanded branch stems from inputs that were assigned and from a ringlet that was
executed at some time. -/
theorem mem_expand {timing : ScheduleTiming} {slot : Timeslot} {branch child : SectionBranch}
    {children : List SectionBranch} (expanded : branch.expand timing slot = .ok children)
    (member : child ∈ children) :
    ∃ assignments pool snapshot conditional time,
      branch.pool.assign slot.executable assignments = .ok pool ∧
      branch.snapshot.assign slot.executable assignments = .ok snapshot ∧
      Ringlet.execute pool slot timing time = .ok conditional.ringlet ∧
      child = branch.extend slot snapshot assignments conditional := by
  obtain ⟨_, _, assignments, pool, snapshot, conditional, time, _, goesOn⟩ :=
    exists_tuple_of_mem_expand expanded member
  exact ⟨assignments, pool, snapshot, conditional, time, goesOn⟩

end SectionBranch

/-- The path takes the steps of a section on pools of one frame. -/
structure SectionPath.Runs (origin : Pool) (slots : List Timeslot) (path : SectionPath) :
    Prop where
  snapshot : Pool.Descends origin path.snapshot
  after : Pool.Descends origin path.after
  steps : ∀ step ∈ path.steps, Pool.Descends origin step.ringlet.after
  slots : path.steps.map (fun step => step.timeslot.uncounted) = slots.map Timeslot.uncounted
  last : ∀ step ∈ path.steps.getLast?, step.ringlet.after = path.after

namespace SectionBranch

/-- The steps that were taken and the timeslots to come make up the section. -/
def Passed (origin : Pool) (all slots : List Timeslot) (branch : SectionBranch) : Prop :=
  ∃ done, branch.toPath.Runs origin done ∧ done ++ slots = all

/-- Expanding a branch takes it past one more timeslot. -/
theorem Passed.expand {origin : Pool} {all slots : List Timeslot} {slot : Timeslot}
    {branch : SectionBranch} {timing : ScheduleTiming} {children : List SectionBranch}
    (passed : Passed origin all (slot :: slots) branch)
    (expanded : branch.expand timing slot = .ok children) :
    ∀ child ∈ children, Passed origin all slots child := by
  intro child member
  obtain ⟨done, runs, makesUp⟩ := passed
  obtain ⟨assignments, pool, snapshot, conditional, time, isPool, isSnapshot, executed, rfl⟩ :=
    mem_expand expanded member
  have after := Ringlet.execute_descends (runs.after.assign isPool) executed
  refine ⟨done ++ [slot], ⟨runs.snapshot.assign isSnapshot, after, ?_, ?_, ?_⟩,
    by simpa using makesUp⟩
  · intro step isStep
    rcases List.mem_append.mp isStep with earlier | here
    · exact runs.steps step earlier
    · rw [List.mem_singleton.mp here]
      exact after
  · have windows := runs.slots
    simp only [toPath] at windows
    simp only [toPath, extend, List.map_append, windows]
    rfl
  · intro step isLast
    simp only [toPath, extend, List.getLast?_append, List.getLast?_singleton, Option.some_or,
      Option.mem_def, Option.some.injEq] at isLast
    rw [← isLast]
    rfl

end SectionBranch

/-- **Paths run their section**, which has timeslots: one step for each of them, from pool to pool.
-/
theorem SnapshotSection.runs_of_variations {origin pool : Pool}
    (descends : Pool.Descends origin pool) {part : SnapshotSection} {timing : ScheduleTiming}
    {paths : List SectionPath} (varied : part.variations pool timing = .ok paths) :
    part.timeslots ≠ [] ∧ ∀ path ∈ paths, path.Runs origin part.timeslots := by
  unfold variations at varied
  split at varied
  · cases varied
  · rename_i someSlot
    refine ⟨by simpa using someSlot, fun path member => ?_⟩
    rw [Search.run_eq_explore] at varied
    obtain ⟨branches, explored, rfl⟩ := Outcome.map_eq_ok.mp varied
    obtain ⟨branch, isBranch, rfl⟩ := List.mem_map.mp member
    have start : SectionBranch.Passed origin part.timeslots part.timeslots
        (SectionBranch.start pool) :=
      ⟨[], ⟨descends, descends, fun _ impossible => (nomatch impossible), rfl,
        fun _ impossible => (nomatch impossible)⟩, rfl⟩
    obtain ⟨done, runs, all⟩ :=
      Search.explore_preserves (fun passed => passed.expand) start explored
      branch isBranch
    rw [List.append_nil] at all
    exact all ▸ runs

namespace SectionPath.Runs

variable {origin : Pool} {slots : List Timeslot} {path : SectionPath}

/-- A path has as many steps as timeslots it runs through. -/
theorem length_eq (runs : path.Runs origin slots) : path.steps.length = slots.length := by
  simpa using congrArg List.length runs.slots

/-- Assigning the inputs of later steps keeps the frame. -/
theorem assignLater (ran : List ExecutableId) {steps : List SectionStep} :
    ∀ {pool assigned : Pool}, Pool.Descends origin pool →
      SectionPath.assignLater ran pool steps = .ok assigned → Pool.Descends origin assigned := by
  induction steps with
  | nil =>
      rintro pool _ descends ⟨⟩
      exact descends
  | cons step rest others =>
      intro pool assigned descends made
      rw [SectionPath.assignLater] at made
      split at made
      · exact others descends made
      · split at made
        · cases made
        · rename_i next isNext
          exact others (descends.assign isNext) made

/-- The pools that are observed along a path descend from the origin. -/
theorem observedAfter (runs : path.Runs origin slots) {index : Nat} {observed : Pool}
    (shown : path.observedAfter index = .ok observed) : Pool.Descends origin observed := by
  unfold SectionPath.observedAfter at shown
  split at shown
  · cases shown
    exact runs.after
  · rename_i step isStep
    exact assignLater _ (runs.steps step (List.mem_of_getElem? isStep)) shown

/-- After the last step nothing is left to be shown but the pool at the end. -/
theorem observedAfter_last (runs : path.Runs origin slots) {index : Nat}
    (last : index + 1 = path.steps.length) : path.observedAfter index = .ok path.after := by
  have inside : index < path.steps.length := by omega
  have isLast : path.steps.getLast? = some path.steps[index] := by
    rw [List.getLast?_eq_getElem?, ← last]
    simp [inside]
  unfold SectionPath.observedAfter
  rw [List.getElem?_eq_getElem inside, List.drop_eq_nil_of_le (by omega)]
  exact congrArg Except.ok (runs.last _ isLast)

end SectionPath.Runs

/-- The pathway runs sections one after the other, on pools of one frame. -/
structure Pathway.Runs (origin : Pool) (sections : List SnapshotSection) (pathway : Pathway) :
    Prop where
  after : Pool.Descends origin pathway.after
  /-- Every section has timeslots and is run by its path. -/
  sections : List.Forall₂ (fun (part : SnapshotSection) (path : SectionPath) =>
    part.timeslots ≠ [] ∧ path.Runs origin part.timeslots) sections pathway.sections

namespace ScheduleThread

/-- The sections that were run and those to come make up the thread. -/
def Passed (origin pool : Pool) (all sections : List SnapshotSection) (pathway : Pathway) : Prop :=
  ∃ done, pathway.entry = pool ∧ pathway.Runs origin done ∧ done ++ sections = all

/-- Expanding a pathway takes it past one more section. -/
theorem Passed.expandSection {origin pool : Pool} {all sections : List SnapshotSection}
    {part : SnapshotSection} {pathway : Pathway} {timing : ScheduleTiming} {children : List Pathway}
    (passed : Passed origin pool all (part :: sections) pathway)
    (expanded : ScheduleThread.expandSection timing part pathway = .ok children) :
    ∀ child ∈ children, Passed origin pool all sections child := by
  intro child member
  obtain ⟨done, entry, runs, makesUp⟩ := passed
  obtain ⟨paths, varied, rfl⟩ := Outcome.map_eq_ok.mp expanded
  obtain ⟨path, isPath, rfl⟩ := List.mem_map.mp member
  obtain ⟨someSlot, each⟩ := SnapshotSection.runs_of_variations runs.after varied
  have runsPath := each path isPath
  refine ⟨done ++ [part], entry, ⟨?_, ?_⟩, by simpa using makesUp⟩
  · have ends : Pathway.after { pathway with sections := pathway.sections ++ [path] } =
        path.after := by
      simp [Pathway.after]
    rw [ends]
    exact runsPath.after
  · exact List.rel_append runs.sections (.cons ⟨someSlot, runsPath⟩ .nil)

/-- **Pathways run their thread** from the pool it starts with, section by section. -/
theorem runs_of_variations {origin pool : Pool} (descends : Pool.Descends origin pool)
    {thread : ScheduleThread} {timing : ScheduleTiming} {pathways : List Pathway}
    (varied : thread.variations pool timing = .ok pathways) :
    ∀ pathway ∈ pathways, pathway.entry = pool ∧ pathway.Runs origin thread.sections := by
  intro pathway member
  rw [variations, Search.run_eq_explore] at varied
  have start : Passed origin pool thread.sections thread.sections
      { entry := pool, sections := [] } := ⟨[], rfl, ⟨descends, .nil⟩, rfl⟩
  obtain ⟨done, entry, runs, all⟩ := Search.explore_preserves
    (fun passed => passed.expandSection) start varied pathway member
  rw [List.append_nil] at all
  exact ⟨entry, all ▸ runs⟩

end ScheduleThread

end TimedKripke
