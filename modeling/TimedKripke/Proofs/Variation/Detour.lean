import TimedKripke.Proofs.Ringlet.Intervals
import TimedKripke.Proofs.Variation.Presentation
import TimedKripke.Proofs.Variation.Stroll

/-! # Taking another turn in time

The conditions of a timeslot's ringlets hold at every clock value (`Ringlet.exists_standing`). So
whatever way through a section was taken, at each of its steps another way could have been taken
that stands for a given clock value, with the same steps before it and in the same environment
(`SnapshotSection.exists_detour`). That the environment can be kept is due to timeslots that change
only their own executables (`Timeslot.Alone`), as they do where machines issue no calls
(`Timeslot.alone_of_callFree`).
-/

namespace TimedKripke

/-- **Some ringlet stands for every clock value**, because the samples from zero on tile all times.
-/
theorem Ringlet.exists_standing {pool : Pool} {slot : Timeslot} {timing : ScheduleTiming}
    {ringlets : List ConditionalRinglet} (sampled : timeAware pool slot timing 0 = .ok ringlets)
    (time : Time) :
    ∃ conditional ∈ ringlets, conditional.condition.satisfiedBy time = true := by
  have reached : 0 ≤ time := UInt64.le_iff_toNat_le.mpr (Nat.zero_le _)
  obtain ⟨conditional, only⟩ := (tiling_timeAware sampled).exists_filter reached
  obtain ⟨member, stands⟩ := List.mem_filter.mp (only ▸ List.mem_singleton_self conditional)
  exact ⟨conditional, member, stands⟩

/-- In no step does the machine issue calls. -/
def Machine.CallFree (machine : Machine) : Prop :=
  ∀ {running stepped : Instance} {id : ExecutableId} {arguments : PropertyList}
    {directory : Directory} {clock : Clock} {outcome : StepOutcome}, running.machine = machine →
      running.step id arguments directory clock = .ok (outcome, stepped) → outcome.issued = []

/-- A machine that never asks for a call issues none. -/
theorem Machine.callFree_of_mayRequest {machine : Machine}
    (never : ∀ method name parameters, ¬ machine.MayRequest (.call method name parameters)) :
    machine.CallFree := by
  intro running stepped id arguments directory clock outcome isMachine made
  refine List.eq_nil_iff_forall_not_mem.mpr fun call isIssued => ?_
  obtain ⟨method, name, parameters, may, _⟩ := Instance.mayCall_of_issued made call isIssued
  exact never method name parameters (isMachine ▸ may)

/-- No machine of the pool issues calls. -/
def Pool.CallFree (pool : Pool) : Prop :=
  ∀ entry ∈ pool.entries, entry.executable.running.machine.CallFree

/-- Executing the timeslot changes its own executable only. -/
def Timeslot.Alone (origin : Pool) (slot : Timeslot) : Prop :=
  ∀ id, id ≠ slot.executable → slot.Spares origin id

section CallFree

variable {origin : Pool} (callFree : origin.CallFree)
include callFree

/-- No step of a descendant of a pool without calls issues one. -/
theorem Pool.CallFree.issued {pool : Pool} (descends : Descends origin pool) {id : ExecutableId}
    {executable stepped : Executable} (found : pool.get? id = some executable)
    {directory : Directory} {clock : Clock} {outcome : StepOutcome}
    (made : executable.step id directory clock = .ok (outcome, stepped)) :
    outcome.issued = [] := by
  obtain ⟨known, isKnown, machine⟩ := descends.exists_known found
  obtain ⟨entry, isEntry, _, rfl⟩ := mem_of_get? isKnown
  obtain ⟨_, ⟨_, rfl⟩ | ⟨arguments, ran⟩⟩ := Executable.step_cases made
  · rfl
  · exact callFree entry isEntry machine ran

/-- Where no calls are issued, the root of an empty chain is all that changes. -/
theorem Dispatch.preserved_alone (root : ExecutableId) (before : Pool) :
    Preserved (fun state => Pool.Descends origin state.pool ∧ state.chain = .new root ∧
      ∀ id, id ≠ root → state.pool.get? id = before.get? id) (fun _ => False) where
  steps := by
    rintro state executable stepped outcome ⟨descends, isChain, same⟩ found made
    have kept := (preserved_descends origin).steps descends found made
    refine ⟨⟨kept.1, isChain, fun id other => ?_⟩, ?_⟩
    · have active : state.chain.executable = root := by
        rw [isChain]
        rfl
      rw [afterStep, Pool.get?_set, active, if_neg other]
      exact same id other
    · rw [callFree.issued descends found made]
      exact fun _ impossible => absurd impossible List.not_mem_nil
  begins := fun _ impossible => impossible.elim
  closes := by
    rintro state ⟨descends, isChain, same⟩
    refine ⟨descends, ?_, same⟩
    rw [closed, isChain]
    rfl

/-- **Where no calls are issued, timeslots change their own executables only.** -/
theorem Timeslot.alone_of_callFree {slot : Timeslot} (unopened : slot.callChain.calls = []) :
    slot.Alone origin := by
  intro id other
  refine ⟨other, fun {pool timing time ringlet} descends executed => ?_⟩
  obtain ⟨_, execution, final, _, _, ran, _, rfl⟩ := Ringlet.execute_eq_ok executed
  have start : slot.callChain = .new slot.executable := by
    rw [CallChain.new, ← unopened]
    rfl
  have kept := (Dispatch.executeActive_preserves
    (Dispatch.preserved_alone callFree slot.executable pool) pool.callDepthBound
    { pool, chain := slot.callChain, clock := Clock.new timing time, calls := [] }
    ⟨descends, start, fun _ _ => rfl⟩).2.2 id other
  have isFinal : (executeTimeslot pool slot (Clock.new timing time)).2 = final := by rw [ran]
  rw [← isFinal]
  exact kept

end CallFree

/-- Timeslots that change their own executables only, each executable having one, spare each other.
-/
theorem Timeslot.spared_of_alone {origin : Pool} {slots : List Timeslot}
    (alone : ∀ slot ∈ slots, slot.Alone origin) (distinct : (roots slots).Nodup) :
    Spared origin slots := by
  rw [roots, List.Nodup, List.pairwise_map] at distinct
  exact distinct.imp_of_mem fun isEarlier _ differ => alone _ isEarlier _ (Ne.symm differ)

section Walk

variable {origin : Pool} {valuation : Valuation} {timing : ScheduleTiming} {slots : List Timeslot}
  {pool final : Pool} {steps : List SectionStep}

/-- The steps of a walk are those of the executables of the timeslots, in order. -/
theorem Walks.map_executable (walks : Walks valuation timing slots pool steps final) :
    steps.map SectionStep.executable = Timeslot.roots slots := by
  induction walks with
  | nil => rfl
  | cons _ _ _ _ _ others => rw [List.map_cons, others, Timeslot.roots_cons]; rfl

/-- What is left of a walk after one of its steps is a walk from the pool that the step has left. -/
theorem Walks.drop (walks : Walks valuation timing slots pool steps final) : ∀ {index : Nat}
    {step : SectionStep}, Pool.Descends origin pool → steps[index]? = some step →
      Pool.Descends origin step.ringlet.after ∧ Walks valuation timing (slots.drop (index + 1))
        step.ringlet.after (steps.drop (index + 1)) final := by
  induction walks with
  | nil => exact fun _ impossible => nomatch impossible
  | cons found admits sampled chosen later others =>
      intro index step descends isStep
      obtain ⟨time, executed⟩ := Ringlet.mem_timeAware sampled chosen
      have descendsAfter := Ringlet.execute_descends
        (descends.reads (Pool.admits_singleton found admits)) executed
      cases index with
      | zero =>
          cases isStep
          exact ⟨descendsAfter, later⟩
      | succ index => exact others descendsAfter isStep

/-- A walk changes the executables of its timeslots only. -/
theorem Walks.outside (walks : Walks valuation timing slots pool steps final)
    (descends : Pool.Descends origin pool) (alone : ∀ slot ∈ slots, slot.Alone origin)
    {id : ExecutableId} (other : id ∉ Timeslot.roots slots) : final.get? id = pool.get? id ∧
      ∀ step ∈ steps, step.ringlet.after.get? id = pool.get? id := by
  induction walks with
  | nil => exact ⟨rfl, fun _ impossible => nomatch impossible⟩
  | @cons slot slots pool final executable _ conditional steps found admits sampled chosen _
      others =>
      rw [Timeslot.roots_cons, List.mem_cons, not_or] at other
      obtain ⟨time, executed⟩ := Ringlet.mem_timeAware sampled chosen
      have read := descends.reads (Pool.admits_singleton found admits)
      have here : conditional.ringlet.after.get? id = pool.get? id := by
        rw [(alone slot List.mem_cons_self id other.1).kept read executed,
          Pool.get?_reads_of_not_mem (List.not_mem_cons_of_ne_of_not_mem other.1 List.not_mem_nil)]
      obtain ⟨atEnd, atSteps⟩ := others (Ringlet.execute_descends read executed)
        (fun later isLater => alone later (List.mem_cons_of_mem _ isLater)) other.2
      refine ⟨atEnd.trans here, fun step isStep => ?_⟩
      rcases List.mem_cons.mp isStep with rfl | isLater
      · exact here
      · exact (atSteps step isLater).trans here

/-- After a step of a walk, the executables whose step is to come are shown with their inputs. -/
theorem Walks.observedAfter {path : SectionPath}
    (walks : Walks valuation timing slots pool path.steps final)
    (descends : Pool.Descends origin pool) (spared : Timeslot.Spared origin slots) {index : Nat}
    {step : SectionStep} (isStep : path.steps[index]? = some step) : path.observedAfter index =
      .ok (step.ringlet.after.reads valuation (Timeslot.roots (slots.drop (index + 1)))) := by
  obtain ⟨descendsAfter, later⟩ := walks.drop descends isStep
  have sparedLater : Timeslot.Spared origin (slots.drop (index + 1)) :=
    spared.sublist (List.drop_sublist _ _)
  have unrun : ∀ id ∈ Timeslot.roots (slots.drop (index + 1)),
      id ∉ (path.steps.take (index + 1)).map SectionStep.executable := by
    intro id isLater isEarlier
    have distinct := spared.nodup
    rw [List.map_take, walks.map_executable] at isEarlier
    rw [Timeslot.roots, List.map_drop] at isLater
    rw [← List.take_append_drop (index + 1) (Timeslot.roots slots)] at distinct
    exact (List.nodup_append.mp distinct).2.2 id isEarlier id isLater rfl
  rw [SectionPath.observedAfter, isStep]
  exact later.assignLater descendsAfter sparedLater unrun descendsAfter fun _ _ => rfl

/-- An environment that could be read before a timeslot can be read after it. -/
theorem Timeslot.Spared.admits_after {slot : Timeslot}
    (spared : Timeslot.Spared origin (slot :: slots)) (descends : Pool.Descends origin pool)
    (admits : pool.Admits valuation (Timeslot.roots (slot :: slots)))
    {ringlets : List ConditionalRinglet}
    (sampled : Ringlet.timeAware (pool.reads valuation [slot.executable]) slot timing 0 =
      .ok ringlets) {conditional : ConditionalRinglet} (chosen : conditional ∈ ringlets) :
    conditional.ringlet.after.Admits valuation (Timeslot.roots slots) := by
  have here : pool.Admits valuation [slot.executable] := fun id isHere =>
    admits id (List.mem_cons.mpr (.inl (List.mem_singleton.mp isHere)))
  intro id isLater known isKnown
  rw [spared.get?_after descends here sampled chosen isLater] at isKnown
  exact admits id (List.mem_cons_of_mem _ isLater) known isKnown

/-- Timeslots that can be walked through are walked through in some way. -/
theorem Walkable.exists_walks {slots : List Timeslot} : ∀ {pool : Pool},
    Walkable valuation timing slots pool → Pool.Descends origin pool →
      Timeslot.Spared origin slots → pool.Admits valuation (Timeslot.roots slots) →
        ∃ steps final, Walks valuation timing slots pool steps final := by
  induction slots with
  | nil => exact fun _ _ _ _ => ⟨[], _, .nil _⟩
  | cons slot slots others =>
      intro pool walkable descends spared admits
      obtain ⟨ringlets, sampled, each⟩ := walkable
      obtain ⟨conditional, chosen⟩ :=
        List.exists_mem_of_ne_nil _ (Ringlet.timeAware_ne_nil sampled)
      obtain ⟨time, executed⟩ := Ringlet.mem_timeAware sampled chosen
      obtain ⟨executable, found⟩ : ∃ executable, pool.get? slot.executable = some executable := by
        obtain ⟨read, _, _, _, isRead, _⟩ := Ringlet.execute_eq_ok executed
        rw [Pool.get?_reads] at isRead
        split at isRead
        · obtain ⟨executable, found, _⟩ := Option.map_eq_some_iff.mp isRead
          exact ⟨executable, found⟩
        · exact ⟨read, isRead⟩
      have admitsHere := admits _ List.mem_cons_self executable found
      have here := Pool.admits_singleton found admitsHere
      obtain ⟨steps, final, walks⟩ := others (each conditional chosen)
        (Ringlet.execute_descends (descends.reads here) executed) (List.pairwise_cons.mp spared).2
        (spared.admits_after descends admits sampled chosen)
      exact ⟨_, final, .cons found admitsHere sampled chosen walks⟩

/-- **A detour of a walk.** At any step, the walk might have gone on as at a given clock value. -/
theorem Walks.exists_detour (value : Time) {earlier : List SectionStep} : ∀ {slots : List Timeslot}
    {pool final : Pool} {step : SectionStep} {later : List SectionStep},
      Pool.Descends origin pool → Timeslot.Spared origin slots →
      Walkable valuation timing slots pool →
      Walks valuation timing slots pool (earlier ++ step :: later) final →
        ∃ other more last, Walks valuation timing slots pool (earlier ++ other :: more) last ∧
          other.conditional.condition.satisfiedBy value = true := by
  induction earlier with
  | nil =>
      intro slots pool final step later descends spared walkable walks
      have admits := walks.admits descends spared
      cases walks with
      | @cons slot slots _ _ executable ringlets conditional steps found admitsHere sampled chosen
          later =>
          obtain ⟨ringlets', sampled', each⟩ := walkable
          cases sampled.symm.trans sampled'
          obtain ⟨other, isOther, holds⟩ := Ringlet.exists_standing sampled value
          obtain ⟨time, executed⟩ := Ringlet.mem_timeAware sampled isOther
          have here := Pool.admits_singleton found admitsHere
          obtain ⟨more, last, walksLater⟩ := (each other isOther).exists_walks
            (Ringlet.execute_descends (descends.reads here) executed)
            (List.pairwise_cons.mp spared).2 (spared.admits_after descends admits sampled isOther)
          exact ⟨_, more, last, .cons found admitsHere sampled isOther walksLater, holds⟩
  | cons first earlier others =>
      intro slots pool final step later descends spared walkable walks
      cases walks with
      | cons found admitsHere sampled chosen walksLater =>
          obtain ⟨ringlets', sampled', each⟩ := walkable
          cases sampled.symm.trans sampled'
          obtain ⟨time, executed⟩ := Ringlet.mem_timeAware sampled chosen
          have here := Pool.admits_singleton found admitsHere
          obtain ⟨other, more, last, walksOther, holds⟩ := others
            (Ringlet.execute_descends (descends.reads here) executed)
            (List.pairwise_cons.mp spared).2 (each _ chosen) walksLater
          exact ⟨other, more, last, .cons found admitsHere sampled chosen walksOther, holds⟩

end Walk

/-- Every timeslot of the section changes its own executable only, and no executable has two. -/
structure SnapshotSection.Uncoupled (origin : Pool) (part : SnapshotSection) : Prop where
  distinct : (Timeslot.roots part.timeslots).Nodup
  alone : ∀ slot ∈ part.timeslots, slot.Alone origin

/-- No timeslot of an uncoupled section changes the executable of a later one. -/
theorem SnapshotSection.Uncoupled.spared {origin : Pool} {part : SnapshotSection}
    (uncoupled : part.Uncoupled origin) : Timeslot.Spared origin part.timeslots :=
  Timeslot.spared_of_alone uncoupled.alone uncoupled.distinct

/-- The pools that a path shows have an executable as it is in a pool. -/
structure SectionPath.Keeps (pool : Pool) (id : ExecutableId) (path : SectionPath) : Prop where
  snapshot : path.snapshot.get? id = pool.get? id
  after : path.after.get? id = pool.get? id
  /-- It is so after every step. -/
  observed : ∀ {index : Nat} {observed : Pool}, path.observedAfter index = .ok observed →
    observed.get? id = pool.get? id

/-- From some of its steps on, the path could have gone on as the other one does, which stands for
a clock value at the next step. -/
structure SectionPath.Detours (earlier : List SectionStep) (value : Time)
    (path other : SectionPath) :
    Prop where
  executables : other.steps.map SectionStep.executable = path.steps.map SectionStep.executable
  /-- The other path has the same steps first. Its next one stands for the clock value. -/
  steps : ∃ step later, other.steps = earlier ++ step :: later ∧
    step.conditional.condition.satisfiedBy value = true
  snapshot : other.snapshot = path.snapshot
  observed : ∀ index < earlier.length, other.observedAfter index = path.observedAfter index

section Sections

variable {origin pool : Pool} {timing : ScheduleTiming} {part : SnapshotSection}
  {paths : List SectionPath} {path : SectionPath}

section Section

variable (descends : Pool.Descends origin pool) (uncoupled : part.Uncoupled origin)
  (varied : part.variations pool timing = .ok paths) (member : path ∈ paths)
include descends uncoupled varied member

/-- A path through an uncoupled section shows every executable without a timeslot in it as it was.
-/
theorem SnapshotSection.Uncoupled.keeps {id : ExecutableId}
    (other : id ∉ Timeslot.roots part.timeslots) : path.Keeps pool id := by
  obtain ⟨valuation, isSnapshot, walks⟩ :=
    part.walks_of_variations descends uncoupled.spared varied member
  obtain ⟨atEnd, atSteps⟩ := walks.outside descends uncoupled.alone other
  refine ⟨by rw [isSnapshot, Pool.get?_reads_of_not_mem other], atEnd, ?_⟩
  intro index observed shown
  cases isStep : path.steps[index]? with
  | none =>
      rw [SectionPath.observedAfter, isStep] at shown
      cases shown
      exact atEnd
  | some step =>
      rw [walks.observedAfter descends uncoupled.spared isStep] at shown
      cases shown
      have notLater : id ∉ Timeslot.roots (part.timeslots.drop (index + 1)) := by
        rw [Timeslot.roots, List.map_drop]
        exact fun isLater => other (List.mem_of_mem_drop isLater)
      rw [Pool.get?_reads_of_not_mem notLater]
      exact atSteps step (List.mem_of_getElem? isStep)

/-- **A detour of a path** leaves it at one of its steps, taking there the ringlet that stands for a
given clock value. -/
theorem SnapshotSection.exists_detour {earlier later : List SectionStep} {step : SectionStep}
    (isPath : path.steps = earlier ++ step :: later) (value : Time) :
    ∃ other ∈ paths, path.Detours earlier value other := by
  obtain ⟨valuation, isSnapshot, walks⟩ :=
    part.walks_of_variations descends uncoupled.spared varied member
  have walkable := part.walkable descends uncoupled.spared varied
    (walks.admits descends uncoupled.spared)
  obtain ⟨next, more, last, walksOther, holds⟩ :=
    Walks.exists_detour value descends uncoupled.spared walkable (isPath ▸ walks)
  obtain ⟨other, isOther, isSteps, isLast, isSnapshot'⟩ :=
    part.exists_path_of_walks descends uncoupled.spared varied walksOther
  have walksPath : Walks valuation timing part.timeslots pool other.steps last :=
    isSteps ▸ walksOther
  refine ⟨other, isOther, walksPath.map_executable.trans walks.map_executable.symm,
    ⟨next, more, isSteps, holds⟩, isSnapshot'.trans isSnapshot.symm, fun index inside => ?_⟩
  have isStep : path.steps[index]? = some earlier[index] := by
    rw [isPath, List.getElem?_append_left inside, List.getElem?_eq_getElem inside]
  have isStep' : other.steps[index]? = some earlier[index] := by
    rw [isSteps, List.getElem?_append_left inside, List.getElem?_eq_getElem inside]
  rw [walks.observedAfter descends uncoupled.spared isStep,
    walksPath.observedAfter descends uncoupled.spared isStep']

end Section

variable {parts : List SnapshotSection}

/-- Sections that can be varied are strolled through in some way. -/
theorem Varies.exists_strolls {parts : List SnapshotSection} : ∀ {pool : Pool},
    Varies timing parts pool → ∃ paths, Strolls timing pool parts paths := by
  induction parts with
  | nil => exact fun _ => ⟨[], .nil _⟩
  | cons part parts others =>
      rintro pool ⟨paths, varied, each⟩
      obtain ⟨path, member⟩ := SnapshotSection.exists_path varied
      obtain ⟨rest, strolls⟩ := others (each path member)
      exact ⟨path :: rest, .cons varied member strolls⟩

/-- The paths of a stroll through uncoupled sections show every executable without a timeslot in
them as it was. -/
theorem Strolls.keeps (strolls : Strolls timing pool parts paths)
    (descends : Pool.Descends origin pool) (uncoupled : ∀ part ∈ parts, part.Uncoupled origin)
    {id : ExecutableId} (other : ∀ part ∈ parts, id ∉ Timeslot.roots part.timeslots) :
    ∀ path ∈ paths, path.Keeps pool id := by
  induction strolls with
  | nil => exact fun _ impossible => nomatch impossible
  | cons varied member _ others =>
      have here := (uncoupled _ List.mem_cons_self).keeps descends varied member
        (other _ List.mem_cons_self)
      have descendsAfter := ((SnapshotSection.runs_of_variations descends varied).2 _ member).after
      have later := others descendsAfter
        (fun part isPart => uncoupled part (List.mem_cons_of_mem _ isPart))
        (fun part isPart => other part (List.mem_cons_of_mem _ isPart))
      intro path isPath
      rcases List.mem_cons.mp isPath with rfl | isLater
      · exact here
      · have keeps := later path isLater
        exact ⟨keeps.snapshot.trans here.after, keeps.after.trans here.after,
          fun shown => (keeps.observed shown).trans here.after⟩

/-- **A detour of a stroll** leaves one of its paths at a step for a given clock value, and goes on
through the later sections in some way. -/
theorem Strolls.exists_detour (value : Time) {before after : List SectionPath}
    {earlier later : List SectionStep} {step : SectionStep}
    (isPath : path.steps = earlier ++ step :: later) :
    ∀ {pool : Pool} {parts : List SnapshotSection}, Pool.Descends origin pool →
      (∀ part ∈ parts, part.Uncoupled origin) → Varies timing parts pool →
      Strolls timing pool parts (before ++ path :: after) →
        ∃ other rest, Strolls timing pool parts (before ++ other :: rest) ∧
          path.Detours earlier value other := by
  induction before with
  | nil =>
      intro pool parts descends uncoupled varies strolls
      cases strolls with
      | cons varied member _ =>
          obtain ⟨paths, variedSame, each⟩ := varies
          cases varied.symm.trans variedSame
          obtain ⟨other, isOther, detours⟩ := SnapshotSection.exists_detour descends
            (uncoupled _ List.mem_cons_self) varied member isPath value
          obtain ⟨rest, strolls⟩ := (each other isOther).exists_strolls
          exact ⟨other, rest, .cons varied isOther strolls, detours⟩
  | cons first before others =>
      intro pool parts descends uncoupled varies strolls
      cases strolls with
      | cons varied member strolls =>
          obtain ⟨paths, variedSame, each⟩ := varies
          cases varied.symm.trans variedSame
          have descendsAfter :=
            ((SnapshotSection.runs_of_variations descends varied).2 _ member).after
          obtain ⟨other, rest, strollsOther, detours⟩ := others descendsAfter
            (fun part isPart => uncoupled part (List.mem_cons_of_mem _ isPart))
            (each _ member) strolls
          exact ⟨other, rest, .cons varied member strollsOther, detours⟩

end Sections

end TimedKripke
