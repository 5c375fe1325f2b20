import TimedKripke.Proofs.Ringlet.Footprint
import TimedKripke.Proofs.Variation.Execution
import TimedKripke.Proofs.Variation.Progress
import TimedKripke.Proofs.Variation.Reading

/-! # Walking through a section

In one environment, a section is run by letting the executable of each timeslot read before it
runs, and by choosing one of its conditional ringlets (`Walks`). The paths of a section are the
walks through it in some environment (`SnapshotSection.walks_of_variations`,
`SnapshotSection.exists_path_of_walks`). If no timeslot changes the executable of a later one, all
of them might as well read at the start: that is what the path's snapshot shows.
-/

namespace TimedKripke

namespace Timeslot

/-- The executables of timeslots. -/
def roots (slots : List Timeslot) : List ExecutableId :=
  slots.map executable

/-- No timeslot touches the executable of a later one. -/
def Apart (origin : Pool) (slots : List Timeslot) : Prop :=
  slots.Pairwise fun earlier later => ¬ origin.Touches [earlier.callChain] later.executable

/-- Executing the timeslot leaves an executable other than its own as it is. -/
structure Spares (origin : Pool) (slot : Timeslot) (id : ExecutableId) : Prop where
  other : id ≠ slot.executable
  /-- It is the same after the timeslot. -/
  kept : ∀ {pool : Pool} {timing : ScheduleTiming} {time : Time} {ringlet : Ringlet},
    Pool.Descends origin pool → Ringlet.execute pool slot timing time = .ok ringlet →
      ringlet.after.get? id = pool.get? id

/-- No timeslot changes the executable of a later one. -/
def Spared (origin : Pool) (slots : List Timeslot) : Prop :=
  slots.Pairwise fun earlier later => earlier.Spares origin later.executable

theorem roots_cons (slot : Timeslot) (slots : List Timeslot) :
    roots (slot :: slots) = slot.executable :: roots slots :=
  rfl

/-- A timeslot touches its own executable. -/
theorem touches_root (origin : Pool) (slot : Timeslot) :
    origin.Touches [slot.callChain] slot.executable :=
  .inl (.root List.mem_cons_self)

/-- The first of timeslots that are apart touches no executable of a later one. -/
theorem Apart.not_touches {origin : Pool} {slot : Timeslot} {slots : List Timeslot}
    (apart : Apart origin (slot :: slots)) {id : ExecutableId} (later : id ∈ roots slots) :
    ¬ origin.Touches [slot.callChain] id := by
  obtain ⟨other, isOther, rfl⟩ := List.mem_map.mp later
  exact (List.pairwise_cons.mp apart).1 other isOther

/-- Timeslots that do not touch later ones do not change them. -/
theorem Apart.spared {origin : Pool} {slots : List Timeslot} (apart : Apart origin slots) :
    Spared origin slots := by
  refine apart.imp fun {earlier later} untouched => ⟨fun same => ?_, fun descends executed => ?_⟩
  · exact untouched (same ▸ earlier.touches_root origin)
  · exact Ringlet.execute_outside descends List.mem_cons_self executed fun involves =>
      untouched (.inl involves)

/-- Timeslots that spare each other have different executables. -/
theorem Spared.nodup {origin : Pool} {slots : List Timeslot} (spared : Spared origin slots) :
    (roots slots).Nodup := by
  rw [roots, List.Nodup, List.pairwise_map]
  exact spared.imp fun spares => Ne.symm spares.other

/-- The first of timeslots that spare each other leaves the executable of every later one as it is.
-/
theorem Spared.spares {origin : Pool} {slot : Timeslot} {slots : List Timeslot}
    (spared : Spared origin (slot :: slots)) {id : ExecutableId} (later : id ∈ roots slots) :
    slot.Spares origin id := by
  obtain ⟨other, isOther, rfl⟩ := List.mem_map.mp later
  exact (List.pairwise_cons.mp spared).1 other isOther

/-- The executable of the first timeslot has no later one. -/
theorem Spared.fresh {origin : Pool} {slot : Timeslot} {slots : List Timeslot}
    (spared : Spared origin (slot :: slots)) : slot.executable ∉ roots slots :=
  fun later => (spared.spares later).other rfl

end Timeslot

/-- Steps through timeslots in one environment: each executable reads before it runs. -/
inductive Walks (valuation : Valuation) (timing : ScheduleTiming) :
    List Timeslot → Pool → List SectionStep → Pool → Prop
  | nil (pool : Pool) : Walks valuation timing [] pool [] pool
  | cons {slot : Timeslot} {slots : List Timeslot} {pool final : Pool} {executable : Executable}
      {ringlets : List ConditionalRinglet} {conditional : ConditionalRinglet}
      {steps : List SectionStep} (found : pool.get? slot.executable = some executable)
      (admits : executable.Admits valuation)
      (sampled : Ringlet.timeAware (pool.reads valuation [slot.executable]) slot timing 0 =
        .ok ringlets)
      (chosen : conditional ∈ ringlets)
      (later : Walks valuation timing slots conditional.ringlet.after steps final) :
      Walks valuation timing (slot :: slots) pool
        (SectionBranch.stepThrough slot (executable.running.readings valuation) conditional ::
          steps) final

/-- In one environment, timeslots can be sampled one after the other, whatever is chosen. -/
def Walkable (valuation : Valuation) (timing : ScheduleTiming) : List Timeslot → Pool → Prop
  | [], _ => True
  | slot :: slots, pool => ∃ ringlets,
      Ringlet.timeAware (pool.reads valuation [slot.executable]) slot timing 0 = .ok ringlets ∧
        ∀ conditional ∈ ringlets, Walkable valuation timing slots conditional.ringlet.after

namespace SectionBranch

variable {branch : SectionBranch} {valuation : Valuation} {timing : ScheduleTiming}
  {slot : Timeslot} {observed : List External} {children : List SectionBranch}

/-- What a branch assigns has every name once. -/
theorem nodup_assigned (branch : SectionBranch) (observed : List External) (tuple : List Value) :
    ((branch.assigned observed tuple).map Prod.fst).Nodup := by
  have ascending : (branch.assigned observed tuple).keys.Pairwise (· < ·) :=
    OrderedMap.pairwise_keys_extend (OrderedMap.pairwise_keys_extend List.Pairwise.nil)
  exact ascending.imp Std.ne_of_lt

/-- An input that was read before keeps its value. -/
theorem eq_of_lookup_assigned {tuple : List Value} {name : String} {value given : Value}
    (known : branch.fixed.lookup name = some value)
    (isGiven : (branch.assigned observed tuple).lookup name = some given) : given = value := by
  rw [assigned, OrderedMap.lookup_extend, Option.or_eq_some_iff] at isGiven
  rcases isGiven with new | ⟨_, isShared⟩
  · have isFree := (List.of_mem_zip (List.mem_reverse.mp (OrderedMap.mem_of_lookup new))).1
    rw [names_free] at isFree
    obtain ⟨input, isInput, rfl⟩ := List.mem_map.mp isFree
    have unread := (List.mem_filter.mp isInput).2
    simp [OrderedMap.contains, known] at unread
  · rw [shared, OrderedMap.ofList, OrderedMap.lookup_extend, Option.or_eq_some_iff] at isShared
    rcases isShared with isShared | ⟨_, impossible⟩
    · have member := List.mem_reverse.mp (OrderedMap.mem_of_lookup isShared)
      obtain ⟨input, _, isInput⟩ := List.mem_filterMap.mp member
      obtain ⟨held, isHeld, same⟩ := Option.map_eq_some_iff.mp isInput
      cases same
      exact Option.some.inj (isHeld.symm.trans known)
    · cases impossible

/-- An environment that agrees with what was read after a timeslot agrees with what was read
before it, and with what was read then. -/
theorem Reads.of_extend {tuple : List Value} {snapshot : Pool} {conditional : ConditionalRinglet}
    (reads : (branch.extend slot snapshot (branch.assigned observed tuple)
      conditional).Reads valuation) :
    branch.Reads valuation ∧ valuation.agrees (branch.assigned observed tuple) = true := by
  have distinct := branch.nodup_assigned observed tuple
  have isRead : ∀ {name value}, ((branch.assigned observed tuple).lookup name).or
      (branch.fixed.lookup name) = some value → valuation name = value := by
    intro name value found
    apply reads
    change (OrderedMap.extend branch.fixed (branch.assigned observed tuple)).lookup name = _
    rwa [OrderedMap.lookup_extend_of_nodup distinct]
  constructor
  · intro name value known
    apply isRead
    cases given : (branch.assigned observed tuple).lookup name with
    | none => simpa using known
    | some other => rw [eq_of_lookup_assigned known given, Option.some_or]
  · refine List.all_eq_true.mpr fun entry member => beq_iff_eq.mpr (isRead ?_)
    rw [OrderedMap.lookup_of_mem distinct member, Option.some_or]

/-- Some environment agrees with what a branch has read. -/
theorem exists_reads (branch : SectionBranch) : ∃ valuation, branch.Reads valuation := by
  refine ⟨fun name => (branch.fixed.lookup name).getD (.bool false), ?_⟩
  intro name value known
  simp [known]

/-- The executable of a timeslot is the same in the branch's snapshot as in its pool. -/
structure Unread (slot : Timeslot) (executable : Executable) (branch : SectionBranch) : Prop where
  pool : branch.pool.WellFormed
  snapshot : branch.snapshot.WellFormed
  found : branch.pool.get? slot.executable = some executable
  shown : branch.snapshot.get? slot.executable = some executable

variable {executable : Executable} (unread : branch.Unread slot executable)
include unread

/-- **One timeslot, forwards.** A branch goes through a timeslot by reading an environment that
agrees with what it reads, and by one of the conditional ringlets. -/
theorem step_of_mem (expanded : branch.expand timing slot = .ok children) {child : SectionBranch}
    (member : child ∈ children) (reads : child.Reads valuation) :
    branch.Reads valuation ∧ executable.Admits valuation ∧ ∃ ringlets conditional,
      Ringlet.timeAware (branch.pool.reads valuation [slot.executable]) slot timing 0 =
        .ok ringlets ∧ conditional ∈ ringlets ∧
      child = branch.extend slot (branch.snapshot.reads valuation [slot.executable])
        (executable.running.readings valuation) conditional := by
  obtain ⟨known, combinations, branches, found, made, visited, rfl⟩ := expand_eq_ok expanded
  cases unread.found.symm.trans found
  obtain ⟨answer, isAnswer, member⟩ := List.mem_flatten.mp member
  obtain ⟨tuple, isTuple, assigned⟩ := Outcome.mem_of_mapM visited isAnswer
  rw [← SectionBranch.assigned] at assigned
  obtain ⟨pool, snapshot, ringlets, isPool, isSnapshot, sampled, rfl⟩ :=
    expandAssignment_eq_ok assigned
  obtain ⟨conditional, chosen, rfl⟩ := List.mem_map.mp member
  obtain ⟨readsBefore, agrees⟩ := Reads.of_extend reads
  have readings : branch.assigned executable.running.observedInputs tuple =
      executable.running.readings valuation := by
    have counted : tuple.length = (branch.free executable.running.observedInputs).length := by
      simpa using (((Combinations.toList_of_named made).2 tuple).mp isTuple).length_eq.symm
    have distinct := nodup_observedInputs (unread.pool.get? unread.found)
    rw [(agrees_assigned_iff readsBefore distinct counted).mp agrees, assigned_eq readsBefore,
      readings_eq]
  rw [readings] at isPool isSnapshot
  obtain ⟨admits, rfl⟩ := (Pool.assign_readings_iff unread.pool unread.found).mp isPool
  obtain ⟨_, rfl⟩ := (Pool.assign_readings_iff unread.snapshot unread.shown).mp isSnapshot
  rw [readings]
  exact ⟨readsBefore, admits, ringlets, conditional, sampled, chosen, rfl⟩

/-- Whatever environment agrees with what a branch has read, the timeslot can be sampled in it. -/
theorem assigned_of_step (expanded : branch.expand timing slot = .ok children)
    (reads : branch.Reads valuation) (admits : executable.Admits valuation) :
    ∃ ringlets, Ringlet.timeAware (branch.pool.reads valuation [slot.executable]) slot timing 0 =
      .ok ringlets ∧ ∀ conditional ∈ ringlets,
        branch.extend slot (branch.snapshot.reads valuation [slot.executable])
          (executable.running.readings valuation) conditional ∈ children := by
  obtain ⟨known, combinations, branches, found, made, visited, rfl⟩ := expand_eq_ok expanded
  cases unread.found.symm.trans found
  have distinct := nodup_observedInputs (unread.pool.get? unread.found)
  have isTuple : ((branch.free executable.running.observedInputs).map Prod.fst).map valuation ∈
      combinations.toList := by
    have only := filter_assignments reads distinct admits made
    exact (List.mem_filter.mp (only ▸ List.mem_singleton_self _)).1
  obtain ⟨answer, isAnswer, assigned⟩ := Outcome.exists_of_mapM visited isTuple
  rw [← SectionBranch.assigned, assigned_eq reads, ← readings_eq] at assigned
  obtain ⟨pool, snapshot, ringlets, isPool, isSnapshot, sampled, rfl⟩ :=
    expandAssignment_eq_ok assigned
  obtain ⟨_, rfl⟩ := (Pool.assign_readings_iff unread.pool unread.found).mp isPool
  obtain ⟨_, rfl⟩ := (Pool.assign_readings_iff unread.snapshot unread.shown).mp isSnapshot
  exact ⟨ringlets, sampled, fun conditional chosen =>
    List.mem_flatten.mpr ⟨_, isAnswer, List.mem_map_of_mem chosen⟩⟩

/-- **One timeslot, backwards.** Whatever environment agrees with what a branch has read, there is
a branch that reads it and takes any of the conditional ringlets. -/
theorem mem_of_step (expanded : branch.expand timing slot = .ok children)
    (reads : branch.Reads valuation) (admits : executable.Admits valuation)
    {ringlets : List ConditionalRinglet}
    (sampled : Ringlet.timeAware (branch.pool.reads valuation [slot.executable]) slot timing 0 =
      .ok ringlets) {conditional : ConditionalRinglet} (chosen : conditional ∈ ringlets) :
    branch.extend slot (branch.snapshot.reads valuation [slot.executable])
      (executable.running.readings valuation) conditional ∈ children := by
  obtain ⟨_, sampled', each⟩ := assigned_of_step unread expanded reads admits
  cases sampled.symm.trans sampled'
  exact each conditional chosen

end SectionBranch

section Walk

variable {origin : Pool} {timing : ScheduleTiming} {valuation : Valuation}

/-- The pools of a branch have the frame of the origin, and the snapshot shows the executables
that have not run as they are. -/
structure SectionBranch.Ahead (origin : Pool) (slots : List Timeslot) (branch : SectionBranch) :
    Prop where
  pool : Pool.Descends origin branch.pool
  snapshot : Pool.Descends origin branch.snapshot
  spared : Timeslot.Spared origin slots
  /-- The snapshot shows executables that have not run. -/
  unread : ∀ id ∈ Timeslot.roots slots, branch.snapshot.get? id = branch.pool.get? id

/-- The executable of the next timeslot has not read yet: the snapshot shows it as the pool has it.
-/
theorem SectionBranch.Ahead.head {slot : Timeslot} {slots : List Timeslot} {branch : SectionBranch}
    (ahead : branch.Ahead origin (slot :: slots)) {executable : Executable}
    (found : branch.pool.get? slot.executable = some executable) : branch.Unread slot executable :=
  ⟨ahead.pool.wellFormed, ahead.snapshot.wellFormed, found,
    (ahead.unread _ List.mem_cons_self).trans found⟩

/-- The executables of later timeslots do not change when a timeslot is executed. -/
theorem Timeslot.Spared.get?_after {slot : Timeslot} {slots : List Timeslot} {pool : Pool}
    (spared : Timeslot.Spared origin (slot :: slots)) (descends : Pool.Descends origin pool)
    (admits : pool.Admits valuation [slot.executable]) {ringlets : List ConditionalRinglet}
    (sampled : Ringlet.timeAware (pool.reads valuation [slot.executable]) slot timing 0 =
      .ok ringlets) {conditional : ConditionalRinglet} (chosen : conditional ∈ ringlets)
    {id : ExecutableId} (later : id ∈ Timeslot.roots slots) :
    conditional.ringlet.after.get? id = pool.get? id := by
  obtain ⟨time, executed⟩ := Ringlet.mem_timeAware sampled chosen
  have spares := spared.spares later
  have other : id ∉ [slot.executable] := fun same => spares.other (List.mem_singleton.mp same)
  rw [spares.kept (descends.reads admits) executed, Pool.get?_reads_of_not_mem other]

/-- After a step for the next timeslot, the executables of those to come have still not read. -/
theorem SectionBranch.Ahead.extend {slot : Timeslot} {slots : List Timeslot}
    {branch : SectionBranch} (ahead : branch.Ahead origin (slot :: slots)) {executable : Executable}
    (found : branch.pool.get? slot.executable = some executable)
    (admits : executable.Admits valuation) {ringlets : List ConditionalRinglet}
    (sampled : Ringlet.timeAware (branch.pool.reads valuation [slot.executable]) slot timing 0 =
      .ok ringlets) {conditional : ConditionalRinglet} (chosen : conditional ∈ ringlets) :
    (branch.extend slot (branch.snapshot.reads valuation [slot.executable])
      (executable.running.readings valuation) conditional).Ahead origin slots := by
  have admitsPool := Pool.admits_singleton found admits
  have admitsSnapshot := Pool.admits_singleton (ahead.head found).shown admits
  obtain ⟨time, executed⟩ := Ringlet.mem_timeAware sampled chosen
  refine ⟨Ringlet.execute_descends (ahead.pool.reads admitsPool) executed,
    ahead.snapshot.reads admitsSnapshot, (List.pairwise_cons.mp ahead.spared).2, fun id later => ?_⟩
  have other : id ∉ [slot.executable] := fun same =>
    ahead.spared.fresh (List.mem_singleton.mp same ▸ later)
  calc (branch.snapshot.reads valuation [slot.executable]).get? id
      = branch.snapshot.get? id := Pool.get?_reads_of_not_mem other
    _ = branch.pool.get? id := ahead.unread id (List.mem_cons_of_mem _ later)
    _ = conditional.ringlet.after.get? id :=
        (ahead.spared.get?_after ahead.pool admitsPool sampled chosen later).symm

/-- Branches walk, each in an environment that agrees with what it has read. -/
theorem SectionBranch.walks_of_explore {slots : List Timeslot} :
    ∀ {branch outcome : SectionBranch} {outcomes : List SectionBranch},
      branch.Ahead origin slots →
      Search.explore (SectionBranch.expand timing) slots branch = .ok outcomes →
      outcome ∈ outcomes → ∃ valuation steps, branch.Reads valuation ∧
        outcome.steps = branch.steps ++ steps ∧
        outcome.snapshot = branch.snapshot.reads valuation (Timeslot.roots slots) ∧
        Walks valuation timing slots branch.pool steps outcome.pool := by
  induction slots with
  | nil =>
      intro branch outcome outcomes ahead explored member
      cases explored
      cases List.mem_singleton.mp member
      obtain ⟨valuation, reads⟩ := branch.exists_reads
      exact ⟨valuation, [], reads, (List.append_nil _).symm, (Pool.reads_nil _ _).symm, .nil _⟩
  | cons slot slots others =>
      intro branch outcome outcomes ahead explored member
      obtain ⟨children, inside, expanded, mapped, rfl⟩ := Search.explore_cons_eq_ok.mp explored
      obtain ⟨answer, isAnswer, member⟩ := List.mem_flatten.mp member
      obtain ⟨child, isChild, found⟩ := Outcome.mem_of_mapM mapped isAnswer
      obtain ⟨executable, _, _, isExecutable, _⟩ := SectionBranch.expand_eq_ok expanded
      -- Any environment that agrees with the child shows that it has not run later timeslots.
      have aheadLater : child.Ahead origin slots := by
        obtain ⟨some, readsChild⟩ := child.exists_reads
        obtain ⟨_, admits, ringlets, conditional, sampled, chosen, rfl⟩ :=
          SectionBranch.step_of_mem (ahead.head isExecutable) expanded isChild readsChild
        exact ahead.extend isExecutable admits sampled chosen
      obtain ⟨valuation, steps, reads, isSteps, isSnapshot, walks⟩ :=
        others aheadLater found member
      obtain ⟨readsBefore, admits, ringlets, conditional, sampled, chosen, rfl⟩ :=
        SectionBranch.step_of_mem (ahead.head isExecutable) expanded isChild reads
      refine ⟨valuation, _ :: steps, readsBefore, ?_, ?_,
        .cons isExecutable admits sampled chosen walks⟩
      · rw [isSteps, SectionBranch.steps_extend, List.append_assoc]
        rfl
      · rw [isSnapshot, Timeslot.roots_cons, ← Pool.reads_reads ahead.spared.fresh]
        rfl

/-- There is a branch for every walk in an environment that agrees with what was read. -/
theorem SectionBranch.exists_outcome_of_walks {slots : List Timeslot} :
    ∀ {branch : SectionBranch} {outcomes : List SectionBranch} {steps : List SectionStep}
      {final : Pool}, branch.Ahead origin slots → branch.Reads valuation →
      Search.explore (SectionBranch.expand timing) slots branch = .ok outcomes →
      Walks valuation timing slots branch.pool steps final →
        ∃ outcome ∈ outcomes, outcome.steps = branch.steps ++ steps ∧ outcome.pool = final ∧
          outcome.snapshot = branch.snapshot.reads valuation (Timeslot.roots slots) := by
  induction slots with
  | nil =>
      intro branch outcomes steps final ahead _ explored walks
      cases explored
      cases walks
      exact ⟨branch, List.mem_cons_self, (List.append_nil _).symm, rfl, (Pool.reads_nil _ _).symm⟩
  | cons slot slots others =>
      intro branch outcomes steps final ahead reads explored walks
      obtain ⟨children, inside, expanded, mapped, rfl⟩ := Search.explore_cons_eq_ok.mp explored
      cases walks with
      | @cons _ _ _ _ executable ringlets conditional steps found admits sampled chosen later =>
          have isChild := SectionBranch.mem_of_step (ahead.head found) expanded reads admits sampled
            chosen
          have agrees : valuation.agrees (executable.running.readings valuation) = true := by
            rw [SectionBranch.readings_eq]
            exact Valuation.agrees_ofList _
          obtain ⟨answer, isAnswer, explored⟩ := Outcome.exists_of_mapM mapped isChild
          obtain ⟨outcome, member, isSteps, isFinal, isSnapshot⟩ :=
            others (ahead.extend found admits sampled chosen) (reads.extend agrees) explored later
          refine ⟨outcome, List.mem_flatten.mpr ⟨answer, isAnswer, member⟩, ?_, isFinal, ?_⟩
          · rw [isSteps, SectionBranch.steps_extend, List.append_assoc]
            rfl
          · rw [isSnapshot, Timeslot.roots_cons, ← Pool.reads_reads ahead.spared.fresh]
            rfl

/-- A branch that can be explored can be walked in every environment that agrees with what it has
read. -/
theorem SectionBranch.walkable_of_explore {slots : List Timeslot} :
    ∀ {branch : SectionBranch} {outcomes : List SectionBranch}, branch.Ahead origin slots →
      branch.Reads valuation → branch.pool.Admits valuation (Timeslot.roots slots) →
      Search.explore (SectionBranch.expand timing) slots branch = .ok outcomes →
        Walkable valuation timing slots branch.pool := by
  induction slots with
  | nil => exact fun _ _ _ _ => trivial
  | cons slot slots others =>
      intro branch outcomes ahead reads admits explored
      obtain ⟨children, inside, expanded, mapped, rfl⟩ := Search.explore_cons_eq_ok.mp explored
      obtain ⟨executable, _, _, found, _⟩ := SectionBranch.expand_eq_ok expanded
      have admitsHere := admits _ List.mem_cons_self executable found
      have agrees : valuation.agrees (executable.running.readings valuation) = true := by
        rw [SectionBranch.readings_eq]
        exact Valuation.agrees_ofList _
      obtain ⟨ringlets, sampled, each⟩ :=
        SectionBranch.assigned_of_step (ahead.head found) expanded reads admitsHere
      refine ⟨ringlets, sampled, fun conditional chosen => ?_⟩
      obtain ⟨answer, _, explored⟩ := Outcome.exists_of_mapM mapped (each conditional chosen)
      refine others (ahead.extend found admitsHere sampled chosen) (reads.extend agrees) ?_ explored
      intro id later known isKnown
      refine admits id (List.mem_cons_of_mem _ later) known ?_
      rwa [← ahead.spared.get?_after ahead.pool (Pool.admits_singleton found admitsHere) sampled
        chosen later]

end Walk

namespace SnapshotSection

variable {origin pool : Pool} {timing : ScheduleTiming} {part : SnapshotSection}
  {paths : List SectionPath} (descends : Pool.Descends origin pool)
  (spared : Timeslot.Spared origin part.timeslots)
  (varied : part.variations pool timing = .ok paths)
include descends spared varied

/-- **Paths walk** through the timeslots in some environment, the one that their snapshot has read.
-/
theorem walks_of_variations {path : SectionPath} (member : path ∈ paths) :
    ∃ valuation, path.snapshot = pool.reads valuation (Timeslot.roots part.timeslots) ∧
      Walks valuation timing part.timeslots pool path.steps path.after := by
  obtain ⟨_, branches, explored, rfl⟩ := variations_eq_ok varied
  obtain ⟨branch, isBranch, rfl⟩ := List.mem_map.mp member
  obtain ⟨valuation, steps, _, isSteps, isSnapshot, walks⟩ := SectionBranch.walks_of_explore
    ⟨descends, descends, spared, fun _ _ => rfl⟩ explored isBranch
  refine ⟨valuation, isSnapshot, ?_⟩
  have all : branch.toPath.steps = steps := isSteps
  rw [all]
  exact walks

/-- **Walks are paths**: whatever a walk through the section does is done by one of its variations.
-/
theorem exists_path_of_walks {valuation : Valuation} {steps : List SectionStep} {final : Pool}
    (walks : Walks valuation timing part.timeslots pool steps final) : ∃ path ∈ paths,
      path.steps = steps ∧ path.after = final ∧
        path.snapshot = pool.reads valuation (Timeslot.roots part.timeslots) := by
  obtain ⟨_, branches, explored, rfl⟩ := variations_eq_ok varied
  have unread : (SectionBranch.start pool).Reads valuation := fun impossible => nomatch impossible
  obtain ⟨branch, isBranch, isSteps, isFinal, isSnapshot⟩ := SectionBranch.exists_outcome_of_walks
    ⟨descends, descends, spared, fun _ _ => rfl⟩ unread explored walks
  exact ⟨branch.toPath, List.mem_map_of_mem isBranch, isSteps, isFinal, isSnapshot⟩

/-- A section with variations can be walked in every environment. -/
theorem walkable {valuation : Valuation}
    (admits : pool.Admits valuation (Timeslot.roots part.timeslots)) :
    Walkable valuation timing part.timeslots pool := by
  obtain ⟨_, branches, explored, rfl⟩ := variations_eq_ok varied
  have unread : (SectionBranch.start pool).Reads valuation := fun impossible => nomatch impossible
  exact SectionBranch.walkable_of_explore ⟨descends, descends, spared, fun _ _ => rfl⟩ unread admits
    explored

end SnapshotSection

end TimedKripke
