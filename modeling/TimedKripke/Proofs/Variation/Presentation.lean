import TimedKripke.Proofs.Variation.Walk

/-! # Sections on the shared pool

A section is varied from the pool of its own thread, and its changes are laid over the pool that
all threads share. If both pools agree on what the section touches, and no timeslot touches the
executable of a later one, this comes to running the section on the shared pool itself: all
executables read at the start, and then the timeslots are executed one after the other
(`SnapshotSection.presented_of_variations`, `SnapshotSection.exists_presented`). The pools that are
shown on the way are those of that run.
-/

namespace TimedKripke

/-- Timeslots executed one after the other on one pool. -/
inductive Executes (timing : ScheduleTiming) :
    List Timeslot → Pool → List ConditionalRinglet → Pool → Prop
  | nil (pool : Pool) : Executes timing [] pool [] pool
  | cons {slot : Timeslot} {slots : List Timeslot} {pool final : Pool}
      {ringlets conditionals : List ConditionalRinglet} {conditional : ConditionalRinglet}
      (sampled : Ringlet.timeAware pool slot timing 0 = .ok ringlets)
      (chosen : conditional ∈ ringlets)
      (later : Executes timing slots conditional.ringlet.after conditionals final) :
      Executes timing (slot :: slots) pool (conditional :: conditionals) final

/-- The executable of the first timeslot is there before it reads. -/
theorem Executes.exists_root {timing : ScheduleTiming} {valuation : Valuation}
    {ids : List ExecutableId} {slot : Timeslot} {slots : List Timeslot} {pool final : Pool}
    {conditionals : List ConditionalRinglet}
    (executes : Executes timing (slot :: slots) (pool.reads valuation ids) conditionals final) :
    ∃ root, pool.get? slot.executable = some root := by
  cases executes with
  | cons sampled chosen _ =>
      obtain ⟨time, executed⟩ := Ringlet.mem_timeAware sampled chosen
      obtain ⟨known, _, _, _, isKnown, _⟩ := Ringlet.execute_eq_ok executed
      rw [Pool.get?_reads] at isKnown
      split at isKnown
      · obtain ⟨root, found, _⟩ := Option.map_eq_some_iff.mp isKnown
        exact ⟨root, found⟩
      · exact ⟨known, isKnown⟩

/-- Timeslots can be sampled one after the other on one pool, whatever is chosen. -/
def Runnable (timing : ScheduleTiming) : List Timeslot → Pool → Prop
  | [], _ => True
  | slot :: slots, pool => ∃ ringlets, Ringlet.timeAware pool slot timing 0 = .ok ringlets ∧
      ∀ conditional ∈ ringlets, Runnable timing slots conditional.ringlet.after

/-- What can be run has a run, by induction on the timeslots. -/
theorem Runnable.exists_executes {timing : ScheduleTiming} {slots : List Timeslot} :
    ∀ {pool : Pool}, Runnable timing slots pool →
      ∃ conditionals final, Executes timing slots pool conditionals final := by
  induction slots with
  | nil => exact fun _ => ⟨[], _, .nil _⟩
  | cons slot slots others =>
      intro pool runnable
      obtain ⟨ringlets, sampled, each⟩ := runnable
      obtain ⟨conditional, chosen⟩ := List.exists_mem_of_ne_nil _ (Ringlet.timeAware_ne_nil sampled)
      obtain ⟨conditionals, final, executes⟩ := others (each conditional chosen)
      exact ⟨conditional :: conditionals, final, .cons sampled chosen executes⟩

/-- From `base` to `changed` and from `shared` to `result` the same changes were made, none of
them outside of what the call chains involve. -/
structure Pool.Carries (origin : Pool) (chains : List CallChain)
    (base shared changed result : Pool) : Prop where
  changes : Descends origin changed
  results : Descends origin result
  inside : AgreeOn (Touches origin chains) changed result
  kept : ∀ id, ¬ Involves origin chains id → changed.get? id = base.get? id
  carried : ∀ id, ¬ Involves origin chains id → result.get? id = shared.get? id

/-- The pools of a thread and of all threads agree on what the thread touches. -/
structure Pool.Alongside (origin : Pool) (chains : List CallChain) (base shared : Pool) : Prop where
  thread : Descends origin base
  all : Descends origin shared
  agree : AgreeOn (Touches origin chains) base shared

/-- **Laying changes over the shared pool makes them there**: the result is the pool that the thread
would have left, had it run on the shared one. -/
theorem Pool.Carries.overlaid_eq {origin base shared changed result : Pool}
    {chains : List CallChain} (alongside : Alongside origin chains base shared)
    (carries : Carries origin chains base shared changed result) :
    shared.overlaid base changed = result := by
  have descends := alongside.all.overlaid carries.changes base
  refine ext_of_get? descends.wellFormed.nodup
    (descends.frame.trans carries.results.frame.symm) fun id => ?_
  by_cases inUse : id ∈ changed.ids
  · obtain ⟨entry, member, rfl⟩ := List.mem_map.mp inUse
    have found := get?_of_mem carries.changes.wellFormed.nodup member
    have unchanged := isUnchanged_iff alongside.thread carries.changes member
    rw [get?_overlaid alongside.all carries.changes base member]
    by_cases involves : Involves origin chains entry.id
    · rw [carries.inside _ (.inl involves), found]
      split
      · rename_i same
        rw [alongside.agree _ (.inl involves), unchanged.mp same]
      · rfl
    · have same : base.get? entry.id = some entry.executable :=
        (carries.kept _ involves).symm.trans found
      rw [if_pos (unchanged.mpr same), carries.carried _ involves]
  · have absent : ∀ {pool : Pool}, Descends origin pool → pool.get? id = none := by
      intro pool descends
      cases found : pool.get? id with
      | none => rfl
      | some executable =>
          have isId := exists_get?_iff.mp ⟨executable, found⟩
          rw [ids_eq_of_frame (descends.frame.trans carries.changes.frame.symm)] at isId
          exact absurd isId inUse
    rw [absent descends, absent carries.results]

theorem ConditionalRinglet.Mirrors.symm {ids : ExecutableId → Prop}
    {conditional mirrored : ConditionalRinglet} (mirrors : conditional.Mirrors ids mirrored) :
    mirrored.Mirrors ids conditional :=
  ⟨mirrors.condition.symm, mirrors.ringlet.transitioned.symm, mirrors.ringlet.calls.symm,
    mirrors.ringlet.executedState.symm, mirrors.ringlet.queried.symm,
    fun id isId => (mirrors.ringlet.after id isId).symm⟩

/-- A walk admits its environment from the start, since no timeslot changes the executable of a
later one before it reads. -/
theorem Walks.admits {origin : Pool} {valuation : Valuation} {timing : ScheduleTiming}
    {slots : List Timeslot} {pool final : Pool} {steps : List SectionStep}
    (walks : Walks valuation timing slots pool steps final)
    (descends : Pool.Descends origin pool) (spared : Timeslot.Spared origin slots) :
    pool.Admits valuation (Timeslot.roots slots) := by
  induction walks with
  | nil => exact fun _ impossible => nomatch impossible
  | cons found admits sampled chosen later others =>
      have here := Pool.admits_singleton found admits
      obtain ⟨time, executed⟩ := Ringlet.mem_timeAware sampled chosen
      have admitsLater := others (Ringlet.execute_descends (descends.reads here) executed)
        (List.pairwise_cons.mp spared).2
      intro id isId known isKnown
      rcases List.mem_cons.mp isId with rfl | isLater
      · exact here _ List.mem_cons_self known isKnown
      · refine admitsLater id isLater known ?_
        rwa [spared.get?_after descends here sampled chosen isLater]

/-- What a later step was given is assigned to an executable that has not run. -/
theorem SectionPath.assignLater_cons {ran : List ExecutableId} {pool assigned : Pool}
    {step : SectionStep} {steps : List SectionStep}
    (notRun : ran.contains step.executable = false)
    (isAssigned : pool.assign step.executable step.assignments = .ok assigned) :
    assignLater ran pool (step :: steps) = assignLater ran assigned steps := by
  rw [assignLater, notRun, isAssigned]
  rfl

/-- Assigning the inputs of the steps of a walk makes their executables read. -/
theorem Walks.assignLater {origin : Pool} {valuation : Valuation} {timing : ScheduleTiming}
    {slots : List Timeslot} {pool final : Pool} {steps : List SectionStep}
    (walks : Walks valuation timing slots pool steps final)
    (descends : Pool.Descends origin pool) (spared : Timeslot.Spared origin slots)
    {ran : List ExecutableId} (unrun : ∀ id ∈ Timeslot.roots slots, id ∉ ran) :
    ∀ {shown : Pool}, Pool.Descends origin shown →
      (∀ id ∈ Timeslot.roots slots, shown.get? id = pool.get? id) →
        SectionPath.assignLater ran shown steps =
          .ok (shown.reads valuation (Timeslot.roots slots)) := by
  induction walks with
  | nil =>
      intro shown _ _
      exact congrArg Except.ok (Pool.reads_nil _ _).symm
  | @cons slot slots pool final executable ringlets conditional steps found admits sampled chosen
      later others =>
      intro shown descendsShown same
      have here := Pool.admits_singleton found admits
      have isFound : shown.get? slot.executable = some executable :=
        (same _ List.mem_cons_self).trans found
      have notRun : ran.contains slot.executable = false := by
        simpa using unrun _ List.mem_cons_self
      have assigned := (Pool.assign_readings_iff descendsShown.wellFormed isFound).mpr ⟨admits, rfl⟩
      obtain ⟨time, executed⟩ := Ringlet.mem_timeAware sampled chosen
      have unrunLater : ∀ id ∈ Timeslot.roots slots, id ∉ ran := fun id isLater =>
        unrun id (List.mem_cons_of_mem _ isLater)
      have sameLater : ∀ id ∈ Timeslot.roots slots,
          (shown.reads valuation [slot.executable]).get? id =
            conditional.ringlet.after.get? id := by
        intro id isLater
        have other : id ∉ [slot.executable] := fun same =>
          spared.fresh (List.mem_singleton.mp same ▸ isLater)
        rw [Pool.get?_reads_of_not_mem other, same id (List.mem_cons_of_mem _ isLater),
          spared.get?_after descends here sampled chosen isLater]
      have rest := others (Ringlet.execute_descends (descends.reads here) executed)
        (List.pairwise_cons.mp spared).2 unrunLater (descendsShown.assign assigned) sameLater
      rw [Pool.reads_reads spared.fresh, ← Timeslot.roots_cons] at rest
      exact (SectionPath.assignLater_cons notRun assigned).trans rest

section Beside

variable {origin : Pool} {chains : List CallChain} {valuation : Valuation}
  {timing : ScheduleTiming} {base shared pool current : Pool} {slots : List Timeslot}

/-- How far a walk from `base` and an execution from `shared` have come, with the given timeslots
to go: the walk has reached `pool` and the execution `current`, where all have read already. -/
structure Beside (origin : Pool) (chains : List CallChain) (valuation : Valuation)
    (base shared : Pool) (slots : List Timeslot) (pool current : Pool) : Prop where
  walked : Pool.Descends origin pool
  admits : pool.Admits valuation (Timeslot.roots slots)
  apart : Timeslot.Apart origin slots
  within : ∀ slot ∈ slots, slot.callChain ∈ chains
  /-- The same changes were made. -/
  carries : Pool.Carries origin chains base shared
    (pool.reads valuation (Timeslot.roots slots)) current

/-- At the start of a section, a walk on a pool and an execution on another pool alongside stand
beside each other, once the execution has read all inputs. -/
theorem Beside.start {slots : List Timeslot}
    (alongside : Pool.Alongside origin chains base shared) (apart : Timeslot.Apart origin slots)
    (within : ∀ slot ∈ slots, slot.callChain ∈ chains)
    (admits : base.Admits valuation (Timeslot.roots slots)) :
    shared.Admits valuation (Timeslot.roots slots) ∧
      Beside origin chains valuation base shared slots base
        (shared.reads valuation (Timeslot.roots slots)) := by
  have involves : ∀ id ∈ Timeslot.roots slots, origin.Involves chains id := by
    intro id isRoot
    obtain ⟨slot, isSlot, rfl⟩ := List.mem_map.mp isRoot
    exact .root (within slot isSlot)
  have admitsShared : shared.Admits valuation (Timeslot.roots slots) := by
    intro id isRoot executable found
    rw [alongside.agree id (.inl (involves id isRoot))] at found
    exact admits id isRoot executable found
  have outside : ∀ {pool : Pool} {id}, ¬ origin.Involves chains id →
      (pool.reads valuation (Timeslot.roots slots)).get? id = pool.get? id := by
    intro pool id apartFrom
    exact Pool.get?_reads_of_not_mem fun isRoot => apartFrom (involves id isRoot)
  refine ⟨admitsShared, alongside.thread, admits, apart, within, alongside.thread.reads admits,
    alongside.all.reads admitsShared, fun id touches => ?_, fun id => outside, fun id => outside⟩
  rw [Pool.get?_reads, Pool.get?_reads, alongside.agree id touches]

variable {slot : Timeslot}

/-- The pools agree on what the next timeslot touches. -/
theorem Beside.agree (beside : Beside origin chains valuation base shared (slot :: slots) pool
    current) : Pool.AgreeOn (origin.Touches [slot.callChain])
      (pool.reads valuation [slot.executable]) current := by
  intro id touches
  have isChain := beside.within slot List.mem_cons_self
  have inThread : origin.Touches chains id := touches.mono (by simpa using isChain)
  have notLater : id ∉ Timeslot.roots slots := fun later => beside.apart.not_touches later touches
  rw [beside.carries.inside id inThread, Pool.get?_reads, Pool.get?_reads, Timeslot.roots_cons]
  simp [notLater]

/-- The executables to come are the same in both pools, once they have read. -/
theorem Beside.shown (beside : Beside origin chains valuation base shared slots pool current) :
    ∀ id ∈ Timeslot.roots slots,
      current.get? id = (pool.reads valuation (Timeslot.roots slots)).get? id := by
  intro id isRoot
  obtain ⟨slot, isSlot, rfl⟩ := List.mem_map.mp isRoot
  exact beside.carries.inside _ (.inl (.root (beside.within slot isSlot)))

/-- The environment has values for the inputs of the next timeslot. -/
theorem Beside.admitsHead (beside : Beside origin chains valuation base shared (slot :: slots) pool
    current) : pool.Admits valuation [slot.executable] := by
  intro id isId
  cases List.mem_singleton.mp isId
  exact beside.admits _ List.mem_cons_self

/-- **One timeslot on both sides** keeps the walk beside the execution, if their ringlets mirror
each other. -/
theorem Beside.step (beside : Beside origin chains valuation base shared (slot :: slots) pool
    current) {conditional conditional' : ConditionalRinglet}
    {ringlets ringlets' : List ConditionalRinglet}
    (sampled : Ringlet.timeAware (pool.reads valuation [slot.executable]) slot timing 0 =
      .ok ringlets) (chosen : conditional ∈ ringlets)
    (sampled' : Ringlet.timeAware current slot timing 0 = .ok ringlets')
    (chosen' : conditional' ∈ ringlets')
    (mirrors : conditional.Mirrors (origin.Touches [slot.callChain]) conditional') :
    Beside origin chains valuation base shared slots conditional.ringlet.after
      conditional'.ringlet.after := by
  obtain ⟨time, executed⟩ := Ringlet.mem_timeAware sampled chosen
  obtain ⟨time', executed'⟩ := Ringlet.mem_timeAware sampled' chosen'
  have descends := beside.walked.reads beside.admitsHead
  have isChain := beside.within slot List.mem_cons_self
  have inThread : ∀ {id}, origin.Involves [slot.callChain] id → origin.Involves chains id :=
    fun involves => involves.mono (by simpa using isChain)
  have fresh := beside.apart.spared.fresh
  have isRoot : ∀ {id}, ¬ origin.Involves [slot.callChain] id → id ≠ slot.executable := by
    rintro _ outside rfl
    exact outside (.root List.mem_cons_self)
  have unchanged : ∀ {id}, id ∈ Timeslot.roots slots →
      conditional.ringlet.after.get? id = pool.get? id :=
    beside.apart.spared.get?_after beside.walked beside.admitsHead sampled chosen
  -- What the timeslot does not involve was read already, and stays.
  have before : ∀ {id}, ¬ origin.Involves [slot.callChain] id →
      (conditional.ringlet.after.reads valuation (Timeslot.roots slots)).get? id =
        (pool.reads valuation (Timeslot.roots (slot :: slots))).get? id := by
    intro id outside
    have other := isRoot outside
    have kept : conditional.ringlet.after.get? id = pool.get? id := by
      rw [Ringlet.execute_outside descends List.mem_cons_self executed outside,
        Pool.get?_reads_of_not_mem (by simpa using other)]
    rw [Pool.get?_reads, Pool.get?_reads, kept, Timeslot.roots_cons]
    simp [other]
  have after : ∀ {id}, ¬ origin.Involves [slot.callChain] id →
      conditional'.ringlet.after.get? id = current.get? id := fun outside =>
    Ringlet.execute_outside beside.carries.results List.mem_cons_self executed' outside
  have admitsLater : conditional.ringlet.after.Admits valuation (Timeslot.roots slots) := by
    intro id later executable found
    rw [unchanged later] at found
    exact beside.admits id (List.mem_cons_of_mem _ later) executable found
  have descendsAfter := Ringlet.execute_descends descends executed
  refine ⟨descendsAfter, admitsLater, (List.pairwise_cons.mp beside.apart).2,
    fun later isLater => beside.within later (List.mem_cons_of_mem _ isLater),
    descendsAfter.reads admitsLater,
    Ringlet.execute_descends beside.carries.results executed', fun id touches => ?_,
    fun id outside => ?_, fun id outside => ?_⟩
  · by_cases involves : origin.Involves [slot.callChain] id
    · have notLater : id ∉ Timeslot.roots slots := fun later =>
        beside.apart.not_touches later (.inl involves)
      rw [Pool.get?_reads_of_not_mem notLater]
      exact mirrors.ringlet.after id (.inl involves)
    · rw [before involves, after involves]
      exact beside.carries.inside id touches
  · have notHere := fun here => outside (inThread here)
    rw [before notHere]
    exact beside.carries.kept id outside
  · rw [after fun here => outside (inThread here)]
    exact beside.carries.carried id outside

/-- The steps of a walk from `base` show what the conditional ringlets of an execution from
`shared` show. -/
inductive Presents (base shared : Pool) :
    List Timeslot → List SectionStep → List ConditionalRinglet → Prop
  | nil : Presents base shared [] [] []
  | cons {slot : Timeslot} {slots : List Timeslot} {step : SectionStep} {steps : List SectionStep}
      {conditional : ConditionalRinglet} {conditionals : List ConditionalRinglet}
      (timeslot : step.timeslot.uncounted = slot.uncounted)
      (condition : step.conditional.edgeConstraint? = conditional.edgeConstraint?)
      (transitioned : step.ringlet.transitioned = conditional.ringlet.transitioned)
      (executedState : step.ringlet.executedState = conditional.ringlet.executedState)
      (shows : ∀ ran, (∀ id ∈ Timeslot.roots slots, id ∉ ran) → ∃ observed,
        SectionPath.assignLater ran step.ringlet.after steps = .ok observed ∧
          shared.overlaid base observed = conditional.ringlet.after)
      (later : Presents base shared slots steps conditionals) :
      Presents base shared (slot :: slots) (step :: steps) (conditional :: conditionals)

/-- A step of the walk shows what the timeslot shows on the shared pool. -/
theorem Presents.cons_of_mirrors (alongside : Pool.Alongside origin chains base shared)
    {conditional conditional' : ConditionalRinglet} {ids : ExecutableId → Prop}
    (mirrors : conditional.Mirrors ids conditional') (assignments : PropertyList)
    (beside : Beside origin chains valuation base shared slots conditional.ringlet.after
      conditional'.ringlet.after) {steps : List SectionStep} {final : Pool}
    {conditionals : List ConditionalRinglet}
    (walks : Walks valuation timing slots conditional.ringlet.after steps final)
    (presents : Presents base shared slots steps conditionals) :
    Presents base shared (slot :: slots)
      (SectionBranch.stepThrough slot assignments conditional :: steps)
      (conditional' :: conditionals) := by
  refine .cons rfl mirrors.edgeConstraint?.symm mirrors.ringlet.transitioned.symm
    mirrors.ringlet.executedState.symm (fun ran unrun => ?_) presents
  exact ⟨_, walks.assignLater beside.walked beside.apart.spared unrun beside.walked fun _ _ => rfl,
    beside.carries.overlaid_eq alongside⟩

/-- **Walks are executions on the shared pool** that show the same and carry over the same changes.
-/
theorem Walks.executes (alongside : Pool.Alongside origin chains base shared) {final : Pool}
    {steps : List SectionStep} (walks : Walks valuation timing slots pool steps final) :
    ∀ {current : Pool}, Beside origin chains valuation base shared slots pool current →
      ∃ conditionals result, Executes timing slots current conditionals result ∧
        Presents base shared slots steps conditionals ∧
        Pool.Carries origin chains base shared final result := by
  induction walks with
  | nil pool =>
      intro current beside
      refine ⟨[], current, .nil current, .nil, ?_⟩
      have carries := beside.carries
      rwa [show Timeslot.roots [] = [] from rfl, Pool.reads_nil] at carries
  | @cons slot slots pool final executable ringlets conditional steps found admits sampled chosen
      later others =>
      intro current beside
      obtain ⟨ringlets', sampled', alike⟩ := Ringlet.timeAware_mirrors
        (beside.walked.reads beside.admitsHead) beside.carries.results List.mem_cons_self
          beside.agree
        sampled
      obtain ⟨conditional', chosen', mirrors⟩ := Outcome.exists_right alike chosen
      have besideLater := beside.step sampled chosen sampled' chosen' mirrors
      obtain ⟨conditionals, result, executes, presents, carries⟩ := others besideLater
      exact ⟨conditional' :: conditionals, result, .cons sampled' chosen' executes,
        .cons_of_mirrors alongside mirrors _ besideLater later presents, carries⟩

/-- What can be walked can be run on the shared pool. -/
theorem Beside.runnable {slots : List Timeslot} : ∀ {pool current : Pool},
    Beside origin chains valuation base shared slots pool current →
      Walkable valuation timing slots pool → Runnable timing slots current := by
  induction slots with
  | nil => exact fun _ _ => trivial
  | cons slot slots others =>
      intro pool current beside walkable
      obtain ⟨ringlets, sampled, each⟩ := walkable
      obtain ⟨ringlets', sampled', alike⟩ := Ringlet.timeAware_mirrors
        (beside.walked.reads beside.admitsHead) beside.carries.results List.mem_cons_self
          beside.agree
        sampled
      refine ⟨ringlets', sampled', fun conditional' chosen' => ?_⟩
      obtain ⟨conditional, chosen, mirrors⟩ := Outcome.exists_left alike chosen'
      exact others (beside.step sampled chosen sampled' chosen' mirrors) (each conditional chosen)

/-- **Executions on the shared pool are walks** that show the same and carry over the same changes.
-/
theorem Executes.walks (alongside : Pool.Alongside origin chains base shared) {result : Pool}
    {conditionals : List ConditionalRinglet}
    (executes : Executes timing slots current conditionals result) :
    ∀ {pool : Pool}, Beside origin chains valuation base shared slots pool current →
      ∃ steps final, Walks valuation timing slots pool steps final ∧
        Presents base shared slots steps conditionals ∧
        Pool.Carries origin chains base shared final result := by
  induction executes with
  | nil current =>
      intro pool beside
      refine ⟨[], pool, .nil pool, .nil, ?_⟩
      have carries := beside.carries
      rwa [show Timeslot.roots [] = [] from rfl, Pool.reads_nil] at carries
  | @cons slot slots current result ringlets' conditionals conditional' sampled' chosen' later
      others =>
      intro pool beside
      have agree : Pool.AgreeOn (origin.Touches [slot.callChain]) current
          (pool.reads valuation [slot.executable]) := fun id touches =>
        (beside.agree id touches).symm
      obtain ⟨ringlets, sampled, alike⟩ := Ringlet.timeAware_mirrors beside.carries.results
        (beside.walked.reads beside.admitsHead) List.mem_cons_self agree sampled'
      obtain ⟨conditional, chosen, mirrors⟩ := Outcome.exists_right alike chosen'
      have besideLater := beside.step sampled chosen sampled' chosen' mirrors.symm
      obtain ⟨steps, final, walks, presents, carries⟩ := others besideLater
      obtain ⟨time, executed⟩ := Ringlet.mem_timeAware sampled chosen
      obtain ⟨read, _, _, _, isRead, _⟩ := Ringlet.execute_eq_ok executed
      rw [Pool.get?_reads, if_pos List.mem_cons_self] at isRead
      obtain ⟨executable, found, rfl⟩ := Option.map_eq_some_iff.mp isRead
      exact ⟨_ :: steps, final,
        .cons found (beside.admitsHead _ List.mem_cons_self _ found) sampled chosen walks,
        .cons_of_mirrors alongside mirrors.symm _ besideLater walks presents, carries⟩

end Beside

/-- The path from `base` shows what an execution on the shared pool shows: the pool after reading,
the conditional ringlets, and the pool at the end. -/
structure SectionPath.Presented (origin : Pool) (chains : List CallChain) (base shared : Pool)
    (slots : List Timeslot) (read : Pool) (conditionals : List ConditionalRinglet) (result : Pool)
    (path : SectionPath) : Prop where
  frame : Pool.Descends origin path.snapshot
  /-- The snapshot shows the pool after reading. -/
  snapshot : shared.overlaid base path.snapshot = read
  /-- The executables of the timeslots are those of the pool after reading. -/
  shown : ∀ id ∈ Timeslot.roots slots, read.get? id = path.snapshot.get? id
  steps : Presents base shared slots path.steps conditionals
  carries : Pool.Carries origin chains base shared path.after result

namespace SnapshotSection

variable {origin : Pool} {chains : List CallChain} {base shared : Pool} {timing : ScheduleTiming}
  {part : SnapshotSection} {paths : List SectionPath}

/-- Ways to run a section on one pool: all executables read, and the timeslots are executed. -/
def Executes (part : SnapshotSection) (timing : ScheduleTiming) (pool read : Pool)
    (conditionals : List ConditionalRinglet) (result : Pool) : Prop :=
  ∃ valuation, pool.Admits valuation (Timeslot.roots part.timeslots) ∧
    read = pool.reads valuation (Timeslot.roots part.timeslots) ∧
    TimedKripke.Executes timing part.timeslots read conditionals result

/-- An environment that can be read on the shared pool can be read on that of the thread. -/
theorem admits_base (alongside : Pool.Alongside origin chains base shared)
    (within : ∀ slot ∈ part.timeslots, slot.callChain ∈ chains) {valuation : Valuation}
    (admits : shared.Admits valuation (Timeslot.roots part.timeslots)) :
    base.Admits valuation (Timeslot.roots part.timeslots) := by
  intro id isRoot executable found
  obtain ⟨slot, isSlot, rfl⟩ := List.mem_map.mp isRoot
  have same := alongside.agree slot.executable (.inl (.root (within slot isSlot)))
  exact admits _ isRoot executable (same.trans found)

variable (alongside : Pool.Alongside origin chains base shared)
  (apart : Timeslot.Apart origin part.timeslots)
  (within : ∀ slot ∈ part.timeslots, slot.callChain ∈ chains)
  (varied : part.variations base timing = .ok paths)
include alongside apart within varied

/-- **Paths are executions on the shared pool**: for every path there is an execution of the section
that it presents. -/
theorem presented_of_variations {path : SectionPath} (member : path ∈ paths) :
    ∃ read conditionals result, part.Executes timing shared read conditionals result ∧
      path.Presented origin chains base shared part.timeslots read conditionals result := by
  obtain ⟨valuation, isSnapshot, walks⟩ :=
    walks_of_variations alongside.thread apart.spared varied member
  obtain ⟨admits, beside⟩ := Beside.start alongside apart within
    (walks.admits alongside.thread apart.spared)
  obtain ⟨conditionals, result, executes, presents, carries⟩ := walks.executes alongside beside
  refine ⟨_, conditionals, result, ⟨valuation, admits, rfl, executes⟩, ?_, ?_, ?_, presents,
    carries⟩
  · rw [isSnapshot]
    exact beside.carries.changes
  · rw [isSnapshot]
    exact beside.carries.overlaid_eq alongside
  · rw [isSnapshot]
    exact beside.shown

/-- A section with variations can be run on the shared pool, in every environment. -/
theorem runnable {valuation : Valuation}
    (admits : shared.Admits valuation (Timeslot.roots part.timeslots)) :
    Runnable timing part.timeslots (shared.reads valuation (Timeslot.roots part.timeslots)) := by
  have admitsBase := admits_base alongside within admits
  obtain ⟨_, beside⟩ := Beside.start alongside apart within admitsBase
  exact beside.runnable (walkable alongside.thread apart.spared varied admitsBase)

/-- **Executions on the shared pool are paths**: every execution of the section is presented by one
of them. -/
theorem exists_presented {read result : Pool} {conditionals : List ConditionalRinglet}
    (executes : part.Executes timing shared read conditionals result) : ∃ path ∈ paths,
      path.Presented origin chains base shared part.timeslots read conditionals result := by
  obtain ⟨valuation, admits, rfl, executes⟩ := executes
  obtain ⟨_, beside⟩ := Beside.start alongside apart within (admits_base alongside within admits)
  obtain ⟨steps, final, walks, presents, carries⟩ := executes.walks alongside beside
  obtain ⟨path, member, rfl, rfl, isSnapshot⟩ :=
    exists_path_of_walks alongside.thread apart.spared varied walks
  refine ⟨path, member, ?_, ?_, ?_, presents, carries⟩
  · rw [isSnapshot]
    exact beside.carries.changes
  · rw [isSnapshot]
    exact beside.carries.overlaid_eq alongside
  · rw [isSnapshot]
    exact beside.shown

end SnapshotSection

end TimedKripke
