import TimedKripke.Proofs.Ringlet.Locality
import TimedKripke.Proofs.Ringlet.TimeAware

/-! # What a timeslot touches

Serving a call chain may involve the executables of the chain and whatever these may call, and
may consult the results that these may ask for (`Pool.Involves`, `Pool.Consults`). Both can be
read off the programs. A timeslot changes nothing that it does not involve
(`Ringlet.execute_outside`), and on pools that agree on what it touches it has the same
conditional ringlets, with the same changes (`Ringlet.timeAware_mirrors`).
-/

namespace TimedKripke

namespace Pool

/-- The executables that may run when call chains are served. -/
inductive Involves (origin : Pool) (chains : List CallChain) : ExecutableId → Prop
  | root {chain : CallChain} (member : chain ∈ chains) : Involves origin chains chain.root
  /-- What has been called when the timeslot starts. -/
  | opened {chain : CallChain} {call : Call} (member : chain ∈ chains)
      (isOpen : call ∈ chain.calls) : Involves origin chains call.callee
  /-- What one that runs may call. -/
  | called {id callee : ExecutableId} {executable : Executable} (runs : Involves origin chains id)
      (found : origin.get? id = some executable)
      (may : executable.running.machine.MayCall origin.directory callee) :
      Involves origin chains callee

/-- The executables whose results may be asked for when call chains are served. -/
def Consults (origin : Pool) (chains : List CallChain) (asked : ExecutableId) : Prop :=
  ∃ id executable, Involves origin chains id ∧ origin.get? id = some executable ∧
    executable.running.machine.MayAsk origin.directory asked

/-- The executables that serving call chains may change or depend on. -/
def Touches (origin : Pool) (chains : List CallChain) (id : ExecutableId) : Prop :=
  Involves origin chains id ∨ Consults origin chains id

variable {origin : Pool} {chains more : List CallChain}

/-- Serving call chains stays among the executables they involve and consults only those it may ask.
-/
theorem confined (origin : Pool) (chains : List CallChain) :
    origin.Confined (Involves origin chains) (Consults origin chains) where
  calls := fun runs found _ may => .called runs found may
  results := fun runs found _ may => ⟨_, _, runs, found, may⟩

/-- More chains involve more executables. -/
theorem Involves.mono (within : chains ⊆ more) {id : ExecutableId}
    (involves : Involves origin chains id) : Involves origin more id := by
  induction involves with
  | root member => exact .root (within member)
  | opened member isOpen => exact .opened (within member) isOpen
  | called _ found may runs => exact .called runs found may

/-- More chains touch more executables. -/
theorem Touches.mono (within : chains ⊆ more) {id : ExecutableId}
    (touches : Touches origin chains id) : Touches origin more id := by
  rcases touches with involves | ⟨runner, executable, involves, found, may⟩
  · exact .inl (involves.mono within)
  · exact .inr ⟨runner, executable, involves.mono within, found, may⟩

/-- The pools have the same executables of some ids. -/
def AgreeOn (ids : ExecutableId → Prop) (left right : Pool) : Prop :=
  ∀ id, ids id → right.get? id = left.get? id

/-- Descendants that agree on the executables that chains touch agree in all that serving the chains
can tell. -/
theorem AgreeOn.agrees {left right : Pool} (agree : AgreeOn (Touches origin chains) left right)
    (descends : Descends origin left) (descends' : Descends origin right) :
    Agrees (Involves origin chains) (Consults origin chains) left right where
  frame := descends'.frame.trans descends.frame.symm
  runs := fun id involves => agree id (.inl involves)
  shown := fun id consults => by rw [agree id (.inr consults)]

end Pool

section Outside

variable {origin pool : Pool} {chains : List CallChain} {slot : Timeslot}

/-- An execution changes only executables that may run, and only such executables come to be in
control. -/
theorem Dispatch.preserved_outside {Runs Shown : ExecutableId → Prop}
    (confined : origin.Confined Runs Shown) (before : Pool) :
    Preserved (fun state => Inside origin Runs state ∧
      ∀ id, ¬ Runs id → state.pool.get? id = before.get? id) (fun call => Runs call.callee) where
  steps := by
    intro state executable stepped outcome holds found made
    obtain ⟨inside, issued⟩ := (preserved_inside confined).steps holds.1 found made
    refine ⟨⟨inside, fun id outside => ?_⟩, issued⟩
    have other : id ≠ state.chain.executable := fun same => outside (same ▸ holds.1.active)
    rw [afterStep, Pool.get?_set, if_neg other]
    exact holds.2 id outside
  begins := by
    intro state begun call holds runs began
    refine ⟨(preserved_inside confined).begins holds.1 runs began, fun id outside => ?_⟩
    obtain ⟨chain, callee, started, _, _, _, rfl⟩ := beginCall_eq_ok began
    have other : id ≠ call.callee := fun same => outside (same ▸ runs)
    rw [Pool.get?_set, if_neg other]
    exact holds.2 id outside
  closes := fun holds => ⟨(preserved_inside confined).closes holds.1, holds.2⟩

variable (descends : Pool.Descends origin pool) (isChain : slot.callChain ∈ chains)
include descends isChain

/-- **Executing a timeslot changes only what it involves**: all other executables are as they were,
also if it fails. -/
theorem executeTimeslot_outside (clock : Clock) {id : ExecutableId}
    (outside : ¬ Pool.Involves origin chains id) :
    (executeTimeslot pool slot clock).2.pool.get? id = pool.get? id := by
  have preserved := Dispatch.preserved_outside (Pool.confined origin chains) pool
  have inside : Dispatch.Inside origin (Pool.Involves origin chains)
      { pool, chain := slot.callChain, clock, calls := [] } :=
    ⟨descends, .root isChain, fun _ isOpen => .opened isChain isOpen⟩
  exact (Dispatch.executeActive_preserves preserved pool.callDepthBound _
    ⟨inside, fun _ _ => rfl⟩).2 id outside

/-- A ringlet leaves the executables that its timeslot does not involve as they were. -/
theorem Ringlet.execute_outside {timing : ScheduleTiming} {time : Time} {ringlet : Ringlet}
    (executed : execute pool slot timing time = .ok ringlet) {id : ExecutableId}
    (outside : ¬ Pool.Involves origin chains id) : ringlet.after.get? id = pool.get? id := by
  obtain ⟨_, execution, final, _, _, ran, _, rfl⟩ := execute_eq_ok executed
  have kept := executeTimeslot_outside descends isChain (Clock.new timing time) outside
  rwa [ran] at kept

end Outside

/-- The ringlets do the same, on pools that agree on some executables. -/
structure Ringlet.Mirrors (ids : ExecutableId → Prop) (ringlet mirrored : Ringlet) : Prop where
  transitioned : mirrored.transitioned = ringlet.transitioned
  calls : mirrored.calls = ringlet.calls
  executedState : mirrored.executedState = ringlet.executedState
  queried : mirrored.queried = ringlet.queried
  after : Pool.AgreeOn ids ringlet.after mirrored.after

/-- The conditional ringlets do the same under the same condition. -/
structure ConditionalRinglet.Mirrors (ids : ExecutableId → Prop)
    (conditional mirrored : ConditionalRinglet) : Prop where
  condition : mirrored.condition = conditional.condition
  ringlet : conditional.ringlet.Mirrors ids mirrored.ringlet

/-- Ringlets that mirror each other lead to edges under the same constraint. -/
theorem ConditionalRinglet.Mirrors.edgeConstraint? {ids : ExecutableId → Prop}
    {conditional mirrored : ConditionalRinglet} (mirrors : conditional.Mirrors ids mirrored) :
    mirrored.edgeConstraint? = conditional.edgeConstraint? := by
  unfold ConditionalRinglet.edgeConstraint?
  rw [mirrors.condition]

namespace Ringlet

/-- Executions at every time do the same. -/
def MirrorsAt (ids : ExecutableId → Prop) (execute execute' : Time → Except Fault Ringlet) : Prop :=
  ∀ {time : Time} {ringlet : Ringlet}, execute time = .ok ringlet →
    ∃ mirrored, execute' time = .ok mirrored ∧ ringlet.Mirrors ids mirrored

section Samples

variable {ids : ExecutableId → Prop} {execute execute' : Time → Except Fault Ringlet}

/-- The samples are taken at the same places and do the same. -/
def SamplesMirror (ids : ExecutableId → Prop) :
    List (SamplePoint × Ringlet) → List (SamplePoint × Ringlet) → Prop :=
  List.Forall₂ fun sample mirrored => mirrored.1 = sample.1 ∧ sample.2.Mirrors ids mirrored.2

/-- Sampling on mirrored executions takes mirrored samples. The induction follows the thresholds to
be asked. -/
theorem samplesFrom_mirrors (mirrors : MirrorsAt ids execute execute') (start : Time)
    (asked : List Time) : ∀ {taken : List (SamplePoint × Ringlet)},
      samplesFrom execute start asked = .ok taken →
        ∃ taken', samplesFrom execute' start asked = .ok taken' ∧
            SamplesMirror ids taken taken' := by
  fun_induction samplesFrom execute start asked with
  | case1 start asked none =>
      rintro taken ⟨⟩
      exact ⟨[], by rw [samplesFrom_eq, none], .nil⟩
  | case2 start asked found =>
      rintro taken ⟨⟩
      exact ⟨[], by rw [samplesFrom_eq, found]; rfl, .nil⟩
  | case3 start asked threshold found last _ fault failed =>
      rintro taken ⟨⟩
  | case4 start asked threshold found last _ ringlet executed others =>
      intro taken sampled
      obtain ⟨more, later, rfl⟩ := Outcome.map_eq_ok.mp sampled
      obtain ⟨mirrored, executed', same⟩ := mirrors executed
      obtain ⟨more', later', alike⟩ := others later
      refine ⟨(.past threshold, mirrored) :: more', ?_, .cons ⟨rfl, same⟩ alike⟩
      rw [samplesFrom_eq, found]
      simp only [if_neg last, executed', same.queried, bind, Except.bind, later']
      rfl

/-- All the samples of mirrored executions mirror each other. -/
theorem samples_mirrors (mirrors : MirrorsAt ids execute execute') {start : Time}
    {taken : List (SamplePoint × Ringlet)} (sampled : samples execute start = .ok taken) :
    ∃ taken', samples execute' start = .ok taken' ∧ SamplesMirror ids taken taken' := by
  obtain ⟨ringlet, more, executed, later, rfl⟩ := samples_eq_ok sampled
  obtain ⟨mirrored, executed', same⟩ := mirrors executed
  obtain ⟨more', later', alike⟩ := samplesFrom_mirrors mirrors start ringlet.queried later
  refine ⟨(.start start, mirrored) :: more', ?_, .cons ⟨rfl, same⟩ alike⟩
  rw [samples_eq]
  simp only [executed', same.queried, bind, Except.bind, later']
  rfl

/-- Mirrored samples give mirrored ringlets with the same conditions. -/
theorem conditions_mirrors {taken taken' : List (SamplePoint × Ringlet)}
    (alike : SamplesMirror ids taken taken') :
    List.Forall₂ (ConditionalRinglet.Mirrors ids) (conditions taken) (conditions taken') := by
  induction alike with
  | nil => exact .nil
  | @cons sample mirrored rest rest' here later others =>
      refine .cons ⟨?_, here.2⟩ others
      have next : (rest'.head?.bind fun next => next.1.threshold?) =
          rest.head?.bind fun next => next.1.threshold? := by
        cases later with
        | nil => rfl
        | cons first _ => exact congrArg SamplePoint.threshold? first.1
      rw [here.1, next]

end Samples

variable {origin pool other : Pool} {chains : List CallChain} {slot : Timeslot}
  (descends : Pool.Descends origin pool) (descends' : Pool.Descends origin other)
  (isChain : slot.callChain ∈ chains)
include descends descends' isChain

/-- On pools that agree on what a timeslot touches, it is executed in the same way. -/
theorem execute_mirrors (agree : Pool.AgreeOn (Pool.Touches origin chains) pool other)
    (timing : ScheduleTiming) :
    MirrorsAt (Pool.Touches origin chains) (execute pool slot timing)
        (execute other slot timing) := by
  intro time ringlet executed
  obtain ⟨executable, execution, final, after, found, ran, foundAfter, rfl⟩ :=
    execute_eq_ok executed
  have leads := leads_executeTimeslot pool slot (Clock.new timing time)
  rw [ran] at leads
  have readsAs : (executeTimeslot pool slot (Clock.new timing time)).2.clock.ReadsAs time := by
    rw [ran]
    intro threshold _
    rw [leads.elapsed]
    rfl
  have same := executeTimeslot_agrees (Pool.confined origin chains) (fun _ _ _ => rfl) descends
    (agree.agrees descends descends') (.root isChain)
    (fun call isOpen => .opened isChain isOpen) readsAs
  have involved : Pool.Involves origin chains slot.executable := .root isChain
  have isFound : other.get? slot.executable = some executable :=
    (agree _ (.inl involved)).trans found
  cases ran' : executeTimeslot other slot (Clock.new timing time) with
  | mk answer final' =>
      rw [ran, ran'] at same
      obtain ⟨outcome, agrees⟩ := same
      dsimp only at outcome
      subst outcome
      have isFoundAfter : final'.pool.get? slot.executable = some after :=
        (agrees.pool.runs _ involved).trans foundAfter
      obtain ⟨mirrored, executed'⟩ : ∃ mirrored, execute other slot timing time = .ok mirrored := by
        unfold execute
        simp only [Pool.get_eq_ok_iff.mpr isFound, ran', Pool.get_eq_ok_iff.mpr isFoundAfter]
        exact ⟨_, rfl⟩
      refine ⟨mirrored, executed', ?_⟩
      obtain ⟨_, _, _, _, found', isRan, _, rfl⟩ := execute_eq_ok executed'
      cases ran'.symm.trans isRan
      cases isFound.symm.trans found'
      refine ⟨rfl, rfl, rfl, (congrArg Clock.queried agrees.clock).trans rfl, fun id touches => ?_⟩
      by_cases involves : Pool.Involves origin chains id
      · exact agrees.pool.runs id involves
      · exact (execute_outside descends' isChain executed' involves).trans
          ((agree id touches).trans (execute_outside descends isChain executed involves).symm)

/-- **What a timeslot touches decides about it.** On pools that agree on that, it has the same
conditional ringlets. -/
theorem timeAware_mirrors (agree : Pool.AgreeOn (Pool.Touches origin chains) pool other)
    {timing : ScheduleTiming} {start : Time} {ringlets : List ConditionalRinglet}
    (sampled : timeAware pool slot timing start = .ok ringlets) :
    ∃ ringlets', timeAware other slot timing start = .ok ringlets' ∧
      List.Forall₂ (ConditionalRinglet.Mirrors (Pool.Touches origin chains)) ringlets
          ringlets' := by
  obtain ⟨taken, isTaken, rfl⟩ := Outcome.map_eq_ok.mp sampled
  obtain ⟨taken', isTaken', alike⟩ :=
    samples_mirrors (execute_mirrors descends descends' isChain agree timing) isTaken
  exact ⟨conditions taken', Outcome.map_eq_ok.mpr ⟨taken', isTaken', rfl⟩, conditions_mirrors alike⟩

end Ringlet

end TimedKripke
