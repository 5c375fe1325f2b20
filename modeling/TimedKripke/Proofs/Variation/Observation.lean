import TimedKripke.Proofs.Ringlet.Writes
import TimedKripke.Proofs.Variation.Walk

/-! # What the pools of a path show of the environment

The pool that is shown after a step has the inputs of the executables that are still to run
(`SectionPath.observedAfter`). An external that its machine does not write is changed by readings
only, and readings of one section agree with each other; so the pools of a path show it as the
snapshot of the path does, unless its executable has run before and reads it only later
(`SectionPath.ReadsLate`). In that case they show what it held at the start
(`SnapshotSection.observed_of_variations`).
-/

namespace TimedKripke

/-- Some step of the machine writes the external. -/
def Machine.Writes (machine : Machine) (name : String) : Prop :=
  ∃ running : Instance, running.machine = machine ∧
    ∃ id arguments directory clock, name ∈ running.writes id arguments directory clock

/-- What an executable writes in a step is among what its machine writes. -/
theorem Executable.machine_writes {executable : Executable} {id : ExecutableId}
    {directory : Directory} {clock : Clock} {name : String}
    (isWritten : name ∈ executable.writes id directory clock) :
    executable.running.machine.Writes name := by
  cases executable with
  | scheduled running => exact ⟨running, rfl, id, [], directory, clock, isWritten⟩
  | callable served =>
      unfold writes at isWritten
      cases serving : served.status with
      | inactive => simp [serving] at isWritten
      | executing =>
          simp only [serving] at isWritten
          exact ⟨served.running, rfl, id, served.arguments, directory, clock, isWritten⟩

/-- An execution keeps the externals that their machines do not write. -/
theorem Dispatch.preserved_external {origin : Pool} {id : ExecutableId} {known : Executable}
    (isKnown : origin.get? id = some known) {name : String}
    (unwritten : ¬ known.running.machine.Writes name) (value : Option Value) :
    Preserved (fun state => Pool.Descends origin state.pool ∧
      state.pool.external? id name = value) (fun _ => True) where
  steps := by
    intro state executable stepped outcome ⟨descends, holds⟩ found made
    have kept := ((preserved_descends origin).steps descends found made).1
    refine ⟨⟨kept, ?_⟩, fun _ _ => trivial⟩
    rw [← holds]
    apply Pool.external?_set found
    rintro rfl
    apply Executable.external?_step made
    intro isWritten
    obtain ⟨_, isOther, machine⟩ := descends.exists_known found
    cases isKnown.symm.trans isOther
    exact unwritten (machine ▸ Executable.machine_writes isWritten)
  begins := fun ⟨descends, holds⟩ issued began =>
    ⟨(preserved_descends origin).begins descends issued began,
      (external?_beginCall began).trans holds⟩
  closes := fun holds => holds

/-- An external that its machine never writes has its value after every ringlet. -/
theorem Ringlet.external?_execute {origin pool : Pool} (descends : Pool.Descends origin pool)
    {id : ExecutableId} {known : Executable} (isKnown : origin.get? id = some known) {name : String}
    (unwritten : ¬ known.running.machine.Writes name) {slot : Timeslot} {timing : ScheduleTiming}
    {time : Time} {ringlet : Ringlet} (executed : execute pool slot timing time = .ok ringlet) :
    ringlet.after.external? id name = pool.external? id name := by
  obtain ⟨_, _, final, _, _, ran, _, rfl⟩ := execute_eq_ok executed
  have kept := Dispatch.executeActive_preserves
    (Dispatch.preserved_external isKnown unwritten (pool.external? id name)) pool.callDepthBound
    { pool, chain := slot.callChain, clock := .new timing time, calls := [] } ⟨descends, rfl⟩
  have isFinal := congrArg Prod.snd ran
  dsimp only [executeTimeslot] at isFinal
  rw [isFinal] at kept
  exact kept.2

/-- An instance that holds given values has the same externals, with these values where they were
given. -/
theorem Instance.find?_holding (running : Instance) (values : PropertyList) (name : String) :
    External.find? (running.holding values).externals name =
      (External.find? running.externals name).map (External.holding values) := by
  rw [External.find?, External.find?, holding, List.find?_map]
  simp only [Function.comp_def, External.name_holding]

/-- Whether values are accepted depends on names and types only. -/
theorem Instance.Accepts.of_signature {first second : Instance}
    (same : first.externals.map External.signature = second.externals.map External.signature)
    {values : PropertyList} (accepts : first.Accepts values) : second.Accepts values := by
  intro entry member
  obtain ⟨declared, isDeclared, sameName, accepted⟩ := accepts entry member
  obtain ⟨other, isOther, alike⟩ := List.mem_map.mp
    (same ▸ List.mem_map_of_mem isDeclared :
      declared.signature ∈ second.externals.map External.signature)
  have type : other.type = declared.type := congrArg (fun known => known.2.2) alike
  exact ⟨other, isOther, (congrArg Prod.fst alike).trans sameName, type ▸ accepted⟩

namespace Pool

/-- An external that is assigned holds the value that it is given, if it is given one. -/
theorem external?_assign {pool after : Pool} (wellFormed : pool.WellFormed) {other : ExecutableId}
    {values : PropertyList} (distinct : (values.map Prod.fst).Nodup)
    (assigned : pool.assign other values = .ok after) (id : ExecutableId) (name : String) :
    after.external? id name =
      (if other = id then values.lookup name else none).or (pool.external? id name) := by
  obtain ⟨executable, _, found, _, _⟩ := assign_eq_ok.mp assigned
  obtain ⟨accepts, rfl⟩ := (assign_eq_ok_iff wellFormed found distinct).mp assigned
  rw [external?, external?, get?_set]
  by_cases here : id = other
  · subst here
    rw [if_pos rfl, if_pos rfl, found, Option.map_some, Option.bind_some, Option.bind_some,
      Executable.external?, Executable.external?, Executable.running_withRunning,
      Instance.find?_holding]
    cases declares : External.find? executable.running.externals name with
    | none =>
        -- A value for an external that is not declared would not have been accepted.
        cases given : values.lookup name with
        | none => rfl
        | some value =>
            obtain ⟨declared, isDeclared, sameName, _⟩ :=
              accepts _ (OrderedMap.mem_of_lookup given)
            have undeclared := List.find?_eq_none.mp declares declared isDeclared
            simp [sameName] at undeclared
    | some declared =>
        have sameName : declared.name = name := by simpa using List.find?_some declares
        rw [Option.map_some, Option.map_some, Option.map_some, External.holding, sameName]
        cases values.lookup name <;> rfl
  · rw [if_neg here, if_neg (Ne.symm here), Option.none_or]

variable {origin pool : Pool} (wellFormed : origin.WellFormed) (descends : Descends origin pool)
  {id : ExecutableId} {values : PropertyList} (distinct : (values.map Prod.fst).Nodup)
include wellFormed descends distinct

/-- What can be assigned in a pool could have been assigned at the start. -/
theorem Descends.accepts_of_assign {after : Pool} (assigned : pool.assign id values = .ok after) :
    ∃ known, origin.get? id = some known ∧ known.running.Accepts values := by
  obtain ⟨executable, _, found, _, _⟩ := assign_eq_ok.mp assigned
  obtain ⟨known, isKnown, _⟩ := descends.exists_known found
  have accepts := ((assign_eq_ok_iff descends.wellFormed found distinct).mp assigned).1
  exact ⟨known, isKnown, accepts.of_signature (descends.signature wellFormed isKnown found)⟩

/-- What could have been assigned at the start can be assigned in every pool. -/
theorem Descends.exists_assign {known : Executable} (isKnown : origin.get? id = some known)
    (accepts : known.running.Accepts values) : ∃ after, pool.assign id values = .ok after := by
  have inUse : id ∈ pool.ids :=
    ids_eq_of_frame descends.frame ▸ exists_get?_iff.mp ⟨known, isKnown⟩
  obtain ⟨executable, found⟩ := exists_get?_iff.mpr inUse
  exact ⟨_, (assign_eq_ok_iff descends.wellFormed found distinct).mpr
    ⟨accepts.of_signature (descends.signature wellFormed isKnown found).symm, rfl⟩⟩

end Pool

namespace SectionStep

/-- The value that the step gives to an input of an executable. -/
def given (id : ExecutableId) (name : String) (step : SectionStep) : Option Value :=
  if step.executable = id then step.assignments.lookup name else none

/-- The value that steps give to an input of an executable: that of the first step that does. -/
def firstGiven (id : ExecutableId) (name : String) (steps : List SectionStep) : Option Value :=
  steps.findSome? (given id name)

/-- The value of an input that the pool after a step shows, if it was given: up to the step, or
later to an executable that has not run. -/
def shownGiven (id : ExecutableId) (name : String) (steps : List SectionStep) (index : Nat) :
    Option Value :=
  (firstGiven id name (steps.take (index + 1))).or
    (if id ∈ (steps.take (index + 1)).map executable then none
      else firstGiven id name (steps.drop (index + 1)))

/-- The assignments of the step can be made in pools that come from the origin, and are among the
values that were fixed. -/
structure Assignable (origin : Pool) (fixed : PropertyList) (step : SectionStep) : Prop where
  distinct : (step.assignments.map Prod.fst).Nodup
  /-- The values are those that were fixed. -/
  fixed : ∀ {name : String} {value : Value},
    step.assignments.lookup name = some value → fixed.lookup name = some value
  /-- The executable accepts them. -/
  accepted : ∃ known, origin.get? step.executable = some known ∧
    known.running.Accepts step.assignments

variable {origin : Pool} {fixed : PropertyList} {step : SectionStep} {steps : List SectionStep}
  {id : ExecutableId} {name : String} {value : Value}

/-- The value that an assignable step gives is the one that was fixed. -/
theorem Assignable.lookup_of_given (assignable : step.Assignable origin fixed)
    (isGiven : step.given id name = some value) : fixed.lookup name = some value := by
  unfold given at isGiven
  split at isGiven
  · exact assignable.fixed isGiven
  · cases isGiven

/-- The value that the first step gives is the one that was fixed, so all steps give the same. -/
theorem lookup_of_firstGiven (assignable : ∀ step ∈ steps, step.Assignable origin fixed)
    (isGiven : firstGiven id name steps = some value) : fixed.lookup name = some value := by
  obtain ⟨step, member, isGiven⟩ := List.exists_of_findSome?_eq_some isGiven
  exact (assignable step member).lookup_of_given isGiven

theorem firstGiven_nil : firstGiven id name [] = none :=
  rfl

/-- The first value given is that of the first step, or else of the later ones. -/
theorem firstGiven_cons :
    firstGiven id name (step :: steps) = (step.given id name).or (firstGiven id name steps) := by
  rw [firstGiven, List.findSome?_cons]
  cases step.given id name <;> rfl

theorem firstGiven_singleton : firstGiven id name [step] = step.given id name := by
  rw [firstGiven_cons, firstGiven_nil, Option.or_none]

/-- The first value given is that of the earlier steps, or else of the later ones. -/
theorem firstGiven_append (later : List SectionStep) :
    firstGiven id name (steps ++ later) =
      (firstGiven id name steps).or (firstGiven id name later) :=
  List.findSome?_append

/-- Steps of other executables give nothing. -/
theorem firstGiven_eq_none (other : id ∉ steps.map executable) :
    firstGiven id name steps = none := by
  refine List.findSome?_eq_none_iff.mpr fun step member => if_neg fun here => other ?_
  exact here ▸ List.mem_map_of_mem member

end SectionStep

/-- Which of two values that agree comes first does not matter. -/
theorem or_swap_of_agree {first second : Option Value} (third : Option Value)
    (agree : ∀ {left right}, first = some left → second = some right → left = right) :
    first.or (second.or third) = (second.or first).or third := by
  cases first with
  | none => simp
  | some left =>
      cases second with
      | none => rfl
      | some right => rw [agree rfl rfl, Option.some_or, Option.some_or, Option.some_or]

/-- **Assigning the inputs of later steps** succeeds, and gives every input of an executable that
has not run the value that these steps give it. -/
theorem SectionPath.external?_assignLater {origin : Pool} (wellFormed : origin.WellFormed)
    {fixed : PropertyList} (ran : List ExecutableId) {steps : List SectionStep}
    (assignable : ∀ step ∈ steps, step.Assignable origin fixed) :
    ∀ {pool : Pool}, Pool.Descends origin pool →
      ∃ observed, assignLater ran pool steps = .ok observed ∧ ∀ id name,
        observed.external? id name =
          if id ∈ ran then pool.external? id name
          else (SectionStep.firstGiven id name steps).or (pool.external? id name) := by
  induction steps with
  | nil =>
      intro pool _
      refine ⟨pool, rfl, fun id name => ?_⟩
      split <;> rfl
  | cons step rest others =>
      intro pool descends
      have assignableStep := assignable step List.mem_cons_self
      have assignableRest : ∀ later ∈ rest, later.Assignable origin fixed := fun later member =>
        assignable later (List.mem_cons_of_mem step member)
      rw [assignLater]
      by_cases hasRun : step.executable ∈ ran
      · obtain ⟨observed, made, shown⟩ := others assignableRest descends
        rw [if_pos (by simpa using hasRun)]
        refine ⟨observed, made, fun id name => (shown id name).trans ?_⟩
        by_cases isRan : id ∈ ran
        · rw [if_pos isRan, if_pos isRan]
        · have none : step.given id name = none :=
            if_neg fun here : step.executable = id => isRan (here ▸ hasRun)
          rw [if_neg isRan, if_neg isRan, SectionStep.firstGiven_cons, none, Option.none_or]
      · obtain ⟨known, isKnown, accepts⟩ := assignableStep.accepted
        obtain ⟨assigned, isAssigned⟩ :=
          descends.exists_assign wellFormed assignableStep.distinct isKnown accepts
        obtain ⟨observed, made, shown⟩ := others assignableRest (descends.assign isAssigned)
        rw [if_neg (by simpa using hasRun), isAssigned]
        refine ⟨observed, made, fun id name => (shown id name).trans ?_⟩
        have here : assigned.external? id name =
            (step.given id name).or (pool.external? id name) :=
          Pool.external?_assign descends.wellFormed assignableStep.distinct isAssigned id name
        by_cases isRan : id ∈ ran
        · have none : step.given id name = none :=
            if_neg fun here : step.executable = id => hasRun (here ▸ isRan)
          rw [if_pos isRan, if_pos isRan, here, none, Option.none_or]
        · rw [if_neg isRan, if_neg isRan, here, SectionStep.firstGiven_cons]
          apply or_swap_of_agree
          intro left right later isGiven
          exact Option.some.inj ((SectionStep.lookup_of_firstGiven assignableRest later).symm.trans
            (assignableStep.lookup_of_given isGiven))

/-- The pool comes from the origin, and externals that are not written hold what steps gave them,
or what they held in the origin. -/
structure Pool.Shows (origin : Pool) (steps : List SectionStep) (pool : Pool) : Prop where
  descends : Descends origin pool
  /-- What is not written is as it was given. -/
  holds : ∀ {id : ExecutableId} {known : Executable} {name : String}, origin.get? id = some known →
    ¬ known.running.machine.Writes name →
      pool.external? id name = (SectionStep.firstGiven id name steps).or (origin.external? id name)

/-- After the assignments of a step, a pool shows what the steps including this one gave. -/
theorem Pool.Shows.assign {origin pool after : Pool} {fixed : PropertyList} {step : SectionStep}
    {steps : List SectionStep} (shown : Shows origin steps pool)
    (assignable : ∀ earlier ∈ steps, earlier.Assignable origin fixed)
    (assignableStep : step.Assignable origin fixed)
    (assigned : pool.assign step.executable step.assignments = .ok after) :
    Shows origin (steps ++ [step]) after := by
  refine ⟨shown.descends.assign assigned, fun {id known name} isKnown unwritten => ?_⟩
  have here : after.external? id name = (step.given id name).or (pool.external? id name) :=
    external?_assign shown.descends.wellFormed assignableStep.distinct assigned id name
  rw [here, shown.holds isKnown unwritten, SectionStep.firstGiven_append,
    SectionStep.firstGiven_singleton]
  apply or_swap_of_agree
  intro left right isGiven earlier
  exact Option.some.inj ((assignableStep.lookup_of_given isGiven).symm.trans
    (SectionStep.lookup_of_firstGiven assignable earlier))

/-- Executing a ringlet changes nothing of what a pool shows, since that is never written. -/
theorem Pool.Shows.execute {origin pool : Pool} {steps : List SectionStep}
    (shown : Shows origin steps pool) {slot : Timeslot} {timing : ScheduleTiming} {time : Time}
    {ringlet : Ringlet} (executed : Ringlet.execute pool slot timing time = .ok ringlet) :
    Shows origin steps ringlet.after := by
  refine ⟨Ringlet.execute_descends shown.descends executed, fun isKnown unwritten => ?_⟩
  rw [Ringlet.external?_execute shown.descends isKnown unwritten executed]
  exact shown.holds isKnown unwritten

namespace SectionBranch

/-- The pools of the branch show what its steps were given, up to the step that leaves them. -/
structure Reflects (origin : Pool) (branch : SectionBranch) : Prop where
  assignable : ∀ step ∈ branch.steps, step.Assignable origin branch.fixed
  pool : Pool.Shows origin branch.steps branch.pool
  snapshot : Pool.Shows origin branch.steps branch.snapshot
  /-- A step leaves a pool that shows what was given up to it. -/
  leaves : ∀ {index : Nat} {step : SectionStep}, branch.steps[index]? = some step →
    Pool.Shows origin (branch.steps.take (index + 1)) step.ringlet.after

variable {origin : Pool} {branch : SectionBranch} {timing : ScheduleTiming} {slot : Timeslot}

/-- A branch at its start reflects the origin: nothing has been given yet. -/
theorem reflects_start (wellFormed : origin.WellFormed) : (start origin).Reflects origin where
  assignable := fun _ impossible => nomatch impossible
  pool := ⟨wellFormed.descends, fun _ _ => rfl⟩
  snapshot := ⟨wellFormed.descends, fun _ _ => rfl⟩
  leaves := fun impossible => nomatch impossible

/-- What is fixed stays fixed, and what a timeslot is given is fixed then. -/
theorem lookup_fixed_extend {snapshot : Pool} {observed : List External} {tuple : List Value}
    {conditional : ConditionalRinglet} {name : String} {value : Value}
    (known : branch.fixed.lookup name = some value ∨
      (branch.assigned observed tuple).lookup name = some value) :
    (branch.extend slot snapshot (branch.assigned observed tuple) conditional).fixed.lookup name =
      some value := by
  change (OrderedMap.extend branch.fixed (branch.assigned observed tuple)).lookup name = _
  rw [OrderedMap.lookup_extend_of_nodup (branch.nodup_assigned observed tuple)]
  cases isGiven : (branch.assigned observed tuple).lookup name with
  | none =>
      rw [isGiven] at known
      simpa using known
  | some given =>
      rcases known with known | known
      · rw [eq_of_lookup_assigned known isGiven, Option.some_or]
      · rw [isGiven.symm.trans known, Option.some_or]

/-- **One timeslot.** Branches that go on reflect what their new step is given. -/
theorem Reflects.expand (wellFormed : origin.WellFormed) (reflects : branch.Reflects origin)
    {children : List SectionBranch} (expanded : branch.expand timing slot = .ok children) :
    ∀ child ∈ children, child.Reflects origin := by
  intro child member
  obtain ⟨observed, tuple, _, pool, snapshot, conditional, time, rfl, isPool, isSnapshot, executed,
    rfl⟩ := exists_tuple_of_mem_expand expanded member
  rw [← assigned] at isPool isSnapshot ⊢
  have distinct := branch.nodup_assigned observed tuple
  have assignable : ∀ earlier ∈ branch.steps, earlier.Assignable origin
      (branch.extend slot snapshot (branch.assigned observed tuple) conditional).fixed := by
    intro earlier isEarlier
    have before := reflects.assignable earlier isEarlier
    exact ⟨before.distinct, fun isGiven => lookup_fixed_extend (.inl (before.fixed isGiven)),
      before.accepted⟩
  have assignableStep : (stepThrough slot (branch.assigned observed tuple) conditional).Assignable
      origin (branch.extend slot snapshot (branch.assigned observed tuple) conditional).fixed :=
    ⟨distinct, fun isGiven => lookup_fixed_extend (.inr isGiven),
      reflects.pool.descends.accepts_of_assign wellFormed distinct isPool⟩
  have after := (reflects.pool.assign assignable assignableStep isPool).execute executed
  refine ⟨fun step isStep => ?_, after,
    reflects.snapshot.assign assignable assignableStep isSnapshot, fun {index step} isStep => ?_⟩
  · rcases List.mem_append.mp isStep with earlier | here
    · exact assignable step earlier
    · exact List.mem_singleton.mp here ▸ assignableStep
  · rw [steps_extend] at isStep ⊢
    rcases Nat.lt_or_ge index branch.steps.length with earlier | last
    · rw [List.getElem?_append_left earlier] at isStep
      rw [List.take_append_of_le_length earlier]
      exact reflects.leaves isStep
    · have isLast : index = branch.steps.length := by
        have inside := (List.getElem?_eq_some_iff.mp isStep).1
        rw [List.length_append, List.length_singleton] at inside
        omega
      subst isLast
      rw [List.getElem?_concat_length, Option.some.injEq] at isStep
      rw [← isStep, List.take_of_length_le (by simp)]
      exact after

end SectionBranch

namespace SectionPath

variable {path : SectionPath} {index : Nat} {id : ExecutableId} {name : String}

/-- The executable has run by a step without being given the input, and is given it later. -/
structure ReadsLate (path : SectionPath) (index : Nat) (id : ExecutableId) (name : String) :
    Prop where
  ran : id ∈ (path.steps.take (index + 1)).map SectionStep.executable
  unread : ∀ step ∈ path.steps.take (index + 1), step.given id name = none
  later : ∃ step ∈ path.steps.drop (index + 1), step.given id name ≠ none

/-- What the steps of a path give is what those up to an index give, or else those after it. -/
theorem firstGiven_steps (path : SectionPath) (index : Nat) :
    SectionStep.firstGiven id name path.steps =
      (SectionStep.firstGiven id name (path.steps.take (index + 1))).or
        (SectionStep.firstGiven id name (path.steps.drop (index + 1))) := by
  rw [← SectionStep.firstGiven_append, List.take_append_drop]

/-- An input that is not read late is shown with the value that it is given first. -/
theorem shownGiven_of_not_late (inTime : ¬ path.ReadsLate index id name) :
    SectionStep.shownGiven id name path.steps index =
      SectionStep.firstGiven id name path.steps := by
  rw [SectionStep.shownGiven, path.firstGiven_steps index]
  by_cases ran : id ∈ (path.steps.take (index + 1)).map SectionStep.executable
  · rw [if_pos ran]
    cases earlier : SectionStep.firstGiven id name (path.steps.take (index + 1)) with
    | some value => rfl
    | none =>
        have never : SectionStep.firstGiven id name (path.steps.drop (index + 1)) = none := by
          refine List.findSome?_eq_none_iff.mpr fun step isStep => ?_
          by_contra isGiven
          exact inTime ⟨ran, List.findSome?_eq_none_iff.mp earlier, step, isStep, isGiven⟩
        rw [never]
  · rw [if_neg ran]

/-- An input that is read late is not shown by the pool after the step. -/
theorem ReadsLate.shownGiven_eq_none (late : path.ReadsLate index id name) :
    SectionStep.shownGiven id name path.steps index = none := by
  rw [SectionStep.shownGiven, if_pos late.ran, Option.or_none]
  exact List.findSome?_eq_none_iff.mpr late.unread

/-- What is read late is given by a later step. -/
theorem ReadsLate.exists_given (late : path.ReadsLate index id name) :
    ∃ step ∈ path.steps.drop (index + 1), ∃ value, step.given id name = some value ∧
      SectionStep.firstGiven id name path.steps = some value := by
  obtain ⟨step, isStep, isGiven⟩ := late.later
  cases later : SectionStep.firstGiven id name (path.steps.drop (index + 1)) with
  | none => exact absurd (List.findSome?_eq_none_iff.mp later step isStep) isGiven
  | some value =>
      obtain ⟨giver, isGiver, gives⟩ := List.exists_of_findSome?_eq_some later
      refine ⟨giver, isGiver, value, gives, ?_⟩
      have earlier : SectionStep.firstGiven id name (path.steps.take (index + 1)) = none :=
        List.findSome?_eq_none_iff.mpr late.unread
      rw [path.firstGiven_steps index, earlier, later, Option.none_or]

end SectionPath

/-- The pool that is shown after a step holds what the path shows then. -/
theorem SectionBranch.Reflects.exists_observedAfter {origin : Pool} (wellFormed : origin.WellFormed)
    {branch : SectionBranch} (reflects : branch.Reflects origin) (index : Nat) :
    ∃ observed, branch.toPath.observedAfter index = .ok observed ∧
      ∀ {id known name}, origin.get? id = some known → ¬ known.running.machine.Writes name →
        observed.external? id name =
          (SectionStep.shownGiven id name branch.steps index).or (origin.external? id name) := by
  unfold SectionStep.shownGiven
  simp only [SectionPath.observedAfter, toPath]
  cases isStep : branch.steps[index]? with
  | none =>
      have beyond : branch.steps.length ≤ index := List.getElem?_eq_none_iff.mp isStep
      refine ⟨branch.pool, rfl, fun isKnown unwritten => ?_⟩
      rw [List.take_of_length_le (by omega), List.drop_eq_nil_of_le (by omega),
        reflects.pool.holds isKnown unwritten, SectionStep.firstGiven_nil, ite_self, Option.or_none]
  | some step =>
      have left := reflects.leaves isStep
      obtain ⟨observed, made, shown⟩ := SectionPath.external?_assignLater wellFormed
        ((branch.steps.take (index + 1)).map SectionStep.executable)
        (fun later member => reflects.assignable later (List.mem_of_mem_drop member)) left.descends
      refine ⟨observed, made, fun {id known name} isKnown unwritten => ?_⟩
      rw [shown, left.holds isKnown unwritten]
      by_cases ran : id ∈ (branch.steps.take (index + 1)).map SectionStep.executable
      · rw [if_pos ran, if_pos ran, Option.or_none]
      · rw [if_neg ran, if_neg ran, SectionStep.firstGiven_eq_none ran, Option.none_or,
          Option.none_or]

namespace SnapshotSection

variable {pool : Pool} {part : SnapshotSection} {timing : ScheduleTiming} {paths : List SectionPath}

/-- Every path comes from a branch whose pools show what its steps were given. -/
theorem reflects_of_variations (wellFormed : pool.WellFormed)
    (varied : part.variations pool timing = .ok paths) {path : SectionPath}
    (member : path ∈ paths) :
    ∃ branch : SectionBranch, path = branch.toPath ∧ branch.Reflects pool := by
  obtain ⟨_, branches, explored, rfl⟩ := variations_eq_ok varied
  obtain ⟨branch, isBranch, rfl⟩ := List.mem_map.mp member
  refine ⟨branch, rfl, ?_⟩
  exact Search.explore_preserves (fun reflects => SectionBranch.Reflects.expand wellFormed reflects)
    (SectionBranch.reflects_start wellFormed) explored branch isBranch

/-- **What the pools of a path show.** They can be computed for every step. An external that its
machine does not write holds what it holds in the snapshot of the path, unless its executable has
run before and is given the value only later: then it still holds what it held at the start. -/
theorem observed_of_variations (wellFormed : pool.WellFormed)
    (varied : part.variations pool timing = .ok paths) {path : SectionPath} (member : path ∈ paths)
    (index : Nat) :
    ∃ observed, path.observedAfter index = .ok observed ∧
      ∀ id executable, pool.get? id = some executable →
        ∀ input ∈ executable.running.externals, ¬ executable.running.machine.Writes input.name →
          (¬ path.ReadsLate index id input.name → ∃ value,
            observed.external? id input.name = some value ∧
              path.snapshot.external? id input.name = some value) ∧
          (path.ReadsLate index id input.name →
            observed.external? id input.name = some input.value ∧
              ∃ step ∈ path.steps.drop (index + 1), ∃ value,
                step.given id input.name = some value ∧
                  path.snapshot.external? id input.name = some value) := by
  obtain ⟨branch, rfl, reflects⟩ := reflects_of_variations wellFormed varied member
  obtain ⟨observed, made, shown⟩ := reflects.exists_observedAfter wellFormed index
  refine ⟨observed, made, fun id executable found input isInput unwritten => ?_⟩
  have start : pool.external? id input.name = some input.value := by
    rw [Pool.external?, found, Option.bind_some, Executable.external?,
      External.find?_of_mem (wellFormed.get? found).distinctExternals isInput, Option.map_some]
  have after : observed.external? id input.name =
      (SectionStep.shownGiven id input.name branch.toPath.steps index).or _ := shown found unwritten
  have whole : branch.toPath.snapshot.external? id input.name =
      (SectionStep.firstGiven id input.name branch.toPath.steps).or _ :=
    reflects.snapshot.holds found unwritten
  rw [start] at after whole
  constructor
  · intro inTime
    rw [SectionPath.shownGiven_of_not_late inTime] at after
    exact ⟨_, after.trans Option.or_some, whole.trans Option.or_some⟩
  · intro late
    obtain ⟨step, isStep, value, gives, isGiven⟩ := late.exists_given
    rw [late.shownGiven_eq_none, Option.none_or] at after
    rw [isGiven, Option.some_or] at whole
    exact ⟨after, step, isStep, value, gives, whole⟩

end SnapshotSection

namespace Gauge

/-- A state without actions, which is left at once if it has a target. -/
def state (name : String) (target : Option Nat) (observes : Option (List String)) : MachineState :=
  { name
    onEntry := none
    onExit := none
    internal := none
    transitions := target.toList.map fun target => { target, guard := .done true }
    observes }

/-- A machine with one sensor. -/
def machine (name sensor : String) (states : List MachineState) : Machine :=
  { name
    states
    initialState := 0
    exitState := none
    suspendState := none
    variableTypes := []
    initialVariables := []
    initialExternals := [{ name := sensor, direction := .sensor, type := .bool,
                           value := .bool false }] }

/-- The gauge. -/
def gauge : Machine :=
  machine "Gauge" "level" [
    state "Warm" (some 1) (some []),
    state "Watch" none (some ["level"])]

/-- The valve. -/
def valve : Machine :=
  machine "Valve" "pressure" [state "Shut" none none]

/-- Both machines at their start. -/
def pool : Pool :=
  { entries := [
      { registration := { id := 0, name := "Gauge", dependencies := [] }
        executable := .scheduled gauge.start },
      { registration := { id := 1, name := "Valve", dependencies := [] }
        executable := .scheduled valve.start }] }

/-- The gauge runs, then the valve, then the gauge again. The gauge warms up before it watches the
level, and the valve feels the pressure: the pressure is shown from the start of the section, and
the level is not. -/
def part : SnapshotSection :=
  { timeslots := [Timeslot.new 0 0 1, Timeslot.new 1 2 1, Timeslot.new 0 4 1] }

/-- The pool of the gauge and the valve is well-formed. -/
theorem wellFormed : pool.WellFormed := by
  refine ⟨by decide, fun entry member => ?_⟩
  simp only [pool, List.mem_cons, List.not_mem_nil, or_false] at member
  rcases member with rfl | rfl
  · refine Machine.WellFormed.start ⟨?_, ?_, ?_, ?_, ?_, ?_⟩ <;>
      simp [gauge, machine, state, External.Typed, ValueType.accepts]
  · refine Machine.WellFormed.start ⟨?_, ?_, ?_, ?_, ?_, ?_⟩ <;>
      simp [valve, machine, state, External.Typed, ValueType.accepts]

/-- Machines whose states have no actions write nothing. -/
theorem not_writes {name sensor written : String} {states : List MachineState}
    (quiet : ∀ known ∈ states, ∃ name target observes, known = state name target observes) :
    ¬ (machine name sensor states).Writes written := by
  rintro ⟨running, isMachine, id, arguments, directory, clock, isWritten⟩
  unfold Instance.writes at isWritten
  split at isWritten
  · cases isWritten
  · split at isWritten
    · cases isWritten
    · rename_i known found
      rw [isMachine] at found
      obtain ⟨_, target, _, rfl⟩ := quiet known (List.mem_of_getElem? found)
      cases target <;>
        simp [MachineState.writes, state, Program.optionalWrites, Transition.writes,
          Program.writes, Program.run] at isWritten

/-- In one of the paths through the section both inputs are true, and the gauge reads its own in its
second timeslot only. -/
theorem varied : ∃ paths path first second third,
    part.variations pool .empty = .ok paths ∧ path ∈ paths ∧ path.steps = [first, second, third] ∧
      (first.executable = 0 ∧ first.assignments = []) ∧
      (second.executable = 1 ∧ second.assignments = [("pressure", .bool true)]) ∧
      (third.executable = 0 ∧ third.assignments = [("level", .bool true)]) := by
  have views : (part.variations pool .empty).map (List.map fun path =>
      path.steps.map fun step => (step.executable, step.assignments)) = .ok [
        [(0, []), (1, [("pressure", .bool false)]), (0, [("level", .bool false)])],
        [(0, []), (1, [("pressure", .bool false)]), (0, [("level", .bool true)])],
        [(0, []), (1, [("pressure", .bool true)]), (0, [("level", .bool false)])],
        [(0, []), (1, [("pressure", .bool true)]), (0, [("level", .bool true)])]] := by
    cbv
  obtain ⟨paths, varied, views⟩ := Outcome.map_eq_ok.mp views
  have last : [(0, []), (1, [("pressure", .bool true)]), (0, [("level", .bool true)])] ∈
      paths.map fun path => path.steps.map fun step => (step.executable, step.assignments) := by
    rw [views]
    simp
  obtain ⟨path, member, view⟩ := List.mem_map.mp last
  obtain ⟨first, _, isSteps, isFirst, view⟩ := List.map_eq_cons_iff.mp view
  obtain ⟨second, _, rfl, isSecond, view⟩ := List.map_eq_cons_iff.mp view
  obtain ⟨third, _, rfl, isThird, view⟩ := List.map_eq_cons_iff.mp view
  cases List.map_eq_nil_iff.mp view
  exact ⟨paths, path, first, second, third, varied, member, isSteps, Prod.mk.inj isFirst,
    Prod.mk.inj isSecond, Prod.mk.inj isThird⟩

end Gauge

/-- After the first step the pressure is shown, although the valve has not run; the level is not,
although the snapshot has it. -/
theorem gauge_observed : ∃ paths path observed,
    Gauge.part.variations Gauge.pool .empty = .ok paths ∧ path ∈ paths ∧
      path.observedAfter 0 = .ok observed ∧
      (∃ value, observed.external? 1 "pressure" = some value ∧
        path.snapshot.external? 1 "pressure" = some value) ∧
      observed.external? 0 "level" = some (.bool false) ∧
      path.snapshot.external? 0 "level" = some (.bool true) := by
  obtain ⟨paths, path, first, second, third, varied, member, isSteps, ⟨isFirst, givenFirst⟩,
    ⟨isSecond, givenSecond⟩, ⟨isThird, givenThird⟩⟩ := Gauge.varied
  obtain ⟨observed, shown, each⟩ :=
    SnapshotSection.observed_of_variations Gauge.wellFormed varied member 0
  have pressure := (each 1 (.scheduled Gauge.valve.start) rfl _ List.mem_cons_self
    (Gauge.not_writes (by simp))).1
  have level := (each 0 (.scheduled Gauge.gauge.start) rfl _ List.mem_cons_self
    (Gauge.not_writes (by simp))).2
  have late : path.ReadsLate 0 0 "level" := by
    refine ⟨?_, ?_, third, ?_, ?_⟩
    · simp [isSteps, isFirst]
    · simp [isSteps, SectionStep.given, isFirst, givenFirst]
    · simp [isSteps]
    · simp [SectionStep.given, isThird, givenThird]
  obtain ⟨held, step, isStep, value, isGiven, isHeld⟩ := level late
  refine ⟨paths, path, observed, varied, member, shown, pressure fun late => ?_, held, ?_⟩
  · have ran := late.ran
    simp [isSteps, isFirst] at ran
  · rw [isSteps] at isStep
    rcases List.mem_cons.mp isStep with rfl | isLast
    · simp [SectionStep.given, isSecond] at isGiven
    · cases List.mem_singleton.mp isLast
      simp [SectionStep.given, isThird, givenThird] at isGiven
      rw [isGiven]
      exact isHeld

end TimedKripke
