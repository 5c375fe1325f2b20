import TimedKripke.Proofs.Machine.Lifetime
import TimedKripke.Proofs.Pool.Fingerprint

/-! # Pools that range over finitely many

The data of machines stay as declared whatever happens to a pool: inputs are assigned, timeslots
are executed, changes are laid over it (`Pool.Declared`). So every pool of machines that were built
is well formed and has its data as declared, however it was advanced
(`Pool.Advances.wellFormed_of_built`): what is said of well-formed pools is said of all that can be
made. If all its machines are scheduled and the types of their data can be listed, only finitely
many pools can arise from a pool (`Pool.Enumerable.finite_pools`).
-/

namespace TimedKripke

namespace Pool

/-- The data of all machines are as declared. -/
def Declared (pool : Pool) : Prop :=
  ∀ entry ∈ pool.entries, entry.executable.running.Declared

/-- All machines are scheduled, and the values of their variables and externals can be listed. -/
structure Enumerable (pool : Pool) : Prop where
  scheduled : ∀ entry ∈ pool.entries, entry.executable.isCallable = false
  machines : ∀ entry ∈ pool.entries, entry.executable.running.machine.Enumerable

/-- The data of every machine of a declared pool are as declared. -/
theorem Declared.get? {pool : Pool} (declared : pool.Declared) {id : ExecutableId}
    {executable : Executable} (found : pool.get? id = some executable) :
    executable.running.Declared := by
  obtain ⟨entry, member, _, rfl⟩ := mem_of_get? found
  exact declared entry member

/-- Putting a machine with declared data into a pool keeps all data as declared. -/
theorem Declared.set {pool : Pool} (declared : pool.Declared) (id : ExecutableId)
    {executable : Executable} (kept : executable.running.Declared) :
    (pool.set id executable).Declared := by
  intro entry member
  obtain ⟨earlier, present, rfl⟩ := List.mem_map.mp member
  split
  · exact kept
  · exact declared earlier present

/-- Assigning inputs keeps all data as declared, as externals are checked and variables left alone.
-/
theorem Declared.assign {pool after : Pool} (declared : pool.Declared) {id : ExecutableId}
    {values : PropertyList} (assigned : pool.assign id values = .ok after) : after.Declared := by
  obtain ⟨executable, running, found, wrote, rfl⟩ := assign_eq_ok.mp assigned
  refine declared.set id ?_
  rw [Executable.running_withRunning, (writeExternals_eq_ok wrote).1]
  have before := declared.get? found
  exact ⟨before.initial, before.values, before.previous⟩

/-- The entries after an insertion are the former ones and the inserted one. -/
theorem mem_insertEntry {entry other : PoolEntry} {entries : List PoolEntry}
    (member : other ∈ insertEntry entry entries) : other = entry ∨ other ∈ entries := by
  induction entries with
  | nil => exact .inl (List.mem_singleton.mp member)
  | cons first rest others =>
      rw [insertEntry] at member
      split at member
      · exact List.mem_cons.mp member
      · split at member
        · exact (List.mem_cons.mp member).imp_right (List.mem_cons_of_mem _)
        · rcases List.mem_cons.mp member with rfl | later
          · exact .inr List.mem_cons_self
          · exact (others later).imp_right (List.mem_cons_of_mem _)

/-- Laying declared changes over a declared pool keeps all data as declared. -/
theorem Declared.overlaid {pool changed : Pool} (declared : pool.Declared)
    (changes : changed.Declared) (base : Pool) : (pool.overlaid base changed).Declared := by
  have laid : ∀ {entries : List PoolEntry} {pool : Pool}, pool.Declared →
      (∀ entry ∈ entries, entry.executable.running.Declared) →
        (entries.foldl insert pool).Declared := by
    intro entries
    induction entries with
    | nil => exact fun declared _ => declared
    | cons entry rest others =>
        intro pool declared each
        refine others (fun other member => ?_) fun later member =>
          each later (List.mem_cons_of_mem _ member)
        rcases mem_insertEntry member with rfl | earlier
        · exact each other List.mem_cons_self
        · exact declared other earlier
  exact laid declared fun entry member => changes entry (List.mem_filter.mp member).1

end Pool

/-- Executions keep the data of machines as declared. -/
theorem Dispatch.preserved_declared (origin : Pool) : Dispatch.Preserved
    (fun state => Pool.Descends origin state.pool ∧ state.pool.Declared) (fun _ => True) where
  steps := by
    intro state executable stepped outcome ⟨descends, declared⟩ found made
    have kept := (preserved_descends origin).steps descends found made
    refine ⟨⟨kept.1, declared.set _ ?_⟩, kept.2⟩
    have before := declared.get? found
    obtain ⟨_, ⟨rfl, _⟩ | ⟨arguments, ran⟩⟩ := Executable.step_cases made
    · exact before
    · exact before.step (descends.wellFormed.get? found) ran
  begins := by
    intro state begun call ⟨descends, declared⟩ issued began
    refine ⟨(preserved_descends origin).begins descends issued began, ?_⟩
    obtain ⟨chain, callee, started, _, found, begins, rfl⟩ := beginCall_eq_ok began
    refine declared.set _ ?_
    rw [(Executable.begin_eq_ok begins).2]
    exact (declared.get? found).restart
  closes := fun holds => holds

/-- Executing a timeslot keeps the data of machines as declared. -/
theorem executeTimeslot_declared {origin pool : Pool} (descends : Pool.Descends origin pool)
    (declared : pool.Declared) (slot : Timeslot) (clock : Clock) :
    (executeTimeslot pool slot clock).2.pool.Declared :=
  (Dispatch.executeActive_preserves (Dispatch.preserved_declared origin) _ _
    ⟨descends, declared⟩).2

/-- The instance is one of a machine that was built, whatever was done to it since. -/
def Instance.OfBuilt (running : Instance) : Prop :=
  ∃ (written : Blueprint) (declared : List External) (machine : Machine)
    (operations : List Operation),
    (declared.foldl Blueprint.declareExternal { written with externals := [] }).build =
        .ok machine ∧
      operations.foldl perform machine.start = running

/-- An instance of a machine that was built keeps to its definition, whatever was done to it. -/
theorem Instance.OfBuilt.within {running : Instance} (ofBuilt : running.OfBuilt) :
    running.Within running.machine := by
  obtain ⟨written, declared, machine, operations, built, rfl⟩ := ofBuilt
  have none : Blueprint.DistinctExternals { written with externals := [] } := List.nodup_nil
  have start := (Blueprint.distinctExternals_foldl declared none).start_within built
  have within := (kept_within machine).lifetime operations start
  rwa [within.isMachine]

namespace Pool

/-- A pool made of built machines is well-formed and has its data as declared. -/
theorem wellFormed_of_new {entries : List PoolEntry} {pool : Pool} (made : new entries = .ok pool)
    (ofBuilt : ∀ entry ∈ entries, entry.executable.running.OfBuilt) :
    pool.WellFormed ∧ pool.Declared := by
  obtain ⟨holds, ascending⟩ := new_eq_ok made
  have within : ∀ entry ∈ pool.entries,
      entry.executable.running.Within entry.executable.running.machine := by
    intro entry member
    exact (ofBuilt entry (holds.mem_iff.mp member)).within
  refine ⟨⟨ascending, ?_⟩, ?_⟩
  · intro entry member
    exact (within entry member).wellFormed
  · intro entry member
    exact (within entry member).declared

/-- **Pools of built machines are well formed**, and their data are as declared, however they were
advanced. -/
theorem Advances.wellFormed_of_built {entries : List PoolEntry} {start pool : Pool}
    (made : new entries = .ok start)
    (ofBuilt : ∀ entry ∈ entries, entry.executable.running.OfBuilt)
    (advances : start.Advances pool) : pool.WellFormed ∧ pool.Declared := by
  induction advances with
  | start => exact wellFormed_of_new made ofBuilt
  | assign _ assigned kept =>
      obtain ⟨wellFormed, declared⟩ := kept
      exact ⟨(wellFormed.descends.assign assigned).wellFormed, declared.assign assigned⟩
  | execute _ slot clock kept =>
      obtain ⟨wellFormed, declared⟩ := kept
      exact ⟨(executeTimeslot_descends wellFormed.descends slot clock).wellFormed,
        executeTimeslot_declared wellFormed.descends declared slot clock⟩

end Pool

/-- An executable of the frame of a scheduled machine is scheduled. -/
theorem Executable.eq_scheduled_of_frame {executable known : Executable}
    (scheduled : known.isCallable = false) (frame : executable.frame = known.frame) :
    executable = .scheduled executable.running := by
  cases executable with
  | scheduled running => rfl
  | callable served =>
      cases known with
      | scheduled running => cases congrArg Prod.snd frame
      | callable served => cases scheduled

/-- **Finitely many pools arise from a pool** whose machines are scheduled and have data that can
be listed. -/
theorem Pool.Enumerable.finite_pools {origin : Pool} (enumerable : origin.Enumerable) :
    {pool | Descends origin pool ∧ pool.Declared}.Finite := by
  have entries : (⋃ known ∈ {known | known ∈ origin.entries}, (fun running =>
      ({ registration := known.registration, executable := .scheduled running } : PoolEntry)) ''
        {running | running.machine = known.executable.running.machine ∧ running.WellFormed ∧
          running.Declared}).Finite :=
    origin.entries.finite_toSet.biUnion fun known isKnown =>
      (enumerable.machines known isKnown).finite_instances.image _
  refine ((finite_lists entries origin.entries.length).image Pool.mk).subset ?_
  rintro ⟨list⟩ ⟨descends, declared⟩
  refine ⟨list, ⟨?_, fun entry member => ?_⟩, rfl⟩
  · simpa [Pool.frame] using (congrArg List.length descends.frame).le
  · obtain ⟨known, isKnown, same⟩ := List.mem_map.mp
      (descends.frame ▸ List.mem_map_of_mem member : entry.frame ∈ origin.frame)
    have registration : known.registration = entry.registration := congrArg Prod.fst same
    have frame : entry.executable.frame = known.executable.frame := (congrArg Prod.snd same).symm
    have scheduled := Executable.eq_scheduled_of_frame (enumerable.scheduled known isKnown) frame
    refine Set.mem_biUnion isKnown ⟨entry.executable.running, ⟨Executable.machine_eq_of_frame frame,
      descends.wellFormed.running entry member, declared entry member⟩, ?_⟩
    exact PoolEntry.eq_of_parts registration scheduled.symm

end TimedKripke
