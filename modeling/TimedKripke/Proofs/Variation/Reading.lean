import TimedKripke.Proofs.Variation.Inputs

/-! # Reading the environment

An executable that reads the environment holds the environment's values in the inputs that it
observes, and is otherwise as it was (`Executable.reads`). Assigning the readings to it comes to
that, if the values are of the types of the inputs (`Pool.assign_readings_iff`). Which of several
executables reads first does not matter, so a pool can be read for all of them at once
(`Pool.reads`).
-/

namespace TimedKripke

namespace External

/-- The external, with the value that is given under its name, if one is. -/
def holding (values : PropertyList) (declared : External) : External :=
  match values.lookup declared.name with
  | some value => { declared with value }
  | none => declared

/-- Holding other values changes neither a name, a direction nor a type. -/
theorem signature_holding (values : PropertyList) (declared : External) :
    (declared.holding values).signature = declared.signature := by
  unfold holding
  split <;> rfl

theorem name_holding (values : PropertyList) (declared : External) :
    (declared.holding values).name = declared.name :=
  congrArg Prod.fst (declared.signature_holding values)

/-- Externals that hold other values have the same signatures. -/
theorem map_signature_holding (values : PropertyList) (externals : List External) :
    (externals.map (holding values)).map signature = externals.map signature := by
  rw [List.map_map]
  exact List.map_congr_left fun declared _ => declared.signature_holding values

theorem holding_nil (declared : External) : declared.holding [] = declared :=
  rfl

/-- The first value given under its name is what an external holds. -/
theorem holding_of_eq {name : String} {declared : External} (here : declared.name = name)
    (value : Value) (rest : PropertyList) :
    declared.holding ((name, value) :: rest) = { declared with value } := by
  simp [holding, here]

/-- A value given under another name is passed over. -/
theorem holding_of_ne {name : String} {declared : External} (other : declared.name ≠ name)
    (value : Value) (rest : PropertyList) :
    declared.holding ((name, value) :: rest) = declared.holding rest := by
  simp only [holding, List.lookup_cons, beq_false_of_ne other]

/-- Holding one value and then others of other names is holding all of them. -/
theorem holding_cons {name : String} {value : Value} {rest : PropertyList}
    (fresh : name ∉ rest.map Prod.fst) (declared : External) :
    (declared.holding [(name, value)]).holding rest = declared.holding ((name, value) :: rest) := by
  by_cases here : declared.name = name
  · have absent := OrderedMap.lookup_eq_none_iff.mpr fresh
    rw [holding_of_eq here, holding_of_eq here]
    simp [holding, here, absent]
  · rw [holding_of_ne here, holding_of_ne here, holding_nil]

/-- Where names are distinct, writing under a name gives one external the value. -/
theorem write_eq_map {externals : List External} (distinct : (externals.map name).Nodup)
    (written : String) (value : Value) :
    write written value externals = externals.map (holding [(written, value)]) := by
  induction externals with
  | nil => rfl
  | cons first rest others =>
      obtain ⟨fresh, distinctRest⟩ := List.nodup_cons.mp distinct
      rw [write, List.map_cons]
      by_cases here : first.name = written
      · have unchanged : rest.map (holding [(written, value)]) = rest.map id := by
          refine List.map_congr_left fun declared member => ?_
          have other : declared.name ≠ written := fun same =>
            fresh (here ▸ same ▸ List.mem_map_of_mem member)
          rw [holding_of_ne other, holding_nil, id]
        rw [if_pos here, unchanged, List.map_id, holding_of_eq here]
      · rw [if_neg here, others distinctRest, holding_of_ne here, holding_nil]

/-- With distinct names every external is found under its own. -/
theorem find?_of_mem {externals : List External} (distinct : (externals.map name).Nodup)
    {declared : External} (member : declared ∈ externals) :
    find? externals declared.name = some declared := by
  cases found : find? externals declared.name with
  | none => simpa using List.find?_eq_none.mp found declared member
  | some other =>
      have sameName : other.name = declared.name := by simpa using List.find?_some found
      rw [List.inj_on_of_nodup_map distinct (List.mem_of_find?_eq_some found) member sameName]

end External

/-- Under the name of every value an external is declared whose type accepts the value. -/
def Instance.Accepts (running : Instance) (values : PropertyList) : Prop :=
  ∀ entry ∈ values, ∃ declared ∈ running.externals,
    declared.name = entry.1 ∧ declared.type.accepts entry.2 = true

/-- The instance with given values in its externals. -/
def Instance.holding (running : Instance) (values : PropertyList) : Instance :=
  { running with externals := running.externals.map (External.holding values) }

/-- An external can be set exactly to the values it accepts, and then holds that value. -/
theorem Instance.setExternal_eq_ok_iff {running written : Instance}
    (distinct : (running.externals.map External.name).Nodup) {name : String} {value : Value} :
    running.setExternal name value = .ok written ↔
      running.Accepts [(name, value)] ∧ written = running.holding [(name, value)] := by
  unfold setExternal
  rw [External.write_eq_map distinct]
  constructor
  · intro set
    split at set
    · cases set
    · rename_i declared found
      split at set
      · rename_i accepted
        cases set
        refine ⟨fun entry member => ?_, rfl⟩
        cases List.mem_singleton.mp member
        have sameName : declared.name = name := by simpa using List.find?_some found
        exact ⟨declared, List.mem_of_find?_eq_some found, sameName, accepted⟩
      · cases set
  · rintro ⟨accepts, rfl⟩
    obtain ⟨declared, member, sameName, accepted⟩ := accepts _ List.mem_cons_self
    dsimp only at sameName accepted
    have found := External.find?_of_mem distinct member
    rw [sameName] at found
    simp only [found, accepted, if_true]
    rfl

/-- Whether an instance accepts values does not depend on the values it holds. -/
theorem Instance.accepts_holding {running : Instance} (values held : PropertyList) :
    (running.holding held).Accepts values ↔ running.Accepts values := by
  refine forall₂_congr fun entry _ => ?_
  constructor
  · rintro ⟨_, member, sameName, accepted⟩
    obtain ⟨declared, isDeclared, rfl⟩ := List.mem_map.mp member
    have type : (declared.holding held).type = declared.type :=
      congrArg (fun known => known.2.2) (declared.signature_holding held)
    rw [declared.name_holding] at sameName
    exact ⟨declared, isDeclared, sameName, type ▸ accepted⟩
  · rintro ⟨declared, isDeclared, sameName, accepted⟩
    have type : (declared.holding held).type = declared.type :=
      congrArg (fun known => known.2.2) (declared.signature_holding held)
    refine ⟨_, List.mem_map_of_mem isDeclared, ?_, type ▸ accepted⟩
    rwa [declared.name_holding]

/-- What an instance holds depends only on what is given under each name. -/
theorem Instance.holding_congr (running : Instance) {values values' : PropertyList}
    (same : ∀ name, values.lookup name = values'.lookup name) :
    running.holding values = running.holding values' := by
  have each : External.holding values = External.holding values' := by
    funext declared
    simp only [External.holding, same]
  rw [holding, holding, each]

/-- Whether an instance accepts values depends only on what is found under each name. -/
theorem Instance.accepts_congr (running : Instance) {values values' : PropertyList}
    (distinct : (values.map Prod.fst).Nodup) (distinct' : (values'.map Prod.fst).Nodup)
    (same : ∀ name, values.lookup name = values'.lookup name) :
    running.Accepts values ↔ running.Accepts values' := by
  have members : ∀ entry, entry ∈ values ↔ entry ∈ values' := by
    intro entry
    constructor
    · intro member
      exact OrderedMap.mem_of_lookup
        ((same _).symm.trans (OrderedMap.lookup_of_mem distinct member))
    · intro member
      exact OrderedMap.mem_of_lookup ((same _).trans (OrderedMap.lookup_of_mem distinct' member))
  simp only [Accepts, members]

/-- **Writing values** to externals of distinct names gives them these values. -/
theorem Pool.writeExternals_eq_ok_iff {values : PropertyList} :
    ∀ {running written : Instance}, (running.externals.map External.name).Nodup →
      (values.map Prod.fst).Nodup →
        (writeExternals running values = .ok written ↔
          running.Accepts values ∧ written = running.holding values) := by
  induction values with
  | nil =>
      intro running written _ _
      have same : running.holding [] = running := by
        simp [Instance.holding, funext External.holding_nil]
      rw [writeExternals, same, Except.ok.injEq]
      exact ⟨fun isWritten =>
        ⟨fun _ impossible => absurd impossible List.not_mem_nil, isWritten.symm⟩,
        fun both => both.2.symm⟩
  | cons entry rest others =>
      intro running written distinct distinctValues
      obtain ⟨fresh, distinctRest⟩ := List.nodup_cons.mp distinctValues
      have kept : ((running.holding [entry]).externals.map External.name).Nodup := by
        rwa [Instance.holding, External.map_name_of_signature (External.map_signature_holding _ _)]
      have both : (running.holding [entry]).holding rest = running.holding (entry :: rest) := by
        rw [Instance.holding, Instance.holding, Instance.holding, List.map_map]
        congr 1
        exact List.map_congr_left fun declared _ => External.holding_cons fresh declared
      rw [writeExternals]
      constructor
      · intro wrote
        split at wrote
        · rename_i first set
          obtain ⟨accepts, rfl⟩ := (Instance.setExternal_eq_ok_iff distinct).mp set
          obtain ⟨acceptsRest, rfl⟩ := (others kept distinctRest).mp wrote
          rw [Instance.accepts_holding] at acceptsRest
          refine ⟨fun other member => ?_, both⟩
          rcases List.mem_cons.mp member with rfl | member
          · exact accepts _ List.mem_cons_self
          · exact acceptsRest other member
        · cases wrote
      · rintro ⟨accepts, rfl⟩
        have here : running.Accepts [entry] := fun other member =>
          accepts other (List.mem_singleton.mp member ▸ List.mem_cons_self)
        have later : (running.holding [entry]).Accepts rest :=
          (Instance.accepts_holding rest [entry]).mpr fun other member =>
            accepts other (List.mem_cons_of_mem _ member)
        rw [(Instance.setExternal_eq_ok_iff distinct).mpr ⟨here, rfl⟩]
        exact (others kept distinctRest).mpr ⟨later, both.symm⟩

namespace Executable

/-- The executable after it has read the environment. -/
def reads (valuation : Valuation) (executable : Executable) : Executable :=
  executable.withRunning (executable.running.holding (executable.running.readings valuation))

/-- The environment has values of their types for the inputs that are observed. -/
def Admits (valuation : Valuation) (executable : Executable) : Prop :=
  ∀ input ∈ executable.running.observedInputs, input.type.accepts (valuation input.name) = true

/-- Reading keeps the frame of an executable. -/
theorem frame_reads (valuation : Valuation) (executable : Executable) :
    (executable.reads valuation).frame = executable.frame :=
  executable.frame_withRunning rfl

variable {executable : Executable} {valuation : Valuation}

/-- What an instance reads has the value of the environment under the name of every observed input,
and nothing else. -/
theorem lookup_readings (running : Instance) (valuation : Valuation) (name : String) :
    (running.readings valuation).lookup name =
      if name ∈ running.observedInputs.map External.name then some (valuation name) else none := by
  rw [SectionBranch.readings_eq, OrderedMap.ofList, Valuation.lookup_extend_entries]
  rfl

/-- What an instance reads has every name once. -/
theorem nodup_readings (running : Instance) (valuation : Valuation) :
    ((running.readings valuation).map Prod.fst).Nodup := by
  have ascending : (running.readings valuation).keys.Pairwise (· < ·) :=
    OrderedMap.pairwise_keys_extend List.Pairwise.nil
  exact ascending.imp Std.ne_of_lt

/-- Observed inputs are externals of the instance. -/
theorem mem_of_observed {running : Instance} {input : External}
    (member : input ∈ running.observedInputs) : input ∈ running.externals := by
  unfold Instance.observedInputs at member
  split at member
  · cases member
  · exact (List.mem_filter.mp member).1

/-- Readings are accepted if the environment has values of the right types. -/
theorem accepts_readings_iff (wellFormed : executable.running.WellFormed) :
    executable.running.Accepts (executable.running.readings valuation) ↔
      executable.Admits valuation := by
  constructor
  · intro accepts input member
    have isRead : (executable.running.readings valuation).lookup input.name =
        some (valuation input.name) := by
      rw [lookup_readings, if_pos (List.mem_map_of_mem member)]
    obtain ⟨declared, isDeclared, sameName, accepted⟩ :=
      accepts _ (OrderedMap.mem_of_lookup isRead)
    have same := List.inj_on_of_nodup_map wellFormed.distinctExternals isDeclared
      (mem_of_observed member) sameName
    exact same ▸ accepted
  · intro admits entry member
    have isRead := OrderedMap.lookup_of_mem (nodup_readings _ valuation) member
    rw [lookup_readings] at isRead
    split at isRead
    · rename_i observed
      obtain ⟨input, isInput, sameName⟩ := List.mem_map.mp observed
      refine ⟨input, mem_of_observed isInput, sameName, ?_⟩
      rw [← Option.some.inj isRead, ← sameName]
      exact admits input isInput
    · cases isRead

/-- Reading values of the right types keeps a machine well-formed. -/
theorem wellFormed_reads (wellFormed : executable.running.WellFormed)
    (admits : executable.Admits valuation) : (executable.reads valuation).running.WellFormed := by
  have wrote := (Pool.writeExternals_eq_ok_iff wellFormed.distinctExternals
    (nodup_readings _ valuation)).mpr ⟨(accepts_readings_iff wellFormed).mpr admits, rfl⟩
  rw [reads, running_withRunning]
  exact (Pool.writeExternals_eq_ok wrote).2 wellFormed

end Executable

namespace Pool

/-- The pool after some executables have read the environment. -/
def reads (valuation : Valuation) (ids : List ExecutableId) (pool : Pool) : Pool :=
  { entries := pool.entries.map fun entry =>
      if entry.id ∈ ids then { entry with executable := entry.executable.reads valuation }
      else entry }

/-- The environment has values for the inputs that some executables observe. -/
def Admits (valuation : Valuation) (ids : List ExecutableId) (pool : Pool) : Prop :=
  ∀ id ∈ ids, ∀ executable, pool.get? id = some executable → executable.Admits valuation

/-- An environment that one executable admits is admitted for it by the pool. -/
theorem admits_singleton {pool : Pool} {id : ExecutableId} {executable : Executable}
    (found : pool.get? id = some executable) {valuation : Valuation}
    (admits : executable.Admits valuation) : pool.Admits valuation [id] := by
  intro other isId known isKnown
  cases List.mem_singleton.mp isId
  cases found.symm.trans isKnown
  exact admits

theorem id_read (valuation : Valuation) (ids : List ExecutableId) (entry : PoolEntry) :
    (if entry.id ∈ ids then { entry with executable := entry.executable.reads valuation }
      else entry : PoolEntry).id = entry.id := by
  split <;> rfl

/-- The executables that read are those of the given ids. The others are as they were. -/
theorem get?_reads (valuation : Valuation) (ids : List ExecutableId) (pool : Pool)
    (id : ExecutableId) : (pool.reads valuation ids).get? id =
      if id ∈ ids then (pool.get? id).map (Executable.reads valuation) else pool.get? id := by
  unfold get? entry? reads
  rw [List.find?_map]
  simp only [Function.comp_def, id_read]
  cases found : pool.entries.find? fun entry => entry.id == id with
  | none => simp
  | some entry =>
      have isId : entry.id = id := by simpa using List.find?_some found
      by_cases member : id ∈ ids <;> simp [isId, member]

/-- An executable that does not read is as it was. -/
theorem get?_reads_of_not_mem {valuation : Valuation} {ids : List ExecutableId} {pool : Pool}
    {id : ExecutableId} (other : id ∉ ids) : (pool.reads valuation ids).get? id = pool.get? id := by
  rw [get?_reads, if_neg other]

/-- Reading keeps the frame of a pool. -/
theorem frame_reads (valuation : Valuation) (ids : List ExecutableId) (pool : Pool) :
    (pool.reads valuation ids).frame = pool.frame := by
  unfold frame reads
  rw [List.map_map]
  refine List.map_congr_left fun entry _ => ?_
  rw [Function.comp_apply]
  split
  · exact Prod.ext rfl (entry.executable.frame_reads valuation)
  · rfl

/-- Reading values of the right types leaves a descendant. -/
theorem Descends.reads {origin pool : Pool} (descends : Descends origin pool)
    {valuation : Valuation} {ids : List ExecutableId} (admits : pool.Admits valuation ids) :
    Descends origin (pool.reads valuation ids) := by
  refine ⟨(frame_reads valuation ids pool).trans descends.frame, ?_, fun entry member => ?_⟩
  · rw [ids_eq_of_frame (frame_reads valuation ids pool)]
    exact descends.wellFormed.ascending
  · obtain ⟨earlier, present, rfl⟩ := List.mem_map.mp member
    have wellFormed := descends.wellFormed.running earlier present
    split
    · rename_i isRead
      exact Executable.wellFormed_reads wellFormed
        (admits _ isRead _ (get?_of_mem descends.wellFormed.nodup present))
    · exact wellFormed

/-- Reading for one executable after the other is reading for all of them. -/
theorem reads_reads {valuation : Valuation} {ids : List ExecutableId} {id : ExecutableId}
    (fresh : id ∉ ids) (pool : Pool) :
    (pool.reads valuation [id]).reads valuation ids = pool.reads valuation (id :: ids) := by
  unfold reads
  rw [List.map_map]
  refine congrArg Pool.mk (List.map_congr_left fun entry _ => ?_)
  rw [Function.comp_apply, id_read]
  by_cases here : entry.id = id
  · simp [here, fresh]
  · simp [here]

theorem reads_nil (valuation : Valuation) (pool : Pool) : pool.reads valuation [] = pool := by
  simp [reads]

/-- Putting the executable that is there already in its place changes nothing. -/
theorem set_self {pool : Pool} (wellFormed : pool.WellFormed) {id : ExecutableId}
    {executable : Executable} (found : pool.get? id = some executable) :
    pool.set id executable = pool := by
  have same : ∀ entry ∈ pool.entries,
      (if entry.id = id then { entry with executable } else entry) = entry := by
    intro entry member
    split
    · rename_i here
      have known := get?_of_mem wellFormed.nodup member
      rw [here, found, Option.some.injEq] at known
      rw [known]
    · rfl
  rw [set, List.map_congr_left same, List.map_id']

/-- Assigning no values changes nothing. -/
theorem assign_nil {pool : Pool} (wellFormed : pool.WellFormed) {id : ExecutableId}
    {executable : Executable} (found : pool.get? id = some executable) :
    pool.assign id [] = .ok pool := by
  refine assign_eq_ok.mpr ⟨executable, executable.running, found, rfl, ?_⟩
  have same : executable.withRunning executable.running = executable := by cases executable <;> rfl
  rw [same, set_self wellFormed found]

/-- Values that can be assigned one after the other can be assigned together. -/
theorem assign_cons {pool middle after : Pool} {id : ExecutableId} {value : String × Value}
    {rest : PropertyList} (first : pool.assign id [value] = .ok middle)
    (later : middle.assign id rest = .ok after) : pool.assign id (value :: rest) = .ok after := by
  obtain ⟨executable, running, found, wrote, rfl⟩ := assign_eq_ok.mp first
  obtain ⟨executable', running', found', wrote', rfl⟩ := assign_eq_ok.mp later
  have isChanged : executable' = executable.withRunning running := by
    rw [get?_set, if_pos rfl, found] at found'
    exact (Option.some.inj found').symm
  subst isChanged
  refine assign_eq_ok.mpr ⟨executable, running', found, ?_, ?_⟩
  · rw [writeExternals] at wrote ⊢
    split at wrote
    · cases wrote
      rwa [Executable.running_withRunning] at wrote'
    · cases wrote
  · have same : (executable.withRunning running).withRunning running' =
        executable.withRunning running' := by cases executable <;> rfl
    rw [same, set, set, set, List.map_map]
    refine congrArg Pool.mk (List.map_congr_left fun entry _ => ?_)
    by_cases here : entry.id = id
    · have still : PoolEntry.id { entry with executable := executable.withRunning running } = id :=
        here
      simp [here, still]
    · simp [here]

/-- Values with distinct names can be assigned exactly if the executable accepts them, and then it
holds them. -/
theorem assign_eq_ok_iff {pool after : Pool} (wellFormed : pool.WellFormed) {id : ExecutableId}
    {executable : Executable} (found : pool.get? id = some executable) {values : PropertyList}
    (distinct : (values.map Prod.fst).Nodup) :
    pool.assign id values = .ok after ↔ executable.running.Accepts values ∧
      after = pool.set id (executable.withRunning (executable.running.holding values)) := by
  have wrote : ∀ {written : Instance}, writeExternals executable.running values = .ok written ↔
      executable.running.Accepts values ∧ written = executable.running.holding values :=
    writeExternals_eq_ok_iff (wellFormed.get? found).distinctExternals distinct
  rw [assign_eq_ok]
  constructor
  · rintro ⟨_, running, found', isWritten, rfl⟩
    cases found.symm.trans found'
    obtain ⟨accepts, rfl⟩ := wrote.mp isWritten
    exact ⟨accepts, rfl⟩
  · rintro ⟨accepts, rfl⟩
    exact ⟨executable, _, found, wrote.mpr ⟨accepts, rfl⟩, rfl⟩

/-- **Assigning readings** in any order is reading, where the environment has values of the right
types. -/
theorem assign_iff_of_lookup {pool after : Pool} (wellFormed : pool.WellFormed) {id : ExecutableId}
    {executable : Executable} (found : pool.get? id = some executable) {valuation : Valuation}
    {values : PropertyList} (distinct : (values.map Prod.fst).Nodup)
    (same : ∀ name, values.lookup name = (executable.running.readings valuation).lookup name) :
    pool.assign id values = .ok after ↔
      executable.Admits valuation ∧ after = pool.reads valuation [id] := by
  have set : pool.set id (executable.reads valuation) = pool.reads valuation [id] := by
    unfold Pool.set reads
    refine congrArg Pool.mk (List.map_congr_left fun entry member => ?_)
    by_cases here : entry.id = id
    · have known := get?_of_mem wellFormed.nodup member
      rw [here, found, Option.some.injEq] at known
      simp [here, known]
    · simp [here]
  rw [assign_eq_ok_iff wellFormed found distinct, Instance.holding_congr _ same,
    Instance.accepts_congr _ distinct (Executable.nodup_readings _ valuation) same,
    Executable.accepts_readings_iff (wellFormed.get? found), ← Executable.reads, set]

/-- The readings of an environment can be assigned exactly if the executable admits it, and then it
has read. -/
theorem assign_readings_iff {pool after : Pool} (wellFormed : pool.WellFormed) {id : ExecutableId}
    {executable : Executable} (found : pool.get? id = some executable) {valuation : Valuation} :
    pool.assign id (executable.running.readings valuation) = .ok after ↔
      executable.Admits valuation ∧ after = pool.reads valuation [id] :=
  assign_iff_of_lookup wellFormed found (Executable.nodup_readings _ valuation) fun _ => rfl

end Pool

end TimedKripke
