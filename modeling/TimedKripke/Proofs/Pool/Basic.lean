import Mathlib.Data.List.Nodup
import TimedKripke.Pool.Basic
import TimedKripke.Proofs.Pool.Executable

/-! # Pools of one frame

The pools that arise from one another have the same frame: the same registrations, machines
and parameters in the same order. Such a pool is determined by what it answers to `get?`
(`Pool.ext_of_get?`), and if registered names are distinct also by its snapshot
(`Pool.Descends.eq_of_snapshot`). `Pool.Descends` says that a pool has the frame of another
and is well formed; every operation on pools keeps it.
-/

namespace TimedKripke

/-- What an entry never changes. -/
def PoolEntry.frame (entry : PoolEntry) :
    Registration × Machine × Option (List (String × ValueType)) :=
  (entry.registration, entry.executable.frame)

/-- An entry is its registration and its executable. -/
theorem PoolEntry.eq_of_parts {first second : PoolEntry}
    (registration : first.registration = second.registration)
    (executable : first.executable = second.executable) : first = second := by
  cases first
  cases second
  cases registration
  cases executable
  rfl

namespace Pool

/-- What a pool never changes. -/
def frame (pool : Pool) : List (Registration × Machine × Option (List (String × ValueType))) :=
  pool.entries.map PoolEntry.frame

/-- Ids are ascending and machines well formed. -/
structure WellFormed (pool : Pool) : Prop where
  ascending : pool.ids.Pairwise (· < ·)
  running : ∀ entry ∈ pool.entries, entry.executable.running.WellFormed

/-- The ids of a well-formed pool are distinct. -/
theorem WellFormed.nodup {pool : Pool} (wellFormed : pool.WellFormed) : pool.ids.Nodup :=
  wellFormed.ascending.imp Nat.ne_of_lt

/-- The frame of a pool fixes its ids. -/
theorem ids_eq_of_frame {first second : Pool} (same : first.frame = second.frame) :
    first.ids = second.ids := by
  have ids := congrArg (List.map fun known => known.1.id) same
  rwa [frame, frame, List.map_map, List.map_map] at ids

/-- The entry found under an id is an entry of the pool and has that id. -/
theorem mem_of_entry? {pool : Pool} {id : ExecutableId} {entry : PoolEntry}
    (found : pool.entry? id = some entry) : entry ∈ pool.entries ∧ entry.id = id :=
  ⟨List.mem_of_find?_eq_some found, by simpa using List.find?_some found⟩

/-- With distinct ids every entry is found under its own. -/
theorem entry?_of_mem {pool : Pool} (distinct : pool.ids.Nodup) {entry : PoolEntry}
    (member : entry ∈ pool.entries) : pool.entry? entry.id = some entry := by
  cases found : pool.entry? entry.id with
  | none =>
      have absent := List.find?_eq_none.mp found entry member
      simp at absent
  | some other =>
      obtain ⟨inside, same⟩ := mem_of_entry? found
      rw [List.inj_on_of_nodup_map distinct inside member same]

/-- With distinct ids the executable of every entry is found under the id of the entry. -/
theorem get?_of_mem {pool : Pool} (distinct : pool.ids.Nodup) {entry : PoolEntry}
    (member : entry ∈ pool.entries) : pool.get? entry.id = some entry.executable := by
  rw [get?, entry?_of_mem distinct member]
  rfl

/-- An executable found under an id is that of an entry of the pool. -/
theorem mem_of_get? {pool : Pool} {id : ExecutableId} {executable : Executable}
    (found : pool.get? id = some executable) :
    ∃ entry ∈ pool.entries, entry.id = id ∧ entry.executable = executable := by
  obtain ⟨entry, isEntry, same⟩ := Option.map_eq_some_iff.mp found
  obtain ⟨member, isId⟩ := mem_of_entry? isEntry
  exact ⟨entry, member, isId, same⟩

/-- The ids of a pool are those under which it has an executable. -/
theorem exists_get?_iff {pool : Pool} {id : ExecutableId} :
    (∃ executable, pool.get? id = some executable) ↔ id ∈ pool.ids := by
  constructor
  · rintro ⟨executable, found⟩
    obtain ⟨entry, member, rfl, _⟩ := mem_of_get? found
    exact List.mem_map_of_mem member
  · intro inUse
    obtain ⟨entry, member, rfl⟩ := List.mem_map.mp inUse
    cases found : pool.entry? entry.id with
    | some other => exact ⟨other.executable, by rw [get?, found]; rfl⟩
    | none =>
        have absent := List.find?_eq_none.mp found entry member
        simp at absent

/-- The access that may fail succeeds on the executables that the search finds. -/
theorem get_eq_ok_iff {pool : Pool} {id : ExecutableId} {executable : Executable} :
    pool.get id = .ok executable ↔ pool.get? id = some executable := by
  unfold get
  cases pool.get? id <;> simp

/-- Every machine of a well-formed pool is well-formed. -/
theorem WellFormed.get? {pool : Pool} (wellFormed : pool.WellFormed) {id : ExecutableId}
    {executable : Executable} (found : pool.get? id = some executable) :
    executable.running.WellFormed := by
  obtain ⟨entry, member, _, rfl⟩ := mem_of_get? found
  exact wellFormed.running entry member

/-- Pools of one frame with the same executables are the same. -/
theorem ext_of_get? {first second : Pool} (distinct : first.ids.Nodup)
    (frame : first.frame = second.frame) (same : ∀ id, first.get? id = second.get? id) :
    first = second := by
  have ids := ids_eq_of_frame frame
  have entries : first.entries = second.entries := by
    refine List.ext_getElem (by simpa [Pool.frame] using congrArg List.length frame)
      fun place inFirst inSecond => ?_
    have registration : first.entries[place].registration = second.entries[place].registration := by
      have known := congrArg (fun known => known[place]?.map Prod.fst) frame
      simpa [Pool.frame, PoolEntry.frame, inFirst, inSecond] using known
    have executable := get?_of_mem distinct (List.getElem_mem inFirst)
    have executable' := get?_of_mem (ids ▸ distinct) (List.getElem_mem inSecond)
    have sameId : first.entries[place].id = second.entries[place].id := by
      rw [PoolEntry.id, PoolEntry.id, registration]
    rw [same, sameId, executable'] at executable
    exact PoolEntry.eq_of_parts registration (Option.some.inj executable).symm
  cases first
  cases second
  cases entries
  rfl

/-- The frame tells the machine and the parameters of every executable. -/
theorem frame_of_get? {first second : Pool} (distinct : first.ids.Nodup)
    (same : first.frame = second.frame) {id : ExecutableId} {left right : Executable}
    (found : first.get? id = some left) (found' : second.get? id = some right) :
    left.frame = right.frame := by
  obtain ⟨entry, member, isId, rfl⟩ := mem_of_get? found
  obtain ⟨other, member', isId', rfl⟩ := mem_of_get? found'
  obtain ⟨counterpart, present, known⟩ := List.mem_map.mp
    (same ▸ List.mem_map_of_mem member : entry.frame ∈ second.frame)
  have registration : counterpart.registration = entry.registration := congrArg Prod.fst known
  have sameId : counterpart.id = other.id := by
    rw [PoolEntry.id, registration, ← PoolEntry.id, isId, isId']
  have distinct' : second.ids.Nodup := ids_eq_of_frame same ▸ distinct
  rw [← List.inj_on_of_nodup_map distinct' present member' sameId]
  exact (congrArg Prod.snd known).symm

/-- Replacing an executable leaves the ids alone. -/
@[simp] theorem ids_set (pool : Pool) (id : ExecutableId) (executable : Executable) :
    (pool.set id executable).ids = pool.ids := by
  unfold set Pool.ids
  rw [List.map_map]
  refine List.map_congr_left fun entry _ => ?_
  rw [Function.comp_apply]
  split <;> rfl

/-- Replacing an executable changes what is found under its id, and nothing else. -/
theorem get?_set (pool : Pool) (id other : ExecutableId) (executable : Executable) :
    (pool.set id executable).get? other =
      if other = id then (pool.get? id).map fun _ => executable else pool.get? other := by
  have step : ∀ entry : PoolEntry,
      (if entry.id = id then { entry with executable } else entry : PoolEntry).id = entry.id := by
    intro entry
    split <;> rfl
  unfold get? entry? set
  rw [List.find?_map]
  simp only [Function.comp_def, step]
  by_cases here : other = id
  · subst here
    cases found : pool.entries.find? fun entry => entry.id == other with
    | none => simp
    | some entry =>
        have isId : entry.id = other := by simpa using List.find?_some found
        simp [isId]
  · cases found : pool.entries.find? fun entry => entry.id == other with
    | none => simp [here]
    | some entry =>
        have isId : entry.id = other := by simpa using List.find?_some found
        simp [isId, here]

/-- The pool has the frame of another and is well formed. -/
structure Descends (origin pool : Pool) : Prop where
  frame : pool.frame = origin.frame
  wellFormed : pool.WellFormed

/-- A well-formed pool descends from itself. -/
theorem WellFormed.descends {pool : Pool} (wellFormed : pool.WellFormed) : Descends pool pool :=
  ⟨rfl, wellFormed⟩

namespace Descends

variable {origin pool : Pool}

/-- Replacing an executable by a well-formed one of the same frame leaves a descendant. -/
theorem set (descends : Descends origin pool) {id : ExecutableId} {before after : Executable}
    (found : pool.get? id = some before) (frame : after.frame = before.frame)
    (wellFormed : after.running.WellFormed) : Descends origin (pool.set id after) := by
  constructor
  · rw [← descends.frame, Pool.frame, Pool.frame, Pool.set, List.map_map]
    refine List.map_congr_left fun entry member => ?_
    rw [Function.comp_apply]
    split
    · rename_i isId
      have known := get?_of_mem descends.wellFormed.nodup member
      rw [isId, found, Option.some.injEq] at known
      rw [PoolEntry.frame, PoolEntry.frame, frame, known]
    · rfl
  · refine ⟨by rw [ids_set]; exact descends.wellFormed.ascending, ?_⟩
    intro entry member
    obtain ⟨earlier, present, rfl⟩ := List.mem_map.mp member
    split
    · exact wellFormed
    · exact descends.wellFormed.running earlier present

/-- Every executable of a descendant runs the machine that the executable of that id runs in the
origin. -/
theorem exists_known (descends : Descends origin pool) {id : ExecutableId} {executable : Executable}
    (found : pool.get? id = some executable) : ∃ known, origin.get? id = some known ∧
      executable.running.machine = known.running.machine := by
  have inUse : id ∈ origin.ids :=
    ids_eq_of_frame descends.frame ▸ exists_get?_iff.mp ⟨executable, found⟩
  obtain ⟨known, isKnown⟩ := exists_get?_iff.mpr inUse
  exact ⟨known, isKnown, Executable.machine_eq_of_frame
    (frame_of_get? descends.wellFormed.nodup descends.frame found isKnown)⟩

end Descends

/-- Writing externals changes the externals only, and keeps an instance well-formed. -/
theorem writeExternals_eq_ok {values : PropertyList} : ∀ {running written : Instance},
    writeExternals running values = .ok written →
      written = { running with externals := written.externals } ∧
        (running.WellFormed → written.WellFormed) := by
  induction values with
  | nil =>
      intro running written wrote
      cases wrote
      exact ⟨rfl, id⟩
  | cons value rest others =>
      intro running written wrote
      rw [writeExternals] at wrote
      split at wrote
      · rename_i first set
        obtain ⟨same, keeps⟩ := others wrote
        have changed : first = { running with externals := first.externals } := by
          unfold Instance.setExternal at set
          split at set
          · cases set
          · split at set
            · cases set
              rfl
            · cases set
        rw [changed] at same
        exact ⟨same, fun wellFormed => keeps (wellFormed.setExternal set)⟩
      · cases wrote

/-- Assigning inputs succeeds if the executable exists and takes every value, and then replaces the
instance of that executable alone. -/
theorem assign_eq_ok {pool after : Pool} {id : ExecutableId} {values : PropertyList} :
    pool.assign id values = .ok after ↔ ∃ executable running, pool.get? id = some executable ∧
      writeExternals executable.running values = .ok running ∧
        after = pool.set id (executable.withRunning running) := by
  unfold assign
  constructor
  · intro assigned
    split at assigned
    · cases assigned
    · rename_i executable found
      split at assigned
      · rename_i running wrote
        cases assigned
        exact ⟨executable, running, found, wrote, rfl⟩
      · cases assigned
  · rintro ⟨executable, running, found, wrote, rfl⟩
    simp only [found, wrote]

/-- Assigning inputs keeps the frame and the well-formedness. -/
theorem Descends.assign {origin pool after : Pool} (descends : Descends origin pool)
    {id : ExecutableId} {values : PropertyList} (assigned : pool.assign id values = .ok after) :
    Descends origin after := by
  obtain ⟨executable, running, found, wrote, rfl⟩ := assign_eq_ok.mp assigned
  obtain ⟨same, keeps⟩ := writeExternals_eq_ok wrote
  refine descends.set found (executable.frame_withRunning ?_) ?_
  · rw [same]
  · rw [Executable.running_withRunning]
    exact keeps (descends.wellFormed.get? found)

/-- Registering an entry whose id is in use replaces the entry of the id. -/
theorem insertEntry_eq_map {entry : PoolEntry} {entries : List PoolEntry}
    (ascending : (entries.map PoolEntry.id).Pairwise (· < ·))
    (present : entry.id ∈ entries.map PoolEntry.id) :
    insertEntry entry entries =
      entries.map fun other => if other.id = entry.id then entry else other := by
  induction entries with
  | nil => cases present
  | cons first rest others =>
      obtain ⟨before, ascendingRest⟩ := List.pairwise_cons.mp ascending
      have later : ∀ other ∈ rest, first.id < other.id := fun other member =>
        before other.id (List.mem_map_of_mem member)
      rw [insertEntry, List.map_cons]
      by_cases here : entry.id = first.id
      · have unchanged : (rest.map fun other => if other.id = entry.id then entry else other) =
            rest.map id := by
          refine List.map_congr_left fun other member => if_neg ?_
          rw [here]
          exact Nat.ne_of_gt (later other member)
        rw [if_neg (Nat.not_lt_of_le (Nat.le_of_eq here.symm)), if_pos here, if_pos here.symm,
          unchanged, List.map_id]
      · have presentLater : entry.id ∈ rest.map PoolEntry.id :=
          (List.mem_cons.mp present).resolve_left here
        have greater := before entry.id presentLater
        rw [if_neg (Nat.lt_asymm greater), if_neg here, if_neg (Nat.ne_of_lt greater),
          others ascendingRest presentLater]

/-- Registering an entry of a pool of the same frame replaces the executable. -/
theorem insert_eq_set {pool other : Pool} (wellFormed : pool.WellFormed)
    (frame : pool.frame = other.frame) {entry : PoolEntry} (member : entry ∈ other.entries) :
    pool.insert entry = pool.set entry.id entry.executable := by
  have inUse : entry.id ∈ pool.ids := by
    rw [ids_eq_of_frame frame]
    exact List.mem_map_of_mem member
  unfold insert set
  rw [insertEntry_eq_map wellFormed.ascending inUse]
  refine congrArg Pool.mk (List.map_congr_left fun earlier present => ?_)
  split
  · rename_i isId
    obtain ⟨counterpart, inside, known⟩ := List.mem_map.mp
      (frame ▸ List.mem_map_of_mem present : earlier.frame ∈ other.frame)
    have registration : counterpart.registration = earlier.registration := congrArg Prod.fst known
    have distinct : other.ids.Nodup := ids_eq_of_frame frame ▸ wellFormed.nodup
    have sameId : counterpart.id = entry.id := by
      rw [PoolEntry.id, registration, ← PoolEntry.id, isId]
    rw [← registration, List.inj_on_of_nodup_map distinct inside member sameId]
  · rfl

/-- Replaces the executables of some entries. -/
def setAll (pool : Pool) (entries : List PoolEntry) : Pool :=
  entries.foldl (fun result entry => result.set entry.id entry.executable) pool

/-- Replacing executables leaves those of other ids alone. -/
theorem get?_setAll_of_not_mem {entries : List PoolEntry} {id : ExecutableId} : ∀ {pool : Pool},
    id ∉ entries.map PoolEntry.id → (pool.setAll entries).get? id = pool.get? id := by
  induction entries with
  | nil => exact fun _ => rfl
  | cons entry rest others =>
      intro pool absent
      have different : id ≠ entry.id := fun same => absent (same ▸ List.mem_cons_self)
      change ((pool.set entry.id entry.executable).setAll rest).get? id = _
      rw [others fun member => absent (List.mem_cons_of_mem _ member), get?_set, if_neg different]

/-- Replacing executables of distinct ids puts each of them in its place. -/
theorem get?_setAll_of_mem {entries : List PoolEntry} {entry : PoolEntry} : ∀ {pool : Pool},
    (entries.map PoolEntry.id).Nodup → entry ∈ entries → entry.id ∈ pool.ids →
      (pool.setAll entries).get? entry.id = some entry.executable := by
  induction entries with
  | nil => exact fun _ impossible => nomatch impossible
  | cons first rest others =>
      intro pool distinct member inUse
      obtain ⟨fresh, distinctRest⟩ := List.nodup_cons.mp distinct
      change ((pool.set first.id first.executable).setAll rest).get? entry.id = _
      rcases List.mem_cons.mp member with rfl | member
      · obtain ⟨before, found⟩ := exists_get?_iff.mpr inUse
        rw [get?_setAll_of_not_mem fresh, get?_set, if_pos rfl, found]
        rfl
      · exact others distinctRest member (by rwa [ids_set])

/-- Laying entries of a pool of the same frame over a pool replaces executables. -/
theorem foldl_insert_eq_setAll {origin other : Pool} (others : Descends origin other)
    {entries : List PoolEntry} : ∀ {pool : Pool}, Descends origin pool →
      (∀ entry ∈ entries, entry ∈ other.entries) →
        entries.foldl insert pool = pool.setAll entries ∧
          Descends origin (pool.setAll entries) := by
  induction entries with
  | nil => exact fun descends _ => ⟨rfl, descends⟩
  | cons entry rest later =>
      intro pool descends members
      have member := members entry List.mem_cons_self
      have known := get?_of_mem others.wellFormed.nodup member
      have frame := others.frame.trans descends.frame.symm
      obtain ⟨before, found⟩ : ∃ before, pool.get? entry.id = some before :=
        exists_get?_iff.mpr (ids_eq_of_frame frame ▸ exists_get?_iff.mp ⟨_, known⟩)
      have kept : Descends origin (pool.set entry.id entry.executable) :=
        descends.set found (frame_of_get? others.wellFormed.nodup frame known found)
          (others.wellFormed.running entry member)
      have replaced : pool.insert entry = pool.set entry.id entry.executable :=
        insert_eq_set descends.wellFormed frame.symm member
      rw [List.foldl_cons, replaced]
      exact later kept fun next inside => members next (List.mem_cons_of_mem entry inside)

section Overlaid

variable {origin pool changed : Pool} (descends : Descends origin pool)
  (changes : Descends origin changed) (base : Pool)
include descends changes

/-- Laying the changes of one descendant over another gives a descendant. -/
theorem Descends.overlaid : Descends origin (pool.overlaid base changed) := by
  obtain ⟨same, kept⟩ := foldl_insert_eq_setAll changes descends
    (fun entry member => (List.mem_filter.mp member).1)
  rw [Pool.overlaid, same]
  exact kept

/-- Laid over a pool, changes are found where there are any. -/
theorem get?_overlaid {entry : PoolEntry} (member : entry ∈ changed.entries) :
    (pool.overlaid base changed).get? entry.id =
      if base.isUnchanged entry then pool.get? entry.id else some entry.executable := by
  obtain ⟨same, _⟩ := foldl_insert_eq_setAll changes descends
    (fun entry member => (List.mem_filter.mp member).1)
  have distinct := changes.wellFormed.nodup
  rw [Pool.overlaid, same]
  by_cases unchanged : base.isUnchanged entry = true
  · rw [if_pos unchanged]
    refine get?_setAll_of_not_mem fun present => ?_
    obtain ⟨other, inside, sameId⟩ := List.mem_map.mp present
    obtain ⟨inside, isChanged⟩ := List.mem_filter.mp inside
    rw [List.inj_on_of_nodup_map distinct inside member sameId, unchanged] at isChanged
    cases isChanged
  · rw [if_neg unchanged]
    refine get?_setAll_of_mem ((List.filter_sublist.map _).nodup distinct)
      (List.mem_filter.mpr ⟨member, by simpa using unchanged⟩) ?_
    rw [ids_eq_of_frame (descends.frame.trans changes.frame.symm)]
    exact List.mem_map_of_mem member

end Overlaid

/-- An entry is unchanged if its executable is the one that was there before. -/
theorem isUnchanged_iff {origin base changed : Pool} (before : Descends origin base)
    (after : Descends origin changed) {entry : PoolEntry} (member : entry ∈ changed.entries) :
    base.isUnchanged entry = true ↔ base.get? entry.id = some entry.executable := by
  have found := get?_of_mem after.wellFormed.nodup member
  obtain ⟨known, isKnown⟩ : ∃ known, base.get? entry.id = some known := by
    rw [exists_get?_iff, ids_eq_of_frame (before.frame.trans after.frame.symm), ← exists_get?_iff]
    exact ⟨_, found⟩
  have frame := frame_of_get? before.wellFormed.nodup (before.frame.trans after.frame.symm) isKnown
    found
  rw [isUnchanged, isKnown, Option.some.injEq]
  exact Executable.same_iff (before.wellFormed.get? isKnown) (after.wellFormed.get? found) frame

/-- The names under which executables are registered. -/
def names (pool : Pool) : List String :=
  pool.entries.map fun entry => entry.registration.name

/-- The frame of a pool fixes the names it is addressed by. -/
theorem names_eq_of_frame {first second : Pool} (same : first.frame = second.frame) :
    first.names = second.names := by
  have names := congrArg (List.map fun known => known.1.name) same
  rwa [frame, frame, List.map_map, List.map_map] at names

/-- **Snapshots tell pools apart.** Pools of one frame with distinct names that look the same
are the same. -/
theorem Descends.eq_of_snapshot {origin first second : Pool} (left : Descends origin first)
    (right : Descends origin second) (distinct : origin.names.Nodup)
    (same : first.snapshot = second.snapshot) : first = second := by
  have frame := left.frame.trans right.frame.symm
  have shown : (first.entries.map fun entry =>
      (entry.registration.name, entry.executable.snapshot)) =
      second.entries.map fun entry => (entry.registration.name, entry.executable.snapshot) := by
    refine OrderedMap.eq_of_ofList_eq ?_ ?_ (Value.compound.inj same)
    · rw [List.map_map, List.map_map]
      exact names_eq_of_frame frame
    · rw [List.map_map]
      have distinctFirst : first.names.Nodup := names_eq_of_frame left.frame ▸ distinct
      exact distinctFirst
  have entries : first.entries = second.entries := by
    refine List.ext_getElem (by simpa using congrArg List.length shown)
      fun place inFirst inSecond => ?_
    have sameFrame : first.entries[place].frame = second.entries[place].frame := by
      have known := congrArg (fun known => known[place]?) frame
      simpa [Pool.frame, inFirst, inSecond] using known
    have sameSnapshot : first.entries[place].executable.snapshot =
        second.entries[place].executable.snapshot := by
      have known := congrArg (fun known => known[place]?) shown
      simp only [List.getElem?_map, inFirst, inSecond, List.getElem?_eq_getElem, Option.map_some,
        Option.some.injEq, Prod.mk.injEq] at known
      exact known.2
    have executable := Executable.eq_of_snapshot
      (left.wellFormed.running _ (List.getElem_mem inFirst))
      (right.wellFormed.running _ (List.getElem_mem inSecond)) (congrArg Prod.snd sameFrame)
      sameSnapshot
    exact PoolEntry.eq_of_parts (congrArg Prod.fst sameFrame) executable
  cases first
  cases second
  cases entries
  rfl

end Pool

end TimedKripke
