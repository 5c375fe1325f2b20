import Mathlib.Data.List.Permutation
import Mathlib.Data.List.Sort
import TimedKripke.Proofs.Ringlet.Dispatch

/-! # Fingerprints of pools

A pool shows its executables under the names they are registered by. Whatever happens to pools with
the same registrations, as long as no name is used twice two of them show the same exactly if they
agree entry by entry (`Pool.same_iff_snapshot_eq`). A name that is used twice shows only one of its
executables, and then the other may change unseen (`not_forall_same_iff_snapshot_eq`).
-/

namespace TimedKripke

namespace Pool

/-- What a pool comes to by assigning inputs and executing timeslots in any order. Executions that
fail count too, with what they did before they failed. -/
inductive Advances (start : Pool) : Pool → Prop
  | start : Advances start start
  | assign {pool next : Pool} {id : ExecutableId} {values : PropertyList}
      (advances : Advances start pool) (assigned : pool.assign id values = .ok next) :
      Advances start next
  | execute {pool : Pool} (advances : Advances start pool) (slot : Timeslot) (clock : Clock) :
      Advances start (executeTimeslot pool slot clock).2.pool

/-- The records under which the executables are registered, in the order of the ids. -/
def registrations (pool : Pool) : List Registration :=
  pool.entries.map PoolEntry.registration

/-- Replacing an executable leaves the registrations alone. -/
@[simp] theorem registrations_set (pool : Pool) (id : ExecutableId) (executable : Executable) :
    (pool.set id executable).registrations = pool.registrations := by
  unfold registrations set
  rw [List.map_map]
  refine List.map_congr_left fun entry _ => ?_
  rw [Function.comp_apply]
  split <;> rfl

/-- Executions replace executables but never a registration. -/
theorem preserved_registrations (records : List Registration) :
    Dispatch.Preserved (fun state => state.pool.registrations = records) (fun _ => True) where
  steps := fun holds _ _ => ⟨(registrations_set ..).trans holds, fun _ _ => trivial⟩
  begins := by
    intro state begun call holds _ began
    obtain ⟨_, _, started, _, _, _, rfl⟩ := Dispatch.beginCall_eq_ok began
    exact (registrations_set ..).trans holds
  closes := fun holds => holds

/-- The registrations of a pool are those it started with. -/
theorem Advances.registrations_eq {start pool : Pool} (advances : start.Advances pool) :
    pool.registrations = start.registrations := by
  induction advances with
  | start => rfl
  | assign _ assigned kept =>
      obtain ⟨_, _, _, _, rfl⟩ := assign_eq_ok.mp assigned
      rwa [registrations_set]
  | execute _ slot clock kept =>
      exact Dispatch.executeActive_preserves (preserved_registrations _) _ _ kept

/-- Ids in order none of which stands next to itself are strictly ascending. -/
theorem pairwise_lt_of_adjacentRepeat : ∀ {ids : List ExecutableId}, ids.Pairwise (· ≤ ·) →
    adjacentRepeat ids = none → ids.Pairwise (· < ·)
  | [], _, _ => .nil
  | [_], _, _ => List.pairwise_singleton _ _
  | first :: second :: rest, ordered, distinct => by
      rw [adjacentRepeat] at distinct
      split at distinct
      · cases distinct
      · next different =>
          obtain ⟨least, orderedLater⟩ := List.pairwise_cons.mp ordered
          have later := pairwise_lt_of_adjacentRepeat orderedLater distinct
          have before : first < second :=
            Nat.lt_of_le_of_ne (least second List.mem_cons_self) different
          refine List.pairwise_cons.mpr ⟨fun id member => ?_, later⟩
          rcases List.mem_cons.mp member with rfl | member
          · exact before
          · exact Nat.lt_trans before ((List.pairwise_cons.mp later).1 id member)

/-- Entries sorted by their ids have ascending ids. -/
theorem pairwise_ids_mergeSort (entries : List PoolEntry) :
    ((entries.mergeSort fun first second => decide (first.id ≤ second.id)).map
      PoolEntry.id).Pairwise (· ≤ ·) := by
  have sorted : (entries.mergeSort fun first second => decide (first.id ≤ second.id)).Pairwise
      fun first second => decide (first.id ≤ second.id) = true := by
    refine List.pairwise_mergeSort ?_ ?_ _
    · intro first second third left right
      rw [decide_eq_true_eq] at *
      exact Nat.le_trans left right
    · intro first second
      rw [Bool.or_eq_true, decide_eq_true_eq, decide_eq_true_eq]
      exact Nat.le_total _ _
  exact List.pairwise_map.mpr (sorted.imp of_decide_eq_true)

/-- A pool that was built holds the entries it was built from, in ascending order of their ids. -/
theorem new_eq_ok {entries : List PoolEntry} {pool : Pool} (made : new entries = .ok pool) :
    pool.entries.Perm entries ∧ pool.ids.Pairwise (· < ·) := by
  unfold new at made
  dsimp only at made
  split at made
  · cases made
  · next distinct =>
      cases made
      exact ⟨List.mergeSort_perm _ _,
        pairwise_lt_of_adjacentRepeat (pairwise_ids_mergeSort entries) distinct⟩

/-- **Pools of the same registrations** list them alike, in whatever order they were given. -/
theorem registrations_eq_of_new {entries entries' : List PoolEntry} {pool pool' : Pool}
    (made : new entries = .ok pool) (made' : new entries' = .ok pool')
    (registered : (entries.map PoolEntry.registration).Perm
      (entries'.map PoolEntry.registration)) : pool.registrations = pool'.registrations := by
  obtain ⟨holds, ascending⟩ := new_eq_ok made
  obtain ⟨holds', ascending'⟩ := new_eq_ok made'
  have inOrder {pool : Pool} (ascending : pool.ids.Pairwise (· < ·)) :
      pool.registrations.Pairwise fun first second => first.id < second.id := by
    rw [registrations, List.pairwise_map]
    exact List.pairwise_map.mp ascending
  refine List.Perm.eq_of_pairwise ?_ (inOrder ascending) (inOrder ascending') ?_
  · exact fun _ _ _ _ before after => absurd before (Nat.lt_asymm after)
  · exact ((holds.map _).trans registered).trans (holds'.map _).symm

/-- Pools agree if their registrations and their snapshots do. -/
theorem same_iff_registrations {first second : Pool} : first.same second = true ↔
    first.registrations = second.registrations ∧
      (first.entries.map fun entry => entry.executable.snapshot) =
        second.entries.map fun entry => entry.executable.snapshot := by
  rw [same, beq_iff_eq]
  constructor
  · intro agree
    have records := congrArg (List.map Prod.fst) agree
    have snapshots := congrArg (List.map Prod.snd) agree
    rw [List.map_map, List.map_map] at records snapshots
    exact ⟨records, snapshots⟩
  · rintro ⟨records, snapshots⟩
    have pairs := congrArg₂ List.zip records snapshots
    rwa [registrations, registrations, List.zip_map', List.zip_map'] at pairs

/-- Where no name is used twice, a pool's snapshot shows those of all executables. -/
theorem snapshots_eq_of_snapshot {first second : Pool}
    (registered : first.registrations = second.registrations) (distinct : first.names.Nodup)
    (shown : first.snapshot = second.snapshot) :
    (first.entries.map fun entry => entry.executable.snapshot) =
      second.entries.map fun entry => entry.executable.snapshot := by
  have sameNames : first.names = second.names := by
    have names := congrArg (List.map Registration.name) registered
    rwa [registrations, registrations, List.map_map, List.map_map] at names
  have pairs : (first.entries.map fun entry =>
      (entry.registration.name, entry.executable.snapshot)) =
      second.entries.map fun entry => (entry.registration.name, entry.executable.snapshot) := by
    refine OrderedMap.eq_of_ofList_eq ?_ ?_ (Value.compound.inj shown)
    · rw [List.map_map, List.map_map]
      exact sameNames
    · rw [List.map_map]
      exact distinct
  have snapshots := congrArg (List.map Prod.snd) pairs
  rwa [List.map_map, List.map_map] at snapshots

/-- Pools that agree entry by entry show the same, as the snapshot is made of the entries. -/
theorem snapshot_eq_of_same {first second : Pool} (agree : first.same second = true) :
    first.snapshot = second.snapshot := by
  obtain ⟨registered, snapshots⟩ := same_iff_registrations.mp agree
  have pairs := congrArg₂ List.zip (congrArg (List.map Registration.name) registered) snapshots
  rw [registrations, registrations, List.map_map, List.map_map, List.zip_map',
    List.zip_map'] at pairs
  exact congrArg (fun shown => Value.compound (OrderedMap.ofList shown)) pairs

/-- **Snapshots are fingerprints.** However two pools of the same registrations, in which no name
is used twice, have been advanced, they show the same exactly if they agree entry by entry. -/
theorem same_iff_snapshot_eq {entries entries' : List PoolEntry} {start start' first second : Pool}
    (made : new entries = .ok start) (made' : new entries' = .ok start')
    (registered : (entries.map PoolEntry.registration).Perm (entries'.map PoolEntry.registration))
    (distinct : (entries.map fun entry => entry.registration.name).Nodup)
    (advances : start.Advances first) (advances' : start'.Advances second) :
    first.snapshot = second.snapshot ↔ first.same second = true := by
  have sameRecords : first.registrations = second.registrations := by
    rw [advances.registrations_eq, advances'.registrations_eq]
    exact registrations_eq_of_new made made' registered
  have distinctFirst : first.names.Nodup := by
    have names : first.names = start.names := by
      have records := congrArg (List.map Registration.name) advances.registrations_eq
      rwa [registrations, registrations, List.map_map, List.map_map] at records
    rw [names]
    exact ((new_eq_ok made).1.map _).nodup_iff.mpr distinct
  constructor
  · intro shown
    exact same_iff_registrations.mpr
      ⟨sameRecords, snapshots_eq_of_snapshot sameRecords distinctFirst shown⟩
  · exact snapshot_eq_of_same

end Pool

namespace Lamps

/-- A machine that stays in its only state. -/
def lamp : Machine :=
  { name := "Lamp"
    states := [{ name := "Lit", onEntry := none, onExit := none, internal := none
                 transitions := [], observes := none }]
    initialState := 0
    exitState := none
    suspendState := none
    variableTypes := []
    initialVariables := []
    initialExternals := [] }

/-- A lamp that is registered under a name. -/
def entry (id : ExecutableId) (name : String) : PoolEntry :=
  { registration := { id, name, dependencies := [] }, executable := .scheduled lamp.start }

/-- The pool of two lamps, machines that leave their entry actions behind with their first step. -/
def pool (first second : String) : Pool :=
  { entries := [entry 0 first, entry 1 second] }

/-- Nothing is asked about the lengths of timeslots. -/
def timing : ScheduleTiming :=
  { ringletLengths := [], scheduleLength := 1 }

/-- The pool after the first lamp's first step. -/
def lit (first second : String) : Pool :=
  (executeTimeslot (pool first second) (Timeslot.new 0 0 1) (Clock.new timing 0)).2.pool

end Lamps

/-- Lamps of different names, listed in either order: the first one's step shows. -/
theorem lamps_same_iff_snapshot_eq :
    (Lamps.pool "left" "right").snapshot = (Lamps.lit "left" "right").snapshot ↔
      (Lamps.pool "left" "right").same (Lamps.lit "left" "right") = true :=
  Pool.same_iff_snapshot_eq
    (by cbv : Pool.new [Lamps.entry 0 "left", Lamps.entry 1 "right"] = .ok _)
    (by cbv : Pool.new [Lamps.entry 1 "right", Lamps.entry 0 "left"] = .ok _)
    (List.Perm.swap ..) (by decide) .start (.execute .start _ _)

/-- **A name that is used twice hides an executable.** Two lamps of one name look the same before
and after the first one's step. -/
theorem not_forall_same_iff_snapshot_eq :
    ¬ ∀ (entries entries' : List PoolEntry) (start start' first second : Pool),
      Pool.new entries = .ok start → Pool.new entries' = .ok start' →
      (entries.map PoolEntry.frame).Perm (entries'.map PoolEntry.frame) →
      start.Advances first → start'.Advances second →
        (first.snapshot = second.snapshot ↔ first.same second = true) := by
  intro faithful
  have made : Pool.new [Lamps.entry 0 "lamp", Lamps.entry 1 "lamp"] =
      .ok (Lamps.pool "lamp" "lamp") := by cbv
  have agree := faithful _ _ _ _ _ (Lamps.lit "lamp" "lamp") made made (.refl _) .start
    (.execute .start _ _)
  have shown : (Lamps.pool "lamp" "lamp").snapshot = (Lamps.lit "lamp" "lamp").snapshot := by cbv
  have differ : (Lamps.pool "lamp" "lamp").same (Lamps.lit "lamp" "lamp") = false := by cbv
  rw [agree.mp shown] at differ
  cases differ

end TimedKripke
