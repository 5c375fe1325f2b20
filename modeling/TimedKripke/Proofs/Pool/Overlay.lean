import TimedKripke.Proofs.Pool.FiniteMap

/-! # Laying independent changes over a pool

Laid over a pool, the changes that another pool makes to a base replace what they change and leave
the rest (`Pool.entry?_overlaid`). Changes to different executables do not get into each other's
way: they can be laid over a pool in either order, and none of them is lost
(`Pool.overlaid_of_independent`).
-/

namespace TimedKripke

/-- An executable agrees with itself, so only a real difference counts as a change. -/
theorem Executable.same_self (executable : Executable) : executable.same executable = true := by
  cases executable with
  | scheduled running => simp [Executable.same, Instance.same]
  | callable served => simp [Executable.same, CallableMachine.same, Instance.same]

namespace Pool

/-- The executable of an id is another one in `changed` than in `base`. -/
def Changes (base changed : Pool) (id : ExecutableId) : Prop :=
  ∃ after, changed.get? id = some after ∧
    ∀ before, base.get? id = some before → before.same after = false

variable {base pool changed first second : Pool} {id : ExecutableId}

/-- The entries that are laid over a pool are those of the executables that are changed. -/
theorem changes_iff : Changes base changed id ↔
    ∃ entry, changed.entry? id = some entry ∧ base.isUnchanged entry = false := by
  have unchanged : ∀ entry : PoolEntry, base.isUnchanged entry = false ↔
      ∀ before, base.get? entry.id = some before → before.same entry.executable = false := by
    intro entry
    unfold isUnchanged
    cases base.get? entry.id <;> simp
  constructor
  · rintro ⟨after, found, differs⟩
    obtain ⟨entry, isEntry, rfl⟩ := Option.map_eq_some_iff.mp found
    obtain ⟨_, rfl⟩ := mem_of_entry? isEntry
    exact ⟨entry, isEntry, (unchanged entry).mpr differs⟩
  · rintro ⟨entry, isEntry, differs⟩
    obtain ⟨_, rfl⟩ := mem_of_entry? isEntry
    refine ⟨entry.executable, ?_, (unchanged entry).mp differs⟩
    rw [get?, isEntry]
    rfl

/-- An executable that is the same one in both pools is not changed. -/
theorem not_changes_of_eq (same : changed.get? id = base.get? id) : ¬ Changes base changed id := by
  rintro ⟨after, found, differs⟩
  have agrees := differs after (same ▸ found)
  rw [Executable.same_self] at agrees
  cases agrees

/-- Of entries with distinct ids some are picked; under an id the picked one is found. -/
theorem find?_filter_of_nodup {entries : List PoolEntry}
    (distinct : (entries.map PoolEntry.id).Nodup) (pick : PoolEntry → Bool) (id : ExecutableId) :
    ((entries.filter pick).find? fun entry => entry.id == id) =
      (entries.find? fun entry => entry.id == id).filter pick := by
  apply Option.ext
  intro entry
  have picked : entry? ⟨entries.filter pick⟩ id = some entry ↔
      entry ∈ entries.filter pick ∧ entry.id = id :=
    entry?_eq_some_iff ((List.filter_sublist.map _).nodup distinct)
  have found : entry? ⟨entries⟩ id = some entry ↔ entry ∈ entries ∧ entry.id = id :=
    entry?_eq_some_iff distinct
  rw [Option.filter_eq_some_iff]
  refine picked.trans (Iff.trans ?_ (and_congr_left fun _ => found.symm))
  rw [List.mem_filter]
  tauto

/-- **What is found under an id after changes were laid over a pool:** the changed entry, if there
is one. -/
theorem entry?_overlaid (distinct : changed.ids.Nodup) : entry? (pool.overlaid base changed) id =
    ((changed.entry? id).filter fun entry => !base.isUnchanged entry).or (pool.entry? id) := by
  have distinctChanges : ((changed.entries.filter fun entry => !base.isUnchanged entry).map
      PoolEntry.id).Nodup :=
    (List.filter_sublist.map PoolEntry.id).nodup distinct
  rw [overlaid, entry?_foldl_insert, ← find?_eq_of_perm (List.reverse_perm _).symm distinctChanges,
    find?_filter_of_nodup distinct]
  rfl

/-- An overlaid pool has the entries of the changed executables from the changed pool. -/
theorem entry?_overlaid_of_changes (distinct : changed.ids.Nodup)
    (changes : Changes base changed id) :
    entry? (pool.overlaid base changed) id = changed.entry? id := by
  obtain ⟨entry, isEntry, differs⟩ := changes_iff.mp changes
  rw [entry?_overlaid distinct, isEntry, Option.filter_some_pos (by simp [differs])]
  rfl

/-- All other entries of an overlaid pool are its own. -/
theorem entry?_overlaid_of_not_changes (distinct : changed.ids.Nodup)
    (unchanged : ¬ Changes base changed id) :
    entry? (pool.overlaid base changed) id = pool.entry? id := by
  rw [entry?_overlaid distinct]
  cases isEntry : changed.entry? id with
  | none => rfl
  | some entry =>
      have same : base.isUnchanged entry = true := by
        rw [← Bool.not_eq_false]
        exact fun differs => unchanged (changes_iff.mpr ⟨entry, isEntry, differs⟩)
      rw [Option.filter_some_neg (by simp [same])]
      rfl

/-- Laying changes over a pool keeps the ids ascending. -/
theorem pairwise_ids_overlaid (ascending : pool.ids.Pairwise (· < ·)) :
    (pool.overlaid base changed).ids.Pairwise (· < ·) :=
  pairwise_ids_foldl_insert ascending

/-- Two independent sets of changes, one laid over the other, are both found, and all else is as it
was. -/
theorem entry?_overlaid_overlaid (pool : Pool) (left : first.ids.Nodup) (right : second.ids.Nodup)
    (independent : ¬ (Changes base first id ∧ Changes base second id)) :
    (Changes base first id → entry? ((pool.overlaid base first).overlaid base second) id =
      first.entry? id) ∧
    (Changes base second id → entry? ((pool.overlaid base first).overlaid base second) id =
      second.entry? id) ∧
    (¬ Changes base first id → ¬ Changes base second id →
      entry? ((pool.overlaid base first).overlaid base second) id = pool.entry? id) := by
  refine ⟨fun changes => ?_, fun changes => ?_, fun unchanged unchanged' => ?_⟩
  · have unchanged : ¬ Changes base second id := fun other => independent ⟨changes, other⟩
    rw [entry?_overlaid_of_not_changes right unchanged, entry?_overlaid_of_changes left changes]
  · rw [entry?_overlaid_of_changes right changes]
  · rw [entry?_overlaid_of_not_changes right unchanged',
      entry?_overlaid_of_not_changes left unchanged]

/-- **Independent changes can be laid over a pool in either order.** Both orders give one pool. It
holds the entry of each side under every id which that side changes, and the pool's own entry under
all others, in strictly ascending order of the ids. -/
theorem overlaid_of_independent (ascending : pool.ids.Pairwise (· < ·))
    (left : first.ids.Pairwise (· < ·)) (right : second.ids.Pairwise (· < ·))
    (independent : ∀ id, ¬ (Changes base first id ∧ Changes base second id)) :
    ∃ merged, (pool.overlaid base first).overlaid base second = merged ∧
      (pool.overlaid base second).overlaid base first = merged ∧
      merged.ids.Pairwise (· < ·) ∧
      ∀ id, (Changes base first id → merged.entry? id = first.entry? id) ∧
        (Changes base second id → merged.entry? id = second.entry? id) ∧
        (¬ Changes base first id → ¬ Changes base second id →
          merged.entry? id = pool.entry? id) := by
  have distinct := left.imp Nat.ne_of_lt
  have distinct' := right.imp Nat.ne_of_lt
  have merged (id : ExecutableId) :=
    entry?_overlaid_overlaid pool distinct distinct' (independent id)
  have merged' (id : ExecutableId) :=
    entry?_overlaid_overlaid pool distinct' distinct fun both => independent id both.symm
  refine ⟨_, rfl, ?_, pairwise_ids_overlaid (pairwise_ids_overlaid ascending), merged⟩
  apply ext_of_entry? (pairwise_ids_overlaid (pairwise_ids_overlaid ascending))
    (pairwise_ids_overlaid (pairwise_ids_overlaid ascending))
  intro id
  by_cases here : Changes base first id
  · rw [(merged id).1 here, (merged' id).2.1 here]
  · by_cases there : Changes base second id
    · rw [(merged id).2.1 there, (merged' id).1 there]
    · rw [(merged id).2.2 here there, (merged' id).2.2 there here]

end Pool

namespace Lamps

/-- A lamp that has made its first step. -/
def worn : Executable :=
  .scheduled { lamp.start with entryPending := false }

/-- The pool of three lamps. -/
def row : Pool :=
  { entries := [entry 0 "left", entry 1 "right", entry 2 "porch"] }

/-- Wearing out a lamp of the row changes it. -/
theorem row_changes {id : ExecutableId} (found : row.get? id = some (.scheduled lamp.start)) :
    Pool.Changes row (row.set id worn) id := by
  refine ⟨worn, ?_, ?_⟩
  · rw [Pool.get?_set, if_pos rfl, found]
    rfl
  · intro before isBefore
    rw [found] at isBefore
    cases isBefore
    decide

/-- Wearing out the first lamp and wearing out the second are changes of different executables. -/
theorem row_independent (id : ExecutableId) :
    ¬ (Pool.Changes row (row.set 0 worn) id ∧ Pool.Changes row (row.set 1 worn) id) := by
  rintro ⟨left, right⟩
  by_cases here : id = 0
  · refine Pool.not_changes_of_eq ?_ right
    rw [Pool.get?_set, if_neg (by simp [here])]
  · refine Pool.not_changes_of_eq ?_ left
    rw [Pool.get?_set, if_neg here]

/-- Two lamps are worn independently, and meanwhile the third one is: all three are in the end. -/
theorem row_overlaid : ∃ merged,
    ((row.set 2 worn).overlaid row (row.set 0 worn)).overlaid row (row.set 1 worn) = merged ∧
      ((row.set 2 worn).overlaid row (row.set 1 worn)).overlaid row (row.set 0 worn) = merged ∧
      merged.ids.Pairwise (· < ·) ∧ merged.get? 0 = some worn ∧ merged.get? 1 = some worn ∧
      merged.get? 2 = some worn := by
  obtain ⟨merged, isMerged, isMerged', ascending, held⟩ :=
    Pool.overlaid_of_independent (by decide : (row.set 2 worn).ids.Pairwise (· < ·))
      (by decide : (row.set 0 worn).ids.Pairwise (· < ·))
      (by decide : (row.set 1 worn).ids.Pairwise (· < ·)) row_independent
  have untouched : ∀ id : ExecutableId, 2 ≠ id → ¬ Pool.Changes row (row.set id worn) 2 := by
    intro id different
    apply Pool.not_changes_of_eq
    rw [Pool.get?_set, if_neg different]
  refine ⟨merged, isMerged, isMerged', ascending, ?_, ?_, ?_⟩
  · exact congrArg (Option.map PoolEntry.executable) ((held 0).1 (row_changes rfl))
  · exact congrArg (Option.map PoolEntry.executable) ((held 1).2.1 (row_changes rfl))
  · exact congrArg (Option.map PoolEntry.executable)
      ((held 2).2.2 (untouched 0 (by decide)) (untouched 1 (by decide)))

end Lamps

end TimedKripke
