import Mathlib.Order.Bounds.Basic
import TimedKripke.Proofs.Pool.Fingerprint

/-! # Pools are finite maps

A pool finds the place of an id by bisection, which relies on the ids being ascending
(`Place.isOf_bisect`). They are, however a pool came about: it is built in the same way from its
entries in any order, and inserting an entry puts it at the place of its id
(`Pool.insertEntry_eq_put`). So a pool is the finite map that holds the last entry of every id
(`Pool.new_insert_finite_map`).
-/

namespace TimedKripke

namespace Place

/-- The place is that of an id among others: where it stands, or where it belongs. -/
def IsOf (ids : List ExecutableId) (id : ExecutableId) : Place → Prop
  | found index => ids[index]? = some id
  | missing index => (∀ other ∈ ids.take index, other < id) ∧ ∀ other ∈ ids.drop index, id < other

/-- **Bisection** finds the place of an id, as long as what is left out at either end is on the
right side of the id. -/
theorem isOf_bisect {ids : Array ExecutableId} {id : ExecutableId} {low high : Nat}
    {within : high ≤ ids.size} (ascending : ids.toList.Pairwise (· < ·)) (ordered : low ≤ high)
    (below : ∀ index (inside : index < ids.size), index < low → ids[index] < id)
    (above : ∀ index (inside : index < ids.size), high ≤ index → id < ids[index]) :
    (bisect ids id low high within).IsOf ids.toList id := by
  have increasing : ∀ {first second : Nat} (left : first < ids.size) (right : second < ids.size),
      first < second → ids[first] < ids[second] := by
    intro first second left right before
    exact List.pairwise_iff_getElem.mp ascending first second left right before
  fun_induction bisect ids id low high within with
  | case1 low high within wide middle inside smaller upper =>
      apply upper (by omega) _ above
      intro index isIndex before
      rcases Nat.lt_or_eq_of_le (Nat.le_of_lt_succ before) with earlier | rfl
      · exact Nat.lt_trans (increasing isIndex inside earlier) smaller
      · exact smaller
  | case2 low high within wide middle inside notSmaller greater lower =>
      apply lower (by omega) below
      intro index isIndex after
      rcases Nat.lt_or_eq_of_le after with later | rfl
      · exact Nat.lt_trans greater (increasing inside isIndex later)
      · exact greater
  | case3 low high within wide middle inside notSmaller notGreater =>
      have same : ids[middle] = id := Nat.le_antisymm (Nat.not_lt.mp notGreater)
        (Nat.not_lt.mp notSmaller)
      change ids.toList[middle]? = some id
      rw [Array.getElem?_toList, Array.getElem?_eq_getElem inside, same]
  | case4 low high within narrow =>
      constructor
      · intro other member
        obtain ⟨index, isIndex, rfl⟩ := List.mem_take_iff_getElem.mp member
        exact below index (by omega) (by omega)
      · intro other member
        obtain ⟨offset, isIndex, rfl⟩ := List.mem_drop_iff_getElem.mp member
        rw [Array.length_toList] at isIndex
        exact above (low + offset) (by omega) (by omega)

/-- Puts an entry at its place, where it replaces the one that stands there. -/
def put (entry : PoolEntry) (entries : List PoolEntry) : Place → List PoolEntry
  | found index => entries.set index entry
  | missing index => entries.take index ++ entry :: entries.drop index

end Place

namespace Pool

/-- An entry is inserted behind the entries with smaller ids. -/
theorem insertEntry_append {entry : PoolEntry} {smaller : List PoolEntry} (rest : List PoolEntry)
    (before : ∀ other ∈ smaller, other.id < entry.id) :
    insertEntry entry (smaller ++ rest) = smaller ++ insertEntry entry rest := by
  induction smaller with
  | nil => rfl
  | cons first others later =>
      have isBefore := before first List.mem_cons_self
      rw [List.cons_append, insertEntry, if_neg (Nat.lt_asymm isBefore),
        if_neg (Nat.ne_of_gt isBefore), later fun other member =>
          before other (List.mem_cons_of_mem _ member)]
      rfl

/-- An entry is inserted in front of entries with greater ids. -/
theorem insertEntry_eq_cons {entry : PoolEntry} {greater : List PoolEntry}
    (after : ∀ other ∈ greater, entry.id < other.id) :
    insertEntry entry greater = entry :: greater := by
  cases greater with
  | nil => rfl
  | cons first others => rw [insertEntry, if_pos (after first List.mem_cons_self)]

/-- The place that a pool finds for an id is the right one: where it stands, or where it belongs. -/
theorem isOf_place {pool : Pool} (ascending : pool.ids.Pairwise (· < ·)) (id : ExecutableId) :
    (pool.place id).IsOf pool.ids id := by
  have found : (pool.place id).IsOf pool.ids.toArray.toList id := by
    apply Place.isOf_bisect
    · exact ascending
    · exact Nat.zero_le _
    · exact fun index _ impossible => absurd impossible (Nat.not_lt_zero index)
    · exact fun index inside outside => absurd inside (Nat.not_lt.mpr outside)
  exact found

/-- **An entry is inserted at the place of its id**: it replaces the entry that stands there, or is
put between its neighbours. -/
theorem insertEntry_eq_put {entry : PoolEntry} {entries : List PoolEntry} {place : Place}
    (ascending : (entries.map PoolEntry.id).Pairwise (· < ·))
    (isPlace : place.IsOf (entries.map PoolEntry.id) entry.id) :
    insertEntry entry entries = place.put entry entries := by
  cases place with
  | found index =>
      obtain ⟨inside, isId⟩ := List.getElem?_eq_some_iff.mp isPlace
      rw [List.length_map] at inside
      rw [List.getElem_map] at isId
      have before : ∀ other ∈ entries.take index, other.id < entry.id := by
        intro other member
        obtain ⟨earlier, isEarlier, rfl⟩ := List.mem_take_iff_getElem.mp member
        rw [← isId]
        exact List.pairwise_iff_getElem.mp (List.pairwise_map.mp ascending) earlier index (by omega)
          inside (by omega)
      have here : insertEntry entry (entries.drop index) = entry :: entries.drop (index + 1) := by
        rw [List.drop_eq_getElem_cons inside, insertEntry, if_neg (isId ▸ Nat.lt_irrefl _),
          if_pos isId.symm]
      have replaced := insertEntry_append (entries.drop index) before
      rw [List.take_append_drop, here] at replaced
      rw [replaced, Place.put, List.set_eq_take_append_cons_drop, if_pos inside]
  | missing index =>
      obtain ⟨before, after⟩ := isPlace
      rw [← List.map_take, List.forall_mem_map] at before
      rw [← List.map_drop, List.forall_mem_map] at after
      have inserted := insertEntry_append (entries.drop index) before
      rwa [List.take_append_drop, insertEntry_eq_cons after] at inserted

/-- The id of an entry that is inserted is added to those in use. -/
theorem ids_insert (pool : Pool) (entry : PoolEntry) :
    (pool.insert entry).ids = OrderedSet.insert entry.id pool.ids := by
  obtain ⟨entries⟩ := pool
  change (insertEntry entry entries).map PoolEntry.id =
    OrderedSet.insert entry.id (entries.map PoolEntry.id)
  induction entries with
  | nil => rfl
  | cons first rest others =>
      rw [insertEntry, List.map_cons, OrderedSet.insert]
      by_cases smaller : entry.id < first.id
      · rw [if_pos smaller, if_pos smaller]
        rfl
      · by_cases same : entry.id = first.id
        · rw [if_neg smaller, if_pos same, if_neg smaller, if_neg (same ▸ Nat.lt_irrefl _),
            List.map_cons, same]
        · have greater : first.id < entry.id :=
            Nat.lt_of_le_of_ne (Nat.not_lt.mp smaller) (Ne.symm same)
          rw [if_neg smaller, if_neg same, if_neg smaller, if_pos greater, List.map_cons, others]

/-- An entry that is inserted is found under its id, and the others are found as before. -/
theorem entry?_insert (pool : Pool) (entry : PoolEntry) (id : ExecutableId) :
    entry? (pool.insert entry) id = if entry.id = id then some entry else pool.entry? id := by
  obtain ⟨entries⟩ := pool
  change (insertEntry entry entries).find? _ = if _ then _ else entries.find? _
  induction entries with
  | nil => by_cases here : entry.id = id <;> simp [insertEntry, here]
  | cons first rest others =>
      rw [insertEntry]
      split
      · by_cases here : entry.id = id <;> simp [here]
      · split
        · rename_i same
          by_cases here : entry.id = id <;> simp [here, ← same]
        · rename_i different
          by_cases here : entry.id = id
          · have skipped : first.id ≠ id := fun isId => different (here.trans isId.symm)
            simp only [here, ↓reduceIte] at others ⊢
            rw [List.find?_cons_of_neg (by simpa using skipped), others]
          · simp only [here, ↓reduceIte] at others ⊢
            rw [List.find?_cons, List.find?_cons, others]

variable {inserted : List PoolEntry}

/-- **Of several entries inserted under one id the last one counts.** -/
theorem entry?_foldl_insert (id : ExecutableId) : ∀ {pool : Pool},
    entry? (inserted.foldl insert pool) id =
      (inserted.reverse.find? fun entry => entry.id == id).or (pool.entry? id) := by
  induction inserted with
  | nil => exact rfl
  | cons entry rest others =>
      intro pool
      rw [List.foldl_cons, others, entry?_insert, List.reverse_cons, List.find?_append,
        Option.or_assoc]
      by_cases here : entry.id = id <;> simp [here]

/-- Any number of insertions keep the ids ascending. -/
theorem pairwise_ids_foldl_insert : ∀ {pool : Pool}, pool.ids.Pairwise (· < ·) →
    (inserted.foldl insert pool).ids.Pairwise (· < ·) := by
  induction inserted with
  | nil => exact fun ascending => ascending
  | cons entry rest others =>
      intro pool ascending
      apply others
      rw [ids_insert]
      exact OrderedSet.pairwise_insert ascending

/-- Entries have one ascending order, so two ascending orders of them are the same. -/
theorem eq_of_perm_of_ascending {first second : List PoolEntry} (reordered : first.Perm second)
    (left : (first.map PoolEntry.id).Pairwise (· < ·))
    (right : (second.map PoolEntry.id).Pairwise (· < ·)) : first = second := by
  apply reordered.eq_of_pairwise _ (List.pairwise_map.mp left) (List.pairwise_map.mp right)
  exact fun _ _ _ _ before after => absurd before (Nat.lt_asymm after)

/-- Pools that find the same entries are the same. -/
theorem ext_of_entry? {first second : Pool} (left : first.ids.Pairwise (· < ·))
    (right : second.ids.Pairwise (· < ·)) (same : ∀ id, first.entry? id = second.entry? id) :
    first = second := by
  have member : ∀ {pool other : Pool}, pool.ids.Pairwise (· < ·) →
      (∀ id, pool.entry? id = other.entry? id) → ∀ entry ∈ pool.entries, entry ∈ other.entries := by
    intro pool other ascending agree entry member
    have found := entry?_of_mem (ascending.imp Nat.ne_of_lt) member
    rw [agree] at found
    obtain ⟨inside, _⟩ := mem_of_entry? found
    exact inside
  have distinct : ∀ {pool : Pool}, pool.ids.Pairwise (· < ·) → pool.entries.Nodup :=
    fun ascending => List.Nodup.of_map _ (ascending.imp Nat.ne_of_lt)
  have entries : first.entries = second.entries := by
    apply eq_of_perm_of_ascending _ left right
    rw [List.perm_ext_iff_of_nodup (distinct left) (distinct right)]
    exact fun entry => ⟨member left same entry, member right (fun id => (same id).symm) entry⟩
  obtain ⟨_⟩ := first
  obtain ⟨_⟩ := second
  exact congrArg Pool.mk entries

/-- With distinct ids the search finds exactly the entry of the id. -/
theorem entry?_eq_some_iff {pool : Pool} (distinct : pool.ids.Nodup) {id : ExecutableId}
    {entry : PoolEntry} : pool.entry? id = some entry ↔ entry ∈ pool.entries ∧ entry.id = id := by
  constructor
  · exact mem_of_entry?
  · rintro ⟨member, rfl⟩
    exact entry?_of_mem distinct member

/-- Entries of distinct ids are found in any order. -/
theorem find?_eq_of_perm {first second : List PoolEntry} (reordered : first.Perm second)
    (distinct : (first.map PoolEntry.id).Nodup) (id : ExecutableId) :
    (first.find? fun entry => entry.id == id) = second.find? fun entry => entry.id == id := by
  have distinctSecond : (second.map PoolEntry.id).Nodup :=
    (reordered.map PoolEntry.id).nodup_iff.mp distinct
  apply Option.ext
  intro entry
  have left : entry? ⟨first⟩ id = some entry ↔ entry ∈ first ∧ entry.id = id :=
    entry?_eq_some_iff distinct
  have right : entry? ⟨second⟩ id = some entry ↔ entry ∈ second ∧ entry.id = id :=
    entry?_eq_some_iff distinctSecond
  exact left.trans ((and_congr_left fun _ => reordered.mem_iff).trans right.symm)

/-- The first id that stands next to itself is the least of those that are repeated. -/
theorem isLeast_of_adjacentRepeat : ∀ {ids : List ExecutableId} {id : ExecutableId},
    ids.Pairwise (· ≤ ·) → adjacentRepeat ids = some id →
      IsLeast {repeated | 1 < ids.count repeated} id
  | first :: second :: rest, id, ordered, found => by
      obtain ⟨least, orderedLater⟩ := List.pairwise_cons.mp ordered
      rw [adjacentRepeat] at found
      by_cases same : first = second
      · rw [if_pos same, Option.some.injEq] at found
        subst found
        constructor
        · simp [← same]
        · intro repeated isRepeated
          have present : repeated ∈ first :: second :: rest :=
            List.count_pos_iff.mp (Nat.zero_lt_of_lt isRepeated)
          rcases List.mem_cons.mp present with rfl | later
          · exact Nat.le_refl _
          · exact least repeated later
      · rw [if_neg same] at found
        obtain ⟨isRepeated, isLeast⟩ := isLeast_of_adjacentRepeat orderedLater found
        -- The first id is smaller than all that follow, so it does not count.
        have fresh : first ∉ second :: rest := by
          intro present
          rcases List.mem_cons.mp present with rfl | later
          · exact same rfl
          · exact same (Nat.le_antisymm (least second List.mem_cons_self)
              ((List.pairwise_cons.mp orderedLater).1 first later))
        constructor
        · exact Nat.lt_of_lt_of_le isRepeated List.count_le_count_cons
        · intro repeated repeats
          apply isLeast
          have different : first ≠ repeated := by
            rintro rfl
            rw [Set.mem_ofPred_eq, List.count_cons_self, List.count_eq_zero.mpr fresh] at repeats
            exact Nat.lt_irrefl _ repeats
          rwa [Set.mem_ofPred_eq, List.count_cons_of_ne different] at repeats

/-- **The order in which entries are given does not matter**: neither to the pool that is made of
them nor to the fault if there is one. -/
theorem new_eq_of_perm {first second : List PoolEntry} (reordered : first.Perm second) :
    new first = new second := by
  have sorted : (first.mergeSort fun left right => decide (left.id ≤ right.id)).Perm
      (second.mergeSort fun left right => decide (left.id ≤ right.id)) :=
    (List.mergeSort_perm first _).trans (reordered.trans (List.mergeSort_perm second _).symm)
  have ids := List.Perm.eq_of_pairwise (fun _ _ _ _ => Nat.le_antisymm)
    (pairwise_ids_mergeSort first) (pairwise_ids_mergeSort second) (sorted.map PoolEntry.id)
  unfold new
  dsimp only
  rw [ids]
  split
  · rfl
  · rename_i distinct
    have ascending := pairwise_lt_of_adjacentRepeat (pairwise_ids_mergeSort second) distinct
    rw [eq_of_perm_of_ascending sorted (ids ▸ ascending) ascending]

/-- Building fails exactly if an id is repeated, and names the least such id. -/
theorem new_eq_error_iff {entries : List PoolEntry} {fault : Fault} :
    new entries = .error fault ↔ ∃ id, fault = .duplicateExecutable id ∧
      IsLeast {repeated | 1 < (entries.map PoolEntry.id).count repeated} id := by
  have counts : ∀ id, (entries.map PoolEntry.id).count id = ((entries.mergeSort
      fun first second => decide (first.id ≤ second.id)).map PoolEntry.id).count id := fun id =>
    ((List.mergeSort_perm entries _).map PoolEntry.id).symm.count_eq id
  have ordered := pairwise_ids_mergeSort entries
  simp only [counts]
  unfold new
  dsimp only
  split
  · rename_i id found
    have least := isLeast_of_adjacentRepeat ordered found
    constructor
    · rintro ⟨⟩
      exact ⟨id, rfl, least⟩
    · rintro ⟨other, rfl, isLeast⟩
      rw [isLeast.unique least]
  · rename_i distinct
    constructor
    · rintro ⟨⟩
    · rintro ⟨id, _, isRepeated, _⟩
      have nodup := (pairwise_lt_of_adjacentRepeat ordered distinct).imp Nat.ne_of_lt
      exact absurd isRepeated (Nat.not_lt.mpr (List.nodup_iff_count_le_one.mp nodup id))

/-- The last of some entries under an id. -/
def lastUnder? (entries : List PoolEntry) (id : ExecutableId) : Option PoolEntry :=
  entries.reverse.find? fun entry => entry.id == id

/-- The pool is the finite map that holds the last of some entries under every id. -/
structure Represents (pool : Pool) (entries : List PoolEntry) : Prop where
  ascending : pool.ids.Pairwise (· < ·)
  /-- The executable of an id is that of the last entry. -/
  get? : ∀ id, pool.get? id = (lastUnder? entries id).map PoolEntry.executable
  /-- So is the registration. -/
  registration? : ∀ id, pool.registration? id = (lastUnder? entries id).map PoolEntry.registration
  /-- The ids in use are those of the entries. -/
  has : ∀ id, pool.has id = (lastUnder? entries id).isSome
  /-- The index of an id is the number of smaller ids in use. -/
  index? : ∀ id, pool.index? id =
    (lastUnder? entries id).map fun _ => pool.ids.countP fun other => decide (other < id)
  /-- What is found under an id stands at its index. -/
  located : ∀ id, pool.entry? id = (pool.index? id).bind fun index => pool.entries[index]?
  /-- A further entry goes to the place of its id. -/
  inserts : ∀ entry, (pool.insert entry).entries = (pool.place entry.id).put entry pool.entries

/-- The position of an id among ascending ones is the number of smaller ids. -/
theorem countP_lt_eq {ids : List ExecutableId} (ascending : ids.Pairwise (· < ·)) {index : Nat}
    {id : ExecutableId} (found : ids[index]? = some id) :
    (ids.countP fun other => decide (other < id)) = index := by
  obtain ⟨inside, rfl⟩ := List.getElem?_eq_some_iff.mp found
  have increasing := List.pairwise_iff_getElem.mp ascending
  have before : (ids.take index).countP (fun other => decide (other < ids[index])) = index := by
    rw [List.countP_eq_length.mpr, List.length_take, Nat.min_eq_left (Nat.le_of_lt inside)]
    intro other member
    obtain ⟨earlier, isEarlier, rfl⟩ := List.mem_take_iff_getElem.mp member
    exact decide_eq_true (increasing earlier index (by omega) inside (by omega))
  have after : (ids.drop index).countP (fun other => decide (other < ids[index])) = 0 := by
    rw [List.countP_eq_zero]
    intro other member
    obtain ⟨offset, isLater, rfl⟩ := List.mem_drop_iff_getElem.mp member
    rw [decide_eq_true_eq, Nat.not_lt]
    rcases Nat.eq_zero_or_pos offset with rfl | positive
    · exact Nat.le_refl _
    · exact Nat.le_of_lt (increasing index (index + offset) inside (by omega) (by omega))
  calc (ids.countP fun other => decide (other < ids[index]))
      = (ids.take index ++ ids.drop index).countP fun other => decide (other < ids[index]) := by
        rw [List.take_append_drop]
    _ = index := by rw [List.countP_append, before, after, Nat.add_zero]

/-- The place of an id tells what is found under it. -/
theorem entry?_of_place {pool : Pool} (ascending : pool.ids.Pairwise (· < ·)) (id : ExecutableId) :
    pool.entry? id = (pool.index? id).bind (fun index => pool.entries[index]?) ∧
      pool.index? id = (pool.entry? id).map fun _ =>
        pool.ids.countP fun other => decide (other < id) := by
  have isPlace := isOf_place ascending id
  unfold index?
  cases place : pool.place id with
  | found index =>
      rw [place] at isPlace
      obtain ⟨entry, stands, rfl⟩ : ∃ entry, pool.entries[index]? = some entry ∧ entry.id = id := by
        simpa [Place.IsOf, ids] using isPlace
      have found := entry?_of_mem (ascending.imp Nat.ne_of_lt) (List.mem_of_getElem? stands)
      rw [found, countP_lt_eq ascending isPlace]
      exact ⟨stands.symm, rfl⟩
  | missing index =>
      rw [place] at isPlace
      obtain ⟨before, after⟩ := isPlace
      have absent : id ∉ pool.ids := by
        intro present
        rw [← List.take_append_drop index pool.ids] at present
        rcases List.mem_append.mp present with inFront | behind
        · exact Nat.lt_irrefl _ (before id inFront)
        · exact Nat.lt_irrefl _ (after id behind)
      have missing : pool.entry? id = none := by
        cases found : pool.entry? id with
        | none => rfl
        | some entry =>
            obtain ⟨member, rfl⟩ := mem_of_entry? found
            exact absurd (List.mem_map_of_mem member) absent
      rw [missing]
      exact ⟨rfl, rfl⟩

/-- A pool with ascending ids represents some entries if the search finds the last of them under
every id. -/
theorem represents_of_entry? {pool : Pool} {entries : List PoolEntry}
    (ascending : pool.ids.Pairwise (· < ·))
    (holds : ∀ id, pool.entry? id = lastUnder? entries id) : pool.Represents entries where
  ascending := ascending
  get? := fun id => congrArg (Option.map PoolEntry.executable) (holds id)
  registration? := fun id => congrArg (Option.map PoolEntry.registration) (holds id)
  has := fun id => congrArg Option.isSome (holds id)
  index? := fun id => holds id ▸ (entry?_of_place ascending id).2
  located := fun id => (entry?_of_place ascending id).1
  inserts := fun entry => insertEntry_eq_put ascending (isOf_place ascending entry.id)

/-- **A pool is a finite map, however it came about.** From the same entries in another order the
same pool is built, or building fails with the least id that is repeated. After any further
insertions, ids are ascending and every id is answered with the last entry given for it. -/
theorem new_insert_finite_map (entries : List PoolEntry) :
    (∀ reordered : List PoolEntry, reordered.Perm entries → new reordered = new entries) ∧
    (∀ fault, new entries = .error fault ↔ ∃ id, fault = .duplicateExecutable id ∧
      IsLeast {repeated | 1 < (entries.map PoolEntry.id).count repeated} id) ∧
    ((∃ pool, new entries = .ok pool) ↔ (entries.map PoolEntry.id).Nodup) ∧
    ∀ pool, new entries = .ok pool → ∀ inserted : List PoolEntry,
      (inserted.foldl insert pool).Represents (entries ++ inserted) := by
  refine ⟨fun _ => new_eq_of_perm, fun _ => new_eq_error_iff, ⟨?_, ?_⟩, ?_⟩
  · rintro ⟨pool, made⟩
    obtain ⟨holds, ascending⟩ := new_eq_ok made
    exact (holds.map PoolEntry.id).nodup_iff.mp (ascending.imp Nat.ne_of_lt)
  · intro distinct
    cases made : new entries with
    | ok pool => exact ⟨pool, rfl⟩
    | error fault =>
        obtain ⟨id, _, isRepeated, _⟩ := new_eq_error_iff.mp made
        exact absurd isRepeated (Nat.not_lt.mpr (List.nodup_iff_count_le_one.mp distinct id))
  · intro pool made inserted
    obtain ⟨holds, ascending⟩ := new_eq_ok made
    apply represents_of_entry? (pairwise_ids_foldl_insert ascending)
    intro id
    rw [entry?_foldl_insert, lastUnder?, List.reverse_append, List.find?_append]
    congr 1
    exact find?_eq_of_perm (holds.trans entries.reverse_perm.symm) (ascending.imp Nat.ne_of_lt) id

end Pool

/-- Two lamps are built in either order; then one is added and one is replaced. Where ids are
repeated, the least one is named. -/
theorem lamps_finite_map :
    Pool.new [Lamps.entry 1 "right", Lamps.entry 0 "left"] = .ok (Lamps.pool "left" "right") ∧
    ([Lamps.entry 4 "porch", Lamps.entry 0 "hall"].foldl Pool.insert
      (Lamps.pool "left" "right")).Represents
        [Lamps.entry 0 "left", Lamps.entry 1 "right", Lamps.entry 4 "porch", Lamps.entry 0 "hall"] ∧
    Pool.new [Lamps.entry 3 "a", Lamps.entry 1 "b", Lamps.entry 3 "c", Lamps.entry 1 "d"] =
      .error (.duplicateExecutable 1) := by
  obtain ⟨reorders, _, _, represents⟩ :=
    Pool.new_insert_finite_map [Lamps.entry 0 "left", Lamps.entry 1 "right"]
  have made : Pool.new [Lamps.entry 0 "left", Lamps.entry 1 "right"] =
      .ok (Lamps.pool "left" "right") := by cbv
  refine ⟨(reorders _ (List.Perm.swap ..)).trans made, represents _ made _, ?_⟩
  obtain ⟨_, fails, _⟩ := Pool.new_insert_finite_map
    [Lamps.entry 3 "a", Lamps.entry 1 "b", Lamps.entry 3 "c", Lamps.entry 1 "d"]
  refine (fails _).mpr ⟨1, rfl, by decide, ?_⟩
  intro repeated isRepeated
  apply Nat.pos_of_ne_zero
  rintro rfl
  exact absurd isRepeated (by decide)

end TimedKripke
