import Mathlib.Data.List.Nodup
import Mathlib.Data.List.Perm.Basic
import Mathlib.Tactic.Common
import TimedKripke.OrderedMap

/-! # Looking up in finite maps

What a map answers after writing: `OrderedMap.lookup_insert` for one entry and
`OrderedMap.lookup_extend` for several, of which the last one under a key counts. A list
of entries with distinct keys can be read back from its map
(`OrderedMap.eq_of_ofList_eq`). Sets kept as ascending lists stay ascending.
-/

namespace TimedKripke

universe u v

namespace OrderedMap

variable {κ : Type u} {α : Type v}

section Lookup

variable [BEq κ] [LawfulBEq κ]

/-- What is found under a key is an entry of the list. -/
theorem mem_of_lookup {entries : List (κ × α)} {key : κ} {value : α}
    (found : entries.lookup key = some value) : (key, value) ∈ entries := by
  obtain ⟨before, after, rfl, _⟩ := List.lookup_eq_some_iff.mp found
  simp

/-- With distinct keys every entry is found under its key. -/
theorem lookup_of_mem {entries : List (κ × α)} (distinct : (entries.map Prod.fst).Nodup)
    {key : κ} {value : α} (member : (key, value) ∈ entries) :
    entries.lookup key = some value := by
  induction entries with
  | nil => cases member
  | cons entry rest others =>
      obtain ⟨first, present⟩ := entry
      obtain ⟨fresh, distinctRest⟩ := List.nodup_cons.mp distinct
      rcases List.mem_cons.mp member with here | later
      · cases here
        exact List.lookup_cons_self
      · have different : (key == first) = false := by
          refine beq_eq_false_iff_ne.mpr fun same => fresh ?_
          exact same ▸ List.mem_map.mpr ⟨_, later, rfl⟩
        rw [List.lookup_cons, different]
        exact others distinctRest later

/-- Nothing is found under a key exactly if no entry has it. -/
theorem lookup_eq_none_iff {entries : List (κ × α)} {key : κ} :
    entries.lookup key = none ↔ key ∉ entries.map Prod.fst := by
  rw [List.lookup_eq_none_iff]
  constructor
  · intro absent member
    obtain ⟨entry, inside, rfl⟩ := List.mem_map.mp member
    simpa using absent entry inside
  · intro absent entry inside
    exact bne_iff_ne.mpr fun same => absent (same ▸ List.mem_map.mpr ⟨entry, inside, rfl⟩)

/-- With distinct keys the order of the entries does not matter. -/
theorem lookup_reverse {entries : List (κ × α)} (distinct : (entries.map Prod.fst).Nodup)
    (key : κ) : entries.reverse.lookup key = entries.lookup key := by
  cases found : entries.lookup key with
  | some value =>
      refine lookup_of_mem ?_ (List.mem_reverse.mpr (mem_of_lookup found))
      rw [List.map_reverse]
      exact List.nodup_reverse.mpr distinct
  | none =>
      rw [lookup_eq_none_iff] at found ⊢
      rwa [List.map_reverse, List.mem_reverse]

/-- Entries with the same distinct keys are the same if they hold the same values. -/
theorem eq_of_lookup_eq {first second : List (κ × α)}
    (keys : first.map Prod.fst = second.map Prod.fst) (distinct : (first.map Prod.fst).Nodup)
    (same : ∀ key ∈ first.map Prod.fst, first.lookup key = second.lookup key) :
    first = second := by
  refine List.ext_getElem (by simpa using congrArg List.length keys)
    fun place inFirst inSecond => ?_
  have sameKey : first[place].1 = second[place].1 := by
    have known := congrArg (fun known => known[place]?) keys
    simpa [inFirst, inSecond] using known
  have found : first.lookup first[place].1 = some first[place].2 :=
    lookup_of_mem distinct (List.getElem_mem inFirst)
  have found' : second.lookup second[place].1 = some second[place].2 :=
    lookup_of_mem (keys ▸ distinct) (List.getElem_mem inSecond)
  rw [same _ (List.mem_map.mpr ⟨_, List.getElem_mem inFirst, rfl⟩), sameKey, found'] at found
  exact Prod.ext sameKey (Option.some.inj found).symm

end Lookup

variable [LE κ] [LT κ] [Std.IsLinearOrder κ] [Std.LawfulOrderLT κ]

/-- Keys of which neither is the smaller are the same. -/
theorem eq_of_not_lt_of_not_lt {first second : κ} (left : ¬ first < second)
    (right : ¬ second < first) : first = second :=
  Std.le_antisymm (Std.not_lt.mp right) (Std.not_lt.mp left)

variable [DecidableLT κ] [BEq κ] [LawfulBEq κ]

/-- Writing under a key changes what is found under that key, and nothing else. -/
theorem lookup_insert (key other : κ) (value : α) (entries : OrderedMap κ α) :
    (insert key value entries).lookup other =
      if other == key then some value else entries.lookup other := by
  induction entries with
  | nil => cases same : other == key <;> simp [insert, List.lookup_cons, same]
  | cons entry rest others =>
      obtain ⟨first, present⟩ := entry
      unfold insert
      split
      · cases same : other == key <;> simp [List.lookup_cons, same]
      · split
        · rename_i greater
          rw [List.lookup_cons, others, List.lookup_cons]
          cases here : other == first with
          | false => rfl
          | true =>
              have different : (other == key) = false := by
                rw [eq_of_beq here]
                exact beq_eq_false_iff_ne.mpr (Std.ne_of_lt greater)
              simp [different]
        · rename_i notSmaller notGreater
          obtain rfl := eq_of_not_lt_of_not_lt notSmaller notGreater
          cases same : other == key <;> simp [List.lookup_cons, same]

/-- Of several entries written under one key the last one counts. -/
theorem lookup_extend (updates : List (κ × α)) : ∀ (entries : OrderedMap κ α) (key : κ),
    (extend entries updates).lookup key = (updates.reverse.lookup key).or (entries.lookup key) := by
  induction updates with
  | nil => exact fun _ _ => rfl
  | cons update rest others =>
      intro entries key
      obtain ⟨written, value⟩ := update
      change (extend (insert written value entries) rest).lookup key = _
      rw [others, lookup_insert, List.reverse_cons, List.lookup_append, Option.or_assoc,
        List.lookup_cons]
      cases key == written <;> rfl

/-- After updates with distinct keys the updated value is found, or else the former one. -/
theorem lookup_extend_of_nodup {updates : List (κ × α)}
    (distinct : (updates.map Prod.fst).Nodup) (entries : OrderedMap κ α) (key : κ) :
    (extend entries updates).lookup key = (updates.lookup key).or (entries.lookup key) := by
  rw [lookup_extend, lookup_reverse distinct]

/-- A map made of entries with distinct keys finds what the list of entries has. -/
theorem lookup_ofList {entries : List (κ × α)} (distinct : (entries.map Prod.fst).Nodup)
    (key : κ) : (ofList entries).lookup key = entries.lookup key := by
  rw [ofList, lookup_extend_of_nodup distinct]
  simp

/-- Entries with distinct keys are read back from their map, if the keys are known. -/
theorem eq_of_ofList_eq {first second : List (κ × α)}
    (keys : first.map Prod.fst = second.map Prod.fst) (distinct : (first.map Prod.fst).Nodup)
    (same : ofList first = ofList second) : first = second := by
  refine eq_of_lookup_eq keys distinct fun key _ => ?_
  rw [← lookup_ofList distinct, same, lookup_ofList (keys ▸ distinct)]

end OrderedMap

namespace OrderedSet

variable {κ : Type u} [LE κ] [LT κ] [DecidableLT κ] [Std.IsLinearOrder κ] [Std.LawfulOrderLT κ]

/-- The members after an insertion are the former ones and the inserted one. -/
theorem mem_insert {member other : κ} {members : List κ} :
    other ∈ insert member members ↔ other = member ∨ other ∈ members := by
  induction members with
  | nil => simp [insert]
  | cons first rest others =>
      rw [insert]
      split
      · exact List.mem_cons
      · split
        · rw [List.mem_cons, others, List.mem_cons]
          tauto
        · rename_i notSmaller notGreater
          rw [OrderedMap.eq_of_not_lt_of_not_lt notSmaller notGreater, List.mem_cons]
          tauto

/-- Adding a member keeps a set ascending. -/
theorem pairwise_insert {member : κ} {members : List κ} (ascending : members.Pairwise (· < ·)) :
    (insert member members).Pairwise (· < ·) := by
  induction members with
  | nil => exact List.pairwise_singleton _ _
  | cons first rest others =>
      obtain ⟨before, ascendingRest⟩ := List.pairwise_cons.mp ascending
      rw [insert]
      split
      · rename_i smaller
        refine List.pairwise_cons.mpr ⟨?_, ascending⟩
        rintro other (_ | ⟨_, inside⟩)
        · exact smaller
        · exact Std.lt_trans smaller (before other inside)
      · split
        · rename_i greater
          refine List.pairwise_cons.mpr ⟨fun other inside => ?_, others ascendingRest⟩
          rcases mem_insert.mp inside with rfl | inside
          · exact greater
          · exact before other inside
        · exact ascending

/-- The members of a union are those of either part. -/
theorem mem_union {other : κ} {more : List κ} : ∀ {members : List κ},
    other ∈ union members more ↔ other ∈ members ∨ other ∈ more := by
  induction more with
  | nil => simp [union]
  | cons first rest others =>
      intro members
      change other ∈ union (insert first members) rest ↔ _
      rw [others, mem_insert, List.mem_cons]
      tauto

/-- A union stays ascending, since each insertion keeps the order. -/
theorem pairwise_union {more : List κ} : ∀ {members : List κ}, members.Pairwise (· < ·) →
    (union members more).Pairwise (· < ·) := by
  induction more with
  | nil => exact fun ascending => ascending
  | cons first rest others => exact fun ascending => others (pairwise_insert ascending)

end OrderedSet

namespace OrderedMap

variable {κ : Type u} {α : Type v} [LE κ] [LT κ] [DecidableLT κ] [Std.IsLinearOrder κ]
  [Std.LawfulOrderLT κ]

/-- The keys of a map with one more entry are the keys with one more member. -/
theorem keys_insert (key : κ) (value : α) (entries : OrderedMap κ α) :
    (insert key value entries).keys = OrderedSet.insert key entries.keys := by
  induction entries with
  | nil => rfl
  | cons entry rest others =>
      simp only [insert, keys, List.map_cons, OrderedSet.insert] at others ⊢
      split
      · rfl
      · split
        · rw [List.map_cons, others]
        · rename_i notSmaller notGreater
          rw [List.map_cons, eq_of_not_lt_of_not_lt notSmaller notGreater]

/-- Inserting an entry keeps the keys ascending. -/
theorem pairwise_keys_insert {entries : OrderedMap κ α} (ascending : entries.keys.Pairwise (· < ·))
    (key : κ) (value : α) : (insert key value entries).keys.Pairwise (· < ·) := by
  rw [keys_insert]
  exact OrderedSet.pairwise_insert ascending

/-- A key above all others is written at the end. -/
theorem insert_eq_append {entries : OrderedMap κ α} {key : κ}
    (greatest : ∀ other ∈ entries.keys, other < key) (value : α) :
    insert key value entries = entries ++ [(key, value)] := by
  induction entries with
  | nil => rfl
  | cons entry rest others =>
      have greater : entry.1 < key := greatest entry.1 List.mem_cons_self
      have notSmaller : ¬ key < entry.1 := fun smaller =>
        Std.lt_irrefl (Std.lt_trans greater smaller)
      rw [insert, if_neg notSmaller, if_pos greater,
        others fun other inside => greatest other (List.mem_cons_of_mem _ inside)]
      rfl

/-- Writing keeps the keys of a map ascending. -/
theorem pairwise_keys_extend {updates : List (κ × α)} : ∀ {entries : OrderedMap κ α},
    entries.keys.Pairwise (· < ·) → (extend entries updates).keys.Pairwise (· < ·) := by
  induction updates with
  | nil => exact fun ascending => ascending
  | cons update rest others =>
      intro entries ascending
      exact others (pairwise_keys_insert ascending update.1 update.2)

/-- The keys after some updates are the former ones and those of the updates. -/
theorem mem_keys_extend {key : κ} {updates : List (κ × α)} : ∀ {entries : OrderedMap κ α},
    key ∈ (extend entries updates).keys ↔ key ∈ entries.keys ∨ key ∈ updates.map Prod.fst := by
  induction updates with
  | nil => simp [extend]
  | cons update rest others =>
      intro entries
      change key ∈ (extend (insert update.1 update.2 entries) rest).keys ↔ _
      rw [others, keys_insert, OrderedSet.mem_insert, List.map_cons, List.mem_cons]
      tauto

/-- The test for ascending keys decides that they ascend. -/
theorem ascending_iff {entries : OrderedMap κ α} :
    entries.ascending = true ↔ entries.keys.Pairwise (· < ·) := by
  induction entries with
  | nil => simp [ascending, keys]
  | cons first rest others =>
      cases rest with
      | nil => simp [ascending, keys]
      | cons second more =>
          rw [ascending, Bool.and_eq_true, others, decide_eq_true_eq]
          simp only [keys, List.map_cons, List.pairwise_cons]
          constructor
          · rintro ⟨smaller, before, pairwise⟩
            refine ⟨?_, before, pairwise⟩
            rintro other (_ | ⟨_, inside⟩)
            · exact smaller
            · exact Std.lt_trans smaller (before other inside)
          · rintro ⟨before, pairwise⟩
            exact ⟨before second.1 List.mem_cons_self, pairwise⟩

variable [BEq κ] [LawfulBEq κ]

omit [DecidableLT κ] in
/-- Maps that answer alike are the same. -/
theorem ext_of_lookup {first second : OrderedMap κ α} (left : first.keys.Pairwise (· < ·))
    (right : second.keys.Pairwise (· < ·))
    (same : ∀ key, first.lookup key = second.lookup key) : first = second := by
  have nodup : ∀ {entries : OrderedMap κ α}, entries.keys.Pairwise (· < ·) → entries.keys.Nodup :=
    fun ascending => ascending.imp Std.ne_of_lt
  have members : ∀ key, key ∈ first.keys ↔ key ∈ second.keys := by
    intro key
    have absent : first.lookup key = none ↔ key ∉ first.keys := lookup_eq_none_iff
    rw [same, lookup_eq_none_iff] at absent
    exact (not_iff_not.mp absent).symm
  have keys : first.keys = second.keys := by
    refine List.Perm.eq_of_pairwise ?_ left right
      ((List.perm_ext_iff_of_nodup (nodup left) (nodup right)).mpr members)
    intro key other _ _ smaller greater
    exact absurd (Std.lt_trans smaller greater) Std.lt_irrefl
  exact eq_of_lookup_eq keys (nodup left) fun key _ => same key

end OrderedMap

end TimedKripke
