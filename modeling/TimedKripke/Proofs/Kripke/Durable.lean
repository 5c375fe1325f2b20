import TimedKripke.Kripke.Durable
import TimedKripke.Proofs.Bytes
import TimedKripke.Proofs.Document.Kripke
import TimedKripke.Proofs.Kripke.Edges
import TimedKripke.Proofs.Kripke.Structure

/-! # The durable store and the one in memory

A store is used by a sequence of calls (`StoreCall`). After the same calls a durable store
*represents* the structure in memory (`DurableStore.Represents`): each tree holds one entry per
state. One call keeps this and is answered alike (`DurableStore.Represents.make`), so both stores
answer every sequence of calls alike (`DurableStore.refines_memory`).
-/

namespace TimedKripke

/-- A call of a store. -/
inductive StoreCall where
  | add (properties : PropertyList) (isInitial : Bool)
  | addEdge (edge : KripkeEdge) (source : StateId)
  | state (id : StateId)
  | find (properties : PropertyList)
  | contains (properties : PropertyList)
  | size
  | states

/-- What a call that does not fail is answered. -/
inductive StoreAnswer where
  | added (id : StateId) (state : KripkeState)
  | edgeAdded
  | state (state : KripkeState)
  | found (id : Option StateId)
  | contained (known : Bool)
  | size (size : Nat)
  | states (states : List KripkeState)

namespace StoreCall

variable {σ : Type} [KripkeStore σ]

/-- Makes a call. -/
def make : StoreCall → σ → Except StoreError StoreAnswer × σ
  | add properties isInitial, store =>
      let added := KripkeStore.add store properties isInitial
      (added.1.map fun found => .added found.1 found.2, added.2)
  | addEdge edge source, store =>
      let added := KripkeStore.addEdge store edge source
      (added.1.map fun _ => .edgeAdded, added.2)
  | state id, store => ((KripkeStore.state store id).map .state, store)
  | find properties, store => ((KripkeStore.id? store properties).map .found, store)
  | contains properties, store => ((KripkeStore.contains store properties).map .contained, store)
  | size, store => (.ok (.size (KripkeStore.size store)), store)
  | states, store => ((KripkeStore.states store).map .states, store)

/-- Makes calls one after the other, with the answers in order. -/
def makeAll : List StoreCall → σ → List (Except StoreError StoreAnswer) × σ
  | [], store => ([], store)
  | call :: rest, store =>
      let made := call.make store
      let others := makeAll rest made.2
      (made.1 :: others.1, others.2)

/-- Numbers of states fit 64 bits, and properties are ordered. -/
def Typed : StoreCall → Prop
  | add properties _ | find properties | contains properties => properties.ordered = true
  | addEdge edge source => edge.target < UInt64.size ∧ source < UInt64.size
  | state id => id < UInt64.size
  | size | states => True

end StoreCall

/-- The tree holds the entries and no others, under distinct keys. -/
structure ByteTree.Holds (tree : ByteTree) (entries : List (Bytes × Bytes)) : Prop where
  distinct : (entries.map Prod.fst).Nodup
  lookup : ∀ {key value : Bytes}, tree[key]? = some value ↔ (key, value) ∈ entries

namespace ByteTree

variable {tree : ByteTree} {entries : List (Bytes × Bytes)} {key value : Bytes}

/-- An entry that is inserted hides the one under its key and no other. -/
theorem getElem?_insert (tree : ByteTree) (key other value : Bytes) :
    (tree.insert key value)[other]? = if key = other then some value else tree[other]? := by
  rw [Std.TreeMap.getElem?_insert]
  by_cases same : key = other
  · rw [if_pos same, if_pos (Std.LawfulEqOrd.compare_eq_iff_eq.mpr same)]
  · rw [if_neg same, if_neg fun equal => same (Std.LawfulEqOrd.compare_eq_iff_eq.mp equal)]

/-- The empty tree holds nothing. -/
theorem holds_empty : Holds ∅ [] where
  distinct := List.nodup_nil
  lookup := by simp

/-- Nothing is found under a key if and only if no entry has it. -/
theorem Holds.getElem?_eq_none_iff (holds : Holds tree entries) :
    tree[key]? = none ↔ key ∉ entries.map Prod.fst := by
  rw [Option.eq_none_iff_forall_ne_some]
  constructor
  · intro absent member
    obtain ⟨entry, inside, rfl⟩ := List.mem_map.mp member
    exact absent entry.2 (holds.lookup.mpr inside)
  · intro absent value found
    exact absent (List.mem_map_of_mem (holds.lookup.mp found))

/-- Inserting under a new key adds an entry. -/
theorem Holds.append (holds : Holds tree entries) (fresh : key ∉ entries.map Prod.fst)
    (value : Bytes) : Holds (tree.insert key value) (entries ++ [(key, value)]) where
  distinct := by
    rw [List.map_append, List.map_singleton, List.nodup_append_comm]
    exact List.nodup_cons.mpr ⟨fresh, holds.distinct⟩
  lookup := by
    intro other found
    rw [getElem?_insert, List.mem_append, List.mem_singleton, Prod.mk.injEq]
    by_cases same : key = other
    · subst same
      have absent : (key, found) ∉ entries := fun member => fresh (List.mem_map_of_mem member)
      simp [absent, eq_comm]
    · rw [if_neg same, holds.lookup]
      simp [Ne.symm same]

/-- Inserting under a known key changes the entry that has it. -/
theorem Holds.set (holds : Holds tree entries) {place : Nat} {old : Bytes}
    (found : entries[place]? = some (key, old)) (value : Bytes) :
    Holds (tree.insert key value) (entries.set place (key, value)) := by
  obtain ⟨inside, here⟩ := List.getElem?_eq_some_iff.mp found
  have split : entries = entries.take place ++ (key, old) :: entries.drop (place + 1) := by
    rw [← here, List.getElem_cons_drop, List.take_append_drop]
  have written : entries.set place (key, value) =
      entries.take place ++ (key, value) :: entries.drop (place + 1) :=
    List.set_eq_take_append_cons_drop.trans (if_pos inside)
  -- The keys are distinct, so no entry before or after the written one has its key.
  generalize entries.take place = before, entries.drop (place + 1) = after at split written
  subst split
  rw [written]
  have keys := holds.distinct
  rw [List.map_append, List.map_cons] at keys
  refine ⟨by rwa [List.map_append, List.map_cons], ?_⟩
  intro other current
  rw [getElem?_insert, List.mem_append, List.mem_cons, Prod.mk.injEq]
  rw [List.nodup_middle, List.nodup_cons, List.mem_append, not_or] at keys
  by_cases same : key = other
  · subst same
    have absent {others : List (Bytes × Bytes)} (fresh : key ∉ others.map Prod.fst) :
        (key, current) ∉ others := fun member => fresh (List.mem_map_of_mem member)
    simp [absent keys.1.1, absent keys.1.2, eq_comm]
  · rw [if_neg same, holds.lookup, List.mem_append, List.mem_cons, Prod.mk.injEq]
    simp [Ne.symm same]

/-- Entries in the order of their keys are those of the tree in order. -/
theorem Holds.toList_eq (holds : Holds tree entries)
    (ascending : entries.Pairwise fun first second => compare first.1 second.1 = .lt) :
    tree.toList = entries := by
  have members : ∀ entry, entry ∈ tree.toList ↔ entry ∈ entries := fun entry =>
    Std.TreeMap.mem_toList_iff_getElem?_eq_some.trans holds.lookup
  have ordered : tree.toList.Pairwise fun first second => compare first.1 second.1 = .lt :=
    Std.TreeMap.ordered_keys_toList
  have distinct : tree.toList.Nodup := by
    refine ordered.imp ?_
    rintro first second smaller rfl
    rw [Std.ReflOrd.compare_self] at smaller
    cases smaller
  have permuted := (List.perm_ext_iff_of_nodup distinct (.of_map _ holds.distinct)).mpr members
  refine permuted.eq_of_pairwise ?_ ordered ascending
  intro first second _ _ smaller greater
  rw [Std.OrientedOrd.eq_swap, greater] at smaller
  cases smaller

end ByteTree

namespace DurableStore

/-- The number of a state is read back from its key, if it fits 64 bits. -/
theorem decodeId_stateKey {id : StateId} (fits : id < UInt64.size) :
    decodeId (stateKey id) = .ok id := by
  rw [decodeId, stateKey, if_pos (Bytes.length_bigEndian 8 id), Bytes.ofBigEndian_bigEndian fits]

/-- Numbers of 64 bits have keys of their own. -/
theorem stateKey_inj {first second : StateId} (fitsFirst : first < UInt64.size)
    (fitsSecond : second < UInt64.size) (same : stateKey first = stateKey second) :
    first = second := by
  have read := decodeId_stateKey fitsFirst
  rw [same, decodeId_stateKey fitsSecond] at read
  exact (Except.ok.inj read).symm

/-- Properties that are not nested too deep have a key of their own. -/
theorem propertiesKey_inj {first second : PropertyList} (orderedFirst : first.ordered = true)
    (orderedSecond : second.ordered = true) (within : first.toJson.depth ≤ Json.depthLimit)
    (same : propertiesKey first = propertiesKey second) : first = second := by
  have texts : first.toJson.chars = second.toJson.chars :=
    String.ofList_injective (Bytes.ofText_injective same)
  exact PropertyList.eq_of_toJson orderedFirst orderedSecond
    (Json.eq_of_chars first.written_toJson second.written_toJson within texts)

/-- A state that can be stored is read back from its record, if it is not nested too deep. -/
theorem decodeState_ofText {state : KripkeState} (storable : state.Storable)
    (within : state.toJson.depth ≤ Json.depthLimit) :
    decodeState (Bytes.ofText state.render) = .ok state := by
  rw [decodeState, Bytes.characters_ofText, storable.read?_render within]

/-- What the tree of states holds of a state. -/
def stateEntry (state : KripkeState) : Bytes × Bytes :=
  (stateKey state.id, Bytes.ofText state.render)

/-- What the tree of numbers holds of a state. -/
def idEntry (state : KripkeState) : Bytes × Bytes :=
  (propertiesKey state.properties, stateKey state.id)

end DurableStore

/-- The states of a well-formed structure are numbered in order. -/
theorem KripkeStructure.WellFormed.map_id {kripke : KripkeStructure}
    (wellFormed : kripke.WellFormed) :
    kripke.states.toList.map KripkeState.id = List.range kripke.states.size := by
  refine List.ext_getElem (by simp) fun place inside _ => ?_
  rw [List.getElem_map, List.getElem_range]
  rw [List.length_map] at inside
  exact wellFormed.numbered (Array.getElem?_eq_some_iff.mpr ⟨inside, rfl⟩)

/-- The states can be numbered in 64 bits, and none is nested too deep to be read. -/
structure KripkeStructure.Fits (kripke : KripkeStructure) : Prop where
  few : kripke.states.size < UInt64.size
  shallow : ∀ state ∈ kripke.states, state.toJson.depth ≤ Json.depthLimit

namespace DurableStore

/-- The durable store holds the states of the structure, and each of them can be read. -/
structure Represents (durable : DurableStore) (kripke : KripkeStructure) : Prop where
  wellFormed : kripke.WellFormed
  fits : kripke.Fits
  storable : ∀ state ∈ kripke.states, state.Storable
  states : ByteTree.Holds durable.states (kripke.states.toList.map stateEntry)
  ids : ByteTree.Holds durable.ids (kripke.states.toList.map idEntry)
  counter : durable.counters[counterKey]? =
    if kripke.states.size = 0 then none else some (Bytes.littleEndian 8 kripke.states.size)

/-- The empty store represents the empty structure. -/
theorem represents_empty : empty.Represents .empty where
  wellFormed := KripkeStructure.wellFormed_empty
  fits := ⟨by decide, by simp [KripkeStructure.empty]⟩
  storable := by simp [KripkeStructure.empty]
  states := ByteTree.holds_empty
  ids := ByteTree.holds_empty
  counter := by simp [empty, KripkeStructure.empty]

variable {durable : DurableStore} {kripke : KripkeStructure}

namespace Represents

/-- The record under a number is that of the state which the structure has there. -/
theorem getElem?_states (represents : durable.Represents kripke) {id : StateId}
    (fits : id < UInt64.size) :
    durable.states[stateKey id]? =
      kripke.states[id]?.map fun state => Bytes.ofText state.render := by
  cases found : kripke.states[id]? with
  | some state =>
      refine represents.states.lookup.mpr (List.mem_map.mpr ⟨state, ?_, ?_⟩)
      · exact Array.mem_toList_iff.mpr (Array.mem_of_getElem? found)
      · rw [stateEntry, represents.wellFormed.numbered found]
  | none =>
      refine represents.states.getElem?_eq_none_iff.mpr fun member => ?_
      obtain ⟨_, isEntry, same⟩ := List.mem_map.mp member
      obtain ⟨state, stored, rfl⟩ := List.mem_map.mp isEntry
      obtain ⟨place, here⟩ := Array.mem_iff_getElem?.mp (Array.mem_toList_iff.mp stored)
      have number := represents.wellFormed.numbered here
      have same' : state.id = id :=
        stateKey_inj (represents.storable state (Array.mem_toList_iff.mp stored)).id fits same
      rw [← number, same', found] at here
      cases here

/-- Both stores find the same state under a number, or none. -/
theorem state_eq (represents : durable.Represents kripke) {id : StateId} (fits : id < UInt64.size) :
    durable.state id = kripke.state id := by
  rw [state, KripkeStructure.state, represents.getElem?_states fits]
  cases found : kripke.states[id]? with
  | some state =>
      have stored := Array.mem_of_getElem? found
      exact decodeState_ofText (represents.storable state stored)
        (represents.fits.shallow state stored)
  | none => rfl

/-- A stored state with the key of a property list has those properties. -/
theorem propertiesKey_inj (represents : durable.Represents kripke) {properties : PropertyList}
    (isOrdered : properties.ordered = true) {state : KripkeState} (stored : state ∈ kripke.states)
    (same : propertiesKey state.properties = propertiesKey properties) :
    state.properties = properties := by
  have within : state.properties.toJson.depth ≤ Json.depthLimit := by
    have shallow := represents.fits.shallow state stored
    simp only [KripkeState.toJson, Json.depth, Json.membersDepth] at shallow
    omega
  exact DurableStore.propertiesKey_inj (represents.storable state stored).properties isOrdered
    within same

/-- The number under the key of a property list is that which the structure knows. -/
theorem getElem?_ids (represents : durable.Represents kripke) {properties : PropertyList}
    (isOrdered : properties.ordered = true) :
    durable.ids[propertiesKey properties]? = kripke.ids[properties]?.map stateKey := by
  cases known : kripke.ids[properties]? with
  | some id =>
      obtain ⟨state, found, same⟩ := represents.wellFormed.indexed.mp known
      refine represents.ids.lookup.mpr (List.mem_map.mpr ⟨state, ?_, ?_⟩)
      · exact Array.mem_toList_iff.mpr (Array.mem_of_getElem? found)
      · rw [idEntry, same, represents.wellFormed.numbered found]
  | none =>
      refine represents.ids.getElem?_eq_none_iff.mpr fun member => ?_
      obtain ⟨_, isEntry, same⟩ := List.mem_map.mp member
      obtain ⟨state, stored, rfl⟩ := List.mem_map.mp isEntry
      have inside := Array.mem_toList_iff.mp stored
      obtain ⟨place, here⟩ := Array.mem_iff_getElem?.mp inside
      rw [represents.wellFormed.indexed.mpr
        ⟨state, here, represents.propertiesKey_inj isOrdered inside same⟩] at known
      cases known

/-- Both stores find the same number for a property list, or none. -/
theorem id?_eq (represents : durable.Represents kripke) {properties : PropertyList}
    (isOrdered : properties.ordered = true) :
    durable.id? properties = .ok kripke.ids[properties]? := by
  rw [id?, represents.getElem?_ids isOrdered]
  cases known : kripke.ids[properties]? with
  | some id =>
      obtain ⟨state, found, _⟩ := represents.wellFormed.indexed.mp known
      have fits : id < UInt64.size :=
        Nat.lt_trans (Array.getElem?_eq_some_iff.mp found).choose represents.fits.few
      change (decodeId (stateKey id)).map some = _
      rw [decodeId_stateKey fits]
      rfl
  | none => rfl

/-- The entries of the tree of states are in the order of the numbers. -/
theorem toList_states (represents : durable.Represents kripke) :
    durable.states.toList = kripke.states.toList.map stateEntry := by
  apply represents.states.toList_eq
  have numbers : (kripke.states.toList.map KripkeState.id).Pairwise (· < ·) := by
    rw [represents.wellFormed.map_id]
    exact List.pairwise_lt_range
  refine List.pairwise_map.mpr ((List.pairwise_map.mp numbers).imp_of_mem ?_)
  intro first second _ stored smaller
  have storable := represents.storable second (Array.mem_toList_iff.mp stored)
  exact Bytes.compare_bigEndian smaller storable.id

/-- The keys of the tree of states are those of the numbers in use, in order. -/
theorem keys_states (represents : durable.Represents kripke) :
    durable.states.keys = (List.range kripke.states.size).map stateKey := by
  rw [← Std.TreeMap.map_fst_toList_eq_keys, represents.toList_states,
    ← represents.wellFormed.map_id, List.map_map, List.map_map]
  rfl

/-- The durable store lists the states of the structure in its order. -/
theorem states_eq (represents : durable.Represents kripke) :
    KripkeStore.states durable = .ok kripke.states.toList := by
  change durable.states.toList.mapM (fun record => decodeState record.2) = _
  rw [represents.toList_states]
  refine (Json.mapM_map_eq_pure fun state stored => ?_).trans (congrArg _ (List.map_id _))
  have inside := Array.mem_toList_iff.mp stored
  exact decodeState_ofText (represents.storable state inside) (represents.fits.shallow state inside)

/-- Both stores have as many states. -/
theorem size_eq (represents : durable.Represents kripke) :
    durable.states.size = kripke.states.size := by
  rw [← Std.TreeMap.length_toList, represents.toList_states, List.length_map, Array.length_toList]

/-- Writing a state that extends the one that was there replaces it in both stores, so that they
stay alike. -/
theorem put (represents : durable.Represents kripke) {id : StateId} {state later : KripkeState}
    (found : kripke.states[id]? = some state) (grows : state.Extends later)
    (storable : later.Storable)
    (fits : KripkeStructure.Fits { kripke with states := kripke.states.setIfInBounds id later }) :
    (durable.put later).Represents
      { kripke with states := kripke.states.setIfInBounds id later } where
  wellFormed := (KripkeStructure.wellFormed_replace represents.wellFormed found grows).1
  fits := fits
  storable := by
    intro other stored
    rcases Array.mem_or_eq_of_mem_setIfInBounds stored with stored | rfl
    · exact represents.storable other stored
    · exact storable
  states := by
    have entry : (kripke.states.toList.map stateEntry)[id]? =
        some (stateKey later.id, Bytes.ofText state.render) := by
      rw [List.getElem?_map, Array.getElem?_toList, found, Option.map_some, stateEntry, grows.id]
    rw [Array.toList_setIfInBounds, List.map_set]
    exact represents.states.set entry _
  ids := by
    have same : idEntry later = idEntry state := by
      rw [idEntry, idEntry, grows.id, grows.properties]
    have entry : (kripke.states.toList.map idEntry)[id]? = some (idEntry later) := by
      rw [List.getElem?_map, Array.getElem?_toList, found, Option.map_some, same]
    obtain ⟨inside, here⟩ := List.getElem?_eq_some_iff.mp entry
    rw [Array.toList_setIfInBounds, List.map_set, ← here, List.set_getElem_self]
    exact represents.ids
  counter := by
    rw [Array.size_setIfInBounds]
    exact represents.counter

/-- The counter stands at the number of states, also when nothing has been written. -/
theorem nextId_eq (represents : durable.Represents kripke) :
    durable.nextId = .ok kripke.states.size := by
  rw [nextId, represents.counter]
  by_cases none : kripke.states.size = 0
  · rw [if_pos none, none]
  · rw [if_neg none]
    change (if (Bytes.littleEndian 8 kripke.states.size).length = 8 then _ else _) = _
    rw [if_pos (Bytes.length_littleEndian 8 _),
      Bytes.ofLittleEndian_littleEndian represents.fits.few]

/-- A state with new properties is written under the next number to all three trees. -/
theorem insertNew (represents : durable.Represents kripke) {properties : PropertyList}
    (isOrdered : properties.ordered = true) (unknown : kripke.ids[properties]? = none)
    (isInitial : Bool) (fits : (kripke.add properties isInitial).2.Fits) :
    ∃ written, durable.insertNew properties isInitial =
        .ok (KripkeState.new kripke.states.size properties isInitial, written) ∧
      written.Represents (kripke.add properties isInitial).2 := by
  obtain ⟨_, _, after, made, wellFormed, -⟩ :=
    KripkeStructure.add_eq_ok represents.wellFormed properties isInitial
  have isAfter : (kripke.add properties isInitial).2 = after := congrArg Prod.snd made
  have added : (kripke.add properties isInitial).2 =
      { states := kripke.states.push (.new kripke.states.size properties isInitial)
        ids := kripke.ids.insert properties kripke.states.size } := by
    rw [KripkeStructure.add, unknown]
  refine ⟨_, by rw [DurableStore.insertNew, represents.nextId_eq], ?_⟩
  rw [← isAfter] at wellFormed
  rw [added] at fits wellFormed ⊢
  -- Neither the number nor the properties are there, so nothing is overwritten.
  have newId : durable.states[stateKey kripke.states.size]? = none := by
    rw [represents.getElem?_states represents.fits.few, Array.getElem?_size, Option.map_none]
  have newKey : durable.ids[propertiesKey properties]? = none := by
    rw [represents.getElem?_ids isOrdered, unknown, Option.map_none]
  exact {
    wellFormed
    fits
    storable := by
      intro state stored
      rcases Array.mem_push.mp stored with stored | rfl
      · exact represents.storable state stored
      · exact ⟨represents.fits.few, isOrdered, nofun⟩
    states := by
      rw [Array.toList_push, List.map_append]
      exact represents.states.append (represents.states.getElem?_eq_none_iff.mp newId) _
    ids := by
      rw [Array.toList_push, List.map_append]
      exact represents.ids.append (represents.ids.getElem?_eq_none_iff.mp newKey) _
    counter := by
      rw [Array.size_push, if_neg (Nat.succ_ne_zero _)]
      exact (ByteTree.getElem?_insert ..).trans (if_pos rfl) }

/-- Adding a state is answered alike, whether its properties are new or known. -/
theorem add (represents : durable.Represents kripke) {properties : PropertyList}
    (isOrdered : properties.ordered = true) (isInitial : Bool)
    (fits : (kripke.add properties isInitial).2.Fits) :
    (durable.add properties isInitial).1 = (kripke.add properties isInitial).1 ∧
      (durable.add properties isInitial).2.Represents (kripke.add properties isInitial).2 := by
  cases known : kripke.ids[properties]? with
  | none =>
      obtain ⟨written, inserted, later⟩ := represents.insertNew isOrdered known isInitial fits
      have read : durable.id? properties = .ok none := known ▸ represents.id?_eq isOrdered
      rw [DurableStore.add, read]
      simp only [inserted]
      refine ⟨?_, later⟩
      rw [KripkeStructure.add, known]
      rfl
  | some id =>
      obtain ⟨state, found, -⟩ := represents.wellFormed.indexed.mp known
      have inside : id < kripke.states.size := (Array.getElem?_eq_some_iff.mp found).choose
      have readId : durable.id? properties = .ok (some id) := known ▸ represents.id?_eq isOrdered
      have readState : durable.state id = .ok state := by
        rw [represents.state_eq (Nat.lt_trans inside represents.fits.few),
          KripkeStructure.state, found]
      simp only [KripkeStructure.add, known, found] at fits ⊢
      rw [DurableStore.add, readId]
      simp only [readState]
      -- The durable store writes only if the state becomes initial; the other one always does.
      by_cases becomes : (isInitial && !state.isInitial) = true
      · have initial : (state.isInitial || isInitial) = true := by
          rw [(Bool.and_eq_true_iff.mp becomes).1, Bool.or_true]
        have storable := represents.storable state (Array.mem_of_getElem? found)
        rw [initial] at fits
        rw [if_pos becomes, initial]
        refine ⟨rfl, represents.put found ?_ ?_ fits⟩
        · exact ⟨rfl, rfl, fun _ => rfl, fun edge member => ⟨edge, member, .refl edge⟩⟩
        · exact ⟨storable.id, storable.properties, storable.edges⟩
      · have initial : (state.isInitial || isInitial) = state.isInitial := by
          revert becomes
          cases isInitial <;> cases state.isInitial <;> decide
        rw [if_neg becomes, initial, KripkeStructure.setIfInBounds_self found]
        exact ⟨rfl, represents⟩

/-- Adding an edge is answered alike, also when there is no state to add it to. -/
theorem addEdge (represents : durable.Represents kripke) {edge : KripkeEdge} {source : StateId}
    (target : edge.target < UInt64.size) (numbered : source < UInt64.size)
    (fits : (kripke.addEdge edge source).2.Fits) :
    (durable.addEdge edge source).1 = (kripke.addEdge edge source).1 ∧
      (durable.addEdge edge source).2.Represents (kripke.addEdge edge source).2 := by
  have read := represents.state_eq numbered
  cases found : kripke.states[source]? with
  | none =>
      rw [KripkeStructure.state, found] at read
      rw [DurableStore.addEdge, KripkeStructure.addEdge, read, found]
      exact ⟨rfl, represents⟩
  | some state =>
      rw [KripkeStructure.state, found] at read
      rw [KripkeStructure.addEdge, found] at fits ⊢
      rw [DurableStore.addEdge, read]
      refine ⟨rfl, represents.put found (state.extends_addEdge edge) ?_ fits⟩
      have storable := represents.storable state (Array.mem_of_getElem? found)
      refine ⟨storable.id, storable.properties, fun wide member => ?_⟩
      rcases KripkeEdge.target_of_insertInto member with isNew | ⟨old, isOld, same⟩
      · exact isNew ▸ target
      · exact same ▸ storable.edges old isOld

/-- **One call is answered alike**, and the stores stay alike. The cases are the calls of a store.
-/
theorem make (represents : durable.Represents kripke) {call : StoreCall} (typed : call.Typed)
    (fits : (call.make kripke).2.Fits) :
    (call.make durable).1 = (call.make kripke).1 ∧
      (call.make durable).2.Represents (call.make kripke).2 := by
  cases call with
  | add properties isInitial =>
      obtain ⟨answer, later⟩ := represents.add typed isInitial fits
      exact ⟨congrArg (Except.map _) answer, later⟩
  | addEdge edge source =>
      obtain ⟨answer, later⟩ := represents.addEdge typed.1 typed.2 fits
      exact ⟨congrArg (Except.map _) answer, later⟩
  | state id => exact ⟨congrArg (Except.map _) (represents.state_eq typed), represents⟩
  | find properties => exact ⟨congrArg (Except.map _) (represents.id?_eq typed), represents⟩
  | contains properties =>
      have answer := congrArg (Except.map Option.isSome) (represents.id?_eq typed)
      exact ⟨congrArg (Except.map _) answer, represents⟩
  | size =>
      have answer := congrArg StoreAnswer.size represents.size_eq
      exact ⟨congrArg Except.ok answer, represents⟩
  | states => exact ⟨congrArg (Except.map _) represents.states_eq, represents⟩

/-- Calls are answered alike one after the other, by induction on the calls. -/
theorem makeAll {calls : List StoreCall} (represents : durable.Represents kripke)
    (typed : ∀ call ∈ calls, call.Typed)
    (fits : ∀ front, front <+: calls → (StoreCall.makeAll front kripke).2.Fits) :
    (StoreCall.makeAll calls durable).1 = (StoreCall.makeAll calls kripke).1 ∧
      (StoreCall.makeAll calls durable).2.Represents (StoreCall.makeAll calls kripke).2 := by
  induction calls generalizing durable kripke with
  | nil => exact ⟨rfl, represents⟩
  | cons call rest others =>
      obtain ⟨typedCall, typedRest⟩ := List.forall_mem_cons.mp typed
      obtain ⟨answer, later⟩ := represents.make typedCall (fits [call] (by simp))
      obtain ⟨answers, last⟩ := others later typedRest fun front isFront =>
        fits (call :: front) (List.cons_prefix_cons.mpr ⟨rfl, isFront⟩)
      exact ⟨congrArg₂ List.cons answer answers, last⟩

end Represents

/-- **The durable store refines the one in memory.** Started empty, both answer every sequence of
calls alike, unless a state on the way is nested too deep to be read back. Afterwards the keys of
the states are the numbers below the number of states in order, the tree of numbers holds the
number of each stored property list and nothing else, and the counter is the number of states. -/
theorem refines_memory {calls : List StoreCall} (typed : ∀ call ∈ calls, call.Typed)
    (fits : ∀ front, front <+: calls → (StoreCall.makeAll front KripkeStructure.empty).2.Fits) :
    ∃ answers durable kripke,
      StoreCall.makeAll calls DurableStore.empty = (answers, durable) ∧
      StoreCall.makeAll calls KripkeStructure.empty = (answers, kripke) ∧
      durable.states.keys = (List.range kripke.states.size).map stateKey ∧
      (∀ key value, durable.ids[key]? = some value ↔ ∃ state ∈ kripke.states,
        propertiesKey state.properties = key ∧ stateKey state.id = value) ∧
      (0 < kripke.states.size →
        durable.counters[counterKey]? = some (Bytes.littleEndian 8 kripke.states.size)) := by
  obtain ⟨answers, represents⟩ := represents_empty.makeAll typed fits
  refine ⟨_, _, _, rfl, Prod.ext answers.symm rfl, represents.keys_states, ?_, ?_⟩
  · intro key value
    rw [represents.ids.lookup, List.mem_map]
    simp only [Array.mem_toList_iff, idEntry, Prod.mk.injEq]
  · intro some
    rw [represents.counter, if_neg (Nat.ne_of_gt some)]

namespace Trail

/-- The properties of a state that shows its place and nothing else. -/
def shows (place : String) : PropertyList :=
  [("pc", .string place)]

/-- Three states are added, with texts in the opposite order of their numbers, and the last one is
linked to the first, which is then added again as an initial one. A number that no state has is
asked for, and all states are listed. -/
def calls : List StoreCall :=
  [.add (shows "c") false, .add (shows "b") false, .add (shows "a") false, .addEdge (.new 0) 2,
    .add (shows "c") true, .state 7, .states]

/-- The states in the end. -/
def states : List KripkeState :=
  [.new 0 (shows "c") true, .new 1 (shows "b") false,
    { KripkeState.new 2 (shows "a") false with edges := [.new 0] }]

/-- The states on the way, after none of the calls, after the first, and so on. -/
def stages : List (List KripkeState) :=
  [[], [.new 0 (shows "c") false], [.new 0 (shows "c") false, .new 1 (shows "b") false],
    [.new 0 (shows "c") false, .new 1 (shows "b") false, .new 2 (shows "a") false],
    .new 0 (shows "c") false :: states.tail]

/-- The structure in memory goes through the stages. -/
theorem states_take (count : Nat) :
    (StoreCall.makeAll (calls.take count) KripkeStructure.empty).2.states =
      (stages.getD count states).toArray := by
  match count with
  | 0 | 1 | 2 | 3 | 4 | 5 | 6 | later + 7 =>
      simp [calls, stages, states, shows, StoreCall.makeAll, StoreCall.make, KripkeStore.add,
        KripkeStore.addEdge, KripkeStructure.add, KripkeStructure.addEdge, KripkeStructure.empty,
        KripkeState.new, KripkeState.addEdge, KripkeEdge.insertInto, KripkeEdge.mergeInto,
        Std.HashMap.getElem_insert]

/-- No state on the way is nested too deep to be read. -/
theorem fits {front : List StoreCall} (isFront : front <+: calls) :
    (StoreCall.makeAll front KripkeStructure.empty).2.Fits := by
  have known : ∀ stored ∈ states :: stages, stored.length < UInt64.size ∧
      ∀ state ∈ stored, state.toJson.depth ≤ Json.depthLimit := by
    decide
  have isStage : stages.getD front.length states ∈ states :: stages := by
    rw [List.getD_eq_getElem?_getD]
    cases found : stages[front.length]? with
    | none => exact List.mem_cons_self
    | some stored => exact List.mem_cons_of_mem _ (List.mem_of_getElem? found)
  obtain ⟨few, shallow⟩ := known _ isStage
  rw [List.prefix_iff_eq_take.mp isFront]
  constructor
  · simpa [states_take] using few
  · simpa [states_take] using shallow

end Trail

/-- Both stores answer the calls of the trail alike. The tree of states is in the order of the
numbers, which is not that of the texts, and the counter stands at three. -/
theorem trail_refines_memory : ∃ answers durable kripke,
    StoreCall.makeAll Trail.calls DurableStore.empty = (answers, durable) ∧
    StoreCall.makeAll Trail.calls KripkeStructure.empty = (answers, kripke) ∧
    kripke.states = Trail.states.toArray ∧
    durable.states.keys = [0, 1, 2].map stateKey ∧
    (∀ key value, durable.ids[key]? = some value ↔ ∃ state ∈ kripke.states,
      propertiesKey state.properties = key ∧ stateKey state.id = value) ∧
    durable.counters[counterKey]? = some (Bytes.littleEndian 8 3) := by
  have typed : ∀ call ∈ Trail.calls, call.Typed := by
    simp only [Trail.calls, List.forall_mem_cons]
    exact ⟨rfl, rfl, rfl, ⟨by decide, by decide⟩, rfl, show 7 < UInt64.size by decide, trivial,
      List.forall_mem_nil _⟩
  obtain ⟨answers, durable, kripke, ofDurable, ofMemory, keys, ids, counter⟩ :=
    refines_memory typed fun _ => Trail.fits
  have isStored : kripke.states = Trail.states.toArray := by
    have stored := Trail.states_take 7
    rw [show Trail.calls.take 7 = Trail.calls from rfl, ofMemory] at stored
    exact stored
  rw [isStored] at keys counter
  exact ⟨answers, durable, kripke, ofDurable, ofMemory, isStored, keys, ids, counter (by decide)⟩

end DurableStore

end TimedKripke
