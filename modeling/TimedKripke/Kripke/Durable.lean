import Std.Data.TreeMap
import TimedKripke.Bytes
import TimedKripke.Document.Kripke
import TimedKripke.Json.Parser
import TimedKripke.Kripke.Structure

/-! # Durable Kripke structures

A durable store keeps a Kripke structure as bytes in three ordered trees:

* `states` from the number of a state, eight bytes with the highest first, to the
  text of the state, so that the order of the keys is the order of the numbers;
* `ids` from the text of a property list to the number of its state;
* `meta` with the number of the next state, eight bytes with the lowest first.

A new state is written to all three trees at once.
-/

namespace TimedKripke

/-- A map from bytes to bytes in the order of its keys. -/
abbrev ByteTree := Std.TreeMap Bytes Bytes

/-- A Kripke structure as bytes. -/
structure DurableStore where
  /-- States by number. -/
  states : ByteTree
  /-- Numbers by properties. -/
  ids : ByteTree
  /-- The counter of states. -/
  counters : ByteTree

namespace DurableStore

/-- The store without states. -/
def empty : DurableStore :=
  { states := ∅, ids := ∅, counters := ∅ }

/-- The key under which a state is stored. -/
def stateKey (id : StateId) : Bytes :=
  Bytes.bigEndian 8 id

/-- The key under which the number of a state is stored. -/
def propertiesKey (properties : PropertyList) : Bytes :=
  Bytes.ofText properties.toJson.render

/-- The key of the counter of states. -/
def counterKey : Bytes :=
  Bytes.ofText "next_state_id"

/-- Reads the record of a state. -/
def decodeState (record : Bytes) : Except StoreError KripkeState :=
  match (Json.read? .texts (Bytes.characters record)).bind KripkeState.ofJson? with
  | some state => .ok state
  | none => .error .serialization

/-- Reads the number of a state. -/
def decodeId (record : Bytes) : Except StoreError StateId :=
  if record.length = 8 then .ok (Bytes.ofBigEndian record)
  else .error (.corrupted ("state id of " ++ toString record.length ++ " bytes"))

/-- The number of the next state. -/
def nextId (store : DurableStore) : Except StoreError StateId :=
  match store.counters[counterKey]? with
  | none => .ok 0
  | some record =>
      if record.length = 8 then .ok (Bytes.ofLittleEndian record)
      else .error (.corrupted "state id counter")

/-- The state of a number. -/
def state (store : DurableStore) (id : StateId) : Except StoreError KripkeState :=
  match store.states[stateKey id]? with
  | some record => decodeState record
  | none => .error (.unknownState id)

/-- The number of the state that has the properties. -/
def id? (store : DurableStore) (properties : PropertyList) : Except StoreError (Option StateId) :=
  match store.ids[propertiesKey properties]? with
  | some record => (decodeId record).map some
  | none => .ok none

/-- Writes the record of a state under the state's number. -/
def put (store : DurableStore) (state : KripkeState) : DurableStore :=
  { store with
    states := store.states.insert (stateKey state.id) (Bytes.ofText state.render) }

/-- Writes a new state to all trees. -/
def insertNew (store : DurableStore) (properties : PropertyList) (isInitial : Bool) :
    Except StoreError (KripkeState × DurableStore) :=
  match store.nextId with
  | .error error => .error error
  | .ok id =>
      let state := KripkeState.new id properties isInitial
      .ok (state, { store.put state with
        ids := store.ids.insert (propertiesKey properties) (stateKey id)
        counters := store.counters.insert counterKey (Bytes.littleEndian 8 (id + 1)) })

/-- Adds a state, or finds the one that has the properties. -/
def add (store : DurableStore) (properties : PropertyList) (isInitial : Bool) :
    Except StoreError (StateId × KripkeState) × DurableStore :=
  match store.id? properties with
  | .error error => (.error error, store)
  | .ok (some id) =>
      match store.state id with
      | .error error => (.error error, store)
      | .ok state =>
          if isInitial && !state.isInitial then
            let found := { state with isInitial := true }
            (.ok (id, found), store.put found)
          else (.ok (id, state), store)
  | .ok none =>
      match store.insertNew properties isInitial with
      | .error error => (.error error, store)
      | .ok (state, written) => (.ok (state.id, state), written)

/-- Adds an edge to a state. -/
def addEdge (store : DurableStore) (edge : KripkeEdge) (source : StateId) :
    Except StoreError Unit × DurableStore :=
  match store.state source with
  | .error error => (.error error, store)
  | .ok state => (.ok (), store.put (state.addEdge edge))

/-- Changes the tree of a name; answers the tree before the change. -/
def onTree? (store : DurableStore) (name : String) (change : ByteTree → ByteTree) :
    Option (ByteTree × DurableStore) :=
  match name with
  | "states" => some (store.states, { store with states := change store.states })
  | "ids" => some (store.ids, { store with ids := change store.ids })
  | "meta" => some (store.counters, { store with counters := change store.counters })
  | _ => none

instance : KripkeStore DurableStore where
  add := add
  addEdge := addEdge
  state := state
  id? := id?
  size store := store.states.size
  states store := store.states.toList.mapM fun record => decodeState record.2
  flush store := (.ok (), store)

end DurableStore

end TimedKripke
