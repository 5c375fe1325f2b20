import Std.Data.HashMap
import TimedKripke.Count
import TimedKripke.Kripke.State

/-! # Kripke structures

A store holds the states of a growing Kripke structure. A state is known by its
properties: adding properties that are already there gives back the state that has
them, which stays initial once it was. `KripkeStructure` is the store in memory.
-/

namespace TimedKripke

/-- What can go wrong in a store. -/
inductive StoreError where
  /-- There is no state of that number. -/
  | unknownState (id : StateId)
  /-- A record cannot be read. -/
  | serialization
  /-- Stored bytes are no record at all. -/
  | corrupted (reason : String)
deriving DecidableEq, Repr

namespace StoreError

/-- An error in words; a record that cannot be read says no more. -/
def message? : StoreError → Option String
  | unknownState id => some (id.display ++ " does not exist in the store")
  | serialization => none
  | corrupted reason => some ("corrupted record: " ++ reason)

/-- The name of an error's cause. -/
def kind : StoreError → String
  | unknownState _ => "Store.UnknownState"
  | serialization => "Store.Serialization"
  | corrupted _ => "Store.Corrupted"

end StoreError

/-- The operations of a store. Every operation that writes gives back the store also
when it fails. -/
class KripkeStore (σ : Type) where
  /-- Adds a state, or finds the one that has the properties. -/
  add : σ → PropertyList → (isInitial : Bool) → Except StoreError (StateId × KripkeState) × σ
  addEdge : σ → KripkeEdge → (source : StateId) → Except StoreError Unit × σ
  state : σ → StateId → Except StoreError KripkeState
  /-- The number of the state that has the properties. -/
  id? : σ → PropertyList → Except StoreError (Option StateId)
  size : σ → Nat
  /-- All states, in the order of their numbers. -/
  states : σ → Except StoreError (List KripkeState)
  /-- Makes all that was written durable. -/
  flush : σ → Except StoreError Unit × σ

/-- A Kripke structure in memory: the states in the order of their numbers, and the
numbers by properties. -/
structure KripkeStructure where
  /-- The states; the state at position `i` has the number `i`. -/
  states : Array KripkeState
  /-- The numbers of the states by their properties. -/
  ids : Std.HashMap PropertyList StateId

namespace KripkeStructure

/-- The structure without states. -/
def empty : KripkeStructure :=
  { states := #[], ids := ∅ }

/-- Adds a state, or finds the one that has the properties. -/
def add (kripke : KripkeStructure) (properties : PropertyList) (isInitial : Bool) :
    Except StoreError (StateId × KripkeState) × KripkeStructure :=
  match kripke.ids[properties]? with
  | some id =>
      match kripke.states[id]? with
      | some state =>
          let found := { state with isInitial := state.isInitial || isInitial }
          (.ok (id, found), { kripke with states := kripke.states.setIfInBounds id found })
      | none => (.error (.unknownState id), kripke)
  | none =>
      let id := kripke.states.size
      let state := KripkeState.new id properties isInitial
      (.ok (id, state),
        { states := kripke.states.push state, ids := kripke.ids.insert properties id })

/-- Adds an edge to a state. -/
def addEdge (kripke : KripkeStructure) (edge : KripkeEdge) (source : StateId) :
    Except StoreError Unit × KripkeStructure :=
  match kripke.states[source]? with
  | some state =>
      (.ok (), { kripke with
        states := kripke.states.setIfInBounds source (state.addEdge edge) })
  | none => (.error (.unknownState source), kripke)

/-- The state of a number. -/
def state (kripke : KripkeStructure) (id : StateId) : Except StoreError KripkeState :=
  match kripke.states[id]? with
  | some state => .ok state
  | none => .error (.unknownState id)

/-- The states in which runs may start. -/
def initialStates (kripke : KripkeStructure) : List KripkeState :=
  kripke.states.toList.filter KripkeState.isInitial

instance : KripkeStore KripkeStructure where
  add := add
  addEdge := addEdge
  state := state
  id? kripke properties := .ok kripke.ids[properties]?
  size kripke := kripke.states.size
  states kripke := .ok kripke.states.toList
  flush kripke := (.ok (), kripke)

end KripkeStructure

namespace KripkeStore

variable {σ : Type} [KripkeStore σ]

/-- A state has the properties. -/
def contains (store : σ) (properties : PropertyList) : Except StoreError Bool :=
  (id? store properties).map Option.isSome

/-- The number of all edges. -/
def edgeCount (store : σ) : Except StoreError Nat :=
  (states store).map fun states => Count.sum (states.map fun state => state.edges.length)

end KripkeStore

end TimedKripke
