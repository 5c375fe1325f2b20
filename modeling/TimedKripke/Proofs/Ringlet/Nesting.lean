import Mathlib.Data.List.Sections
import TimedKripke.Proofs.Enumeration.Nested
import TimedKripke.Proofs.Ringlet.CallOrder

/-! # How deep calls nest

`Dispatch.Nests` executes the executable in control with no bound on the depth of nested calls,
and says how many executions stood in each other at most; it has one outcome at most
(`Dispatch.Nests.unique`). The open calls of an execution are distinct invocations with arguments
that their callees have accepted (`Dispatch.Accounted`). Where the values of all parameters can be
listed, there are no more of them than `Pool.invocations` lists. So executions end, and within the
depth that the bounded execution is given (`executeTimeslot_nests_within`).
-/

namespace TimedKripke

namespace Dispatch

mutual

/-- The executable in control makes its step, and the calls of the step are dispatched. At most
`depth` executions stood in each other, this one included. -/
inductive Nests : Dispatch → Nat → Except Fault Bool × Dispatch → Prop
  /-- The execution stops with the step. -/
  | stops {state stopped : Dispatch} {fault : Fault}
      (stops : state.ownStep = .error (fault, stopped)) : Nests state 1 (.error fault, stopped)
  /-- The calls of the step are dispatched. -/
  | dispatches {state stepped final : Dispatch} {outcome : StepOutcome} {depth : Nat}
      {answer : Except Fault Unit} (made : state.ownStep = .ok (outcome, stepped))
      (calls : NestsBelow (dispatchOrder outcome.issued) stepped depth (answer, final)) :
      Nests state (depth + 1) (answer.map fun _ => outcome.transitioned, final)

/-- Calls are dispatched in order. At most `depth` executions of callees stood in each other. -/
inductive NestsBelow : List Call → Dispatch → Nat → Except Fault Unit × Dispatch → Prop
  | nil {state : Dispatch} : NestsBelow [] state 0 (.ok (), state)
  /-- The first call cannot begin. -/
  | refused {state : Dispatch} {call : Call} {rest : List Call} {fault : Fault}
      (refused : state.beginCall call = .error fault) :
      NestsBelow (call :: rest) state 0 (.error fault, state)
  /-- Nobody waits for the first call. -/
  | begins {state begun : Dispatch} {call : Call} {rest : List Call} {depth : Nat}
      {ended : Except Fault Unit × Dispatch} (asynchronous : call.method.isSynchronous = false)
      (began : state.beginCall call = .ok begun) (others : NestsBelow rest begun depth ended) :
      NestsBelow (call :: rest) state depth ended
  /-- The callee of the first call fails. -/
  | fails {state begun stepped : Dispatch} {call : Call} {rest : List Call} {depth : Nat}
      {fault : Fault} (synchronous : call.method.isSynchronous = true)
      (began : state.beginCall call = .ok begun)
      (nested : Nests begun depth (.error fault, stepped)) :
      NestsBelow (call :: rest) state depth (.error fault, stepped)
  /-- The first call is served and closed, and the others follow. -/
  | serves {state begun stepped : Dispatch} {call : Call} {rest : List Call} {depth deeper : Nat}
      {transitioned : Bool} {ended : Except Fault Unit × Dispatch}
      (synchronous : call.method.isSynchronous = true) (began : state.beginCall call = .ok begun)
      (nested : Nests begun depth (.ok transitioned, stepped))
      (others : NestsBelow rest stepped.closed deeper ended) :
      NestsBelow (call :: rest) state (max depth deeper) ended

end

mutual

/-- Nested execution has one depth and one end. The induction runs along the derivation, with that
of the calls below. -/
theorem Nests.unique {state : Dispatch} {depth : Nat} {ended : Except Fault Bool × Dispatch} :
    Nests state depth ended → ∀ {depth' : Nat} {ended' : Except Fault Bool × Dispatch},
      Nests state depth' ended' → depth' = depth ∧ ended' = ended
  | .stops stops, _, _, other => by
      cases other with
      | stops stops' => cases stops.symm.trans stops'; exact ⟨rfl, rfl⟩
      | dispatches made _ => cases stops.symm.trans made
  | .dispatches made calls, _, _, other => by
      cases other with
      | stops stops => cases made.symm.trans stops
      | dispatches made' calls' =>
          cases made.symm.trans made'
          obtain ⟨rfl, same⟩ := calls.unique calls'
          cases same
          exact ⟨rfl, rfl⟩

/-- The calls below a step have one depth and one end. -/
theorem NestsBelow.unique {calls : List Call} {state : Dispatch} {depth : Nat}
    {ended : Except Fault Unit × Dispatch} : NestsBelow calls state depth ended →
      ∀ {depth' : Nat} {ended' : Except Fault Unit × Dispatch},
        NestsBelow calls state depth' ended' → depth' = depth ∧ ended' = ended
  | .nil, _, _, other => by
      cases other
      exact ⟨rfl, rfl⟩
  | .refused refused, _, _, other => by
      cases other with
      | refused refused' => cases refused.symm.trans refused'; exact ⟨rfl, rfl⟩
      | begins _ began _ => cases refused.symm.trans began
      | fails _ began _ => cases refused.symm.trans began
      | serves _ began _ _ => cases refused.symm.trans began
  | .begins asynchronous began others, _, _, other => by
      cases other with
      | refused refused => cases began.symm.trans refused
      | begins _ began' others' => cases began.symm.trans began'; exact others.unique others'
      | fails synchronous _ _ => cases asynchronous.symm.trans synchronous
      | serves synchronous _ _ _ => cases asynchronous.symm.trans synchronous
  | .fails synchronous began nested, _, _, other => by
      cases other with
      | refused refused => cases began.symm.trans refused
      | begins asynchronous _ _ => cases asynchronous.symm.trans synchronous
      | fails _ began' nested' =>
          cases began.symm.trans began'
          obtain ⟨rfl, same⟩ := nested.unique nested'
          cases same
          exact ⟨rfl, rfl⟩
      | serves _ began' nested' _ =>
          cases began.symm.trans began'
          cases (nested.unique nested').2
  | .serves synchronous began nested others, _, _, other => by
      cases other with
      | refused refused => cases began.symm.trans refused
      | begins asynchronous _ _ => cases asynchronous.symm.trans synchronous
      | fails _ began' nested' =>
          cases began.symm.trans began'
          cases (nested.unique nested').2
      | serves _ began' nested' others' =>
          cases began.symm.trans began'
          obtain ⟨rfl, same⟩ := nested.unique nested'
          cases same
          obtain ⟨rfl, rfl⟩ := others.unique others'
          exact ⟨rfl, rfl⟩

end

end Dispatch

/-- What can be given for a parameter: no entry, an entry of nothing, or a value of its type. -/
def ValueType.givens (type : ValueType) : List (Option (Option Value)) :=
  none :: some none :: type.values.map fun value => some (some value)

/-- The number of ways to choose from each of some lists is the product of their lengths. -/
theorem length_sections {α : Type} (choices : List (List α)) :
    choices.sections.length = Count.product (choices.map List.length) := by
  induction choices with
  | nil => rfl
  | cons first rest others =>
      rw [List.sections, List.length_flatMap]
      simp [others, Count.product, Nat.mul_comm]

/-- The ways to call an executable: its id, and what is given for each of its parameters. -/
def PoolEntry.invocations (entry : PoolEntry) :
    List (ExecutableId × List (Option (Option Value))) :=
  match entry.executable with
  | .scheduled _ => []
  | .callable served =>
      (served.parameters.map fun declared => declared.2.givens).sections.map (Prod.mk entry.id)

namespace Pool

/-- The ways to call an executable of the pool. -/
def invocations (pool : Pool) : List (ExecutableId × List (Option (Option Value))) :=
  pool.entries.flatMap PoolEntry.invocations

/-- The values of all parameters of callable machines can be listed. -/
def EnumerableParameters (pool : Pool) : Prop :=
  ∀ entry ∈ pool.entries, ∀ served, entry.executable = .callable served →
    ∀ declared ∈ served.parameters, declared.2.isEnumerable = true

/-- The parameters declared for an executable, if it can be called. -/
def parameters? (pool : Pool) (id : ExecutableId) : Option (List (String × ValueType)) :=
  (pool.get? id).bind fun executable => executable.frame.2

/-- Replacing an executable by one of the same frame leaves all declared parameters as they are. -/
theorem parameters?_set {pool : Pool} {id : ExecutableId} {before after : Executable}
    (found : pool.get? id = some before) (frame : after.frame = before.frame)
    (other : ExecutableId) : (pool.set id after).parameters? other = pool.parameters? other := by
  unfold parameters?
  rw [get?_set]
  by_cases here : other = id
  · rw [if_pos here, here, found, Option.map_some, Option.bind_some, Option.bind_some, frame]
  · rw [if_neg here]

end Pool

namespace PoolEntry

/-- There are as many ways to call an executable as its parameters have values and ways to be left
out, multiplied. -/
theorem length_invocations {entry : PoolEntry}
    (enumerable : ∀ served, entry.executable = .callable served →
      ∀ declared ∈ served.parameters, declared.2.isEnumerable = true) :
    entry.invocations.length =
      match entry.executable with
      | .scheduled _ => 0
      | .callable served =>
          Count.product (served.parameters.map fun declared => declared.2.cardinality + 2) := by
  unfold invocations
  cases isExecutable : entry.executable with
  | scheduled running => rfl
  | callable served =>
      dsimp only
      rw [List.length_map, length_sections, List.map_map]
      congr 1
      apply List.map_congr_left
      intro declared member
      have counted := ValueType.length_values (enumerable served isExecutable declared member)
      simp [ValueType.givens, counted]

end PoolEntry

namespace Pool

variable {pool : Pool} (enumerable : pool.EnumerableParameters)
include enumerable

/-- The ways to call any executable of the pool are counted by adding up those of its entries. -/
theorem length_invocations : pool.invocations.length =
    Count.sum (pool.entries.map fun entry =>
      match entry.executable with
      | .scheduled _ => 0
      | .callable served =>
          Count.product (served.parameters.map fun declared => declared.2.cardinality + 2)) := by
  have counts : ∀ entries : List PoolEntry,
      (entries.flatMap PoolEntry.invocations).length =
        Count.sum (entries.map fun entry => entry.invocations.length) := by
    intro entries
    induction entries with
    | nil => rfl
    | cons entry rest others => rw [List.flatMap_cons, List.length_append, others]; rfl
  rw [invocations, counts]
  congr 1
  apply List.map_congr_left
  intro entry member
  exact PoolEntry.length_invocations (enumerable entry member)

/-- The depth that bounded executions are given is one more than the number of invocations. -/
theorem callDepthBound_eq : pool.callDepthBound = 1 + pool.invocations.length := by
  rw [length_invocations enumerable, callDepthBound]
  congr 2
  apply List.map_congr_left
  intro entry member
  cases isExecutable : entry.executable with
  | scheduled running => rfl
  | callable served =>
      have all : (served.parameters.all fun declared => declared.2.isEnumerable) = true :=
        List.all_eq_true.mpr (enumerable entry member served isExecutable)
      simp only [invocationBound, all, if_true]

end Pool

namespace Call

/-- What a call gives for declared parameters. -/
def given (parameters : List (String × ValueType)) (call : Call) :
    List (Option (Option Value)) :=
  parameters.map fun declared => call.parameters.lookup declared.1

/-- The arguments of the call are for declared parameters, and of their types. -/
structure Fits (parameters : List (String × ValueType)) (call : Call) : Prop where
  ascending : (OrderedMap.keys call.parameters).Pairwise (· < ·)
  declared : ∀ name ∈ OrderedMap.keys call.parameters, name ∈ parameters.map Prod.fst
  /-- Values are of the declared types. -/
  accepted : ∀ declared ∈ parameters, ∀ value,
    call.parameters.lookup declared.1 = some (some value) → declared.2.accepts value = true

variable {parameters : List (String × ValueType)}

/-- What a fitting call gives is one of the ways to give the declared parameters. -/
theorem Fits.given_mem_sections {call : Call} (fits : call.Fits parameters)
    (enumerable : ∀ declared ∈ parameters, declared.2.isEnumerable = true) :
    call.given parameters ∈ (parameters.map fun declared => declared.2.givens).sections := by
  rw [List.mem_sections, given, List.forall₂_map_left_iff, List.forall₂_map_right_iff,
    List.forall₂_same]
  intro declared member
  cases found : call.parameters.lookup declared.1 with
  | none => exact List.mem_cons_self
  | some argument =>
      cases argument with
      | none => exact List.mem_cons_of_mem _ List.mem_cons_self
      | some value =>
          have listed : value ∈ declared.2.values :=
            (ValueType.mem_values_iff (enumerable declared member) value).mpr
              (fits.accepted declared member value found)
          exact List.mem_cons_of_mem _ (List.mem_cons_of_mem _ (List.mem_map_of_mem listed))

/-- Calls that give the same for all declared parameters have the same arguments. -/
theorem Fits.parameters_eq {first second : Call} (left : first.Fits parameters)
    (right : second.Fits parameters) (same : first.given parameters = second.given parameters) :
    first.parameters = second.parameters := by
  apply OrderedMap.ext_of_lookup left.ascending right.ascending
  intro name
  by_cases isDeclared : name ∈ parameters.map Prod.fst
  · obtain ⟨declared, member, rfl⟩ := List.mem_map.mp isDeclared
    exact List.map_inj_left.mp same declared member
  · have absent : ∀ {call : Call}, call.Fits parameters → call.parameters.lookup name = none :=
      fun fits => OrderedMap.lookup_eq_none_iff.mpr fun member =>
        isDeclared (fits.declared _ member)
    rw [absent left, absent right]

end Call

/-- Arguments that are bound are of the declared types. -/
theorem CallableMachine.bindArguments_accepts {given : Parameters}
    {parameters : List (String × ValueType)} : ∀ {bound arguments : PropertyList},
      bindArguments given bound parameters = .ok arguments →
        ∀ declared ∈ parameters, ∀ value, given.lookup declared.1 = some (some value) →
          declared.2.accepts value = true := by
  induction parameters with
  | nil => exact fun _ _ impossible => nomatch impossible
  | cons first rest others =>
      intro bound arguments binds declared member value isGiven
      obtain ⟨name, type⟩ := first
      rw [bindArguments] at binds
      rcases List.mem_cons.mp member with rfl | later
      · simp only [isGiven] at binds
        split at binds
        · assumption
        · cases binds
      · split at binds
        · split at binds
          · exact others binds declared later value isGiven
          · cases binds
        · exact others binds declared later value isGiven

/-- A call that begins fits the parameters of its callee. -/
theorem Executable.fits_of_begin {executable begun : Executable} {call : Call}
    (ascending : (OrderedMap.keys call.parameters).Pairwise (· < ·))
    (begins : executable.begin call.parameters = .ok begun) :
    ∃ parameters, executable.frame.2 = some parameters ∧ call.Fits parameters := by
  cases executable with
  | scheduled running => cases begins
  | callable served =>
      obtain ⟨started, begins, _⟩ := Outcome.map_eq_ok.mp begins
      unfold CallableMachine.begin at begins
      split at begins
      · cases begins
      · rename_i known
        split at begins
        · cases begins
        · rename_i arguments binds
          refine ⟨served.parameters, rfl, ascending, fun name member => ?_,
            CallableMachine.bindArguments_accepts binds⟩
          have isKnown := List.find?_eq_none.mp known name member
          by_contra undeclared
          rw [← OrderedMap.lookup_eq_none_iff] at undeclared
          simp [OrderedMap.contains, undeclared] at isKnown

/-- An invocation that is opened is not open already. -/
theorem CallChain.nodup_of_add {chain extended : CallChain} {call : Call}
    (added : chain.add call = .ok extended)
    (distinct : (chain.calls.map fun call => (call.callee, call.parameters)).Nodup) :
    (extended.calls.map fun call => (call.callee, call.parameters)).Nodup := by
  rw [(add_eq_ok added).2, List.map_append, List.map_singleton]
  refine List.nodup_append.mpr ⟨distinct, List.nodup_singleton _, ?_⟩
  intro invoked member added' isAdded same
  obtain ⟨other, isOpen, rfl⟩ := List.mem_map.mp member
  rw [List.mem_singleton.mp isAdded] at same
  have repeated : (chain.calls.any fun other => other.sameInvocation call) = true := by
    obtain ⟨callee, parameters⟩ := Prod.mk.inj same
    apply List.any_eq_true.mpr ⟨other, isOpen, ?_⟩
    simp [Call.sameInvocation, callee, parameters]
  unfold add at added
  split at added
  · cases added
  · rw [if_pos (.inr repeated)] at added
    cases added

namespace Dispatch

/-- The open calls of an execution are different ways to call executables of the origin. -/
structure Accounted (origin : Pool) (state : Dispatch) : Prop where
  parameters : ∀ id, state.pool.parameters? id = origin.parameters? id
  distinct : (state.chain.calls.map fun call => (call.callee, call.parameters)).Nodup
  /-- The callee of every open call has accepted the arguments. -/
  fits : ∀ call ∈ state.chain.calls, ∃ parameters,
    origin.parameters? call.callee = some parameters ∧ call.Fits parameters

section Accounted

variable {origin : Pool} {state : Dispatch}

/-- **Open calls are no more than the invocations there are**, since no invocation is open twice. -/
theorem Accounted.length_le (accounted : Accounted origin state)
    (enumerable : origin.EnumerableParameters) :
    state.chain.calls.length ≤ origin.invocations.length := by
  -- What a call gives for the declared parameters tells it apart, and is one of the listed choices.
  let invocation (call : Call) :=
    (call.callee, call.given ((origin.parameters? call.callee).getD []))
  have distinct : (state.chain.calls.map invocation).Nodup := by
    apply List.Nodup.map_on _ (List.Nodup.of_map _ accounted.distinct)
    intro first isFirst second isSecond same
    obtain ⟨parameters, isParameters, left⟩ := accounted.fits first isFirst
    obtain ⟨parameters', isParameters', right⟩ := accounted.fits second isSecond
    obtain ⟨callee, given⟩ := Prod.mk.inj same
    rw [callee, isParameters'] at isParameters
    cases isParameters
    rw [callee, isParameters', Option.getD_some] at given
    apply List.inj_on_of_nodup_map accounted.distinct isFirst isSecond
    rw [callee, left.parameters_eq right given]
  have within : state.chain.calls.map invocation ⊆ origin.invocations := by
    intro invoked member
    obtain ⟨call, isOpen, rfl⟩ := List.mem_map.mp member
    obtain ⟨parameters, isParameters, fits⟩ := accounted.fits call isOpen
    obtain ⟨executable, found, isFrame⟩ := Option.bind_eq_some_iff.mp isParameters
    obtain ⟨entry, inside, isId, rfl⟩ := Pool.mem_of_get? found
    apply List.mem_flatMap.mpr ⟨entry, inside, ?_⟩
    cases isExecutable : entry.executable with
    | scheduled running => rw [isExecutable] at isFrame; cases isFrame
    | callable served =>
        rw [isExecutable] at isFrame
        cases isFrame
        have listed := fits.given_mem_sections (enumerable entry inside served isExecutable)
        simp only [PoolEntry.invocations, isExecutable, invocation, isParameters,
          Option.getD_some, isId]
        exact List.mem_map_of_mem listed
  simpa using distinct.length_le_of_subset within

/-- Executions open only calls that are accounted for. -/
theorem preserved_accounted (origin : Pool) : Preserved (Accounted origin)
    (fun call => (OrderedMap.keys call.parameters).Pairwise (· < ·)) where
  steps := by
    intro state executable stepped outcome accounted found made
    obtain ⟨frame, _⟩ := Executable.step_cases made
    refine ⟨⟨fun id => ?_, accounted.distinct, accounted.fits⟩, ?_⟩
    · exact (Pool.parameters?_set found frame id).trans (accounted.parameters id)
    · exact Executable.forall_issued made fun _ _ => OrderedMap.pairwise_keys_extend .nil
  begins := by
    intro state begun call accounted ascending began
    obtain ⟨chain, callee, started, opened, found, begins, rfl⟩ := beginCall_eq_ok began
    have parameters : ∀ id, (state.pool.set call.callee started).parameters? id =
        origin.parameters? id := fun id =>
      (Pool.parameters?_set found (Executable.begin_eq_ok begins).1 id).trans
        (accounted.parameters id)
    by_cases synchronous : call.method.isSynchronous = true
    · rw [if_pos synchronous] at opened
      obtain ⟨given, isFrame, fits⟩ := Executable.fits_of_begin ascending begins
      refine ⟨parameters, ?_, fun other member => ?_⟩
      · exact CallChain.nodup_of_add opened accounted.distinct
      · rw [(CallChain.add_eq_ok opened).2] at member
        rcases List.mem_append.mp member with earlier | here
        · exact accounted.fits other earlier
        · rw [List.mem_singleton.mp here, ← accounted.parameters, Pool.parameters?, found]
          exact ⟨given, isFrame, fits⟩
    · rw [if_neg synchronous] at opened
      cases opened
      exact ⟨parameters, accounted.distinct, accounted.fits⟩
  closes := fun accounted => ⟨accounted.parameters,
    ((List.dropLast_sublist _).map _).nodup accounted.distinct,
    fun call member => accounted.fits call (List.dropLast_subset _ member)⟩

end Accounted

/-- Dispatching calls ends if the executions of their callees do. -/
theorem exists_nestsBelow {origin : Pool} {depth : Nat}
    (inner : ∀ state, Accounted origin state →
      origin.invocations.length < depth + state.chain.calls.length →
        ∃ reached ≤ depth, Nests state reached (executeActive depth state)) (calls : List Call) :
    ∀ {state : Dispatch}, Accounted origin state →
      (∀ call ∈ calls, (OrderedMap.keys call.parameters).Pairwise (· < ·)) →
      origin.invocations.length < depth + 1 + state.chain.calls.length →
        ∃ reached ≤ depth, NestsBelow calls state reached
          (dispatchCalls (executeActive depth) calls state) := by
  induction calls with
  | nil => exact fun _ _ _ => ⟨0, Nat.zero_le _, .nil⟩
  | cons call rest others =>
      intro state accounted ascending enough
      have ascendingLater : ∀ later ∈ rest, (OrderedMap.keys later.parameters).Pairwise (· < ·) :=
        fun later member => ascending later (List.mem_cons_of_mem _ member)
      rw [dispatchCalls]
      cases began : state.beginCall call with
      | error fault => exact ⟨0, Nat.zero_le _, .refused began⟩
      | ok begun =>
          have accountedBegun := (preserved_accounted origin).begins accounted
            (ascending call List.mem_cons_self) began
          dsimp only
          by_cases synchronous : call.method.isSynchronous = true
          · rw [if_pos synchronous]
            have opened := (beginCall_synchronous synchronous began).1
            have longer : begun.chain.calls.length = state.chain.calls.length + 1 := by
              rw [(CallChain.add_eq_ok opened).2, List.length_append, List.length_singleton]
            obtain ⟨reached, bounded, nests⟩ := inner begun accountedBegun (by omega)
            have accountedAfter :=
              executeActive_preserves (preserved_accounted origin) depth begun accountedBegun
            cases ran : executeActive depth begun with
            | mk answer stepped =>
                rw [ran] at nests accountedAfter
                cases answer with
                | error fault => exact ⟨reached, bounded, .fails synchronous began nests⟩
                | ok transitioned =>
                    -- The callee has left the chain as it was, so as many calls are open as before.
                    obtain ⟨tree, steps⟩ := (executeActive_orderly depth).steps ran
                    have closes : stepped.closed.chain = state.chain := by
                      rw [closed, steps.chain_and_calls.1]
                      exact CallChain.pop_of_add opened
                    obtain ⟨deeper, boundedLater, nestsLater⟩ :=
                      others ((preserved_accounted origin).closes accountedAfter) ascendingLater
                        (by rw [closes]; exact enough)
                    exact ⟨max reached deeper, Nat.max_le.mpr ⟨bounded, boundedLater⟩,
                      .serves synchronous began nests nestsLater⟩
          · rw [if_neg synchronous]
            have asynchronous := Bool.eq_false_iff.mpr synchronous
            obtain ⟨reached, bounded, nests⟩ := others accountedBegun ascendingLater
              (by rw [(beginCall_asynchronous asynchronous began).1]; exact enough)
            exact ⟨reached, bounded, .begins asynchronous began nests⟩

/-- **Executions end** within a depth that leaves room for all invocations that are not open. -/
theorem exists_nests {origin : Pool} (enumerable : origin.EnumerableParameters)
    (depth : Nat) : ∀ state, Accounted origin state →
    origin.invocations.length < depth + state.chain.calls.length →
      ∃ reached ≤ depth, Nests state reached (executeActive depth state) := by
  induction depth with
  | zero =>
      -- Depth runs out only with more calls open than there are invocations.
      intro state accounted enough
      have bounded := accounted.length_le enumerable
      omega
  | succ depth deeper =>
      intro state accounted enough
      rw [executeActive_succ]
      cases made : state.ownStep with
      | error stopped => exact ⟨1, by omega, .stops made⟩
      | ok answer =>
          obtain ⟨outcome, stepped⟩ := answer
          obtain ⟨executable, after, found, steps, rfl⟩ := ownStep_eq_ok made
          obtain ⟨accountedAfter, ascending⟩ :=
            (preserved_accounted origin).steps accounted found steps
          obtain ⟨reached, bounded, nests⟩ := exists_nestsBelow deeper
            (dispatchOrder outcome.issued) accountedAfter
            (fun call member => ascending call (mem_dispatchOrder.mp member)) enough
          exact ⟨reached + 1, Nat.succ_le_succ bounded, .dispatches made nests⟩

end Dispatch

/-- **Nested executions are bounded.** Where the parameters of all callable machines have finite
domains, a timeslot that no call is open in is executed to its end, with success or a fault: with no
bound on the depth, there is one execution, it answers what `executeTimeslot` does, and no more
executions stand in each other than one and the ways to call a machine of the pool. -/
theorem executeTimeslot_nests_within (pool : Pool) (slot : Timeslot) (clock : Clock)
    (enumerable : ∀ entry ∈ pool.entries, ∀ served, entry.executable = .callable served →
      ∀ declared ∈ served.parameters, declared.2.isEnumerable = true)
    (unopened : slot.callChain.calls = []) :
    ∃ depth ended,
      Dispatch.Nests { pool, chain := slot.callChain, clock, calls := [] } depth ended ∧
      depth ≤ 1 + Count.sum (pool.entries.map fun entry =>
        match entry.executable with
        | .scheduled _ => 0
        | .callable served =>
            Count.product (served.parameters.map fun declared => declared.2.cardinality + 2)) ∧
      executeTimeslot pool slot clock =
        (ended.1.map fun transitioned => { transitioned, calls := ended.2.calls }, ended.2) ∧
      ∀ depth' ended',
        Dispatch.Nests { pool, chain := slot.callChain, clock, calls := [] } depth' ended' →
          depth' = depth ∧ ended' = ended := by
  have accounted : Dispatch.Accounted pool
      { pool, chain := slot.callChain, clock, calls := [] } := by
    refine ⟨fun _ => rfl, ?_, ?_⟩
    · simp [unopened]
    · simp [unopened]
  have enough : pool.invocations.length < pool.callDepthBound + slot.callChain.calls.length := by
    rw [Pool.callDepthBound_eq enumerable]
    omega
  obtain ⟨depth, bounded, nests⟩ := Dispatch.exists_nests enumerable _ _ accounted enough
  refine ⟨depth, _, nests, ?_, rfl, fun depth' ended' other => nests.unique other⟩
  rw [← Pool.length_invocations enumerable, ← Pool.callDepthBound_eq enumerable]
  exact bounded

namespace Echo

/-- Three of the four ways to call the echo are open when the execution fails. -/
theorem nests_within_five : ∃ depth ended,
    Dispatch.Nests
      { pool, chain := .new 0, clock := .new .empty 0, calls := [] } depth ended ∧
    depth ≤ 5 ∧ ended.1 = .error (.cyclicCall 0 1) ∧ ended.2.chain.calls.length = 3 := by
  obtain ⟨depth, ended, nests, bounded, answers, _⟩ :=
    executeTimeslot_nests_within pool (.new 0 0 1) (.new .empty 0)
      (by simp [pool, CallableMachine.new, ValueType.isEnumerable]) rfl
  have failed : (executeTimeslot pool (.new 0 0 1) (.new .empty 0)).1.map Execution.calls =
      .error (.cyclicCall 0 1) := by
    rfl
  have length : (executeTimeslot pool (.new 0 0 1) (.new .empty 0)).2.chain.calls.length = 3 := by
    rfl
  rw [answers] at failed length
  exact ⟨depth, ended, nests, bounded,
    Outcome.map_eq_error.mp (Outcome.map_eq_error.mp failed), length⟩

end Echo

end TimedKripke
