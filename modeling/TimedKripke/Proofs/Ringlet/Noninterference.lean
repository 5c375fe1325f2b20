import TimedKripke.Proofs.Ringlet.CallOrder

/-! # Scheduled machines do not interfere

An execution reads the executable in control, the callable machines, and of the others only what
never changes: their registrations, and their names when one of them is called by mistake. So pools
that differ only in other scheduled machines (`Pool.SameFor`) are executed in the same way, and
differ only in those afterwards (`Dispatch.executeActive_sameFor`).
-/

namespace TimedKripke

/-- Entries with one registration and machine whose executables may differ only if they are
scheduled and not in control. -/
structure PoolEntry.SameFor (control : ExecutableId) (left right : PoolEntry) : Prop where
  registration : right.registration = left.registration
  machine : right.executable.running.machine = left.executable.running.machine
  active : left.id = control → right.executable = left.executable
  /-- What can be called is the same. -/
  called : left.executable.isCallable = true ∨ right.executable.isCallable = true →
    right.executable = left.executable

namespace PoolEntry.SameFor

variable {control : ExecutableId} {left right : PoolEntry}

/-- Entries that are the same but for machines not in control have the same id. -/
theorem id_eq (same : left.SameFor control right) : right.id = left.id := by
  rw [PoolEntry.id, PoolEntry.id, same.registration]

/-- The executables are the same, or both are scheduled and run the same machine. -/
theorem executable_cases (same : left.SameFor control right) :
    right.executable = left.executable ∨ ∃ running running',
      left.executable = .scheduled running ∧ right.executable = .scheduled running' ∧
        running'.machine = running.machine := by
  by_cases called : left.executable.isCallable = true ∨ right.executable.isCallable = true
  · exact .inl (same.called called)
  · have machine := same.machine
    cases isLeft : left.executable with
    | callable served => exact absurd (.inl (by rw [isLeft]; rfl)) called
    | scheduled running =>
        cases isRight : right.executable with
        | callable served => exact absurd (.inr (by rw [isRight]; rfl)) called
        | scheduled running' =>
            rw [isLeft, isRight] at machine
            exact .inr ⟨running, running', rfl, rfl, machine⟩

/-- Entries that are the same but for machines not in control have the same frame. -/
theorem frame_eq (same : left.SameFor control right) : right.frame = left.frame := by
  unfold PoolEntry.frame
  rw [same.registration]
  rcases same.executable_cases with equal | ⟨running, running', isLeft, isRight, machine⟩
  · rw [equal]
  · rw [isLeft, isRight, Executable.frame, Executable.frame, machine]

/-- Executables that are scheduled show no result. -/
theorem result?_eq (same : left.SameFor control right) :
    right.executable.result? = left.executable.result? := by
  rcases same.executable_cases with equal | ⟨running, running', isLeft, isRight, _⟩
  · rw [equal]
  · rw [isLeft, isRight, Executable.result?, Executable.result?]

/-- Replacing one executable in both entries leaves them the same but for machines not in control.
-/
theorem set (same : left.SameFor control right) (id : ExecutableId) (executable : Executable) :
    SameFor control (if left.id = id then { left with executable } else left)
      (if right.id = id then { right with executable } else right) := by
  rw [same.id_eq]
  by_cases here : left.id = id
  · rw [if_pos here, if_pos here]
    exact ⟨same.registration, rfl, fun _ => rfl, fun _ => rfl⟩
  · rw [if_neg here, if_neg here]
    exact same

end PoolEntry.SameFor

namespace Pool

/-- The pools are the same but for scheduled machines that are not in control. -/
def SameFor (control : ExecutableId) (left right : Pool) : Prop :=
  List.Forall₂ (PoolEntry.SameFor control) left.entries right.entries

namespace SameFor

variable {control : ExecutableId} {left right : Pool} (same : left.SameFor control right)
include same

/-- What can be seen of single entries that are the same is seen alike in both pools. -/
theorem map_eq {α : Type} {view : PoolEntry → α}
    (viewed : ∀ {entry other : PoolEntry}, entry.SameFor control other → view other = view entry) :
    right.entries.map view = left.entries.map view := by
  have entries : ∀ {lefts rights : List PoolEntry},
      List.Forall₂ (PoolEntry.SameFor control) lefts rights → rights.map view = lefts.map view := by
    intro lefts rights related
    induction related with
    | nil => rfl
    | cons here _ others => rw [List.map_cons, List.map_cons, viewed here, others]
  exact entries same

/-- Pools that are the same but for machines not in control have the same frame. -/
theorem frame_eq : right.frame = left.frame :=
  same.map_eq PoolEntry.SameFor.frame_eq

/-- Executables find out the same about each other. -/
theorem directory_eq : right.directory = left.directory := by
  have names := names_directory_eq_of_frame same.frame_eq
  have shown : (right.entries.map fun entry =>
      entry.executable.result?.map fun value => (entry.id, value)) =
      left.entries.map fun entry =>
        entry.executable.result?.map fun value => (entry.id, value) :=
    same.map_eq fun entry => by rw [entry.result?_eq, entry.id_eq]
  have results : right.directory.results = left.directory.results := by
    have listed := congrArg (List.filterMap id) shown
    rw [List.filterMap_map, List.filterMap_map] at listed
    exact congrArg OrderedMap.ofList listed
  exact congrArg₂ Directory.mk names results

/-- Under an id both pools have nothing, or entries that are the same but for machines not in
control. -/
theorem entry?_cases (id : ExecutableId) :
    left.entry? id = none ∧ right.entry? id = none ∨ ∃ entry other,
      left.entry? id = some entry ∧ right.entry? id = some other ∧
        entry.SameFor control other := by
  unfold entry?
  have entries : ∀ {lefts rights : List PoolEntry},
      List.Forall₂ (PoolEntry.SameFor control) lefts rights →
        (lefts.find? (fun entry => entry.id == id) = none ∧
          rights.find? (fun entry => entry.id == id) = none) ∨
        ∃ entry other, lefts.find? (fun entry => entry.id == id) = some entry ∧
          rights.find? (fun entry => entry.id == id) = some other ∧
            entry.SameFor control other := by
    intro lefts rights related
    induction related with
    | nil => exact .inl ⟨rfl, rfl⟩
    | @cons entry other _ _ here _ others =>
        rw [List.find?_cons, List.find?_cons, here.id_eq]
        cases entry.id == id with
        | true => exact .inr ⟨entry, other, rfl, rfl, here⟩
        | false => exact others
  exact entries same

/-- The executables of an id are the same, or both are scheduled and not in control. -/
theorem get?_cases (id : ExecutableId) :
    right.get? id = left.get? id ∨ ∃ running running', id ≠ control ∧
      left.get? id = some (.scheduled running) ∧ right.get? id = some (.scheduled running') ∧
        running'.machine = running.machine := by
  unfold get?
  rcases same.entry?_cases id with ⟨none, none'⟩ | ⟨entry, other, found, found', here⟩
  · rw [none, none']
    exact .inl rfl
  · rw [found, found', Option.map_some, Option.map_some]
    by_cases equal : other.executable = entry.executable
    · exact .inl (congrArg some equal)
    · obtain ⟨running, running', isLeft, isRight, machine⟩ :=
        here.executable_cases.resolve_left equal
      obtain ⟨_, isId⟩ := mem_of_entry? found
      refine .inr ⟨running, running', fun isControl => ?_, ?_, ?_, machine⟩
      · exact equal (here.active (isId.trans isControl))
      · rw [isLeft]
      · rw [isRight]

/-- The executable in control is the same one in both pools. -/
theorem get?_control : right.get? control = left.get? control := by
  rcases same.get?_cases control with equal | ⟨_, _, other, _⟩
  · exact equal
  · exact absurd rfl other

/-- Replacing one executable in both pools leaves them the same but for machines not in control. -/
theorem set (id : ExecutableId) (executable : Executable) :
    SameFor control (left.set id executable) (right.set id executable) := by
  apply List.forall₂_map_left_iff.mpr
  apply List.forall₂_map_right_iff.mpr
  exact List.Forall₂.imp (fun _ _ entry => entry.set id executable) same

end SameFor

end Pool

namespace Dispatch

/-- The states are the same but for scheduled machines that are not in control. -/
structure SameFor (control : ExecutableId) (left right : Dispatch) : Prop where
  pool : left.pool.SameFor control right.pool
  chain : right.chain = left.chain
  clock : right.clock = left.clock
  calls : right.calls = left.calls

variable {control : ExecutableId} {left right : Dispatch}

/-- Closing a call leaves both states the same but for machines not in control. -/
theorem SameFor.closed (same : left.SameFor control right) :
    left.closed.SameFor control right.closed :=
  ⟨same.pool, congrArg CallChain.pop same.chain, same.clock, same.calls⟩

/-- **A call** begins on both sides with the same callee, or is refused for the same reason: of a
machine that cannot be called, only the name is told. -/
theorem SameFor.beginCall (same : left.SameFor control right) (call : Call) :
    (∃ fault, left.beginCall call = .error fault ∧ right.beginCall call = .error fault) ∨
    ∃ begun begun', left.beginCall call = .ok begun ∧ right.beginCall call = .ok begun' ∧
      begun.SameFor control begun' ∧
      begun'.pool.get? call.callee = begun.pool.get? call.callee := by
  unfold Dispatch.beginCall
  rw [same.chain]
  cases (if call.method.isSynchronous then left.chain.add call else .ok left.chain) with
  | error fault => exact .inl ⟨fault, rfl, rfl⟩
  | ok chain =>
      dsimp only
      unfold Pool.get
      rcases same.pool.get?_cases call.callee with
        equal | ⟨running, running', _, found, found', machine⟩
      · rw [equal]
        cases found : left.pool.get? call.callee with
        | none => exact .inl ⟨_, rfl, rfl⟩
        | some callee =>
            dsimp only
            cases callee.begin call.parameters with
            | error fault => exact .inl ⟨fault, rfl, rfl⟩
            | ok started =>
                refine .inr ⟨_, _, rfl, rfl, ⟨same.pool.set _ _, rfl, same.clock, ?_⟩, ?_⟩
                · exact congrArg (· ++ [call]) same.calls
                · rw [Pool.get?_set, Pool.get?_set, equal]
      · rw [found, found']
        refine .inl ⟨.notCallable running.name, rfl, ?_⟩
        simp only [Executable.begin, Instance.name, machine]

/-- Executions on both sides answer the same and leave the same. -/
def GoesWith {α : Type} (control : ExecutableId) (left right : Except Fault α × Dispatch) : Prop :=
  right.1 = left.1 ∧ left.2.SameFor control right.2

/-- Dispatching calls answers the same on both sides if nested execution does: the callee is a
called machine, so it is the same one. -/
theorem dispatchCalls_sameFor {nested : Dispatch → Except Fault Bool × Dispatch}
    (inner : ∀ {left right : Dispatch}, left.SameFor control right →
      right.pool.get? left.chain.executable = left.pool.get? left.chain.executable →
        GoesWith control (nested left) (nested right)) (calls : List Call) :
    ∀ {left right : Dispatch}, left.SameFor control right →
      GoesWith control (dispatchCalls nested calls left) (dispatchCalls nested calls right) := by
  induction calls with
  | nil => exact fun same => ⟨rfl, same⟩
  | cons call rest others =>
      intro left right same
      rw [dispatchCalls, dispatchCalls]
      rcases same.beginCall call with
        ⟨fault, failed, failed'⟩ | ⟨begun, begun', began, began', sameBegun, sameCallee⟩
      · rw [failed, failed']
        exact ⟨rfl, same⟩
      · rw [began, began']
        dsimp only
        by_cases synchronous : call.method.isSynchronous = true
        · rw [if_pos synchronous, if_pos synchronous]
          -- The callee is in control now, and it is the same on both sides.
          have control := CallChain.executable_of_add (beginCall_synchronous synchronous began).1
          obtain ⟨answers, leaves⟩ := inner sameBegun (by rw [control]; exact sameCallee)
          cases ran : nested begun with
          | mk answer stepped =>
              cases ran' : nested begun' with
              | mk answer' stepped' =>
                  rw [ran, ran'] at answers leaves
                  dsimp only at answers
                  subst answers
                  cases answer' with
                  | error fault => exact ⟨rfl, leaves⟩
                  | ok transitioned => exact others leaves.closed
        · rw [if_neg synchronous, if_neg synchronous]
          exact others sameBegun

/-- The step of the executable in control goes the same way if it is the same on both sides. -/
theorem SameFor.ownStep (same : left.SameFor control right)
    (agrees : right.pool.get? left.chain.executable = left.pool.get? left.chain.executable) :
    (∃ fault stopped stopped', left.ownStep = .error (fault, stopped) ∧
      right.ownStep = .error (fault, stopped') ∧ stopped.SameFor control stopped') ∨
    ∃ outcome stepped stepped', left.ownStep = .ok (outcome, stepped) ∧
      right.ownStep = .ok (outcome, stepped') ∧ stepped.SameFor control stepped' := by
  have after : ∀ outcome executable, (left.afterStep outcome executable).SameFor control
      (right.afterStep outcome executable) := by
    intro outcome executable
    refine ⟨?_, same.chain, rfl, same.calls⟩
    rw [afterStep, afterStep, same.chain]
    exact same.pool.set _ _
  unfold Dispatch.ownStep Pool.get
  rw [same.chain, agrees, same.pool.directory_eq, same.clock]
  cases left.pool.get? left.chain.executable with
  | none => exact .inl ⟨_, _, _, rfl, rfl, same⟩
  | some executable =>
      dsimp only
      cases executable.step left.chain.executable left.pool.directory left.clock with
      | error fault => exact .inl ⟨_, _, _, rfl, rfl, same⟩
      | ok answer =>
          obtain ⟨outcome, stepped⟩ := answer
          dsimp only
          cases outcome.unresolved with
          | cons callee others => exact .inl ⟨_, _, _, rfl, rfl, after outcome stepped⟩
          | nil => exact .inr ⟨_, _, _, rfl, rfl, after outcome stepped⟩

/-- **Executions do not depend on other scheduled machines**, whatever is called below them. -/
theorem executeActive_sameFor (depth : Nat) : ∀ {left right : Dispatch},
    left.SameFor control right →
      right.pool.get? left.chain.executable = left.pool.get? left.chain.executable →
        GoesWith control (executeActive depth left) (executeActive depth right) := by
  induction depth with
  | zero =>
      intro left right same _
      rw [executeActive, executeActive, same.chain]
      exact ⟨rfl, same⟩
  | succ depth deeper =>
      intro left right same agrees
      rw [executeActive_succ, executeActive_succ]
      rcases same.ownStep agrees with ⟨fault, stopped, stopped', failed, failed', sameStopped⟩ |
        ⟨outcome, stepped, stepped', made, made', sameStepped⟩
      · rw [failed, failed']
        exact ⟨rfl, sameStopped⟩
      · rw [made, made']
        obtain ⟨answers, leaves⟩ :=
          dispatchCalls_sameFor deeper (dispatchOrder outcome.issued) sameStepped
        exact ⟨congrArg (Except.map _) answers, leaves⟩

end Dispatch

/-- **Other scheduled machines do not influence an execution.** Pools with the same registrations
and machines that agree on the executable in control and on all callable machines are executed in
the same way, at every time: with the same fault, or with the same flag and calls, asking about the
same thresholds, and what is left agrees as the pools did. -/
theorem executeTimeslot_ignores_scheduled {pool other : Pool} (slot : Timeslot)
    (same : List.Forall₂ (PoolEntry.SameFor slot.callChain.executable) pool.entries other.entries)
    (clock : Clock) :
    (executeTimeslot other slot clock).1 = (executeTimeslot pool slot clock).1 ∧
      (executeTimeslot other slot clock).2.clock.queried =
        (executeTimeslot pool slot clock).2.clock.queried ∧
      List.Forall₂ (PoolEntry.SameFor slot.callChain.executable)
        (executeTimeslot pool slot clock).2.pool.entries
        (executeTimeslot other slot clock).2.pool.entries := by
  have samePool : pool.SameFor slot.callChain.executable other := same
  have begins : Dispatch.SameFor slot.callChain.executable
      { pool, chain := slot.callChain, clock, calls := [] }
      { pool := other, chain := slot.callChain, clock, calls := [] } :=
    ⟨samePool, rfl, rfl, rfl⟩
  obtain ⟨answers, leaves⟩ :=
    Dispatch.executeActive_sameFor pool.callDepthBound begins samePool.get?_control
  unfold executeTimeslot
  rw [Pool.callDepthBound_eq_of_frame samePool.frame_eq]
  refine ⟨?_, congrArg Clock.queried leaves.clock, leaves.pool⟩
  dsimp only
  rw [answers, leaves.calls]

namespace Office

/-- The office with someone else in the house, who has started to work or not. -/
def housing (entryPending : Bool) : Pool :=
  { entries := pool.entries ++ [
      { registration := { id := 4, name := "Neighbour", dependencies := [] }
        executable := .scheduled { (machine "Neighbour" []).start with entryPending } }] }

/-- The office answers the same whether the other one in the house has started to work or not. -/
theorem neighbour_ignored :
    (housing true).same (housing false) = false ∧
      (executeTimeslot (housing true) (.new 0 0 1) (.new .empty 0)).1.map Execution.calls =
        .ok calls ∧
      (executeTimeslot (housing false) (.new 0 0 1) (.new .empty 0)).1 =
        (executeTimeslot (housing true) (.new 0 0 1) (.new .empty 0)).1 := by
  have same : List.Forall₂ (PoolEntry.SameFor 0) (housing true).entries
      (housing false).entries := by
    apply List.rel_append
    · exact List.forall₂_same.mpr fun entry _ => ⟨rfl, rfl, fun _ => rfl, fun _ => rfl⟩
    · refine .cons ⟨rfl, rfl, ?_, ?_⟩ .nil
      · intro isControl
        cases isControl
      · rintro (isCallable | isCallable)
        · cases isCallable
        · cases isCallable
  refine ⟨by decide, by rfl, ?_⟩
  exact (executeTimeslot_ignores_scheduled (.new 0 0 1) same (.new .empty 0)).1

end Office

end TimedKripke
