import TimedKripke.Proofs.Pool.Fingerprint
import TimedKripke.Proofs.Ringlet.CallOrder
import TimedKripke.Proofs.Ringlet.TimeAware

/-! # The participants of a ringlet

Nested steps replace the executable in control when they start, and the callees of the calls they
dispatch (`Dispatch.Steps.changesOnly`). A ringlet lists its calls, so it names everything that it
changes (`Ringlet.execute_changes_participants`).
-/

namespace TimedKripke

namespace Pool

/-- At most the executables of some ids were replaced. -/
structure ChangesOnly (ids : ExecutableId → Prop) (before after : Pool) : Prop where
  registrations : after.registrations = before.registrations
  /-- The other entries are as they were. -/
  others : ∀ (place : Nat) (entry : PoolEntry), before.entries[place]? = some entry →
    ¬ ids entry.id → after.entries[place]? = some entry

namespace ChangesOnly

variable {ids more : ExecutableId → Prop} {first second third : Pool}

theorem rfl {pool : Pool} : ChangesOnly ids pool pool :=
  ⟨Eq.refl _, fun _ _ found _ => found⟩

theorem trans (earlier : ChangesOnly ids first second) (later : ChangesOnly ids second third) :
    ChangesOnly ids first third := by
  refine ⟨later.registrations.trans earlier.registrations, fun place entry found other => ?_⟩
  exact later.others place entry (earlier.others place entry found other) other

theorem mono (changes : ChangesOnly ids first second) (within : ∀ id, ids id → more id) :
    ChangesOnly more first second :=
  ⟨changes.registrations, fun place entry found other =>
    changes.others place entry found fun isId => other (within _ isId)⟩

/-- Replacing an executable changes no other. -/
theorem set {pool : Pool} {id : ExecutableId} (isId : ids id) (executable : Executable) :
    ChangesOnly ids pool (pool.set id executable) := by
  refine ⟨registrations_set .., fun place entry found other => ?_⟩
  have different : entry.id ≠ id := fun same => other (same ▸ isId)
  rw [Pool.set, List.getElem?_map, found, Option.map_some, if_neg different]

end ChangesOnly

end Pool

namespace Dispatch

variable {state begun final : Dispatch} {call : Call} {calls : List Call}

/-- A call that begins changes its callee only. -/
theorem changesOnly_of_beginCall (began : state.beginCall call = .ok begun) :
    Pool.ChangesOnly (· = call.callee) state.pool begun.pool := by
  obtain ⟨_, _, started, _, _, _, rfl⟩ := beginCall_eq_ok began
  apply Pool.ChangesOnly.set
  rfl

/-- Asynchronous calls that begin change their callees only. -/
theorem Begins.changesOnly (begins : Begins calls state final) :
    Pool.ChangesOnly (· ∈ calls.map Call.callee) state.pool final.pool := by
  induction begins with
  | nil => exact .rfl
  | cons began _ others =>
      refine .trans ((changesOnly_of_beginCall began).mono ?_) (others.mono ?_)
      · rintro _ rfl
        exact List.mem_cons_self
      · exact fun _ => List.mem_cons_of_mem _

mutual

/-- **Nested steps** change the executable in control and the callees of their calls. -/
theorem Steps.changesOnly {state final : Dispatch} {tree : StepTree} :
    Steps state tree final → Pool.ChangesOnly
      (fun id => id = state.chain.executable ∨ id ∈ tree.calls.map Call.callee)
      state.pool final.pool
  | .step _ _ serves begins => by
      refine .trans (.set (.inl rfl) _) (.trans (serves.changesOnly.mono ?_)
        (begins.changesOnly.mono ?_))
      · intro id isServed
        rw [StepTree.calls, List.map_append]
        exact .inr (List.mem_append_left _ isServed)
      · intro id hasBegun
        rw [StepTree.calls, List.map_append]
        exact .inr (List.mem_append_right _ hasBegun)

/-- **Calls that are served** change the callees of these calls and of those below them. -/
theorem Serves.changesOnly {calls : List Call} {state final : Dispatch} {trees : List StepTree} :
    Serves calls state trees final → Pool.ChangesOnly
      (· ∈ (StepTree.served calls trees).map Call.callee) state.pool final.pool
  | .nil => .rfl
  | .cons began control steps others => by
      -- The callee that begins is in control of the nested steps.
      refine .trans ((changesOnly_of_beginCall began).mono ?_)
        (.trans (steps.changesOnly.mono ?_) (others.changesOnly.mono ?_))
      · rintro _ rfl
        exact List.mem_cons_self
      · rintro id (rfl | isNested)
        · rw [control]
          exact List.mem_cons_self
        · rw [StepTree.served, List.cons_append, List.map_cons, List.map_append]
          exact List.mem_cons_of_mem _ (List.mem_append_left _ isNested)
      · intro id isLater
        rw [StepTree.served, List.cons_append, List.map_cons, List.map_append]
        exact List.mem_cons_of_mem _ (List.mem_append_right _ isLater)

end

end Dispatch

namespace Ringlet

/-- The callees of a ringlet are those of its calls. -/
theorem mem_callees {ringlet : Ringlet} {id : ExecutableId} :
    id ∈ ringlet.callees ↔ id ∈ ringlet.calls.map Call.callee := by
  rw [callees, OrderedSet.ofList, ← OrderedSet.union, OrderedSet.mem_union]
  simp only [List.not_mem_nil, false_or]

/-- **A ringlet changes only its participants.** The same is registered before and after in the same
order, and an executable that is neither in control of the timeslot nor called is left as it was,
however deep the calls nest. -/
theorem execute_changes_participants {pool : Pool} {slot : Timeslot} {timing : ScheduleTiming}
    {elapsed : Time} {ringlet : Ringlet}
    (executed : execute pool slot timing elapsed = .ok ringlet) :
    ringlet.after.entries.map PoolEntry.registration =
        pool.entries.map PoolEntry.registration ∧
      ∀ (place : Nat) (entry : PoolEntry), pool.entries[place]? = some entry →
        entry.id ≠ slot.callChain.executable → entry.id ∉ ringlet.callees →
          ringlet.after.entries[place]? = some entry := by
  have named : ∀ id, id ∈ ringlet.calls.map Call.callee → id ∈ ringlet.callees :=
    fun _ => mem_callees.mpr
  obtain ⟨_, execution, final, _, _, ran, _, rfl⟩ := execute_eq_ok executed
  obtain ⟨answer, isFinal⟩ := Prod.mk.inj ran
  obtain ⟨transitioned, succeeded, rfl⟩ := Outcome.map_eq_ok.mp answer
  obtain ⟨tree, steps⟩ :=
    (Dispatch.executeActive_orderly pool.callDepthBound).steps (Prod.ext succeeded isFinal)
  have changes := steps.changesOnly
  refine ⟨changes.registrations, fun place entry found other uncalled => ?_⟩
  apply changes.others place entry found
  rintro (inControl | isCalled)
  · exact other inControl
  · apply uncalled
    apply named
    rw [isFinal, steps.chain_and_calls.2, List.nil_append]
    exact isCalled

end Ringlet

namespace Office

/-- Someone who has nothing to do with the others. -/
def visitor : PoolEntry :=
  { registration := { id := 4, name := "Visitor", dependencies := [] }
    executable := .scheduled (machine "Visitor" [(.asynchronous, "Clerk")]).start }

/-- A visitor of the office whom nobody calls is as before. -/
theorem visitor_unchanged : ∃ ringlet,
    Ringlet.execute { entries := pool.entries ++ [visitor] } (.new 0 0 1) .empty 0 = .ok ringlet ∧
      ringlet.callees = [1, 2, 3] ∧ ringlet.after.entries[4]? = some visitor := by
  have called : (Ringlet.execute { entries := pool.entries ++ [visitor] } (.new 0 0 1) .empty 0).map
      Ringlet.callees = .ok [1, 2, 3] := by
    rfl
  obtain ⟨ringlet, executed, isCalled⟩ := Outcome.map_eq_ok.mp called
  refine ⟨ringlet, executed, isCalled, ?_⟩
  apply (Ringlet.execute_changes_participants executed).2 4 visitor rfl
  · decide
  · rw [isCalled]
    decide

end Office

end TimedKripke
