import TimedKripke.Proofs.Verification.Exploration
import TimedKripke.Proofs.Verification.Termination

/-! # Closing cycles loses no behaviour

A verification goes on from the end of a cycle only if it has not seen the properties of that
end before. The properties show the pool, the pool shows all that its machines will do
(`Pool.Descends.eq_of_snapshot`), and whatever else differs between two cycles with one end
does not matter to the next (`ScheduleVariation.Closes.alike`). So an exploration that never
closes a cycle finds nothing but paths in the store
(`KripkeStructure.traced_of_verify`).
-/

namespace TimedKripke

/-- Cycles that follow one another from a given job on, none of which is ever closed. Where
the end of a cycle is stored does not matter. -/
inductive Unpruned (layout : Layout) : Job → List ScheduleVariation → Prop
  | nil (job : Job) : Unpruned layout job []
  | cons {job : Job} {variations rest : List ScheduleVariation} {variation : ScheduleVariation}
      (expanded : job.expand layout = .ok variations) (member : variation ∈ variations)
      (state : StateId) (later : Unpruned layout (variation.successor state) rest) :
      Unpruned layout job (variation :: rest)

section Reached

variable {layout : Layout} {first job : Job} {origin : Pool}

/-- The threads of a cycle's end are those of the cycle's start in order. -/
theorem ScheduleVariation.Closes.ordered {variation : ScheduleVariation}
    (closes : variation.Closes origin layout job) :
    (variation.threads.map fun thread => thread.ordered.uncounted) =
      job.threads.map fun thread => thread.ordered.uncounted := by
  have commutes : ∀ threads : List ScheduleThread,
      (threads.map fun thread => thread.ordered.uncounted) =
        (threads.map ScheduleThread.uncounted).map ScheduleThread.ordered := by
    intro threads
    rw [List.map_map]
    exact List.map_congr_left fun thread _ => thread.ordered_uncounted.symm
  rw [commutes, closes.threads, List.map_map]
  refine List.map_congr_left fun thread _ => ?_
  rw [Function.comp_apply, ScheduleThread.ordered_uncounted, ScheduleThread.ordered_ordered]

/-- A reached job keeps the frame of the first pool and the order of the first threads. -/
theorem Job.Reached.kept (descends : Pool.Descends origin first.pool)
    (reached : Job.Reached layout first job) : Pool.Descends origin job.pool ∧
      (job.threads.map fun thread => thread.ordered.uncounted) =
        first.threads.map fun thread => thread.ordered.uncounted := by
  induction reached with
  | first => exact ⟨descends, rfl⟩
  | next _ expanded member _ kept =>
      obtain ⟨chosen, follows, made⟩ := Job.mem_expand expanded member
      have closes := Job.closes_of_variation kept.1 follows made
      exact ⟨closes.pool, closes.ordered.trans kept.2⟩

/-- The variations of every job that is reached close their cycle, and go on with the threads that
the first job had, put in order and counted anew. -/
theorem Job.Reached.closes (descends : Pool.Descends origin first.pool)
    (reached : Job.Reached layout first job) {variations : List ScheduleVariation}
    (expanded : job.expand layout = .ok variations) {variation : ScheduleVariation}
    (member : variation ∈ variations) : variation.Closes origin layout job ∧
      variation.threads.map ScheduleThread.uncounted =
        first.threads.map fun thread => thread.ordered.uncounted := by
  obtain ⟨chosen, follows, made⟩ := Job.mem_expand expanded member
  have kept := reached.kept descends
  have closes := Job.closes_of_variation kept.1 follows made
  exact ⟨closes, closes.threads.trans kept.2⟩

/-- Reached jobs have the threads of the first, but for counts. -/
theorem Job.Reached.threads (descends : Pool.Descends origin first.pool)
    (ordered : ∀ thread ∈ first.threads, thread.ordered = thread)
    (reached : Job.Reached layout first job) :
    job.threads.map ScheduleThread.uncounted = first.threads.map ScheduleThread.uncounted := by
  cases reached with
  | first => rfl
  | next reached expanded member state =>
      have threads := (reached.closes descends expanded member).2
      refine threads.trans (List.map_congr_left fun thread isThread => ?_)
      rw [ordered thread isThread]

end Reached

/-- The ends of timeslots do not depend on their counts. -/
theorem ScheduleThread.ends_uncounted (threads : List ScheduleThread) :
    ((threads.map uncounted).flatMap fun thread => thread.timeslots.map Timeslot.endTime) =
      threads.flatMap fun thread => thread.timeslots.map Timeslot.endTime := by
  rw [List.flatMap_map]
  refine List.flatMap_congr fun thread _ => ?_
  simp only [timeslots, uncounted, List.flatMap_map, List.map_flatMap]
  refine List.flatMap_congr fun part _ => ?_
  rw [SnapshotSection.uncounted, List.map_map]
  rfl

/-- **Ends that look the same go on alike**: variations with the same threads that end with the same
properties are continued by jobs that are alike. -/
theorem ScheduleVariation.Closes.alike {origin : Pool} {layout : Layout} {job job' : Job}
    {first second : ScheduleVariation} (distinct : origin.names.Nodup)
    (left : first.Closes origin layout job) (right : second.Closes origin layout job')
    (threads : first.threads.map ScheduleThread.uncounted =
      second.threads.map ScheduleThread.uncounted)
    {properties : PropertyList} (ends : Verify.Ends first properties)
    (ends' : Verify.Ends second properties) (state state' : StateId) :
    (first.successor state).Alike (second.successor state') := by
  have pool : first.pool = second.pool := by
    obtain ⟨last, counter, slot, isLast, shows⟩ := left.ended
    obtain ⟨last', counter', slot', isLast', shows'⟩ := right.ended
    obtain ⟨node, isNode, rfl⟩ := ends
    obtain ⟨node', isNode', same⟩ := ends'
    cases isLast.symm.trans isNode
    cases isLast'.symm.trans isNode'
    rw [shows, shows'] at same
    have snapshots : second.pool.snapshot = first.pool.snapshot :=
      (Prod.mk.inj (List.cons.inj same).1).2
    exact left.pool.eq_of_snapshot right.pool distinct snapshots.symm
  have ended : first.lastSlot.endTime = second.lastSlot.endTime := by
    have latest := left.latest
    rw [← ScheduleThread.ends_uncounted, threads, ScheduleThread.ends_uncounted] at latest
    obtain ⟨member, greatest⟩ := latest.2 _ rfl
    obtain ⟨member', greatest'⟩ := right.latest.2 _ rfl
    exact UInt64.le_antisymm (greatest' _ member) (greatest _ member')
  exact ⟨pool, threads, congrArg some ended, rfl⟩

/-- A trace can be continued from the state where it ends. -/
theorem KripkeStructure.Traced.append {kripke : KripkeStructure} (wellFormed : kripke.WellFormed)
    {rest : List Node} {last : Node} {id : StateId} {state : KripkeState}
    (found : kripke.states[id]? = some state) (same : state.properties = last.properties)
    (later : kripke.Traced (some id) rest) {nodes : List Node} : ∀ {previous : Option StateId},
    nodes.getLast? = some last → kripke.Traced previous nodes →
      kripke.Traced previous (nodes ++ rest) := by
  induction nodes with
  | nil => exact fun impossible => nomatch impossible
  | cons node more others =>
      rintro previous ends ⟨place, holds, traced⟩
      cases more with
      | nil =>
          cases ends
          obtain ⟨stored, isStored, properties, _⟩ := holds.stored
          cases wellFormed.position_unique isStored found (properties.trans same.symm)
          exact ⟨id, holds, later⟩
      | cons second more => exact ⟨place, holds, others ends traced⟩

section Closure

variable {ν : Type} {layout : Layout} {first : Job} {origin : Pool} {all : List Job}
  {run : Run ν KripkeStructure}

/-- **Cycles that follow one another are traced**, from the state that any explored job alike
to theirs goes on from. -/
theorem Explored.traces (explored : Explored layout first all [] run) (finished : run.queue = [])
    (descends : Pool.Descends origin first.pool) (distinct : origin.names.Nodup)
    {chain : List ScheduleVariation} : ∀ {job job' : Job}, Unpruned layout job chain → job' ∈ all →
      job.Alike job' → run.store.Traced (job'.predecessor.map Predecessor.state)
        (chain.flatMap ScheduleVariation.nodes) := by
  have known : ∀ {next}, next ∈ all ++ [] ++ run.queue → next ∈ all := by
    intro next member
    simpa [finished] using member
  have reached : ∀ next ∈ all, Job.Reached layout first next := fun next member =>
    explored.reached next (by simp [member])
  induction chain with
  | nil => exact fun _ _ _ => trivial
  | cons variation rest others =>
      intro job job' unpruned isKnown alike
      rcases unpruned with _ | ⟨expanded, member, state, later⟩
      obtain ⟨variations', expanded', each⟩ := explored.traced job' isKnown
      obtain ⟨own, isOwn, twins⟩ := alike.expand_eq_ok expanded'
      cases expanded.symm.trans isOwn
      obtain ⟨twin, isTwin, sameTwin⟩ := twins variation member
      obtain ⟨traced, seen⟩ := each twin isTwin
      obtain ⟨closes, threads⟩ := (reached job' isKnown).closes descends expanded' isTwin
      obtain ⟨last, _, _, isLast, _⟩ := closes.ended
      have ends : Verify.Ends twin last.properties := ⟨last, isLast, rfl⟩
      obtain ⟨next, isNext, parent, siblings, isReached, expandedParent, sibling, isSibling, ends',
        id, rfl, stored, found, same⟩ := explored.resumed _ (seen _ ends)
      obtain ⟨closes', threads'⟩ := isReached.closes descends expandedParent isSibling
      have nodes : variation.nodes = twin.nodes := by
        simpa [ScheduleVariation.uncounted] using congrArg ScheduleVariation.nodes sameTwin
      have goesOn := closes.alike distinct closes' (threads.trans threads'.symm) ends ends' state id
      have laterTraced := others later (known isNext)
        ((ScheduleVariation.alike_of_uncounted sameTwin state state).trans goesOn)
      rw [List.flatMap_cons, nodes]
      exact .append explored.wellFormed found same laterTraced isLast traced

end Closure

/-- The structure holds the nodes as a path from one of its initial states. -/
def KripkeStructure.HasPath (kripke : KripkeStructure) (nodes : List Node) : Prop :=
  kripke.Traced none nodes ∧ ∀ node ∈ nodes.head?,
    ∃ state ∈ kripke.states, state.properties = node.properties ∧ state.isInitial = true

/-- **Closing cycles loses no behaviour.** If a verification from an empty structure succeeds,
then the nodes of any number of cycles that follow one another, none of them ever closed, are
a path of the structure. -/
theorem hasPath_of_unpruned {ν : Type} [KripkeView ν] {settings : VerificationSettings}
    {schedule : Schedule} {pool : Pool} {raised : ν → Nat → List CancellationToken} {bound : Nat}
    {view : ν} {report : VerificationReport} {run : Run ν KripkeStructure}
    (wellFormed : pool.WellFormed) (distinct : pool.names.Nodup)
    (verified : verify settings schedule pool raised bound view KripkeStructure.empty =
      (.ok report, run)) {chain : List ScheduleVariation}
    (unpruned : Unpruned (Layout.new schedule) (schedule.firstJob pool) chain) :
    run.store.HasPath (chain.flatMap ScheduleVariation.nodes) := by
  obtain ⟨finished, all, explored⟩ := explored_of_verify verified
  have isKnown : schedule.firstJob pool ∈ all := by
    simpa [finished] using explored.started
  have traced : run.store.Traced none (chain.flatMap ScheduleVariation.nodes) :=
    explored.traces finished wellFormed.descends distinct unpruned isKnown (.refl _)
  refine ⟨traced, fun node isFirst => ?_⟩
  cases unpruned with
  | nil => cases isFirst
  | cons expanded member state later =>
      obtain ⟨closes, _⟩ := Job.Reached.first.closes wellFormed.descends expanded member
      obtain ⟨first, isHead, initial⟩ := closes.started
      rw [List.flatMap_cons, List.head?_append, isHead] at isFirst
      cases isFirst
      obtain ⟨tail, isTail⟩ := List.head?_eq_some_iff.mp isHead
      rw [List.flatMap_cons, isTail] at traced
      obtain ⟨id, holds, _⟩ := traced
      obtain ⟨stored, found, same, isInitial⟩ := holds.stored
      exact ⟨stored, Array.mem_of_getElem? found, same, isInitial initial⟩

/-- A job that is alike to a known one has a variation for each of the jobs that go on from the
known one, and a job alike to that one goes on from it. -/
theorem Job.Alike.exists_variation {layout : Layout} {job known next : Job} {following : List Job}
    (alike : job.Alike known)
    (expands : (known.expand layout).map
      (List.map fun variation => (variation.successor 0).view) = .ok (following.map Job.view))
    (isNext : next ∈ following) : ∃ variations variation, job.expand layout = .ok variations ∧
      variation ∈ variations ∧ (variation.successor 0).Alike next := by
  obtain ⟨others, expandedKnown, views⟩ := Outcome.map_eq_ok.mp expands
  obtain ⟨own, expanded, _⟩ := alike.expand_eq_ok expandedKnown
  obtain ⟨_, isOther, twins⟩ := alike.symm.expand_eq_ok expanded
  cases expandedKnown.symm.trans isOther
  obtain ⟨other, member, view⟩ := List.mem_map.mp (views ▸ List.mem_map_of_mem isNext :
    next.view ∈ others.map fun variation => (variation.successor 0).view)
  obtain ⟨twin, isTwin, same⟩ := twins other member
  refine ⟨own, twin, expanded, isTwin, ?_⟩
  exact (ScheduleVariation.alike_of_uncounted same.symm 0 0).trans (Job.alike_of_view view)

/-- The button of the switch is pressed, released, pressed again and then held. The third cycle ends
as the first one did, so the verification closes it there; the fourth goes on from it, and all four
are a path of the structure. -/
theorem switch_hasPath_of_unpruned : ∃ bound report run chain,
    verify Switch.settings Switch.schedule Switch.pool (fun _ _ => []) bound
      ({} : RecordingView) KripkeStructure.empty = (.ok report, run) ∧
    chain.map ScheduleVariation.pool = [Switch.after 1 "Off" true true,
      Switch.after 0 "On" true false, Switch.after 1 "Off" true true,
      Switch.after 1 "On" false true].map Switch.poolOf ∧
    Unpruned (Layout.new Switch.schedule) (Switch.schedule.firstJob Switch.pool) chain ∧
    run.store.HasPath (chain.flatMap ScheduleVariation.nodes) := by
  obtain ⟨bound, report, run, verified⟩ := Switch.verified
  obtain ⟨_, pressed, expanded, isPressed, on⟩ := Job.Alike.exists_variation
    (.refl _) (Switch.expand_off (Switch.schedule.firstJob Switch.pool) (by simp))
    (List.mem_cons_of_mem _ List.mem_cons_self)
  obtain ⟨_, released, expandedOn, isReleased, off⟩ := Job.Alike.exists_variation
    on (Switch.expand_on _ (by simp)) List.mem_cons_self
  obtain ⟨_, again, expandedOff, isAgain, onAgain⟩ := Job.Alike.exists_variation
    off (Switch.expand_off _ (by simp)) (List.mem_cons_of_mem _ List.mem_cons_self)
  obtain ⟨_, held, expandedAgain, isHeld, stays⟩ := Job.Alike.exists_variation
    onAgain (Switch.expand_on _ (by simp)) (List.mem_cons_of_mem _ List.mem_cons_self)
  have unpruned : Unpruned (Layout.new Switch.schedule) (Switch.schedule.firstJob Switch.pool)
      [pressed, released, again, held] :=
    .cons expanded isPressed 0 (.cons expandedOn isReleased 0
      (.cons expandedOff isAgain 0 (.cons expandedAgain isHeld 0 (.nil _))))
  have pools : [pressed, released, again, held].map ScheduleVariation.pool =
      [Switch.after 1 "Off" true true, Switch.after 0 "On" true false,
        Switch.after 1 "Off" true true, Switch.after 1 "On" false true].map Switch.poolOf :=
    congrArg₂ List.cons on.pool (congrArg₂ List.cons off.pool
      (congrArg₂ List.cons onAgain.pool (congrArg₂ List.cons stays.pool rfl)))
  have distinct : Switch.pool.names.Nodup := List.nodup_singleton _
  exact ⟨bound, report, run, _, verified, pools, unpruned,
    hasPath_of_unpruned Switch.wellFormed distinct verified unpruned⟩

end TimedKripke
