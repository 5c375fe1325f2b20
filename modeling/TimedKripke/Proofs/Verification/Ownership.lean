import TimedKripke.Proofs.Variation.Detour
import TimedKripke.Proofs.Verification.Serialization

/-! # Threads that own their executables

Where no executable is scheduled on two threads and timeslots change their own executables only,
every executable of the shared pool is as its own thread has left it (`Unfolding.Owned`). What a
section shows is then its own pool on the executables of its thread, and the shared one elsewhere
(`Unfolding.Owned.get?_overlaid`). So if one thread alone takes another pathway, all threads show
the same outside of its executables (`Unfolding.Owned.overlaid_eq`).
-/

namespace TimedKripke

namespace Pool

/-- Descendants of one pool lack the same executables. -/
theorem Descends.get?_eq_none {origin first second : Pool} (left : Descends origin first)
    (right : Descends origin second) {id : ExecutableId} (absent : first.get? id = none) :
    second.get? id = none := by
  rw [Option.eq_none_iff_forall_ne_some]
  intro executable found
  have known : id ∈ second.ids := exists_get?_iff.mp ⟨executable, found⟩
  rw [ids_eq_of_frame (right.frame.trans left.frame.symm), ← exists_get?_iff, absent] at known
  obtain ⟨_, impossible⟩ := known
  cases impossible

section Overlaid

variable {origin pool base changed : Pool} (descends : Descends origin pool)
  (before : Descends origin base) (changes : Descends origin changed) {id : ExecutableId}
include descends before changes

/-- Where nothing has changed, the pool is as it was. -/
theorem get?_overlaid_of_eq (same : changed.get? id = base.get? id) :
    (pool.overlaid base changed).get? id = pool.get? id := by
  cases found : changed.get? id with
  | none =>
      rw [changes.get?_eq_none (descends.overlaid changes base) found,
        changes.get?_eq_none descends found]
  | some executable =>
      obtain ⟨entry, member, rfl, rfl⟩ := mem_of_get? found
      have unchanged := (isUnchanged_iff before changes member).mpr (same.symm.trans found)
      rw [get?_overlaid descends changes base member, if_pos unchanged]

/-- Where something has changed, the change is found. -/
theorem get?_overlaid_of_ne (differ : changed.get? id ≠ base.get? id) :
    (pool.overlaid base changed).get? id = changed.get? id := by
  cases found : changed.get? id with
  | none => exact absurd (found.trans (changes.get?_eq_none before found).symm) differ
  | some executable =>
      obtain ⟨entry, member, rfl, rfl⟩ := mem_of_get? found
      have isChanged : ¬ base.isUnchanged entry = true := by
        rw [isUnchanged_iff before changes member, ← found]
        exact differ.symm
      rw [get?_overlaid descends changes base member, if_neg isChanged]

end Overlaid

end Pool

/-- The executables that the timeslots of a thread schedule. -/
def ScheduleThread.roots (thread : ScheduleThread) : List ExecutableId :=
  Timeslot.roots thread.timeslots

/-- The executables of a thread are those of its sections. -/
theorem ScheduleThread.mem_roots {thread : ScheduleThread} {id : ExecutableId} :
    id ∈ thread.roots ↔ ∃ part ∈ thread.sections, id ∈ Timeslot.roots part.timeslots := by
  simp only [roots, Timeslot.roots, timeslots, List.map_flatMap, List.mem_flatMap]

/-- Every thread changes executables of its own. -/
structure ScheduleThread.Owning (origin : Pool) (threads : List ScheduleThread) : Prop where
  /-- Timeslots change their own executables, of which no section has one twice. -/
  uncoupled : ∀ thread ∈ threads, ∀ part ∈ thread.sections, part.Uncoupled origin
  /-- No executable is scheduled on two threads. -/
  disjoint : ∀ {place place' : Nat} {thread thread' : ScheduleThread} {id : ExecutableId},
    threads[place]? = some thread → threads[place']? = some thread' →
      id ∈ thread.roots → id ∈ thread'.roots → place = place'

/-- The pool has the executables that a thread does not own as they are in another one. -/
structure ScheduleThread.Confines (origin pool : Pool) (thread : ScheduleThread) (shown : Pool) :
    Prop where
  frame : Pool.Descends origin shown
  /-- It differs in the executables of the thread only. -/
  foreign : ∀ id ∉ thread.roots, shown.get? id = pool.get? id

/-- A variation in the making, in which every thread has changed executables of its own. -/
structure Unfolding.Owned (origin pool : Pool) (threads : List ScheduleThread)
    (unfolding : Unfolding) : Prop where
  frame : Pool.Descends origin unfolding.shared
  counted : unfolding.bases.length = threads.length
  /-- It differs from the pool at the start in executables of the thread only. -/
  bases : ∀ {place : Nat} {thread : ScheduleThread} {base : Pool}, threads[place]? = some thread →
    unfolding.bases[place]? = some base → thread.Confines origin pool base
  /-- In these it agrees with the shared one. -/
  own : ∀ {place : Nat} {thread : ScheduleThread} {base : Pool}, threads[place]? = some thread →
    unfolding.bases[place]? = some base → ∀ id ∈ thread.roots,
      unfolding.shared.get? id = base.get? id
  /-- Executables without a thread stay as they are. -/
  idle : ∀ id, (∀ thread ∈ threads, id ∉ thread.roots) → unfolding.shared.get? id = pool.get? id

namespace Unfolding

variable {origin pool : Pool} {threads : List ScheduleThread} {unfolding : Unfolding}

/-- What is shown of a thread is its own on its executables. -/
theorem Owned.get?_overlaid (owned : unfolding.Owned origin pool threads) {place : Nat}
    {thread : ScheduleThread} {base shown : Pool} (isThread : threads[place]? = some thread)
    (based : unfolding.bases[place]? = some base) (confines : thread.Confines origin pool shown)
    (id : ExecutableId) : (unfolding.shared.overlaid base shown).get? id =
      if id ∈ thread.roots then shown.get? id else unfolding.shared.get? id := by
  have basis := owned.bases isThread based
  by_cases isOwn : id ∈ thread.roots
  · rw [if_pos isOwn]
    by_cases same : shown.get? id = base.get? id
    · rw [Pool.get?_overlaid_of_eq owned.frame basis.frame confines.frame same,
        owned.own isThread based id isOwn, same]
    · exact Pool.get?_overlaid_of_ne owned.frame basis.frame confines.frame same
  · have same : shown.get? id = base.get? id :=
      (confines.foreign id isOwn).trans (basis.foreign id isOwn).symm
    rw [if_neg isOwn, Pool.get?_overlaid_of_eq owned.frame basis.frame confines.frame same]

/-- Before the first section, every thread stands at the pool of the job, as do all of them
together. -/
theorem Owned.start (descends : Pool.Descends origin pool) (threads : List ScheduleThread)
    (unfolding : Unfolding) (shared : unfolding.shared = pool)
    (bases : unfolding.bases = threads.map fun _ => pool) :
    unfolding.Owned origin pool threads := by
  have isBase : ∀ {place : Nat} {base : Pool}, unfolding.bases[place]? = some base →
      base = pool := by
    intro place base based
    rw [bases, List.getElem?_map] at based
    obtain ⟨_, _, rfl⟩ := Option.map_eq_some_iff.mp based
    rfl
  constructor
  · exact shared ▸ descends
  · rw [bases, List.length_map]
  · intro place thread base _ based
    rw [isBase based]
    exact ⟨descends, fun _ _ => rfl⟩
  · intro place thread base _ based id _
    rw [isBase based, shared]
  · exact fun _ _ => congrArg (Pool.get? · _) shared

end Unfolding

/-- What a path shows after some of its steps, and the place in the program that it shows it at. -/
inductive SectionPath.Shows (path : SectionPath) : Nat → Pool → ProgramCounter → Prop
  /-- Before the first step the environment is read. -/
  | read {first : SectionStep} {root : Executable} (head : path.steps.head? = some first)
      (found : path.snapshot.get first.executable = .ok root) :
      Shows path 0 path.snapshot
        { executable := root.name, state := root.running.currentStateName, phase := .read }
  /-- Each step shows the pool that can be observed after it. -/
  | step {index : Nat} {step : SectionStep} {executable : Executable} {observed : Pool}
      (isStep : path.steps[index]? = some step)
      (found : path.snapshot.get step.executable = .ok executable)
      (observes : path.observedAfter index = .ok observed) :
      Shows path (index + 1) observed
        { executable := executable.name
          state := step.ringlet.executedState
          phase := if index + 1 = path.steps.length then .write else .execute }

/-- The nodes of a section: one where the environment is read, and one after every step. -/
structure ScheduledPath.LaidOut (layout : Layout) (shared base : Pool) (scheduled : ScheduledPath)
    (nodes : List Node) : Prop where
  /-- There are as many nodes as there are steps, and one more. -/
  counted : nodes.length = scheduled.path.steps.length + 1
  /-- The nodes show what the path shows. -/
  shows : ∀ {count : Nat} {node : Node}, nodes[count]? = some node → ∃ shown counter,
    scheduled.path.Shows count shown counter ∧ node.properties =
      layout.properties (shared.overlaid base shown) counter
        (layout.firstSlot scheduled.thread scheduled.part + (count - 1))
  /-- The first node reads the environment. -/
  read : ∀ node ∈ nodes.head?, node.incoming.takeSnapshot = true
  /-- Every other node is reached by a step. -/
  steps : ∀ {index : Nat} {node : Node}, nodes[index + 1]? = some node → ∃ step,
    scheduled.path.steps[index]? = some step ∧ node.incoming.takeSnapshot = false ∧
      node.incoming.constraint = step.conditional.edgeConstraint?

/-- A section is laid out. -/
structure Unfolding.Lays (layout : Layout) (scheduled : ScheduledPath) (unfolding next : Unfolding)
    (base : Pool) (nodes : List Node) : Prop where
  based : unfolding.bases[scheduled.thread]? = some base
  bases : next.bases = unfolding.bases.set scheduled.thread scheduled.path.after
  shared : next.shared = unfolding.shared.overlaid base scheduled.path.after
  added : next.nodes = unfolding.nodes ++ nodes
  laid : scheduled.LaidOut layout unfolding.shared base nodes

namespace Unfolding

/-- There is one node for every step of a section, which shows the step and what can be observed
after it. -/
theorem stepNodes_laidOut {layout : Layout} {shared base : Pool} {scheduled : ScheduledPath}
    {steps : List SectionStep} : ∀ {earlier : List SectionStep} {time last : Time}
      {nodes : List Node}, scheduled.path.steps = earlier ++ steps →
      stepNodes shared layout scheduled base earlier.length time steps = .ok (nodes, last) →
        nodes.length = steps.length ∧ ∀ {index : Nat} {node : Node}, nodes[index]? = some node →
          ∃ step shown counter, scheduled.path.steps[earlier.length + index]? = some step ∧
            scheduled.path.Shows (earlier.length + index + 1) shown counter ∧
            node.properties = layout.properties (shared.overlaid base shown) counter
              (layout.firstSlot scheduled.thread scheduled.part + (earlier.length + index)) ∧
            node.incoming.takeSnapshot = false ∧
            node.incoming.constraint = step.conditional.edgeConstraint? := by
  induction steps with
  | nil =>
      intro earlier time last nodes _ laid
      cases laid
      exact ⟨rfl, fun impossible => nomatch impossible⟩
  | cons step rest others =>
      intro earlier time last nodes isPath laid
      rw [stepNodes] at laid
      obtain ⟨executable, found, laid⟩ := Outcome.bind_eq_ok.mp laid
      obtain ⟨observed, observes, laid⟩ := Outcome.bind_eq_ok.mp laid
      obtain ⟨⟨later, final⟩, laidLater, laid⟩ := Outcome.bind_eq_ok.mp laid
      cases laid
      have longer : (earlier ++ [step]).length = earlier.length + 1 := List.length_append
      rw [← longer] at laidLater
      obtain ⟨counted, each⟩ := others (isPath.trans (List.append_cons ..)) laidLater
      refine ⟨congrArg (· + 1) counted, fun {index node} isNode => ?_⟩
      cases index with
      | zero =>
          cases isNode
          have isStep : scheduled.path.steps[earlier.length]? = some step := by simp [isPath]
          have isLast : (rest.isEmpty = true) =
              (earlier.length + 1 = scheduled.path.steps.length) := by
            rw [isPath]
            cases rest <;> simp
          refine ⟨step, observed, _, isStep, .step isStep found observes, ?_, rfl, rfl⟩
          simp only [isLast, Nat.add_zero]
      | succ index =>
          have place : (earlier ++ [step]).length + index = earlier.length + (index + 1) := by omega
          have here := each isNode
          rwa [place] at here

/-- **What laying out a section does** to a variation in the making, if the section has steps and
belongs to a thread. -/
theorem lays_of_addSection {layout : Layout} {job : Job} {unfolding next : Unfolding}
    {scheduled : ScheduledPath} {index : Nat} (someStep : scheduled.path.steps ≠ [])
    (inside : scheduled.thread < unfolding.bases.length)
    (added : addSection layout job unfolding (scheduled, index) = .ok next) :
    ∃ base nodes, Lays layout scheduled unfolding next base nodes := by
  obtain ⟨first, head⟩ : ∃ first, scheduled.path.steps.head? = some first :=
    ⟨_, List.head?_eq_some_head someStep⟩
  have based := List.getElem?_eq_getElem inside
  rw [addSection_eq head based] at added
  obtain ⟨root, found, added⟩ := Outcome.bind_eq_ok.mp added
  obtain ⟨⟨nodes, last⟩, stepped, added⟩ := Outcome.bind_eq_ok.mp added
  cases added
  obtain ⟨counted, each⟩ := stepNodes_laidOut (List.nil_append _).symm stepped
  refine ⟨_, _, based, rfl, rfl, rfl, ?_⟩
  constructor
  · rw [List.length_cons, counted]
  · intro count node isNode
    cases count with
    | zero =>
        cases isNode
        exact ⟨_, _, .read head found, rfl⟩
    | succ index =>
        obtain ⟨_, shown, counter, _, shows, properties, _⟩ := each isNode
        rw [List.length_nil, Nat.zero_add] at shows properties
        exact ⟨shown, counter, shows, properties⟩
  · rintro _ ⟨⟩
    rfl
  · intro index node isNode
    obtain ⟨step, _, _, isStep, _, _, takes, constraint⟩ := each isNode
    rw [List.length_nil, Nat.zero_add] at isStep
    exact ⟨step, isStep, takes, constraint⟩

end Unfolding

/-- A section of one of the threads, which shows changes in executables of the thread only. -/
structure ScheduledPath.Belongs (origin pool : Pool) (threads : List ScheduleThread)
    (thread : ScheduleThread) (scheduled : ScheduledPath) : Prop where
  isThread : threads[scheduled.thread]? = some thread
  someStep : scheduled.path.steps ≠ []
  after : thread.Confines origin pool scheduled.path.after
  /-- What is shown is of the thread. -/
  shown : ∀ {count : Nat} {shown : Pool} {counter : ProgramCounter},
    scheduled.path.Shows count shown counter → thread.Confines origin pool shown

namespace Unfolding

variable {origin pool base : Pool} {threads : List ScheduleThread} {layout : Layout}
  {unfolding next : Unfolding} {scheduled : ScheduledPath} {thread : ScheduleThread}
  {nodes : List Node}

/-- **Laying out a section** keeps the threads apart: it changes executables of its own thread only.
-/
theorem Owned.lays (owned : unfolding.Owned origin pool threads)
    (owning : ScheduleThread.Owning origin threads)
    (belongs : scheduled.Belongs origin pool threads thread)
    (lays : Lays layout scheduled unfolding next base nodes) : next.Owned origin pool threads := by
  have inside : scheduled.thread < unfolding.bases.length :=
    (List.getElem?_eq_some_iff.mp lays.based).choose
  have overlaid : ∀ id, next.shared.get? id =
      if id ∈ thread.roots then scheduled.path.after.get? id else unfolding.shared.get? id := by
    rw [lays.shared]
    exact owned.get?_overlaid belongs.isThread lays.based belongs.after
  -- The pool of the section's own thread is the one at its end, the others are as before.
  have based : ∀ {place : Nat} {known : ScheduleThread} {after : Pool},
      threads[place]? = some known → next.bases[place]? = some after →
        (place = scheduled.thread ∧ known = thread ∧ after = scheduled.path.after) ∨
          (place ≠ scheduled.thread ∧ unfolding.bases[place]? = some after) := by
    intro place known after isKnown isBase
    rw [lays.bases] at isBase
    by_cases here : scheduled.thread = place
    · subst here
      rw [List.getElem?_set_self inside] at isBase
      cases isBase
      cases belongs.isThread.symm.trans isKnown
      exact .inl ⟨rfl, rfl, rfl⟩
    · rw [List.getElem?_set_ne here] at isBase
      exact .inr ⟨Ne.symm here, isBase⟩
  constructor
  · rw [lays.shared]
    exact owned.frame.overlaid belongs.after.frame base
  · rw [lays.bases, List.length_set]
    exact owned.counted
  · intro place known after isKnown isBase
    rcases based isKnown isBase with ⟨_, rfl, rfl⟩ | ⟨_, isOld⟩
    · exact belongs.after
    · exact owned.bases isKnown isOld
  · intro place known after isKnown isBase id isOwn
    rcases based isKnown isBase with ⟨_, rfl, rfl⟩ | ⟨other, isOld⟩
    · rw [overlaid, if_pos isOwn]
    · have foreign : id ∉ thread.roots := fun isHere =>
        other (owning.disjoint isKnown belongs.isThread isOwn isHere)
      rw [overlaid, if_neg foreign]
      exact owned.own isKnown isOld id isOwn
  · intro id foreign
    rw [overlaid, if_neg (foreign thread (List.mem_of_getElem? belongs.isThread))]
    exact owned.idle id foreign

end Unfolding

/-- Two sections in the same place, which differ only if they are of one thread. -/
structure ScheduledPath.Twins (place : Nat) (first second : ScheduledPath) : Prop where
  thread : first.thread = second.thread
  part : first.part = second.part
  /-- In any other thread they are run in the same way. -/
  same : first.thread ≠ place → first.path = second.path

/-- Two variations in the making, which differ only in one thread. -/
structure Unfolding.Twins (origin pool : Pool) (threads : List ScheduleThread) (place : Nat)
    (first second : Unfolding) : Prop where
  left : first.Owned origin pool threads
  right : second.Owned origin pool threads
  bases : ∀ other, other ≠ place → first.bases[other]? = second.bases[other]?

namespace Unfolding.Twins

variable {origin pool : Pool} {threads : List ScheduleThread} {place : Nat} {layout : Layout}
  {first second : Unfolding} (twins : Twins origin pool threads place first second)
  {thread : ScheduleThread}
include twins

/-- The shared pools differ in the executables of the one thread. -/
theorem get?_shared (isThread : threads[place]? = some thread) {id : ExecutableId}
    (foreign : id ∉ thread.roots) : first.shared.get? id = second.shared.get? id := by
  by_cases owned : ∃ owner ∈ threads, id ∈ owner.roots
  · obtain ⟨owner, isOwner, isOwn⟩ := owned
    obtain ⟨other, inside, rfl⟩ := List.getElem_of_mem isOwner
    have isThread' := List.getElem?_eq_getElem inside
    have elsewhere : other ≠ place := by
      rintro rfl
      cases isThread.symm.trans isThread'
      exact foreign isOwn
    have based := List.getElem?_eq_getElem (twins.left.counted ▸ inside)
    have based' := (twins.bases other elsewhere).symm.trans based
    rw [twins.left.own isThread' based id isOwn, twins.right.own isThread' based' id isOwn]
  · have idle : ∀ owner ∈ threads, id ∉ owner.roots := fun owner isOwner isOwn =>
      owned ⟨owner, isOwner, isOwn⟩
    rw [twins.left.idle id idle, twins.right.idle id idle]

/-- **What one thread shows** is the same in both, whichever pathway the other thread has taken. -/
theorem overlaid_eq (isThread : threads[place]? = some thread) {base base' shown : Pool}
    (based : first.bases[place]? = some base) (based' : second.bases[place]? = some base')
    (confines : thread.Confines origin pool shown) :
    first.shared.overlaid base shown = second.shared.overlaid base' shown := by
  have left := twins.left.frame.overlaid confines.frame base
  have right := twins.right.frame.overlaid confines.frame base'
  refine Pool.ext_of_get? left.wellFormed.nodup (left.frame.trans right.frame.symm) fun id => ?_
  rw [twins.left.get?_overlaid isThread based confines,
    twins.right.get?_overlaid isThread based' confines]
  by_cases isOwn : id ∈ thread.roots
  · rw [if_pos isOwn, if_pos isOwn]
  · rw [if_neg isOwn, if_neg isOwn, twins.get?_shared isThread isOwn]

variable (owning : ScheduleThread.Owning origin threads)
include owning

/-- Laying out twin sections on both sides leaves them twins. -/
theorem lays {scheduled scheduled' : ScheduledPath} {thread' : ScheduleThread} {base base' : Pool}
    {next next' : Unfolding} {nodes nodes' : List Node} (twin : scheduled.Twins place scheduled')
    (belongs : scheduled.Belongs origin pool threads thread)
    (belongs' : scheduled'.Belongs origin pool threads thread')
    (lays : Lays layout scheduled first next base nodes)
    (lays' : Lays layout scheduled' second next' base' nodes') :
    Twins origin pool threads place next next' := by
  refine ⟨twins.left.lays owning belongs lays, twins.right.lays owning belongs' lays', ?_⟩
  intro other elsewhere
  have same := twins.bases other elsewhere
  rw [lays.bases, lays'.bases, ← twin.thread]
  by_cases here : scheduled.thread = other
  · subst here
    have inside := (List.getElem?_eq_some_iff.mp lays.based).choose
    have inside' := (List.getElem?_eq_some_iff.mp (same.symm.trans lays.based)).choose
    rw [List.getElem?_set_self inside, List.getElem?_set_self inside', twin.same elsewhere]
  · rw [List.getElem?_set_ne here, List.getElem?_set_ne here, same]

end Unfolding.Twins

section Sections

variable {origin pool : Pool} {threads : List ScheduleThread} {layout : Layout} {job : Job}
  (owning : ScheduleThread.Owning origin threads)
include owning

/-- Adding a section lays out its nodes and leaves every executable to the thread it belongs to. -/
theorem Unfolding.Owned.exists_lays {unfolding next : Unfolding}
    (owned : unfolding.Owned origin pool threads) {scheduled : ScheduledPath}
    {thread : ScheduleThread} (belongs : scheduled.Belongs origin pool threads thread) {index : Nat}
    (added : addSection layout job unfolding (scheduled, index) = .ok next) :
    ∃ base nodes, Lays layout scheduled unfolding next base nodes ∧
      next.Owned origin pool threads := by
  have inside : scheduled.thread < unfolding.bases.length := by
    rw [owned.counted]
    exact (List.getElem?_eq_some_iff.mp belongs.isThread).choose
  obtain ⟨base, nodes, lays⟩ := lays_of_addSection belongs.someStep inside added
  exact ⟨base, nodes, lays, owned.lays owning belongs lays⟩

/-- **Laying out twin sections** one after the other on both sides leaves them twins. -/
theorem Unfolding.Twins.addSections {place : Nat} {sections sections' : List ScheduledPath}
    (alike : List.Forall₂ (ScheduledPath.Twins place) sections sections') :
    ∀ {first second last last' : Unfolding} {index : Nat},
      Twins origin pool threads place first second →
      (∀ scheduled ∈ sections, ∃ thread, scheduled.Belongs origin pool threads thread) →
      (∀ scheduled ∈ sections', ∃ thread, scheduled.Belongs origin pool threads thread) →
      (sections.zipIdx index).foldlM (addSection layout job) first = .ok last →
      (sections'.zipIdx index).foldlM (addSection layout job) second = .ok last' →
        Twins origin pool threads place last last' := by
  induction alike with
  | nil =>
      intro first second last last' index twins _ _ folded folded'
      cases folded
      cases folded'
      exact twins
  | cons twin _ others =>
      intro first second last last' index twins belongs belongs' folded folded'
      rw [List.zipIdx_cons, List.foldlM_cons] at folded folded'
      obtain ⟨next, added, folded⟩ := Outcome.bind_eq_ok.mp folded
      obtain ⟨next', added', folded'⟩ := Outcome.bind_eq_ok.mp folded'
      obtain ⟨thread, here⟩ := belongs _ List.mem_cons_self
      obtain ⟨thread', here'⟩ := belongs' _ List.mem_cons_self
      obtain ⟨_, _, lays, _⟩ := twins.left.exists_lays owning here added
      obtain ⟨_, _, lays', _⟩ := twins.right.exists_lays owning here' added'
      exact others (twins.lays owning twin here here' lays lays')
        (fun later isLater => belongs later (List.mem_cons_of_mem _ isLater))
        (fun later isLater => belongs' later (List.mem_cons_of_mem _ isLater)) folded folded'

/-- Nodes stay where they were laid: later sections only append to them. -/
theorem Unfolding.Owned.nodes_prefix {sections : List ScheduledPath} :
    ∀ {unfolding last : Unfolding} {index : Nat}, unfolding.Owned origin pool threads →
      (∀ scheduled ∈ sections, ∃ thread, scheduled.Belongs origin pool threads thread) →
      (sections.zipIdx index).foldlM (addSection layout job) unfolding = .ok last →
        last.Owned origin pool threads ∧ ∃ later, last.nodes = unfolding.nodes ++ later := by
  induction sections with
  | nil =>
      intro unfolding last index owned _ folded
      cases folded
      exact ⟨owned, [], (List.append_nil _).symm⟩
  | cons scheduled rest others =>
      intro unfolding last index owned belongs folded
      rw [List.zipIdx_cons, List.foldlM_cons] at folded
      obtain ⟨next, added, folded⟩ := Outcome.bind_eq_ok.mp folded
      obtain ⟨thread, here⟩ := belongs _ List.mem_cons_self
      obtain ⟨_, nodes, lays, ownedNext⟩ := owned.exists_lays owning here added
      obtain ⟨ownedLast, later, isLater⟩ := others ownedNext
        (fun later isLater => belongs later (List.mem_cons_of_mem _ isLater)) folded
      refine ⟨ownedLast, nodes ++ later, ?_⟩
      rw [isLater, lays.added, List.append_assoc]

/-- A section among those that were laid out has its nodes right behind those of the sections before
it. -/
theorem Unfolding.Owned.exists_section {earlier rest : List ScheduledPath}
    {scheduled : ScheduledPath} {unfolding last : Unfolding}
    (owned : unfolding.Owned origin pool threads)
    (belongs : ∀ one ∈ earlier ++ scheduled :: rest,
      ∃ thread, one.Belongs origin pool threads thread)
    (folded : ((earlier ++ scheduled :: rest).zipIdx).foldlM (addSection layout job) unfolding =
      .ok last) :
    ∃ middle next base nodes before later,
      earlier.zipIdx.foldlM (addSection layout job) unfolding = .ok middle ∧
      Lays layout scheduled middle next base nodes ∧ last.nodes = before ++ nodes ++ later := by
  rw [List.zipIdx_append, List.foldlM_append, List.zipIdx_cons] at folded
  obtain ⟨middle, foldedEarlier, folded⟩ := Outcome.bind_eq_ok.mp folded
  rw [List.foldlM_cons] at folded
  obtain ⟨next, added, folded⟩ := Outcome.bind_eq_ok.mp folded
  have ownedMiddle := (owned.nodes_prefix owning
    (fun one isOne => belongs one (List.mem_append_left _ isOne)) foldedEarlier).1
  obtain ⟨thread, here⟩ := belongs scheduled (by simp)
  obtain ⟨base, nodes, lays, ownedNext⟩ := ownedMiddle.exists_lays owning here added
  obtain ⟨_, later, isLast⟩ := ownedNext.nodes_prefix owning
    (fun one isOne => belongs one (by simp [isOne])) folded
  exact ⟨middle, next, base, nodes, middle.nodes, later, foldedEarlier, lays,
    by rw [isLast, lays.added]⟩

end Sections

/-- The executables that the validation looks at are those of the timeslots. -/
theorem ScheduleThread.mem_executables {thread : ScheduleThread} {id : ExecutableId} :
    id ∈ thread.executables ↔ id ∈ thread.roots := by
  have members : id ∈ OrderedSet.union [] (thread.timeslots.map Timeslot.executable) ↔
      id ∈ thread.roots := by
    rw [OrderedSet.mem_union, roots, Timeslot.roots]
    simp
  exact members

namespace Schedule

variable {schedule : Schedule} {pool : Pool}

/-- If nothing is wrong between threads, nothing is wrong between any two of them. -/
theorem pairwise_of_pairFaults? {threads : List (ScheduleThread × Nat)} :
    pairFaults? pool threads = none → threads.Pairwise fun first second =>
      pairFault? pool first.2 first.1 second.2 second.1 = none := by
  induction threads with
  | nil => exact fun _ => .nil
  | cons first rest others =>
      intro none
      rw [pairFaults?, Option.or_eq_none_iff, List.findSome?_eq_none_iff] at none
      exact .cons none.1 (others none.2)

/-- Threads with nothing wrong between them have no executable in common. -/
theorem not_mem_of_pairFault? {place place' : Nat} {first second : ScheduleThread}
    (none : pairFault? pool place first place' second = none) :
    ∀ id ∈ first.roots, id ∉ second.roots := by
  intro id isFirst isSecond
  unfold pairFault? at none
  split at none
  · cases none
  · rename_i absent
    have apart := List.find?_eq_none.mp absent id (ScheduleThread.mem_executables.mpr isFirst)
    exact apart (List.contains_iff_mem.mpr (ScheduleThread.mem_executables.mpr isSecond))

/-- **No executable is scheduled on two threads** of a schedule that was validated. -/
theorem disjoint_of_validate (validated : schedule.validate pool = .ok ()) :
    schedule.threads.Pairwise fun first second => ∀ id ∈ first.roots, id ∉ second.roots := by
  have faultless : schedule.fault? pool = none := by
    unfold validate at validated
    split at validated
    · cases validated
    · assumption
  unfold fault? at faultless
  rw [Option.or_eq_none_iff] at faultless
  have pairs : (schedule.threads.zipIdx.map Prod.fst).Pairwise fun first second =>
      ∀ id ∈ first.roots, id ∉ second.roots :=
    List.pairwise_map.mpr ((pairwise_of_pairFaults? faultless.2).imp not_mem_of_pairFault?)
  rwa [List.zipIdx_map_fst] at pairs

end Schedule

/-- No executable is scheduled twice in a section or on two threads, and timeslots start without
open calls. -/
structure ScheduleThread.Separate (threads : List ScheduleThread) : Prop where
  once : ∀ thread ∈ threads, ∀ part ∈ thread.sections, (Timeslot.roots part.timeslots).Nodup
  unopened : ∀ thread ∈ threads, ∀ chain ∈ thread.chains, chain.calls = []
  disjoint : threads.Pairwise fun first second => ∀ id ∈ first.roots, id ∉ second.roots

namespace ScheduleThread

/-- The executables of a thread are the roots of its call chains. -/
theorem mem_roots_iff_chains {thread : ScheduleThread} {id : ExecutableId} :
    id ∈ thread.roots ↔ ∃ chain ∈ thread.chains, chain.root = id := by
  simp only [roots, Timeslot.roots, chains, List.mem_map, exists_exists_and_eq_and]
  rfl

/-- Threads that are in order and without counts have the calls that they had. -/
theorem mem_chains_ordered {thread : ScheduleThread} {chain : CallChain} :
    chain ∈ thread.ordered.uncounted.chains ↔ chain ∈ thread.chains := by
  have uncounted : ∀ {thread : ScheduleThread}, thread.uncounted.chains = thread.chains := by
    intro thread
    simp only [chains, timeslots, ScheduleThread.uncounted, List.flatMap_map, List.map_flatMap]
    refine List.flatMap_congr fun part _ => ?_
    rw [SnapshotSection.uncounted, List.map_map]
    rfl
  rw [uncounted]
  simp only [chains, List.mem_map, mem_timeslots_ordered]

/-- Sections of threads in order schedule the executables of sections of the threads. -/
theorem exists_perm_of_ordered {first second : ScheduleThread}
    (same : first.ordered.uncounted = second.ordered.uncounted) {part : SnapshotSection}
    (isPart : part ∈ first.sections) : ∃ other ∈ second.sections,
      (Timeslot.roots part.timeslots).Perm (Timeslot.roots other.timeslots) := by
  have inOrder : ∀ {thread : ScheduleThread} {part : SnapshotSection},
      part ∈ thread.ordered.uncounted.sections ↔ ∃ other ∈ thread.sections,
        (SnapshotSection.new other.timeslots).uncounted = part := by
    intro thread part
    simp [ordered, uncounted, new]
  obtain ⟨other, isOther, alike⟩ := inOrder.mp (same ▸ inOrder.mpr ⟨part, isPart, rfl⟩)
  have perm : ∀ part : SnapshotSection, (Timeslot.roots part.timeslots).Perm
      (Timeslot.roots (SnapshotSection.new part.timeslots).uncounted.timeslots) := by
    intro part
    have roots : Timeslot.roots (SnapshotSection.new part.timeslots).uncounted.timeslots =
        Timeslot.roots (SnapshotSection.new part.timeslots).timeslots := by
      rw [SnapshotSection.uncounted, Timeslot.roots, List.map_map]
      rfl
    rw [roots]
    exact ((List.mergeSort_perm part.timeslots _).map _).symm
  refine ⟨other, isOther, (perm part).trans ?_⟩
  rw [← alike]
  exact (perm other).symm

/-- Whether threads have executables of their own depends neither on counts nor on the order of
sections. -/
theorem Separate.congr {threads threads' : List ScheduleThread} (separate : Separate threads)
    (same : (threads'.map fun thread => thread.ordered.uncounted) =
      threads.map fun thread => thread.ordered.uncounted) : Separate threads' := by
  have alike : List.Forall₂ (fun (thread' thread : ScheduleThread) =>
      thread'.ordered.uncounted = thread.ordered.uncounted) threads' threads := by
    rwa [← List.forall₂_eq_eq_eq, List.forall₂_map_left_iff, List.forall₂_map_right_iff] at same
  have chains : ∀ {thread' thread : ScheduleThread},
      thread'.ordered.uncounted = thread.ordered.uncounted → ∀ chain,
        chain ∈ thread'.chains ↔ chain ∈ thread.chains := by
    intro thread' thread same chain
    rw [← mem_chains_ordered, same, mem_chains_ordered]
  constructor
  · intro thread' isThread' part' isPart'
    obtain ⟨thread, isThread, same⟩ := Outcome.exists_right alike isThread'
    obtain ⟨part, isPart, perm⟩ := exists_perm_of_ordered same isPart'
    exact perm.nodup_iff.mpr (separate.once thread isThread part isPart)
  · intro thread' isThread' chain isChain
    obtain ⟨thread, isThread, same⟩ := Outcome.exists_right alike isThread'
    exact separate.unopened thread isThread chain ((chains same chain).mp isChain)
  · have disjoint := separate.disjoint
    clear same separate
    induction alike with
    | nil => exact .nil
    | @cons thread' thread threads' threads here alike others =>
        obtain ⟨apart, disjointLater⟩ := List.pairwise_cons.mp disjoint
        refine .cons (fun other' isOther' id isHere isThere => ?_) (others disjointLater)
        obtain ⟨other, isOther, same⟩ := Outcome.exists_right alike isOther'
        simp only [mem_roots_iff_chains, chains here, chains same] at isHere isThere
        exact apart other isOther id (mem_roots_iff_chains.mpr isHere)
          (mem_roots_iff_chains.mpr isThere)

/-- **Threads that issue no calls own their executables**, if none is scheduled on two of them. -/
theorem Separate.owning {threads : List ScheduleThread} (separate : Separate threads)
    {origin : Pool}
    (callFree : origin.CallFree) : Owning origin threads := by
  constructor
  · intro thread isThread part isPart
    refine ⟨separate.once thread isThread part isPart, fun slot isSlot => ?_⟩
    exact Timeslot.alone_of_callFree callFree
      (separate.unopened thread isThread _ (within_chains isPart slot isSlot))
  · intro place place' thread thread' id isThread isThread' isOwn isOwn'
    have disjoint := List.pairwise_iff_getElem.mp separate.disjoint
    obtain ⟨inside, rfl⟩ := List.getElem?_eq_some_iff.mp isThread
    obtain ⟨inside', rfl⟩ := List.getElem?_eq_some_iff.mp isThread'
    rcases Nat.lt_trichotomy place place' with earlier | same | later
    · exact absurd isOwn' (disjoint place place' inside inside' earlier id isOwn)
    · exact same
    · exact absurd isOwn (disjoint place' place inside' inside later id isOwn')

end ScheduleThread

end TimedKripke
