import TimedKripke.Proofs.Verification.Ownership
import TimedKripke.Proofs.Verification.Splicing

/-! # Variations that deviate in one thread

Where threads own their executables, one of them may take another pathway while the others keep to
theirs (`Pathway.Stroll.set`), and up to the section where it leaves its pathway all nodes show
what they showed (`Pathway.Stroll.twins`). So from every node that a step leads on from, a step
leads on at every clock value, in some variation that shows the same there (`Job.exists_detour`).
-/

namespace TimedKripke

namespace Node.Precedes

variable {first second : List Node} {node next : Node}

/-- Neighbours in a chain of two parts are neighbours in one of the parts, or the second of them
begins the second part. -/
theorem append_cases (precedes : Precedes (first ++ second) node next) :
    Precedes first node next ∨ Precedes second node next ∨ second.head? = some next := by
  obtain ⟨index, isNode, isNext⟩ := precedes
  by_cases inside : index + 1 < first.length
  · rw [List.getElem?_append_left (by omega)] at isNode
    rw [List.getElem?_append_left inside] at isNext
    exact .inl ⟨index, isNode, isNext⟩
  · rw [List.getElem?_append_right (by omega)] at isNext
    by_cases last : index < first.length
    · have place : index + 1 - first.length = 0 := by omega
      rw [place, ← List.head?_eq_getElem?] at isNext
      exact .inr (.inr isNext)
    · have place : index + 1 - first.length = index - first.length + 1 := by omega
      rw [List.getElem?_append_right (by omega)] at isNode
      rw [place] at isNext
      exact .inr (.inl ⟨_, isNode, isNext⟩)

/-- Neighbours stay neighbours when the chain goes on. -/
theorem append_right (precedes : Precedes first node next) (second : List Node) :
    Precedes (first ++ second) node next := by
  obtain ⟨index, isNode, isNext⟩ := precedes
  have inside := (List.getElem?_eq_some_iff.mp isNode).choose
  have inside' := (List.getElem?_eq_some_iff.mp isNext).choose
  refine ⟨index, ?_, ?_⟩
  · rwa [List.getElem?_append_left inside]
  · rwa [List.getElem?_append_left inside']

/-- Neighbours stay neighbours when others come before the chain. -/
theorem append_left (precedes : Precedes second node next) (first : List Node) :
    Precedes (first ++ second) node next := by
  obtain ⟨index, isNode, isNext⟩ := precedes
  refine ⟨first.length + index, ?_, ?_⟩
  · rwa [List.getElem?_append_right (by omega), Nat.add_sub_cancel_left]
  · rwa [Nat.add_assoc, List.getElem?_append_right (by omega), Nat.add_sub_cancel_left]

end Node.Precedes

section Sections

variable {origin pool : Pool} {threads : List ScheduleThread} {layout : Layout} {job : Job}
  (owning : ScheduleThread.Owning origin threads)
include owning

/-- A step leads from one node of a section to the next. -/
theorem Unfolding.Owned.exists_section_of_precedes {node next : Node}
    (isStep : next.incoming.takeSnapshot = false) {sections : List ScheduledPath} :
    ∀ {unfolding last : Unfolding} {index : Nat}, unfolding.Owned origin pool threads →
      (∀ scheduled ∈ sections, ∃ thread, scheduled.Belongs origin pool threads thread) →
      (sections.zipIdx index).foldlM (addSection layout job) unfolding = .ok last →
      Node.Precedes last.nodes node next → Node.Precedes unfolding.nodes node next ∨
        ∃ earlier scheduled rest middle after base nodes, sections = earlier ++ scheduled :: rest ∧
          (earlier.zipIdx index).foldlM (addSection layout job) unfolding = .ok middle ∧
          Lays layout scheduled middle after base nodes ∧ Node.Precedes nodes node next := by
  induction sections with
  | nil =>
      intro unfolding last index _ _ folded precedes
      cases folded
      exact .inl precedes
  | cons scheduled rest others =>
      intro unfolding last index owned belongs folded precedes
      rw [List.zipIdx_cons, List.foldlM_cons] at folded
      obtain ⟨after, added, folded⟩ := Outcome.bind_eq_ok.mp folded
      obtain ⟨thread, here⟩ := belongs _ List.mem_cons_self
      obtain ⟨base, nodes, lays, ownedAfter⟩ := owned.exists_lays owning here added
      rcases others ownedAfter (fun later isLater => belongs later (List.mem_cons_of_mem _ isLater))
        folded precedes with before | ⟨earlier, found, more, middle, last, base, nodes, rfl,
          foldedEarlier, laysFound, inside⟩
      · rw [lays.added] at before
        rcases before.append_cases with before | inside | isHead
        · exact .inl before
        · exact .inr ⟨[], scheduled, rest, unfolding, after, base, nodes, rfl, rfl, lays, inside⟩
        · -- The first node of a section reads the environment.
          have reads := lays.laid.read next isHead
          rw [isStep] at reads
          cases reads
      · refine .inr ⟨scheduled :: earlier, found, more, middle, last, base, nodes, rfl, ?_,
          laysFound, inside⟩
        rw [List.zipIdx_cons, List.foldlM_cons, added]
        exact foldedEarlier

end Sections

/-- What is related to a list with an item in it has, at the place of that item, what is related to
the item. -/
theorem Outcome.exists_append_cons {α β : Type} {Related : α → β → Prop} {item : α} {rest : List α}
    {earlier : List α} : ∀ {answers : List β},
      List.Forall₂ Related (earlier ++ item :: rest) answers →
        ∃ earlier' answer rest', answers = earlier' ++ answer :: rest' ∧
          List.Forall₂ Related earlier earlier' ∧ Related item answer := by
  induction earlier with
  | nil =>
      intro answers related
      cases related with
      | cons here _ => exact ⟨[], _, _, rfl, .nil, here⟩
  | cons first earlier others =>
      intro answers related
      cases related with
      | cons here related =>
          obtain ⟨earlier', answer, rest', rfl, before, found⟩ := others related
          exact ⟨_ :: earlier', answer, rest', rfl, .cons here before, found⟩

/-- A scheduled path stands in its pathway where its indices say. -/
theorem ScheduledPath.getElem?_of_mem_ofPathways {chosen : List Pathway}
    {scheduled : ScheduledPath} (member : scheduled ∈ ofPathways chosen) :
    ∃ pathway, chosen[scheduled.thread]? = some pathway ∧
      pathway.sections[scheduled.part]? = some scheduled.path := by
  obtain ⟨⟨pathway, thread⟩, isPathway, member⟩ := List.mem_flatMap.mp member
  obtain ⟨⟨path, part⟩, isPath, rfl⟩ := List.mem_map.mp member
  exact ⟨pathway, List.mem_zipIdx_iff_getElem?.mp isPathway, List.mem_zipIdx_iff_getElem?.mp isPath⟩

/-- Pathways of the same threads have their sections in the same places. -/
theorem Pathway.Stroll.places {timing : ScheduleTiming} {pool : Pool}
    {threads : List ScheduleThread} {chosen : List Pathway}
    (stroll : Pathway.Stroll timing pool threads chosen) :
    ((ScheduledPath.ofPathways chosen).mergeSort ScheduledPath.startsBefore).map
        (fun scheduled => (scheduled.thread, scheduled.part)) =
      (ScheduleThread.interleaved threads).map fun one => (one.thread, one.part) := by
  rw [← stroll.map_snd_interleaved, ← stroll.map_fst_interleaved, List.map_map, List.map_map]
  rfl

/-- Pathways that differ in one thread make twin sections. -/
theorem Pathway.Stroll.twins {timing : ScheduleTiming} {pool : Pool}
    {threads : List ScheduleThread} {chosen chosen' : List Pathway}
    (stroll : Pathway.Stroll timing pool threads chosen)
    (stroll' : Pathway.Stroll timing pool threads chosen') {place : Nat}
    (same : ∀ other, other ≠ place → chosen[other]? = chosen'[other]?) :
    List.Forall₂ (ScheduledPath.Twins place)
      ((ScheduledPath.ofPathways chosen).mergeSort ScheduledPath.startsBefore)
      ((ScheduledPath.ofPathways chosen').mergeSort ScheduledPath.startsBefore) := by
  have places := stroll.places.trans stroll'.places.symm
  rw [← List.forall₂_eq_eq_eq, List.forall₂_map_left_iff, List.forall₂_map_right_iff] at places
  rw [List.forall₂_iff_zip] at places ⊢
  refine ⟨places.1, fun {scheduled scheduled'} isPair => ?_⟩
  obtain ⟨isOne, isOther⟩ := List.of_mem_zip isPair
  obtain ⟨sameThread, samePart⟩ := Prod.mk.inj (places.2 isPair)
  refine ⟨sameThread, samePart, fun elsewhere => ?_⟩
  obtain ⟨pathway, isPathway, isPath⟩ :=
    ScheduledPath.getElem?_of_mem_ofPathways (List.mem_mergeSort.mp isOne)
  obtain ⟨pathway', isPathway', isPath'⟩ :=
    ScheduledPath.getElem?_of_mem_ofPathways (List.mem_mergeSort.mp isOther)
  rw [← sameThread, ← same _ elsewhere, isPathway] at isPathway'
  cases isPathway'
  rw [← samePart, isPath] at isPath'
  exact Option.some.inj isPath'

/-- One thread can take another pathway while the others keep theirs. -/
theorem Pathway.Stroll.set {timing : ScheduleTiming} {pool : Pool} {threads : List ScheduleThread}
    {chosen : List Pathway} (stroll : Pathway.Stroll timing pool threads chosen) {place : Nat}
    {thread : ScheduleThread} (isThread : threads[place]? = some thread) {pathway : Pathway}
    (entry : pathway.entry = pool)
    (strolls : Strolls timing pool thread.sections pathway.sections) :
    Pathway.Stroll timing pool threads (chosen.set place pathway) := by
  unfold Pathway.Stroll at *
  rw [List.forall₂_iff_get] at stroll ⊢
  refine ⟨stroll.1.trans (List.length_set ..).symm, fun other inside inside' => ?_⟩
  rw [List.length_set] at inside'
  rw [List.get_eq_getElem, List.get_eq_getElem, List.getElem_set]
  by_cases here : place = other
  · subst here
    rw [if_pos rfl]
    rw [List.getElem?_eq_getElem inside] at isThread
    cases isThread
    exact ⟨entry, strolls⟩
  · rw [if_neg here]
    exact stroll.2 other inside inside'

namespace SectionPath

variable {path other : SectionPath} {earlier : List SectionStep} {value : Time}

/-- A path shows one pool and one program counter after some of its steps. -/
theorem Shows.unique {count : Nat} {shown shown' : Pool} {counter counter' : ProgramCounter}
    (shows : path.Shows count shown counter) (shows' : path.Shows count shown' counter') :
    shown = shown' ∧ counter = counter' := by
  cases shows with
  | read head found =>
      cases shows' with
      | read head' found' =>
          cases head.symm.trans head'
          cases found.symm.trans found'
          exact ⟨rfl, rfl⟩
  | step isStep found observes =>
      cases shows' with
      | step isStep' found' observes' =>
          cases isStep.symm.trans isStep'
          cases found.symm.trans found'
          cases observes.symm.trans observes'
          exact ⟨rfl, rfl⟩

/-- Up to where it leaves the path, a detour shows the same. -/
theorem Detours.shows (detours : path.Detours earlier value other) {later : List SectionStep}
    (isPath : path.steps = earlier ++ later) {count : Nat} (before : count ≤ earlier.length)
    {shown : Pool} {counter : ProgramCounter} (shows : path.Shows count shown counter) :
    other.Shows count shown counter := by
  obtain ⟨next, more, isOther, _⟩ := detours.steps
  cases shows with
  | @read first root head found =>
      obtain ⟨first', isFirst⟩ : ∃ first', other.steps.head? = some first' :=
        ⟨_, List.head?_eq_some_head (by simp [isOther])⟩
      have same : first'.executable = first.executable := by
        have heads := congrArg List.head? detours.executables
        rw [List.head?_map, List.head?_map, isFirst, head] at heads
        exact Option.some.inj heads
      rw [← detours.snapshot, ← same] at found
      rw [← detours.snapshot]
      exact .read isFirst found
  | @step index step executable observed isStep found observes =>
      have isStep' : other.steps[index]? = some step := by
        rw [isPath, List.getElem?_append_left before] at isStep
        rw [isOther, List.getElem?_append_left before, isStep]
      have sameLength : other.steps.length = path.steps.length := by
        simpa using congrArg List.length detours.executables
      rw [← detours.snapshot] at found
      rw [← detours.observed index before] at observes
      rw [← sameLength]
      exact .step isStep' found observes

end SectionPath

/-- An edge under the constraint of a ringlet can be taken at every time that the ringlet stands
for. -/
theorem ConditionalRinglet.admits_edgeConstraint {conditional : ConditionalRinglet} {value : Time}
    (holds : conditional.condition.satisfiedBy value = true) {edge : KripkeEdge}
    (isConstraint : edge.constraint = conditional.edgeConstraint?) : edge.admits value = true := by
  unfold KripkeEdge.admits
  rw [isConstraint, edgeConstraint?]
  by_cases trivially : conditional.condition.isTrivial = true
  · rw [if_pos trivially]
  · rw [if_neg trivially]
    exact holds

/-- The variation in the making before the first section. -/
def Job.opening (job : Job) : Unfolding :=
  { shared := job.pool
    bases := job.threads.map fun _ => job.pool
    nodes := []
    cycles := []
    now := none
    latest := none }

/-- The nodes of a variation are what its sections add, one after the other in the order of their
starts. -/
theorem Job.Follows.folded {job : Job} {layout : Layout} {chosen : List Pathway}
    {variation : ScheduleVariation} (follows : job.Follows layout chosen)
    (made : job.variation layout chosen = .ok variation) : ∃ last,
      ((ScheduledPath.ofPathways chosen).mergeSort ScheduledPath.startsBefore).zipIdx.foldlM
        (Unfolding.addSection layout job) job.opening = .ok last ∧
      last.nodes = variation.nodes := by
  unfold Job.variation at made
  rw [follows.stroll.map_entry] at made
  obtain ⟨last, folded, made⟩ := Outcome.bind_eq_ok.mp made
  refine ⟨last, folded, ?_⟩
  split at made
  · cases made
  · cases made
    rfl

section Detours

variable {origin : Pool} {job : Job} {layout : Layout} {chosen : List Pathway}
  (descends : Pool.Descends origin job.pool) (owning : ScheduleThread.Owning origin job.threads)
include descends owning

/-- Every scheduled section of chosen pathways belongs to one of the threads of the job. -/
theorem Job.Follows.belongs (follows : job.Follows layout chosen) :
    ∀ scheduled ∈ (ScheduledPath.ofPathways chosen).mergeSort ScheduledPath.startsBefore,
      ∃ thread, scheduled.Belongs origin job.pool job.threads thread := by
  intro scheduled member
  obtain ⟨pathway, isPathway, isPath⟩ :=
    ScheduledPath.mem_ofPathways (List.mem_mergeSort.mp member)
  obtain ⟨thread, isThread, _, strolls⟩ := Outcome.exists_getElem?_left follows.stroll isPathway
  obtain ⟨thread', isThread', _, runsThread⟩ :=
    Outcome.exists_getElem?_left (follows.runs descends) isPathway
  cases isThread.symm.trans isThread'
  obtain ⟨part, _, someSlot, runs⟩ := Outcome.exists_left runsThread.sections isPath
  have keeps : ∀ id ∉ thread.roots, scheduled.path.Keeps job.pool id := by
    intro id foreign
    refine strolls.keeps descends (owning.uncoupled thread (List.mem_of_getElem? isThread)) ?_ _
      isPath
    intro part isPart isRoot
    exact foreign (ScheduleThread.mem_roots.mpr ⟨part, isPart, isRoot⟩)
  refine ⟨thread, isThread, ?_, ⟨runs.after, fun id foreign => (keeps id foreign).after⟩, ?_⟩
  · intro none
    have sameLength := runs.length_eq
    rw [none, List.length_nil] at sameLength
    exact someSlot (List.length_eq_zero_iff.mp sameLength.symm)
  · intro count shown counter shows
    cases shows with
    | read => exact ⟨runs.snapshot, fun id foreign => (keeps id foreign).snapshot⟩
    | step _ _ observes =>
        exact ⟨runs.observedAfter observes, fun id foreign => (keeps id foreign).observed observes⟩

/-- **A detour of one thread** is again a choice of the job, in which the other threads follow the
pathways they did. -/
theorem Job.Follows.exists_detour (follows : job.Follows layout chosen)
    {pathways : List (List Pathway)} (found : job.pathways layout = .ok pathways) {place part : Nat}
    {pathway : Pathway} (isPathway : chosen[place]? = some pathway) {path : SectionPath}
    (isPath : pathway.sections[part]? = some path) {earlier later : List SectionStep}
    {step : SectionStep} (isSteps : path.steps = earlier ++ step :: later) (value : Time) :
    ∃ chosen', job.Follows layout chosen' ∧
      (∀ other, other ≠ place → chosen[other]? = chosen'[other]?) ∧
      ∃ pathway' other, chosen'[place]? = some pathway' ∧
        pathway'.sections[part]? = some other ∧ path.Detours earlier value other := by
  have stroll := follows.stroll
  obtain ⟨thread, isThread, _, strolls⟩ := Outcome.exists_getElem?_left stroll isPathway
  have uncoupled := owning.uncoupled thread (List.mem_of_getElem? isThread)
  obtain ⟨_, _, varied⟩ := Outcome.exists_right (Outcome.mapM_eq_ok_iff.mp found)
    (List.mem_of_getElem? isThread)
  obtain ⟨inside, isPath⟩ := List.getElem?_eq_some_iff.mp isPath
  have split : pathway.sections =
      pathway.sections.take part ++ path :: pathway.sections.drop (part + 1) := by
    rw [← isPath, List.getElem_cons_drop, List.take_append_drop]
  rw [split] at strolls
  obtain ⟨other, rest, strollsOther, detours⟩ := Strolls.exists_detour value isSteps descends
    uncoupled (ScheduleThread.varies varied) strolls
  have inPlace : place < chosen.length := (List.getElem?_eq_some_iff.mp isPathway).choose
  let pathway' : Pathway :=
    { entry := job.pool, sections := pathway.sections.take part ++ other :: rest }
  have strollsSet : Pathway.Stroll layout.timing job.pool job.threads (chosen.set place pathway') :=
    stroll.set isThread rfl strollsOther
  refine ⟨_, follows_of_stroll found strollsSet, ?_, pathway', other,
    List.getElem?_set_self inPlace, ?_, detours⟩
  · exact fun place' elsewhere => (List.getElem?_set_ne (Ne.symm elsewhere)).symm
  · have place : (pathway.sections.take part).length = part := by simp; omega
    rw [List.getElem?_append_right (Nat.le_of_eq place), place, Nat.sub_self]
    rfl

omit descends owning in
/-- The nodes of a section and those of its detour are the same up to the step at which it leaves,
and that step can be taken at the given clock value. -/
theorem ScheduledPath.LaidOut.exists_detour {scheduled scheduled' : ScheduledPath}
    {shared shared' base base' : Pool} {nodes nodes' : List Node} {node : Node}
    (laid : scheduled.LaidOut layout shared base nodes)
    (laid' : scheduled'.LaidOut layout shared' base' nodes')
    (sameThread : scheduled.thread = scheduled'.thread)
    (samePart : scheduled.part = scheduled'.part)
    {earlier later : List SectionStep} {value : Time}
    (isPath : scheduled.path.steps = earlier ++ later)
    (detours : scheduled.path.Detours earlier value scheduled'.path)
    (same : ∀ {shown : Pool} {counter : ProgramCounter},
      scheduled.path.Shows earlier.length shown counter →
        shared.overlaid base shown = shared'.overlaid base' shown)
    (isNode : nodes[earlier.length]? = some node) :
    ∃ node' next', Node.Precedes nodes' node' next' ∧ node'.properties = node.properties ∧
      next'.incoming.takeSnapshot = false ∧
      ∀ target, (next'.incoming.toEdge target).admits value = true := by
  obtain ⟨step, more, isOther, holds⟩ := detours.steps
  have counted := laid'.counted
  rw [isOther, List.length_append, List.length_cons] at counted
  have inside : earlier.length < nodes'.length := by omega
  have inside' : earlier.length + 1 < nodes'.length := by omega
  have isNode' := List.getElem?_eq_getElem inside
  have isNext' := List.getElem?_eq_getElem inside'
  obtain ⟨shown, counter, shows, properties⟩ := laid.shows isNode
  obtain ⟨shown', counter', shows', properties'⟩ := laid'.shows isNode'
  obtain ⟨rfl, rfl⟩ := (detours.shows isPath (Nat.le_refl _) shows).unique shows'
  obtain ⟨step', isStep', takes, constraint⟩ := laid'.steps isNext'
  have isStep : step' = step := by
    rw [isOther, List.getElem?_append_right (Nat.le_refl _), Nat.sub_self] at isStep'
    exact (Option.some.inj isStep').symm
  refine ⟨_, _, ⟨_, isNode', isNext'⟩, ?_, takes, fun target => ?_⟩
  · rw [properties, properties', same shows, sameThread, samePart]
  · exact ConditionalRinglet.admits_edgeConstraint (isStep ▸ holds) constraint

/-- **A detour of a variation.** From any node that a step leads on from, a step leads on at every
clock value, in some variation that shows the same there. -/
theorem Job.exists_detour {variations : List ScheduleVariation}
    (expanded : job.expand layout = .ok variations) {variation : ScheduleVariation}
    (member : variation ∈ variations) {node next : Node}
    (precedes : Node.Precedes variation.nodes node next)
    (isStep : next.incoming.takeSnapshot = false) (value : Time) :
    ∃ other ∈ variations, ∃ node' next', Node.Precedes other.nodes node' next' ∧
      node'.properties = node.properties ∧ next'.incoming.takeSnapshot = false ∧
      ∀ target, (next'.incoming.toEdge target).admits value = true := by
  obtain ⟨chosen, follows, made⟩ := mem_expand expanded member
  obtain ⟨last, folded, isNodes⟩ := follows.folded made
  have stroll := follows.stroll
  have belongs := follows.belongs descends owning
  have owned : job.opening.Owned origin job.pool job.threads :=
    .start descends job.threads _ rfl rfl
  -- The step lies in one section.
  obtain ⟨earlier, scheduled, rest, middle, after, base, nodes, isSorted, foldedEarlier, lays,
    inside⟩ := (owned.exists_section_of_precedes owning isStep belongs folded
      (isNodes ▸ precedes)).resolve_left
      (fun ⟨_, impossible, _⟩ => nomatch impossible)
  have isScheduled : scheduled ∈
      (ScheduledPath.ofPathways chosen).mergeSort ScheduledPath.startsBefore := by simp [isSorted]
  obtain ⟨thread, here⟩ := belongs scheduled isScheduled
  obtain ⟨pathway, isPathway, isPath⟩ :=
    ScheduledPath.getElem?_of_mem_ofPathways (List.mem_mergeSort.mp isScheduled)
  obtain ⟨index, isNode, isNext⟩ := inside
  obtain ⟨step, found, _⟩ := lays.laid.steps isNext
  have isSteps : scheduled.path.steps =
      scheduled.path.steps.take index ++ step :: scheduled.path.steps.drop (index + 1) := by
    obtain ⟨inside, rfl⟩ := List.getElem?_eq_some_iff.mp found
    rw [List.getElem_cons_drop, List.take_append_drop]
  have count : (scheduled.path.steps.take index).length = index := by
    have inside := (List.getElem?_eq_some_iff.mp found).choose
    simp
    omega
  -- There its thread takes a detour, while the others do what they did.
  obtain ⟨pathways, varied, _⟩ := expand_eq_ok expanded
  obtain ⟨chosen', follows', elsewhere, pathway', path', isPathway', isPath', detours⟩ :=
    follows.exists_detour descends owning varied isPathway isPath isSteps value
  obtain ⟨other, isOther, made'⟩ := exists_of_follows expanded follows'
  obtain ⟨last', folded', isNodes'⟩ := follows'.folded made'
  have belongs' := follows'.belongs descends owning
  -- What was laid out before the section is the same outside of the thread.
  have alike := stroll.twins follows'.stroll elsewhere
  rw [isSorted] at alike belongs
  obtain ⟨earlier', scheduled', rest', isSorted', alikeEarlier, twin⟩ :=
    Outcome.exists_append_cons alike
  have isScheduled' : scheduled' ∈
      (ScheduledPath.ofPathways chosen').mergeSort ScheduledPath.startsBefore := by simp [isSorted']
  rw [isSorted'] at belongs' folded'
  obtain ⟨middle', after', base', nodes', before, more, foldedEarlier', lays', isLast'⟩ :=
    owned.exists_section owning belongs' folded'
  have twins : Unfolding.Twins origin job.pool job.threads scheduled.thread middle middle' :=
    .addSections owning alikeEarlier ⟨owned, owned, fun _ _ => rfl⟩
      (fun one isOne => belongs one (List.mem_append_left _ isOne))
      (fun one isOne => belongs' one (List.mem_append_left _ isOne)) foldedEarlier foldedEarlier'
  have isOther' : scheduled'.path = path' := by
    obtain ⟨known, isKnown, isPart⟩ :=
      ScheduledPath.getElem?_of_mem_ofPathways (List.mem_mergeSort.mp isScheduled')
    rw [← twin.thread, isPathway'] at isKnown
    cases isKnown
    rw [← twin.part, isPath'] at isPart
    exact (Option.some.inj isPart).symm
  have based' := lays'.based
  rw [← twin.thread] at based'
  have same : ∀ {shown : Pool} {counter : ProgramCounter},
      scheduled.path.Shows (scheduled.path.steps.take index).length shown counter →
        middle.shared.overlaid base shown = middle'.shared.overlaid base' shown :=
    fun shows => twins.overlaid_eq here.isThread lays.based based' (here.shown shows)
  obtain ⟨node', next', precedes', properties, takes, admits⟩ := lays.laid.exists_detour lays'.laid
    twin.thread twin.part isSteps (isOther' ▸ detours) same (count ▸ isNode)
  refine ⟨other, isOther, node', next', ?_, properties, takes, admits⟩
  rw [← isNodes', isLast']
  exact (precedes'.append_left before).append_right more

end Detours

end TimedKripke
