import TimedKripke.Proofs.Variation.Progress
import TimedKripke.Proofs.Verification.Expansion

/-! # Where nodes stand

The nodes of a variation stand at the stations of its sections: one where the environment is
read and one after every step (`Job.standsAt_of_variation`). The first node is initial if the job
is, the others are not. Whatever job can be expanded has a variation
(`Job.exists_variation`), and every variation has nodes. Nothing is asked of the pool.
-/

namespace TimedKripke

/-- A place in a section of a chosen pathway at which a node stands. -/
structure Station where
  scheduled : ScheduledPath
  /-- The step that the node belongs to; for the reading of the environment the first. -/
  index : Nat
  phase : Phase

namespace Station

/-- The place of the station's timeslot among all timeslots. -/
def slot (station : Station) (layout : Layout) : Nat :=
  layout.firstSlot station.scheduled.thread station.scheduled.part + station.index

/-- The node shows some pool at the place of the station. -/
def ShownBy (layout : Layout) (node : Node) (station : Station) : Prop :=
  ∃ step executable pool state, station.scheduled.path.steps[station.index]? = some step ∧
    station.scheduled.path.snapshot.get step.executable = .ok executable ∧
    node.properties = layout.properties pool
      { executable := executable.name, state, phase := station.phase } (station.slot layout)

end Station

namespace ScheduledPath

/-- The stations of the steps from the step at `index` on. -/
def stationsFrom (scheduled : ScheduledPath) : (index : Nat) → List SectionStep → List Station
  | _, [] => []
  | index, _ :: rest =>
      { scheduled, index, phase := if rest.isEmpty then .write else .execute } ::
        scheduled.stationsFrom (index + 1) rest

/-- The stations of a section. -/
def stations (scheduled : ScheduledPath) : List Station :=
  { scheduled, index := 0, phase := .read } :: scheduled.stationsFrom 0 scheduled.path.steps

end ScheduledPath

/-- The stations of the chosen pathways, in the order in which their sections run. -/
def Job.stations (chosen : List Pathway) : List Station :=
  ((ScheduledPath.ofPathways chosen).mergeSort ScheduledPath.startsBefore).flatMap
    ScheduledPath.stations

namespace Unfolding

/-- The nodes after the steps of a section stand at their stations, and none is initial. -/
theorem stepNodes_shown {shared base : Pool} {layout : Layout} {scheduled : ScheduledPath}
    {steps : List SectionStep} : ∀ {index : Nat} {time last : Time} {nodes : List Node},
    scheduled.path.steps.drop index = steps →
    stepNodes shared layout scheduled base index time steps = .ok (nodes, last) →
      List.Forall₂ (Station.ShownBy layout) nodes (scheduled.stationsFrom index steps) ∧
        ∀ node ∈ nodes, node.isInitial = false := by
  induction steps with
  | nil =>
      intro index time last nodes _ laid
      cases laid
      exact ⟨.nil, fun _ impossible => nomatch impossible⟩
  | cons step rest others =>
      intro index time last nodes remaining laid
      rw [stepNodes] at laid
      obtain ⟨executable, found, laid⟩ := Outcome.bind_eq_ok.mp laid
      obtain ⟨observed, shown, laid⟩ := Outcome.bind_eq_ok.mp laid
      obtain ⟨⟨later, final⟩, laidLater, laid⟩ := Outcome.bind_eq_ok.mp laid
      cases laid
      have here : scheduled.path.steps[index]? = some step := by
        rw [← List.head?_drop, remaining]
        rfl
      have remainingLater : scheduled.path.steps.drop (index + 1) = rest := by
        rw [← List.drop_drop, remaining]
        rfl
      obtain ⟨shownLater, notInitial⟩ := others remainingLater laidLater
      refine ⟨.cons ⟨step, executable, _, _, here, found, rfl⟩ shownLater, fun node member => ?_⟩
      rcases List.mem_cons.mp member with rfl | member
      · rfl
      · exact notInitial node member

/-- What holds of the nodes of a variation in the making after some sections. -/
structure Placed (layout : Layout) (job : Job) (threads : Nat) (done : List ScheduledPath)
    (unfolding : Unfolding) : Prop where
  bases : unfolding.bases.length = threads
  nodes : List.Forall₂ (Station.ShownBy layout) unfolding.nodes
    (done.flatMap ScheduledPath.stations)
  first : ∀ node ∈ unfolding.nodes.head?, node.isInitial = job.initial
  later : ∀ node ∈ unfolding.nodes.tail, node.isInitial = false
  latest : done = [] → unfolding.latest = none

/-- Laying out one more section puts its nodes in their places. -/
theorem Placed.addSection {layout : Layout} {job : Job} {threads : Nat}
    {done : List ScheduledPath} {unfolding next : Unfolding}
    (placed : Placed layout job threads done unfolding) {scheduled : ScheduledPath}
    (isThread : scheduled.thread < threads) (someStep : scheduled.path.steps ≠ [])
    (added : Unfolding.addSection layout job unfolding (scheduled, done.length) = .ok next) :
    Placed layout job threads (done ++ [scheduled]) next := by
  obtain ⟨first, head⟩ : ∃ first, scheduled.path.steps.head? = some first :=
    ⟨_, List.head?_eq_some_head someStep⟩
  obtain ⟨base, based⟩ : ∃ base, unfolding.bases[scheduled.thread]? = some base :=
    ⟨_, List.getElem?_eq_getElem (placed.bases ▸ isThread)⟩
  rw [addSection_eq head based] at added
  obtain ⟨root, found, added⟩ := Outcome.bind_eq_ok.mp added
  obtain ⟨⟨nodes, last⟩, stepped, added⟩ := Outcome.bind_eq_ok.mp added
  cases added
  obtain ⟨shown, notInitial⟩ := stepNodes_shown List.drop_zero stepped
  have here : scheduled.path.steps[0]? = some first := by rw [← List.head?_eq_getElem?, head]
  have read : Station.ShownBy layout
      (unfolding.readNode layout job (done.length == 0) scheduled base
        (unfolding.readAt scheduled) root) { scheduled, index := 0, phase := .read } :=
    ⟨first, root, _, _, here, found, rfl⟩
  have unstarted : unfolding.nodes = [] ↔ done = [] := by
    rw [← List.length_eq_zero_iff, placed.nodes.length_eq, List.length_eq_zero_iff,
      List.flatMap_eq_nil_iff, List.eq_nil_iff_forall_not_mem]
    exact forall₂_congr fun scheduled _ => ⟨fun impossible => (nomatch impossible), False.elim⟩
  have bases : (unfolding.bases.set scheduled.thread scheduled.path.after).length = threads := by
    rw [List.length_set]
    exact placed.bases
  have stands : List.Forall₂ (Station.ShownBy layout)
      (unfolding.nodes ++ unfolding.readNode layout job (done.length == 0) scheduled base
        (unfolding.readAt scheduled) root :: nodes)
      ((done ++ [scheduled]).flatMap ScheduledPath.stations) := by
    rw [List.flatMap_append, List.flatMap_singleton]
    exact List.rel_append placed.nodes (.cons read shown)
  have someSection : done ++ [scheduled] ≠ [] := by simp
  cases old : unfolding.nodes with
  | nil =>
      refine ⟨bases, stands, ?_, ?_, fun none => absurd none someSection⟩
      · intro node isFirst
        rw [withSection, old] at isFirst
        cases isFirst
        simp [readNode, unstarted.mp old]
      · intro node member
        rw [withSection, old] at member
        exact notInitial node member
  | cons oldest more =>
      have isLater : done ≠ [] := fun none => by simp [unstarted.mpr none] at old
      refine ⟨bases, stands, ?_, ?_, fun none => absurd none someSection⟩
      · intro node isFirst
        rw [withSection, old] at isFirst
        exact placed.first node (by rwa [old])
      · intro node member
        rw [withSection, old, List.cons_append, List.tail_cons] at member
        rcases List.mem_append.mp member with member | member
        · exact placed.later node (by rwa [old])
        · rcases List.mem_cons.mp member with rfl | member
          · simp [readNode, isLater]
          · exact notInitial node member

/-- Laying out several sections puts all their nodes in their places. -/
theorem Placed.addSections {layout : Layout} {job : Job} {threads : Nat}
    {sections : List ScheduledPath} : ∀ {done : List ScheduledPath} {unfolding final : Unfolding},
    (∀ scheduled ∈ sections, scheduled.thread < threads ∧ scheduled.path.steps ≠ []) →
    Placed layout job threads done unfolding →
    (sections.zipIdx done.length).foldlM (Unfolding.addSection layout job) unfolding = .ok final →
      Placed layout job threads (done ++ sections) final := by
  induction sections with
  | nil =>
      intro done unfolding final _ placed folded
      cases folded
      rwa [List.append_nil]
  | cons scheduled rest others =>
      intro done unfolding final each placed folded
      rw [List.zipIdx_cons, List.foldlM_cons] at folded
      obtain ⟨next, added, folded⟩ := Outcome.bind_eq_ok.mp folded
      obtain ⟨isThread, someStep⟩ := each scheduled List.mem_cons_self
      have longer : (done ++ [scheduled]).length = done.length + 1 := by simp
      rw [← longer] at folded
      have placedLater := others (fun later member => each later (List.mem_cons_of_mem _ member))
        (placed.addSection isThread someStep added) folded
      rwa [List.append_assoc] at placedLater

end Unfolding

namespace Job

variable {job : Job} {layout : Layout} {chosen : List Pathway}

/-- The pathways that the threads of a job follow start in its pool and take a step for every
timeslot. -/
theorem Follows.takes (follows : job.Follows layout chosen) :
    List.Forall₂ (fun (thread : ScheduleThread) pathway =>
      Pathway.entry pathway = job.pool ∧ pathway.Takes thread.sections) job.threads chosen :=
  List.Forall₂.imp (fun _ pathway ⟨_, varied, member⟩ =>
    ScheduleThread.takes_of_variations varied pathway member) follows

/-- The sections of the chosen pathways belong to threads and have steps. -/
theorem Follows.steps_ne_nil (follows : job.Follows layout chosen) {scheduled : ScheduledPath}
    (member : scheduled ∈ ScheduledPath.ofPathways chosen) :
    scheduled.thread < chosen.length ∧ scheduled.path.steps ≠ [] := by
  obtain ⟨pathway, isPathway, isPath⟩ := ScheduledPath.mem_ofPathways member
  obtain ⟨thread, _, _, takes⟩ :=
    Outcome.exists_left follows.takes (List.mem_of_getElem? isPathway)
  obtain ⟨part, _, someSlot, takesPath⟩ := Outcome.exists_left takes isPath
  refine ⟨(List.getElem?_eq_some_iff.mp isPathway).choose, fun none => someSlot ?_⟩
  have sameLength := takesPath.length_eq
  rw [none, List.length_nil] at sameLength
  exact List.length_eq_zero_iff.mp sameLength.symm

/-- **The nodes of a variation.** They stand at the stations of the sections that are run; there
is a first one, which is initial if the job is, and no other one is initial. -/
theorem nodes_of_variation (follows : job.Follows layout chosen) {variation : ScheduleVariation}
    (made : job.variation layout chosen = .ok variation) :
    List.Forall₂ (Station.ShownBy layout) variation.nodes (stations chosen) ∧
      ∃ first rest, variation.nodes = first :: rest ∧ first.isInitial = job.initial ∧
        ∀ node ∈ rest, node.isInitial = false := by
  have each : ∀ scheduled ∈ (ScheduledPath.ofPathways chosen).mergeSort ScheduledPath.startsBefore,
      scheduled.thread < chosen.length ∧ scheduled.path.steps ≠ [] := by
    intro scheduled member
    exact follows.steps_ne_nil (List.mem_mergeSort.mp member)
  have start : Unfolding.Placed layout job chosen.length []
      { shared := job.pool, bases := chosen.map Pathway.entry, nodes := [], cycles := [],
        now := none, latest := none } :=
    ⟨List.length_map .., .nil, fun _ impossible => (nomatch impossible),
      fun _ impossible => (nomatch impossible), fun _ => rfl⟩
  unfold Job.variation at made
  obtain ⟨unfolded, folded, made⟩ := Outcome.bind_eq_ok.mp made
  have placed := Unfolding.Placed.addSections each start folded
  rw [List.nil_append] at placed
  cases last : unfolded.latest with
  | none =>
      rw [last] at made
      cases made
  | some slot =>
      rw [last] at made
      cases made
      refine ⟨placed.nodes, ?_⟩
      cases nodes : unfolded.nodes with
      | nil =>
          have nothing := placed.nodes
          rw [nodes, List.forall₂_nil_left_iff, List.flatMap_eq_nil_iff] at nothing
          have noSection : (ScheduledPath.ofPathways chosen).mergeSort
              ScheduledPath.startsBefore = [] :=
            List.eq_nil_iff_forall_not_mem.mpr fun scheduled member =>
              nomatch nothing scheduled member
          rw [placed.latest noSection] at last
          cases last
      | cons first rest =>
          refine ⟨first, rest, rfl, placed.first first ?_, fun node member => ?_⟩
          · rw [nodes]
            rfl
          · refine placed.later node ?_
            rwa [nodes]

/-- **A job that can be expanded can go on**: it has at least one variation. -/
theorem exists_variation {variations : List ScheduleVariation}
    (expanded : job.expand layout = .ok variations) : ∃ variation, variation ∈ variations := by
  obtain ⟨pathways, found, _⟩ := expand_eq_ok expanded
  have each : ∀ thread ∈ job.threads, ∃ pathway, ∃ pathways,
      thread.variations job.pool layout.timing = .ok pathways ∧ pathway ∈ pathways := by
    intro thread isThread
    obtain ⟨ways, _, varied⟩ := Outcome.exists_of_mapM found isThread
    obtain ⟨pathway, member⟩ := ScheduleThread.exists_pathway varied
    exact ⟨pathway, ways, varied, member⟩
  obtain ⟨chosen, follows⟩ := Outcome.exists_forall₂ each
  obtain ⟨variation, member, _⟩ := exists_of_follows expanded follows
  exact ⟨variation, member⟩

end Job

end TimedKripke
