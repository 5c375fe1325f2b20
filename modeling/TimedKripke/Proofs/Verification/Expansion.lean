import TimedKripke.Proofs.Enumeration.Orbit
import TimedKripke.Proofs.Schedule.Order
import TimedKripke.Verification.Expansion

/-! # The variations of a job

A job has one variation for every choice of one pathway per thread (`Job.expand_eq`,
`Job.mem_expand`, `Job.exists_of_follows`). A variation ends in a node that shows its pool, and
leaves threads that are in order, the latest of whose timeslots ended last
(`ScheduleVariation.Closes`).
-/

namespace TimedKripke

namespace Unfolding

variable {layout : Layout} {job : Job} {unfolding : Unfolding} {scheduled : ScheduledPath × Nat}

/-- The time at which a section reads the environment. -/
def readAt (unfolding : Unfolding) (scheduled : ScheduledPath) : Time :=
  match unfolding.now with
  | some now => max scheduled.start now
  | none => scheduled.start

/-- The variation in the making after a section with the given nodes. -/
def withSection (unfolding : Unfolding) (scheduled : ScheduledPath) (base : Pool)
    (nodes : List Node) (last : Time) : Unfolding :=
  { shared := unfolding.shared.overlaid base scheduled.path.after
    bases := unfolding.bases.set scheduled.thread scheduled.path.after
    nodes := unfolding.nodes ++ nodes
    cycles := unfolding.cycles ++ scheduled.path.steps.map fun step =>
      (step.executable, step.timeslot.idleSteps)
    now := some last
    latest := scheduled.path.steps.foldl
      (fun latest step => some (laterSlot latest step.timeslot)) unfolding.latest }

/-- Laying out a section that has steps and belongs to a thread adds the node of its reading and
those of its steps. -/
theorem addSection_eq {first : SectionStep} {base : Pool}
    (head : scheduled.1.path.steps.head? = some first)
    (based : unfolding.bases[scheduled.1.thread]? = some base) :
    addSection layout job unfolding scheduled =
      scheduled.1.path.snapshot.get first.executable >>= fun root =>
        stepNodes unfolding.shared layout scheduled.1 base 0 (unfolding.readAt scheduled.1)
          scheduled.1.path.steps >>= fun laid =>
            .ok (unfolding.withSection scheduled.1 base
              (unfolding.readNode layout job (scheduled.2 == 0) scheduled.1 base
                (unfolding.readAt scheduled.1) root :: laid.1) laid.2) := by
  unfold addSection
  rw [head, based]
  rfl

/-- A section without steps, or of no thread, is passed over. -/
theorem addSection_eq_self (apart : scheduled.1.path.steps.head? = none ∨
    unfolding.bases[scheduled.1.thread]? = none) :
    addSection layout job unfolding scheduled = .ok unfolding := by
  unfold addSection
  rcases apart with none | none
  · rw [none]
  · rw [none]
    cases scheduled.1.path.steps.head? <;> rfl

/-- Laying out a section passes it over, or adds the node of its reading and those of its steps. -/
theorem addSection_cases {next : Unfolding}
    (added : addSection layout job unfolding scheduled = .ok next) :
    next = unfolding ∨ ∃ first base root nodes last,
      scheduled.1.path.steps.head? = some first ∧
      stepNodes unfolding.shared layout scheduled.1 base 0 (unfolding.readAt scheduled.1)
        scheduled.1.path.steps = .ok (nodes, last) ∧
      next = unfolding.withSection scheduled.1 base
        (unfolding.readNode layout job (scheduled.2 == 0) scheduled.1 base
          (unfolding.readAt scheduled.1) root :: nodes) last := by
  cases head : scheduled.1.path.steps.head? with
  | none =>
      cases (addSection_eq_self (.inl head)).symm.trans added
      exact .inl rfl
  | some first =>
      cases based : unfolding.bases[scheduled.1.thread]? with
      | none =>
          cases (addSection_eq_self (.inr based)).symm.trans added
          exact .inl rfl
      | some base =>
          rw [addSection_eq head based] at added
          obtain ⟨root, _, added⟩ := Outcome.bind_eq_ok.mp added
          obtain ⟨⟨nodes, last⟩, laid, added⟩ := Outcome.bind_eq_ok.mp added
          cases added
          exact .inr ⟨first, base, root, nodes, last, rfl, laid, rfl⟩

end Unfolding

namespace Job

variable {job : Job} {layout : Layout} {chosen : List Pathway} {variations : List ScheduleVariation}

/-- Every thread of the job follows one of its pathways. -/
def Follows (job : Job) (layout : Layout) (chosen : List Pathway) : Prop :=
  List.Forall₂ (fun (thread : ScheduleThread) pathway => ∃ pathways,
    thread.variations job.pool layout.timing = .ok pathways ∧ pathway ∈ pathways)
    job.threads chosen

/-- The choices that a job follows are those that select one pathway for every thread. -/
theorem follows_iff {pathways : List (List Pathway)} (found : job.pathways layout = .ok pathways) :
    job.Follows layout chosen ↔ List.Forall₂ (· ∈ ·) chosen (pathways.map List.toArray) := by
  have related := Outcome.mapM_eq_ok_iff.mp found
  clear found
  unfold Follows
  generalize job.threads = threads at related
  induction related generalizing chosen with
  | nil => cases chosen <;> simp
  | cons here _ others =>
      cases chosen with
      | nil => simp
      | cons pathway chosen =>
          rw [List.map_cons, List.forall₂_cons, List.forall₂_cons]
          exact and_congr (by simp [here]) others

/-- Expanding a job takes every reading of the odometer over the pathways of its threads; if some
thread has no pathway, there is none. -/
theorem expand_eq (job : Job) (layout : Layout) : job.expand layout =
    job.pathways layout >>= fun pathways =>
      (Odometer.allReadings (pathways.map List.length)).mapM fun reading =>
        job.variation layout (Odometer.select reading (pathways.map List.toArray)) := by
  unfold expand
  refine congrArg (job.pathways layout >>= ·) (funext fun pathways => ?_)
  have sizes : (pathways.map List.toArray).map Array.size = pathways.map List.length := by
    simp [List.map_map]
  dsimp only
  rw [sizes]
  split
  · rename_i empty
    obtain ⟨array, isArray, none⟩ := List.any_eq_true.mp empty
    have zero : 0 ∈ pathways.map List.length := by
      rw [← sizes, ← Array.isEmpty_iff_size_eq_zero.mp none]
      exact List.mem_map_of_mem isArray
    rw [Odometer.allReadings_eq_nil zero]
    rfl
  · rename_i full
    rw [Odometer.readings_eq]
    intro size isSize
    obtain ⟨array, isArray, rfl⟩ := List.mem_map.mp (sizes ▸ isSize)
    have some : ¬ array.isEmpty = true :=
      fun none => full (List.any_eq_true.mpr ⟨array, isArray, none⟩)
    rw [Array.isEmpty_iff_size_eq_zero] at some
    omega

/-- Expanding a job makes one variation for every reading of an odometer over the pathways of its
threads, in the order of the readings. -/
theorem expand_eq_ok (expanded : job.expand layout = .ok variations) :
    ∃ pathways, job.pathways layout = .ok pathways ∧
      (Odometer.allReadings (pathways.map List.length)).mapM (fun reading =>
        job.variation layout (Odometer.select reading (pathways.map List.toArray))) =
          .ok variations := by
  rw [expand_eq] at expanded
  exact Outcome.bind_eq_ok.mp expanded

/-- A reading of the odometer chooses a pathway for every thread. -/
theorem follows_select {pathways : List (List Pathway)}
    (found : job.pathways layout = .ok pathways) {reading : List Nat}
    (isReading : reading ∈ Odometer.allReadings (pathways.map List.length)) :
    job.Follows layout (Odometer.select reading (pathways.map List.toArray)) := by
  refine (follows_iff found).mpr (Odometer.mem_select ?_)
  have within := Odometer.mem_allReadings.mp isReading
  simpa [List.map_map] using within

/-- Every variation of a job follows pathways of its threads. -/
theorem mem_expand (expanded : job.expand layout = .ok variations) {variation : ScheduleVariation}
    (member : variation ∈ variations) :
    ∃ chosen, job.Follows layout chosen ∧ job.variation layout chosen = .ok variation := by
  obtain ⟨pathways, found, all⟩ := expand_eq_ok expanded
  obtain ⟨reading, isReading, made⟩ := Outcome.mem_of_mapM all member
  exact ⟨_, follows_select found isReading, made⟩

/-- Whatever pathways the threads follow, there is a variation for them. -/
theorem exists_of_follows (expanded : job.expand layout = .ok variations)
    (follows : job.Follows layout chosen) :
    ∃ variation ∈ variations, job.variation layout chosen = .ok variation := by
  obtain ⟨pathways, found, all⟩ := expand_eq_ok expanded
  obtain ⟨reading, within, rfl⟩ := Odometer.exists_select ((follows_iff found).mp follows)
  have isReading : reading ∈ Odometer.allReadings (pathways.map List.length) := by
    rw [Odometer.mem_allReadings]
    simpa [List.map_map] using within
  exact Outcome.exists_of_mapM all isReading

end Job

/-- A scheduled path is one of the sections of its pathway. -/
theorem ScheduledPath.mem_ofPathways {chosen : List Pathway} {scheduled : ScheduledPath} :
    scheduled ∈ ofPathways chosen → ∃ pathway, chosen[scheduled.thread]? = some pathway ∧
      scheduled.path ∈ pathway.sections := by
  intro member
  obtain ⟨⟨pathway, thread⟩, isPathway, member⟩ := List.mem_flatMap.mp member
  obtain ⟨⟨path, part⟩, isPath, rfl⟩ := List.mem_map.mp member
  exact ⟨pathway, List.mem_zipIdx_iff_getElem?.mp isPathway, (List.mem_zipIdx' isPath).2 ▸
    List.getElem_mem _⟩

/-- The scheduled paths are the sections of all pathways, thread by thread. -/
theorem ScheduledPath.map_path_ofPathways (chosen : List Pathway) :
    (ofPathways chosen).map path = chosen.flatMap Pathway.sections := by
  unfold ofPathways
  rw [List.map_flatMap]
  refine (List.flatMap_congr fun pathway _ =>
    (List.map_map ..).trans (List.zipIdx_map_fst 0 pathway.1.sections)).trans ?_
  rw [← List.flatMap_map, List.zipIdx_map_fst]

/-- The ends of the timeslots that pathways leave are those of the sections they lay out. -/
theorem ScheduledPath.mem_ends_ofPathways {chosen : List Pathway} {time : Time} :
    (time ∈ (chosen.map Pathway.thread).flatMap fun thread =>
        thread.timeslots.map Timeslot.endTime) ↔
      time ∈ ((ofPathways chosen).mergeSort startsBefore).flatMap fun scheduled =>
        scheduled.path.steps.map fun step => step.timeslot.endTime := by
  have sections : (time ∈ ((ofPathways chosen).mergeSort startsBefore).flatMap fun scheduled =>
      scheduled.path.steps.map fun step => step.timeslot.endTime) ↔
      ∃ taken ∈ (ofPathways chosen).map path, time ∈ taken.steps.map fun step =>
        step.timeslot.endTime := by
    simp
  rw [sections, map_path_ofPathways]
  simp only [Pathway.thread, ScheduleThread.new, ScheduleThread.timeslots, SnapshotSection.new,
    List.mem_flatMap, List.mem_map]
  constructor
  · rintro ⟨_, ⟨pathway, isPathway, rfl⟩, slot, ⟨_, isPart, isSlot⟩, rfl⟩
    obtain ⟨path, isPath, rfl⟩ := List.mem_map.mp (List.mem_mergeSort.mp isPart)
    obtain ⟨step, isStep, rfl⟩ := List.mem_map.mp (List.mem_mergeSort.mp isSlot)
    exact ⟨path, ⟨pathway, isPathway, isPath⟩, step, isStep, rfl⟩
  · rintro ⟨path, ⟨pathway, isPathway, isPath⟩, step, isStep, rfl⟩
    refine ⟨_, ⟨pathway, isPathway, rfl⟩, step.timeslot, ⟨_, List.mem_mergeSort.mpr
      (List.mem_map_of_mem isPath), List.mem_mergeSort.mpr (List.mem_map_of_mem isStep)⟩, rfl⟩

namespace Unfolding

/-- The slot is one of those that end last; there is none if there are no ends. -/
def IsLatest (ends : List Time) (latest : Option Timeslot) : Prop :=
  (latest = none → ends = []) ∧
    ∀ slot ∈ latest, slot.endTime ∈ ends ∧ ∀ time ∈ ends, time ≤ slot.endTime

/-- Which slot ends last depends only on which ends there are. -/
theorem IsLatest.congr {ends ends' : List Time} {latest : Option Timeslot}
    (isLatest : IsLatest ends latest) (same : ∀ time, time ∈ ends' ↔ time ∈ ends) :
    IsLatest ends' latest := by
  constructor
  · intro none
    refine List.eq_nil_iff_forall_not_mem.mpr fun time member => ?_
    have impossible := (same time).mp member
    rw [isLatest.1 none] at impossible
    cases impossible
  · intro slot isSlot
    obtain ⟨member, greatest⟩ := isLatest.2 slot isSlot
    exact ⟨(same _).mpr member, fun time isEnd => greatest time ((same time).mp isEnd)⟩

/-- With one more slot, the later one of it and the latest so far is the latest. -/
theorem IsLatest.laterSlot {ends : List Time} {latest : Option Timeslot}
    (isLatest : IsLatest ends latest) (slot : Timeslot) :
    IsLatest (ends ++ [slot.endTime]) (some (laterSlot latest slot)) := by
  refine ⟨fun impossible => (nomatch impossible), fun later isLater => ?_⟩
  cases isLater
  cases latest with
  | none =>
      rw [isLatest.1 rfl]
      simp [Unfolding.laterSlot]
  | some latest =>
      obtain ⟨member, greatest⟩ := isLatest.2 latest rfl
      simp only [Unfolding.laterSlot]
      split
      · rename_i later
        refine ⟨by simp, fun time isEnd => ?_⟩
        rcases List.mem_append.mp isEnd with earlier | here
        · exact UInt64.le_trans (greatest time earlier) later
        · rw [List.mem_singleton.mp here]
          exact UInt64.le_refl _
      · rename_i earlier
        refine ⟨List.mem_append_left _ member, fun time isEnd => ?_⟩
        rcases List.mem_append.mp isEnd with isEarlier | here
        · exact greatest time isEarlier
        · rw [List.mem_singleton.mp here]
          exact UInt64.le_of_lt (UInt64.not_le.mp earlier)

/-- The latest slot is kept up over the steps of a section. -/
theorem IsLatest.steps (steps : List SectionStep) : ∀ {ends : List Time} {latest : Option Timeslot},
    IsLatest ends latest → IsLatest (ends ++ steps.map fun step => step.timeslot.endTime)
      (steps.foldl (fun latest step =>
          some (Unfolding.laterSlot latest step.timeslot)) latest) := by
  induction steps with
  | nil =>
      intro ends latest isLatest
      simpa using isLatest
  | cons step rest others =>
      intro ends latest isLatest
      simpa using others (isLatest.laterSlot step.timeslot)

/-- What holds of a variation in the making after some sections. -/
structure Laid (origin : Pool) (layout : Layout) (job : Job) (threads : Nat)
    (done : List ScheduledPath) (unfolding : Unfolding) : Prop where
  shared : Pool.Descends origin unfolding.shared
  bases : unfolding.bases.length = threads
  unstarted : done = [] → unfolding.nodes = []
  /-- Runs may start at the first node if they may start with the job. -/
  started : done ≠ [] → ∃ first, unfolding.nodes.head? = some first ∧ first.isInitial = job.initial
  /-- The last node shows the shared pool. -/
  ended : done ≠ [] → ∃ last counter slot, unfolding.nodes.getLast? = some last ∧
    last.properties = layout.properties unfolding.shared counter slot
  /-- The latest timeslot is known. -/
  latest : IsLatest (done.flatMap fun scheduled =>
    scheduled.path.steps.map fun step => step.timeslot.endTime) unfolding.latest

/-- The nodes of a section end by showing the pool after it. -/
theorem stepNodes_ended {shared base : Pool} {layout : Layout} {scheduled : ScheduledPath}
    {origin : Pool} {slots : List Timeslot} (runs : scheduled.path.Runs origin slots)
    {steps : List SectionStep} : ∀ {index : Nat} {time last : Time} {nodes : List Node},
    index + steps.length = scheduled.path.steps.length → steps ≠ [] →
    stepNodes shared layout scheduled base index time steps = .ok (nodes, last) →
      ∃ node counter slot, nodes.getLast? = some node ∧ node.properties =
        layout.properties (shared.overlaid base scheduled.path.after) counter slot := by
  induction steps with
  | nil => exact fun _ impossible => absurd rfl impossible
  | cons step rest others =>
      intro index time last nodes placed _ laid
      rw [stepNodes] at laid
      obtain ⟨executable, _, laid⟩ := Outcome.bind_eq_ok.mp laid
      obtain ⟨observed, shown, laid⟩ := Outcome.bind_eq_ok.mp laid
      obtain ⟨⟨later, final⟩, laidLater, laid⟩ := Outcome.bind_eq_ok.mp laid
      cases laid
      cases rest with
      | nil =>
          cases laidLater
          rw [runs.observedAfter_last placed] at shown
          cases shown
          exact ⟨_, _, _, rfl, rfl⟩
      | cons second more =>
          obtain ⟨node, counter, slot, isLast, shows⟩ := others
            (by simp only [List.length_cons] at placed ⊢; omega) (List.cons_ne_nil _ _) laidLater
          refine ⟨node, counter, slot, ?_, shows⟩
          rw [List.getLast?_cons, isLast]
          rfl

/-- Before its first section a variation has nothing laid, and every thread stands at the pool of
the job. -/
theorem Laid.start {origin : Pool} {layout : Layout} {job : Job}
    (descends : Pool.Descends origin job.pool) {bases : List Pool} {threads : Nat}
    (counted : bases.length = threads) :
    Laid origin layout job threads []
      { shared := job.pool, bases, nodes := [], cycles := [], now := none, latest := none } where
  shared := descends
  bases := counted
  unstarted := fun _ => rfl
  started := fun impossible => absurd rfl impossible
  ended := fun impossible => absurd rfl impossible
  latest := ⟨fun _ => rfl, fun _ impossible => (nomatch impossible)⟩

/-- Laying out one more section keeps what holds of a variation in the making. -/
theorem Laid.addSection {origin : Pool} {layout : Layout} {job : Job} {threads : Nat}
    {done : List ScheduledPath} {unfolding next : Unfolding}
    (laid : Laid origin layout job threads done unfolding) {scheduled : ScheduledPath}
    (isThread : scheduled.thread < threads) {slots : List Timeslot} (someSlot : slots ≠ [])
    (runs : scheduled.path.Runs origin slots)
    (added : Unfolding.addSection layout job unfolding (scheduled, done.length) = .ok next) :
    Laid origin layout job threads (done ++ [scheduled]) next := by
  have someStep : scheduled.path.steps ≠ [] := by
    intro none
    have sameLength := runs.length_eq
    rw [none, List.length_nil] at sameLength
    exact someSlot (List.length_eq_zero_iff.mp sameLength.symm)
  obtain ⟨first, head⟩ : ∃ first, scheduled.path.steps.head? = some first :=
    ⟨_, List.head?_eq_some_head someStep⟩
  obtain ⟨base, based⟩ : ∃ base, unfolding.bases[scheduled.thread]? = some base :=
    ⟨_, List.getElem?_eq_getElem (laid.bases ▸ isThread)⟩
  rw [addSection_eq head based] at added
  obtain ⟨root, _, added⟩ := Outcome.bind_eq_ok.mp added
  obtain ⟨⟨nodes, last⟩, stepped, added⟩ := Outcome.bind_eq_ok.mp added
  cases added
  obtain ⟨node, counter, slot, isLast, shows⟩ :=
    stepNodes_ended runs (Nat.zero_add _) someStep stepped
  refine ⟨laid.shared.overlaid runs.after base, ?_, ?_, ?_, ?_, ?_⟩
  · rw [withSection, List.length_set]
    exact laid.bases
  · intro none
    simp at none
  · intro _
    by_cases isFirst : done = []
    · rw [withSection, laid.unstarted isFirst]
      refine ⟨_, rfl, ?_⟩
      simp [readNode, isFirst]
    · obtain ⟨node, isHead, initial⟩ := laid.started isFirst
      refine ⟨node, ?_, initial⟩
      rw [withSection, List.head?_append, isHead]
      rfl
  · intro _
    refine ⟨node, counter, slot, ?_, shows⟩
    rw [withSection, List.getLast?_append, List.getLast?_cons, isLast]
    rfl
  · have later := laid.latest.steps scheduled.path.steps
    simpa [withSection] using later

/-- Laying out several sections keeps it, by induction on the sections. -/
theorem Laid.addSections {origin : Pool} {layout : Layout} {job : Job} {threads : Nat}
    {sections : List ScheduledPath} : ∀ {done : List ScheduledPath} {unfolding final : Unfolding},
    (∀ scheduled ∈ sections, scheduled.thread < threads ∧
      ∃ slots, slots ≠ [] ∧ scheduled.path.Runs origin slots) →
    Laid origin layout job threads done unfolding →
    (sections.zipIdx done.length).foldlM (Unfolding.addSection layout job) unfolding = .ok final →
      Laid origin layout job threads (done ++ sections) final := by
  induction sections with
  | nil =>
      intro done unfolding final _ laid folded
      cases folded
      rwa [List.append_nil]
  | cons scheduled rest others =>
      intro done unfolding final each laid folded
      rw [List.zipIdx_cons, List.foldlM_cons] at folded
      obtain ⟨next, added, folded⟩ := Outcome.bind_eq_ok.mp folded
      obtain ⟨isThread, slots, someSlot, runs⟩ := each scheduled List.mem_cons_self
      have longer : (done ++ [scheduled]).length = done.length + 1 := by simp
      rw [← longer] at folded
      have laidLater := others (fun later member => each later (List.mem_cons_of_mem _ member))
        (laid.addSection isThread someSlot runs added) folded
      rwa [List.append_assoc] at laidLater

end Unfolding

/-- What is left when a cycle that started as a given job closes. -/
structure ScheduleVariation.Closes (origin : Pool) (layout : Layout) (job : Job)
    (variation : ScheduleVariation) : Prop where
  pool : Pool.Descends origin variation.pool
  /-- The threads are in order. -/
  threads : variation.threads.map ScheduleThread.uncounted =
    job.threads.map fun thread => thread.ordered.uncounted
  /-- The timeslot that ended last is the latest one. -/
  latest : Unfolding.IsLatest (variation.threads.flatMap fun thread =>
    thread.timeslots.map Timeslot.endTime) (some variation.lastSlot)
  /-- Runs may start at the first node if they may start with the job. -/
  started : ∃ first, variation.nodes.head? = some first ∧ first.isInitial = job.initial
  /-- The last node shows the pool. -/
  ended : ∃ last counter slot, variation.nodes.getLast? = some last ∧
    last.properties = layout.properties variation.pool counter slot

namespace Job

variable {job : Job} {layout : Layout} {origin : Pool}

/-- Chosen pathways start from the pool of the job and run through the sections of their threads. -/
theorem Follows.runs (descends : Pool.Descends origin job.pool) {chosen : List Pathway}
    (follows : job.Follows layout chosen) : List.Forall₂ (fun (thread : ScheduleThread) pathway =>
      Pathway.entry pathway = job.pool ∧ pathway.Runs origin thread.sections) job.threads chosen :=
  List.Forall₂.imp (fun _ pathway ⟨_, varied, member⟩ =>
    ScheduleThread.runs_of_variations descends varied pathway member) follows

/-- **Variations close their cycles**: their last node shows the pool in which they end, and the
latest timeslot is the one that ends last. -/
theorem closes_of_variation (descends : Pool.Descends origin job.pool) {chosen : List Pathway}
    (follows : job.Follows layout chosen) {variation : ScheduleVariation}
    (made : job.variation layout chosen = .ok variation) : variation.Closes origin layout job := by
  have runs := follows.runs descends
  have each : ∀ scheduled ∈ (ScheduledPath.ofPathways chosen).mergeSort ScheduledPath.startsBefore,
      scheduled.thread < chosen.length ∧
        ∃ slots, slots ≠ [] ∧ scheduled.path.Runs origin slots := by
    intro scheduled member
    obtain ⟨pathway, isPathway, isPath⟩ :=
      ScheduledPath.mem_ofPathways (List.mem_mergeSort.mp member)
    obtain ⟨thread, _, _, runsThread⟩ :=
      Outcome.exists_left runs (List.mem_of_getElem? isPathway)
    obtain ⟨part, _, runsPath⟩ := Outcome.exists_left runsThread.sections isPath
    exact ⟨(List.getElem?_eq_some_iff.mp isPathway).choose, _, runsPath⟩
  unfold Job.variation at made
  obtain ⟨unfolded, folded, made⟩ := Outcome.bind_eq_ok.mp made
  have laid := Unfolding.Laid.addSections each (.start descends (List.length_map ..)) folded
  rw [List.nil_append] at laid
  cases last : unfolded.latest with
  | none =>
      rw [last] at made
      cases made
  | some slot =>
      rw [last] at made
      cases made
      have latest := laid.latest
      rw [last] at latest
      have someSection : (ScheduledPath.ofPathways chosen).mergeSort
          ScheduledPath.startsBefore ≠ [] := by
        intro none
        have impossible := (latest.2 slot rfl).1
        simp [none] at impossible
      refine ⟨laid.shared, ?_, latest.congr fun time => ?_, laid.started someSection,
        laid.ended someSection⟩
      · have same : List.Forall₂ (· = ·) ((chosen.map Pathway.thread).map ScheduleThread.uncounted)
            (job.threads.map fun thread => thread.ordered.uncounted) := by
          rw [List.map_map, List.forall₂_map_left_iff, List.forall₂_map_right_iff]
          exact (runs.imp fun _ _ run => run.2.thread).flip
        rwa [List.forall₂_eq_eq_eq] at same
      · exact ScheduledPath.mem_ends_ofPathways

end Job

end TimedKripke
