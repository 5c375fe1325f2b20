import TimedKripke.Proofs.Kripke.Edges
import TimedKripke.Proofs.Verification.Aliasing
import TimedKripke.Proofs.Verification.Unfolding

/-! # Cycles that meet

Where the threads are independent and states tell their positions, nodes that show the same stand
at one position and have one pool. From there on either cycle may go as the other one did
(`Course.splice`), so what may follow a node is determined by what the node shows
(`Job.determined`).
-/

namespace TimedKripke

/-- A beat leaves a descendant of the pool. -/
theorem Beat.Leads.descends {timing : ScheduleTiming} {beat : Beat} {origin pool : Pool}
    {move : Move} (leads : beat.Leads timing pool move) (descends : Pool.Descends origin pool) :
    Pool.Descends origin move.pool := by
  cases leads with
  | read admits _ => exact descends.reads admits
  | execute sampled chosen =>
      obtain ⟨time, executed⟩ := Ringlet.mem_timeAware sampled chosen
      exact Ringlet.execute_descends descends executed

namespace Course

variable {timing : ScheduleTiming} {beats : List Beat} {pool pool' final final' : Pool}
  {moves moves' : List Move}

/-- Every move of a course leaves a descendant of the pool. -/
theorem descends {origin : Pool} (course : Course timing beats pool moves final) :
    Pool.Descends origin pool → ∀ move ∈ moves, Pool.Descends origin move.pool := by
  induction course with
  | nil => exact fun _ _ impossible => absurd impossible List.not_mem_nil
  | cons leads _ others =>
      intro descends move member
      have here := leads.descends descends
      rcases List.mem_cons.mp member with rfl | member
      · exact here
      · exact others here move member

/-- **Courses that meet can be spliced**: up to where they meet one goes on, and from there on the
other one. -/
theorem splice (course : Course timing beats pool moves final) : ∀ {pool' : Pool}
    {moves' : List Move} {index : Nat} {move move' : Move},
      Course timing beats pool' moves' final' → moves[index]? = some move →
      moves'[index]? = some move' → move.pool = move'.pool →
        Course timing beats pool (moves.take (index + 1) ++ moves'.drop (index + 1)) final' := by
  induction course with
  | nil => exact fun _ impossible => nomatch impossible
  | cons leads _ others =>
      intro pool' moves' index move move' course' here there meet
      cases course' with
      | cons leads' later' =>
          cases index with
          | zero =>
              cases here
              cases there
              exact .cons leads (meet ▸ later')
          | succ index => exact .cons leads (others later' here there meet)

end Course

/-- The beat can be had with the executables of a pool. -/
def Beat.Known (origin : Pool) : Beat → Prop
  | .read slots => slots ≠ []
  | .execute slot => ∃ executable, origin.get? slot.executable = some executable

/-- A beat that was had can be had with the executables of the origin. -/
theorem Beat.Leads.known {timing : ScheduleTiming} {beat : Beat} {origin pool : Pool} {move : Move}
    (leads : beat.Leads timing pool move) (descends : Pool.Descends origin pool) :
    beat.Known origin := by
  cases leads with
  | read => exact List.cons_ne_nil _ _
  | execute sampled chosen =>
      obtain ⟨time, executed⟩ := Ringlet.mem_timeAware sampled chosen
      obtain ⟨executable, _, _, _, found, _⟩ := Ringlet.execute_eq_ok executed
      rw [Beat.Known, Pool.exists_get?_iff, Pool.ids_eq_of_frame descends.frame.symm,
        ← Pool.exists_get?_iff]
      exact ⟨executable, found⟩

/-- All beats of a course can be had with the executables of the origin. -/
theorem Course.known {timing : ScheduleTiming} {beats : List Beat} {origin pool final : Pool}
    {moves : List Move} (course : Course timing beats pool moves final) :
    Pool.Descends origin pool → ∀ beat ∈ beats, beat.Known origin := by
  induction course with
  | nil => exact fun _ _ impossible => absurd impossible List.not_mem_nil
  | cons leads _ others =>
      intro descends beat member
      rcases List.mem_cons.mp member with rfl | member
      · exact leads.known descends
      · exact others (leads.descends descends) beat member

namespace Position

/-- What a state shows of a position. -/
def key (position : Position) : Nat × Phase :=
  (position.slot, position.phase)

/-- The positions of timeslots are numbered from that of the first, and none of them is a reading.
-/
theorem mem_ofSlots {first : Nat} {slots : List Timeslot} : ∀ {index : Nat} {time : Time}
    {position : Position}, position ∈ (ofSlots first index time slots).1 →
      ∃ step slot, slots[step]? = some slot ∧ position.slot = first + (index + step) ∧
        position.executable = slot.executable ∧ position.phase ≠ .read := by
  induction slots with
  | nil => exact fun impossible => absurd impossible List.not_mem_nil
  | cons slot rest others =>
      intro index time position member
      rw [ofSlots] at member
      rcases List.mem_cons.mp member with rfl | member
      · refine ⟨0, slot, rfl, rfl, rfl, ?_⟩
        dsimp only
        split <;> exact Phase.noConfusion
      · obtain ⟨step, later, isLater, isSlot, root, phase⟩ := others member
        exact ⟨step + 1, later, isLater, by omega, root, phase⟩

/-- The timeslots of a section stand at different positions. -/
theorem nodup_key_ofSlots (first : Nat) (slots : List Timeslot) : ∀ (index : Nat) (time : Time),
    ((ofSlots first index time slots).1.map key).Nodup := by
  induction slots with
  | nil => exact fun _ _ => .nil
  | cons slot rest others =>
      intro index time
      rw [ofSlots, List.map_cons, List.nodup_cons]
      refine ⟨fun member => ?_, others _ _⟩
      obtain ⟨position, isLater, same⟩ := List.mem_map.mp member
      obtain ⟨step, _, _, isSlot, _⟩ := mem_ofSlots isLater
      have slots := (Prod.mk.inj same).1
      dsimp only at slots
      omega

section Sections

variable {layout : Layout} {predecessor : Option Predecessor} {position : Position}

/-- The positions of a section stand at its timeslots. -/
theorem mem_ofSection {now : Option Time} {placed : Indexed SnapshotSection}
    (someSlot : placed.item.timeslots ≠ [])
    (member : position ∈ (ofSection layout predecessor now placed).1) :
    ∃ step slot, placed.item.timeslots[step]? = some slot ∧
      position.slot = layout.firstSlot placed.thread placed.part + step ∧
      position.executable = slot.executable := by
  rw [ofSection] at member
  rcases List.mem_cons.mp member with rfl | member
  · obtain ⟨slot, slots, isPart⟩ := List.exists_cons_of_ne_nil someSlot
    exact ⟨0, slot, by simp [isPart], rfl, by simp [isPart]⟩
  · obtain ⟨step, slot, isStep, isSlot, root, _⟩ := mem_ofSlots member
    exact ⟨step, slot, isStep, by omega, root⟩

/-- The beats of a section stand at different positions. -/
theorem nodup_key_ofSection (layout : Layout) (predecessor : Option Predecessor) (now : Option Time)
    (placed : Indexed SnapshotSection) :
    ((ofSection layout predecessor now placed).1.map key).Nodup := by
  rw [ofSection, List.map_cons, List.nodup_cons]
  refine ⟨fun member => ?_, nodup_key_ofSlots _ _ _ _⟩
  obtain ⟨position, isLater, same⟩ := List.mem_map.mp member
  obtain ⟨_, _, _, _, _, phase⟩ := mem_ofSlots isLater
  exact phase (Prod.mk.inj same).2

/-- A position among those of some sections is one of a section. -/
theorem mem_ofSections {sections : List (Indexed SnapshotSection)} : ∀ {now : Option Time},
    position ∈ ofSections layout predecessor now sections → ∃ placed ∈ sections,
      ∃ since, position ∈ (ofSection layout predecessor since placed).1 := by
  induction sections with
  | nil => exact fun impossible => absurd impossible List.not_mem_nil
  | cons placed rest others =>
      intro now member
      rw [ofSections] at member
      rcases List.mem_append.mp member with member | member
      · exact ⟨placed, List.mem_cons_self, now, member⟩
      · obtain ⟨later, isLater, since, isPosition⟩ := others member
        exact ⟨later, List.mem_cons_of_mem _ isLater, since, isPosition⟩

/-- **States tell positions apart** in sections whose timeslots have places of their own. -/
theorem nodup_key_ofSections {sections : List (Indexed SnapshotSection)}
    (someSlots : ∀ placed ∈ sections, placed.item.timeslots ≠ [])
    (separate : sections.Pairwise fun first second => ∀ step < first.item.timeslots.length,
      ∀ step' < second.item.timeslots.length, layout.firstSlot first.thread first.part + step ≠
        layout.firstSlot second.thread second.part + step') : ∀ now : Option Time,
    ((ofSections layout predecessor now sections).map key).Nodup := by
  induction sections with
  | nil => exact fun _ => .nil
  | cons placed rest others =>
      intro now
      obtain ⟨here, separateLater⟩ := List.pairwise_cons.mp separate
      rw [ofSections, List.map_append, List.nodup_append]
      refine ⟨nodup_key_ofSection _ _ _ _, others (fun other isOther =>
        someSlots other (List.mem_cons_of_mem _ isOther)) separateLater _, ?_⟩
      rintro shared isHere _ isThere rfl
      obtain ⟨position, isPosition, rfl⟩ := List.mem_map.mp isHere
      obtain ⟨other, isOther, same⟩ := List.mem_map.mp isThere
      obtain ⟨later, isLater, since, inLater⟩ := mem_ofSections isOther
      obtain ⟨step, _, isStep, isSlot, _⟩ :=
        mem_ofSection (someSlots _ List.mem_cons_self) isPosition
      obtain ⟨step', _, isStep', isSlot', _⟩ :=
        mem_ofSection (someSlots _ (List.mem_cons_of_mem _ isLater)) inLater
      refine here later isLater step (List.getElem?_eq_some_iff.mp isStep).choose step'
        (List.getElem?_eq_some_iff.mp isStep').choose ?_
      rw [← isSlot, ← isSlot']
      exact (Prod.mk.inj same).1.symm

end Sections

/-- Where a cycle goes on from matters to its first position only. -/
theorem ofSections_some (layout : Layout) (predecessor predecessor' : Option Predecessor)
    (sections : List (Indexed SnapshotSection)) : ∀ now : Time,
    ofSections layout predecessor (some now) sections =
      ofSections layout predecessor' (some now) sections := by
  induction sections with
  | nil => exact fun _ => rfl
  | cons placed rest others =>
      intro now
      have here : ofSection layout predecessor (some now) placed =
          ofSection layout predecessor' (some now) placed := rfl
      rw [ofSections, ofSections, here, others]

/-- All positions but the first are the same in every cycle: only the first depends on what came
before. -/
theorem getElem?_ofSections_succ (layout : Layout) (predecessor predecessor' : Option Predecessor)
    (sections : List (Indexed SnapshotSection)) (index : Nat) :
    (ofSections layout predecessor none sections)[index + 1]? =
      (ofSections layout predecessor' none sections)[index + 1]? := by
  cases sections with
  | nil => rfl
  | cons placed rest =>
      rw [ofSections, ofSections, ofSections_some layout predecessor predecessor' rest]
      rfl

end Position

/-- Sections have timeslots of their own: no number is shared by two sections. -/
theorem Schedule.separate (schedule : Schedule) :
    (ScheduleThread.interleaved schedule.threads).Pairwise fun first second =>
      ∀ step < first.item.timeslots.length, ∀ step' < second.item.timeslots.length,
        (Layout.new schedule).firstSlot first.thread first.part + step ≠
          (Layout.new schedule).firstSlot second.thread second.part + step' := by
  refine (ScheduleThread.pairwise_interleaved schedule.threads).imp_of_mem ?_
  intro first second isFirst isSecond differ step inside step' inside' same
  obtain ⟨thread, isThread, isPart⟩ := ScheduleThread.getElem?_of_mem_interleaved isFirst
  obtain ⟨thread', isThread', isPart'⟩ := ScheduleThread.getElem?_of_mem_interleaved isSecond
  obtain ⟨threads, parts, _⟩ :=
    Layout.firstSlot_inj isThread isThread' isPart isPart' inside inside' same
  exact differ (Prod.ext threads parts)

/-- The nodes show the moves of a cycle of the threads, from the pool of the job to `final`. -/
structure Job.Presents (layout : Layout) (origin : Pool) (threads : List ScheduleThread) (job : Job)
    (nodes : List Node) (moves : List Move) (final : Pool) : Prop where
  course : Course layout.timing (ScheduleThread.beats threads) job.pool moves final
  /-- The nodes show them. -/
  shows : List.Forall₂ (Node.Shows layout origin) nodes
    ((Job.positions layout { job with threads }).zip moves)

section Reached

variable {layout : Layout} {first job : Job} {origin : Pool} {variations : List ScheduleVariation}
  (descends : Pool.Descends origin first.pool)
  (independent : ScheduleThread.Independent origin first.threads)
  (reached : Job.Reached layout first job) (expanded : job.expand layout = .ok variations)
include descends independent reached expanded

/-- A reached job expands as one with the threads of the first. -/
theorem Job.Reached.expand_threads : ∃ own,
    ({ job with threads := first.threads } : Job).expand layout = .ok own ∧
      own.map ScheduleVariation.uncounted = variations.map ScheduleVariation.uncounted := by
  have alike : Job.Alike { job with threads := first.threads } job :=
    ⟨rfl, (reached.threads descends independent.ordered).symm, rfl, rfl⟩
  have same := alike.expand layout
  rw [expanded] at same
  obtain ⟨own, isOwn, same⟩ := Outcome.map_eq_ok.mp same
  exact ⟨own, isOwn, same⟩

/-- **Variations of reached jobs are courses** of the schedule, whose moves their nodes present. -/
theorem Job.Reached.presents {variation : ScheduleVariation} (member : variation ∈ variations) :
    ∃ moves, job.Presents layout origin first.threads variation.nodes moves variation.pool := by
  obtain ⟨own, isOwn, same⟩ := reached.expand_threads descends independent expanded
  obtain ⟨twin, isTwin, alike⟩ := List.mem_map.mp
    (same ▸ List.mem_map_of_mem member : variation.uncounted ∈ own.map ScheduleVariation.uncounted)
  obtain ⟨nodes, pool⟩ := ScheduleVariation.eq_of_uncounted alike
  have descendsJob := (reached.kept descends).1
  obtain ⟨moves, course, shows⟩ := @Job.course_of_variation { job with threads := first.threads }
    layout origin descendsJob independent own isOwn twin isTwin
  exact ⟨moves, pool ▸ course, nodes ▸ shows⟩

/-- **Courses of reached jobs are variations**: every course of the schedule is presented by the
nodes of one. -/
theorem Job.Reached.exists_presents {moves : List Move} {final : Pool}
    (course : Course layout.timing (ScheduleThread.beats first.threads) job.pool moves final) :
    ∃ variation ∈ variations, variation.pool = final ∧
      job.Presents layout origin first.threads variation.nodes moves final := by
  obtain ⟨own, isOwn, same⟩ := reached.expand_threads descends independent expanded
  have descendsJob := (reached.kept descends).1
  obtain ⟨variation, member, isFinal, shows⟩ :=
    @Job.variation_of_course { job with threads := first.threads } layout origin descendsJob
      independent own isOwn moves final course
  obtain ⟨twin, isTwin, alike⟩ := List.mem_map.mp
    (same ▸ List.mem_map_of_mem member : variation.uncounted ∈
      variations.map ScheduleVariation.uncounted)
  obtain ⟨nodes, pool⟩ := ScheduleVariation.eq_of_uncounted alike
  exact ⟨twin, isTwin, pool.trans isFinal, course, nodes ▸ shows⟩

end Reached

namespace Job.Presents

variable {layout : Layout} {origin : Pool} {threads : List ScheduleThread} {job : Job}
  {nodes : List Node} {moves : List Move} {final : Pool}
  (presents : job.Presents layout origin threads nodes moves final)
include presents

/-- There is one position for every move. -/
theorem length_positions : (Job.positions layout { job with threads }).length = moves.length := by
  have beats := Job.map_beat_positions layout { job with threads }
  rw [presents.course.length_eq, ← beats, List.length_map]

/-- There is one node for every beat. -/
theorem length_nodes : nodes.length = (ScheduleThread.beats threads).length := by
  rw [presents.shows.length_eq, List.length_zip, presents.length_positions, Nat.min_self,
    presents.course.length_eq]

/-- What stands at one place of the nodes, the positions and the moves. -/
theorem exists_shows {index : Nat} {node : Node} (isNode : nodes[index]? = some node) :
    ∃ position move, (Job.positions layout { job with threads })[index]? = some position ∧
      moves[index]? = some move ∧ node.Shows layout origin (position, move) := by
  obtain ⟨⟨position, move⟩, isPair, shows⟩ :=
    Outcome.exists_getElem?_left presents.shows.flip isNode
  obtain ⟨isPosition, isMove⟩ := List.getElem?_zip_eq_some.mp isPair
  exact ⟨position, move, isPosition, isMove, shows⟩

/-- Every move is shown by a node at its place. -/
theorem exists_node {index : Nat} {position : Position} {move : Move}
    (isPosition : (Job.positions layout { job with threads })[index]? = some position)
    (isMove : moves[index]? = some move) :
    ∃ node, nodes[index]? = some node ∧ node.Shows layout origin (position, move) :=
  Outcome.exists_getElem?_left presents.shows (List.getElem?_zip_eq_some.mpr ⟨isPosition, isMove⟩)

end Job.Presents

/-- No constraint of a move is a disjunction, as moves take ringlets with intervals. -/
theorem Course.disjuncts {timing : ScheduleTiming} {beats : List Beat} {pool final : Pool}
    {moves : List Move} (course : Course timing beats pool moves final) : ∀ move ∈ moves,
      ∀ constraint, move.constraint = some constraint → constraint.disjuncts = [constraint] := by
  induction course with
  | nil => exact fun _ impossible => absurd impossible List.not_mem_nil
  | cons leads _ others =>
      intro move member
      rcases List.mem_cons.mp member with rfl | member
      · intro constraint isConstraint
        cases leads with
        | read => cases isConstraint
        | execute sampled chosen => exact Ringlet.disjuncts_timeAware sampled chosen isConstraint
      · exact others move member

/-- One node comes right after another one. -/
def Node.Precedes (nodes : List Node) (node next : Node) : Prop :=
  ∃ index, nodes[index]? = some node ∧ nodes[index + 1]? = some next

/-- Neighbours stay neighbours behind one more node. -/
theorem Node.Precedes.cons {nodes : List Node} {node next : Node}
    (precedes : Node.Precedes nodes node next) (first : Node) :
    Node.Precedes (first :: nodes) node next := by
  obtain ⟨index, isNode, isNext⟩ := precedes
  exact ⟨index + 1, isNode, isNext⟩

/-- In some variation of the job one node comes right after another one. -/
def Job.Steps (layout : Layout) (job : Job) (node next : Node) : Prop :=
  ∃ variations, job.expand layout = .ok variations ∧
    ∃ variation ∈ variations, Node.Precedes variation.nodes node next

/-- What a node shows determines what may follow it. -/
structure Job.Determined (layout : Layout) (first : Job) : Prop where
  /-- After what one cycle ends with no cycle goes on. -/
  inner : ∀ {job other : Job} {node next : Node}, Reached layout first job →
    Reached layout first other → job.Steps layout node next →
      ¬ other.EndsWith layout node.properties
  /-- What may follow in one cycle may follow in the other. -/
  steps : ∀ {job other : Job} {node next node' next' : Node}, Reached layout first job →
    Reached layout first other → job.Steps layout node next → other.Steps layout node' next' →
      node.properties = node'.properties → ∃ twin following, job.Steps layout twin following ∧
        twin.properties = node.properties ∧ following.properties = next'.properties ∧
          following.incoming = next'.incoming
  /-- The edges between nodes are plain. -/
  plain : ∀ {job : Job} {node next : Node}, Reached layout first job →
    job.Steps layout node next → ∀ target, (next.incoming.toEdge target).Plain

section Determined

variable {schedule : Schedule} {pool : Pool} (wellFormed : pool.WellFormed)
  (independent : ScheduleThread.Independent pool schedule.threads)
  (few : schedule.timeslots.length ≤ 18446744073709551616)
  (told : schedule.hasRepeatedExecutables = true ∨
    pool.TellsApart (schedule.timeslots.map Timeslot.executable))

section Positions

variable {job : Job} {nodes : List Node} {moves : List Move} {final : Pool}
  (presents : job.Presents (Layout.new schedule) pool schedule.threads nodes moves final)
  (descends : Pool.Descends pool job.pool)
include presents descends

/-- The sections of the schedule have timeslots, all of whose executables are in the pool. -/
theorem Job.Presents.known {placed : Indexed SnapshotSection}
    (member : placed ∈ ScheduleThread.interleaved schedule.threads) :
    placed.item.timeslots ≠ [] ∧ ∀ slot ∈ placed.item.timeslots,
      ∃ executable, pool.get? slot.executable = some executable := by
  have known : ∀ beat ∈ placed.item.beats, beat.Known pool := fun beat isBeat =>
    presents.course.known descends beat (List.mem_flatMap.mpr ⟨placed, member, isBeat⟩)
  refine ⟨known _ List.mem_cons_self, fun slot isSlot => ?_⟩
  exact known (.execute slot) (List.mem_cons_of_mem _ (List.mem_map_of_mem isSlot))

/-- States tell the positions of a cycle apart, by the number of the timeslot and the phase. -/
theorem Job.Presents.nodup_key : ((Job.positions (Layout.new schedule)
    { job with threads := schedule.threads }).map Position.key).Nodup :=
  Position.nodup_key_ofSections (fun _ member => (presents.known descends member).1)
    schedule.separate none

/-- A position stands at its timeslot of the schedule and has the name of its machine. -/
theorem Job.Presents.exists_timeslot {position : Position} (member : position ∈
    Job.positions (Layout.new schedule) { job with threads := schedule.threads }) :
    ∃ slot executable, schedule.timeslots[position.slot]? = some slot ∧
      pool.get? slot.executable = some executable ∧
      Position.nameOf pool position.executable = executable.name := by
  obtain ⟨placed, isPlaced, _, inSection⟩ := Position.mem_ofSections member
  obtain ⟨someSlot, known⟩ := presents.known descends isPlaced
  obtain ⟨step, slot, isStep, isSlot, root⟩ := Position.mem_ofSection someSlot inSection
  obtain ⟨thread, isThread, isPart⟩ := ScheduleThread.getElem?_of_mem_interleaved isPlaced
  obtain ⟨executable, found⟩ := known slot (List.mem_of_getElem? isStep)
  refine ⟨slot, executable, ?_, found, ?_⟩
  · rw [isSlot]
    exact Layout.timeslot_firstSlot isThread isPart isStep
  · rw [Position.nameOf, root, found]
    rfl

end Positions

/-- Positions that show the same stand in the same place. -/
theorem Position.index_eq_of_key {positions : List Position} (distinct : (positions.map key).Nodup)
    {index index' : Nat} {position position' : Position}
    (isPosition : positions[index]? = some position)
    (isPosition' : positions[index']? = some position') (same : position.key = position'.key) :
    index = index' := by
  have inside : index < (positions.map key).length := by
    rw [List.length_map]
    exact (List.getElem?_eq_some_iff.mp isPosition).choose
  refine (List.getElem?_inj inside distinct).mp ?_
  rw [List.getElem?_map, List.getElem?_map, isPosition, isPosition', Option.map_some,
    Option.map_some, same]

variable (distinct : pool.names.Nodup)
include wellFormed independent few told distinct

section Meeting

variable {job job' : Job} {nodes nodes' : List Node} {moves moves' : List Move}
  {final final' : Pool}
  (presents : job.Presents (Layout.new schedule) pool schedule.threads nodes moves final)
  (presents' : job'.Presents (Layout.new schedule) pool schedule.threads nodes' moves' final')
  (descends : Pool.Descends pool job.pool) (descends' : Pool.Descends pool job'.pool)
include presents presents' descends descends'

omit wellFormed independent in
/-- **Nodes that show the same meet**: they stand in one place and have one pool. -/
theorem Job.Presents.meet {index index' : Nat} {node node' : Node}
    (isNode : nodes[index]? = some node) (isNode' : nodes'[index']? = some node')
    (same : node.properties = node'.properties) : index = index' ∧ ∃ move move',
      moves[index]? = some move ∧ moves'[index']? = some move' ∧ move.pool = move'.pool := by
  obtain ⟨position, move, isPosition, isMove, shows⟩ := presents.exists_shows isNode
  obtain ⟨position', move', isPosition', isMove', shows'⟩ := presents'.exists_shows isNode'
  have shown := shows.properties.symm.trans (same.trans shows'.properties)
  have snapshots : move.pool.snapshot = move'.pool.snapshot :=
    (Prod.mk.inj (List.cons.inj shown).1).2
  have pools : move.pool = move'.pool :=
    (presents.course.descends descends move (List.mem_of_getElem? isMove)).eq_of_snapshot
      (presents'.course.descends descends' move' (List.mem_of_getElem? isMove')) distinct snapshots
  refine ⟨?_, move, move', isMove, isMove', pools⟩
  obtain ⟨slot, executable, isSlot, found, name⟩ :=
    presents.exists_timeslot descends (List.mem_of_getElem? isPosition)
  obtain ⟨slot', executable', isSlot', found', name'⟩ :=
    presents'.exists_timeslot descends' (List.mem_of_getElem? isPosition')
  simp only [Position.properties, name, name'] at shown
  obtain ⟨slots, phases⟩ := Schedule.slot_eq_of_shown few told isSlot isSlot' found found' shown
  have keys : position.key = position'.key := Prod.ext slots phases
  -- Positions of different jobs agree but for the first, so the later place decides where to look.
  have later := Position.getElem?_ofSections_succ (Layout.new schedule) job.predecessor
    job'.predecessor (ScheduleThread.interleaved schedule.threads)
  cases index' with
  | succ index' =>
      exact Position.index_eq_of_key (presents.nodup_key descends) isPosition
        ((later index').trans isPosition') keys
  | zero =>
      cases index with
      | zero => rfl
      | succ index =>
          exact Position.index_eq_of_key (presents'.nodup_key descends')
            ((later index).symm.trans isPosition) isPosition' keys

end Meeting

/-- **What a node shows determines what may follow it**, where the threads are independent and
states tell their positions. -/
theorem Job.determined :
    Job.Determined (Layout.new schedule) (schedule.firstJob pool) where
  inner := by
    rintro job other node next reached reached' ⟨variations, expanded, variation, member, index,
      isNode, isNext⟩ ⟨variations', expanded', variation', member', last, isLast, same⟩
    have descends := reached.kept wellFormed.descends
    have descends' := reached'.kept wellFormed.descends
    obtain ⟨moves, presents⟩ := reached.presents wellFormed.descends independent expanded member
    obtain ⟨moves', presents'⟩ :=
      reached'.presents wellFormed.descends independent expanded' member'
    rw [List.getLast?_eq_getElem?] at isLast
    obtain ⟨place, _⟩ := presents.meet few told distinct presents' descends.1 descends'.1 isNode
      isLast same.symm
    have inside := (List.getElem?_eq_some_iff.mp isNext).choose
    have lengths := presents.length_nodes.trans presents'.length_nodes.symm
    omega
  steps := by
    rintro job other node next node' next' reached reached'
      ⟨variations, expanded, variation, member,
      index, isNode, isNext⟩ ⟨variations', expanded', variation', member', index', isNode', isNext'⟩
      same
    have descends := reached.kept wellFormed.descends
    have descends' := reached'.kept wellFormed.descends
    obtain ⟨moves, presents⟩ := reached.presents wellFormed.descends independent expanded member
    obtain ⟨moves', presents'⟩ :=
      reached'.presents wellFormed.descends independent expanded' member'
    obtain ⟨rfl, move, move', isMove, isMove', meet⟩ := presents.meet few told distinct presents'
      descends.1 descends'.1 isNode isNode' same
    have spliced := presents.course.splice presents'.course isMove isMove' meet
    obtain ⟨twin, isTwin, _, presentsTwin⟩ :=
      reached.exists_presents wellFormed.descends independent expanded spliced
    have taken : (moves.take (index + 1)).length = index + 1 :=
      List.length_take_of_le (List.getElem?_eq_some_iff.mp isMove).choose
    -- Up to the node the twin is as the one cycle, from there on as the other.
    obtain ⟨position, _, isPosition, isOwn, shows⟩ := presents.exists_shows isNode
    cases isMove.symm.trans isOwn
    obtain ⟨here, isHere, showsHere⟩ := presentsTwin.exists_node isPosition (by
      rw [List.getElem?_append_left (by omega), List.getElem?_take_of_lt (Nat.lt_succ_self index)]
      exact isMove)
    obtain ⟨position', after, isPosition', isAfter, shows'⟩ := presents'.exists_shows isNext'
    have later := Position.getElem?_ofSections_succ (Layout.new schedule) job.predecessor
      other.predecessor (ScheduleThread.interleaved schedule.threads) index
    obtain ⟨following, isFollowing, showsFollowing⟩ :=
      presentsTwin.exists_node (later.trans isPosition') (by
        rw [List.getElem?_append_right (by omega), List.getElem?_drop, taken, Nat.sub_self,
          Nat.add_zero]
        exact isAfter)
    exact ⟨here, following, ⟨variations, expanded, twin, isTwin, index, isHere, isFollowing⟩,
      showsHere.properties.trans shows.properties.symm,
      showsFollowing.properties.trans shows'.properties.symm,
      showsFollowing.incoming.trans shows'.incoming.symm⟩
  plain := by
    rintro job node next reached ⟨variations, expanded, variation, member, index, _, isNext⟩ target
    obtain ⟨moves, presents⟩ := reached.presents wellFormed.descends independent expanded member
    obtain ⟨_, move, _, isMove, shows⟩ := presents.exists_shows isNext
    intro constraint isConstraint
    refine presents.course.disjuncts move (List.mem_of_getElem? isMove) constraint ?_
    exact (congrArg Incoming.constraint shows.incoming).symm.trans isConstraint

end Determined

end TimedKripke
