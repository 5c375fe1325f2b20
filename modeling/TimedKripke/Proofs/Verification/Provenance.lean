import TimedKripke.Proofs.Verification.Finality

/-! # Where edges come from

An edge that reads no environment stands for steps of variations that were explored: it is there
because of some step, and it is open at a clock value only if some step is
(`Verify.invariant_sourced`).
-/

namespace TimedKripke

namespace KripkeEdge

/-- The edge from a state with the properties stands for emitted steps. -/
structure Sourced (Emitted : Node → Node → Prop) (properties : PropertyList) (edge : KripkeEdge) :
    Prop where
  step : ∃ node next, Emitted node next ∧ node.properties = properties ∧
    next.incoming.takeSnapshot = false
  /-- The edge is open only if some step is. -/
  admits : ∀ value, edge.admits value = true → ∃ node next, Emitted node next ∧
    node.properties = properties ∧ next.incoming.takeSnapshot = false ∧
      ∀ target, (next.incoming.toEdge target).admits value = true

variable {Emitted : Node → Node → Prop} {properties : PropertyList}

/-- What stands for emitted steps still does if more are emitted. -/
theorem Sourced.mono {Later : Node → Node → Prop} {edge : KripkeEdge}
    (sourced : edge.Sourced Emitted properties)
    (more : ∀ node next, Emitted node next → Later node next) : edge.Sourced Later properties := by
  obtain ⟨node, next, emitted, rest⟩ := sourced.step
  refine ⟨⟨node, next, more node next emitted, rest⟩, fun value admits => ?_⟩
  obtain ⟨node, next, emitted, rest⟩ := sourced.admits value admits
  exact ⟨node, next, more node next emitted, rest⟩

/-- The edge of an emitted step stands for it. -/
theorem sourced_toEdge {node next : Node} (emitted : Emitted node next)
    (isStep : next.incoming.takeSnapshot = false) (target : StateId) :
    (next.incoming.toEdge target).Sourced Emitted node.properties :=
  ⟨⟨node, next, emitted, rfl, isStep⟩,
    fun _ admits => ⟨node, next, emitted, rfl, isStep, fun _ => admits⟩⟩

/-- Adding an edge that stands for steps leaves only such edges, as a widened one stands for the
steps of both. -/
theorem Sourced.insertInto {edge : KripkeEdge} {edges : List KripkeEdge}
    (each : ∀ other ∈ edges, other.takeSnapshot = false → other.Sourced Emitted properties)
    (here : edge.takeSnapshot = false → edge.Sourced Emitted properties) :
    ∀ other ∈ edge.insertInto edges, other.takeSnapshot = false →
      other.Sourced Emitted properties := by
  have inserts := inserts_insertInto edge edges
  generalize edge.insertInto edges = result at inserts
  intro other member isStep
  cases inserts with
  | known => exact each other member isStep
  | @merged before after wide _ same =>
      rcases List.mem_append.mp (List.mem_mergeSort.mp member) with isOld | member
      · exact each other (List.mem_append_left _ isOld) isStep
      · rcases List.mem_cons.mp member with rfl | isOld
        · -- The widened edge stands for the steps of both.
          have sourced := each wide (by simp) isStep
          have takes := (sameTransition_iff.mp same).2.2.1
          refine ⟨sourced.step, fun value admits => ?_⟩
          rcases admits_of_widened admits with admits | admits
          · exact sourced.admits value admits
          · exact (here (takes.symm.trans isStep)).admits value admits
        · exact each other (by simp [isOld]) isStep
  | added =>
      rcases List.mem_append.mp (List.mem_mergeSort.mp member) with isOld | isNew
      · exact each other isOld isStep
      · obtain rfl := List.mem_singleton.mp isNew
        exact here isStep

end KripkeEdge

namespace KripkeStructure

variable {Emitted : Node → Node → Prop} {before after : KripkeStructure}

/-- Every edge that reads no environment stands for emitted steps. -/
def Sourced (Emitted : Node → Node → Prop) (kripke : KripkeStructure) : Prop :=
  ∀ (id : StateId) (state : KripkeState), kripke.states[id]? = some state →
    ∀ edge ∈ state.edges, edge.takeSnapshot = false → edge.Sourced Emitted state.properties

/-- The structure without states has no edges to account for. -/
theorem sourced_empty (Emitted : Node → Node → Prop) : empty.Sourced Emitted :=
  fun _ _ found => by simp [empty] at found

/-- **Writing a node** after one that it follows adds an edge that stands for the step between them.
-/
theorem Adds.sourced {previous : Option StateId} {node : Node} {id : StateId}
    (adds : before.Adds previous node id after) (sourced : before.Sourced Emitted)
    (follows : node.incoming.takeSnapshot = false → ∀ source ∈ previous, ∀ state,
      after.states[source]? = some state →
        ∃ earlier : Node, earlier.properties = state.properties ∧ Emitted earlier node) :
    after.Sourced Emitted := by
  intro query state isState edge member isStep
  have found := isState
  rw [adds.states query] at found
  obtain ⟨old, isOld, rfl⟩ := Option.map_eq_some_iff.mp found
  -- Apart from the new edge, the state has the edges and the properties that it had.
  have kept : ∀ other ∈ old.edges, other.takeSnapshot = false →
      other.Sourced Emitted old.properties := by
    intro other isOther
    split at isOld
    · cases isOld
      unfold settled at isOther ⊢
      split at isOther
      · rename_i stored isStored
        exact sourced _ _ isStored other isOther
      · cases isOther
    · exact sourced _ _ isOld other isOther
  by_cases isSource : previous = some query
  · rw [if_pos isSource] at member ⊢
    refine KripkeEdge.Sourced.insertInto kept (fun isStep => ?_) edge member isStep
    obtain ⟨earlier, same, emitted⟩ := follows isStep query isSource _ isState
    rw [if_pos isSource] at same
    have properties : earlier.properties = old.properties := same
    rw [← properties]
    exact KripkeEdge.sourced_toEdge emitted isStep id
  · rw [if_neg isSource] at member ⊢
    exact kept edge member isStep

/-- Writing a chain of nodes adds edges that stand for the steps of the chain. -/
theorem AddsAll.sourced {previous : Option StateId} {nodes : List Node} {ids : List StateId}
    (adds : AddsAll before previous nodes ids after) : before.Sourced Emitted →
    (∀ node ∈ nodes.head?, node.incoming.takeSnapshot = false → ∀ source ∈ previous, ∀ state,
      before.states[source]? = some state →
        ∃ earlier : Node, earlier.properties = state.properties ∧ Emitted earlier node) →
    (∀ source ∈ previous, source < before.states.size) →
    (∀ node next, Node.Precedes nodes node next → Emitted node next) → after.Sourced Emitted := by
  induction adds with
  | nil => exact fun sourced _ _ _ => sourced
  | @cons before middle _ previous node id nodes _ first _ others =>
      intro sourced start stored steps
      have sourcedMiddle : middle.Sourced Emitted := by
        refine first.sourced sourced fun isStep source isSource state found => ?_
        have known := Array.getElem?_eq_getElem (stored source isSource)
        obtain ⟨earlier, same, emitted⟩ := start node rfl isStep source isSource _ known
        exact ⟨earlier, same.trans (first.grows.properties_eq known found).symm, emitted⟩
      refine others sourcedMiddle ?_ first.stored fun node next precedes =>
        steps node next (precedes.cons _)
      rintro next isNext _ source ⟨⟩ state found
      obtain ⟨kept, isKept, same, _⟩ := first.holds.stored
      cases isKept.symm.trans found
      rw [Option.mem_def, List.head?_eq_getElem?] at isNext
      exact ⟨node, same.symm, steps node next ⟨0, rfl, isNext⟩⟩

/-- Writing chains of nodes that begin with readings adds edges that stand for their steps. -/
theorem AddsEach.sourced {previous : Option StateId} {chains : List (List Node)}
    (adds : AddsEach previous before chains after) (sourced : before.Sourced Emitted)
    (stored : ∀ source ∈ previous, source < before.states.size)
    (reads : ∀ nodes ∈ chains, ∀ node ∈ nodes.head?, node.incoming.takeSnapshot = true)
    (steps : ∀ nodes ∈ chains, ∀ node next, Node.Precedes nodes node next → Emitted node next) :
    after.Sourced Emitted := by
  induction adds with
  | nil => exact sourced
  | cons first _ others =>
      have sourcedFirst := first.sourced sourced (fun node isFirst isStep =>
        Bool.noConfusion ((reads _ List.mem_cons_self node isFirst).symm.trans isStep)) stored
        (steps _ List.mem_cons_self)
      refine others sourcedFirst (fun source isSource => ?_)
        (fun nodes isChain => reads nodes (List.mem_cons_of_mem _ isChain))
        (fun nodes isChain => steps nodes (List.mem_cons_of_mem _ isChain))
      exact Nat.lt_of_lt_of_le (stored source isSource) first.grows.size_le

end KripkeStructure

/-- The first node of a section reads the environment, so that of a variation does. -/
theorem Unfolding.reads_addSection {layout : Layout} {job : Job} {unfolding next : Unfolding}
    {scheduled : ScheduledPath × Nat}
    (reads : ∀ node ∈ unfolding.nodes.head?, node.incoming.takeSnapshot = true)
    (added : addSection layout job unfolding scheduled = .ok next) :
    ∀ node ∈ next.nodes.head?, node.incoming.takeSnapshot = true := by
  rcases addSection_cases added with rfl | ⟨_, _, _, _, _, _, _, rfl⟩
  · exact reads
  · intro node isFirst
    rw [withSection, List.head?_append] at isFirst
    cases isOld : unfolding.nodes.head? with
    | some old =>
        rw [isOld] at isFirst
        cases isFirst
        exact reads _ isOld
    | none =>
        rw [isOld] at isFirst
        cases isFirst
        rfl

/-- Every variation begins with a reading of the environment. -/
theorem Job.reads_of_variation {job : Job} {layout : Layout} {chosen : List Pathway}
    {variation : ScheduleVariation} (made : job.variation layout chosen = .ok variation) :
    ∀ node ∈ variation.nodes.head?, node.incoming.takeSnapshot = true := by
  unfold Job.variation at made
  obtain ⟨last, folded, made⟩ := Outcome.bind_eq_ok.mp made
  have start : ∀ node ∈ ([] : List Node).head?, node.incoming.takeSnapshot = true :=
    fun _ impossible => absurd impossible (Option.not_mem_none _)
  have reads := @Outcome.foldlM_preserves _ _ _ _ (fun _ unfolding =>
    ∀ node ∈ Unfolding.nodes unfolding |>.head?, node.incoming.takeSnapshot = true)
    Unfolding.reads_addSection _ _ _ start folded
  split at made
  · cases made
  · cases made
    exact reads

variable {ν : Type} [KripkeView ν]

/-- **Every edge that reads no environment stands for steps of explored jobs.** -/
theorem Verify.invariant_sourced (layout : Layout) (first : Job) (limit : Time) :
    Invariant layout first limit fun done _ (run : Run ν KripkeStructure) =>
      run.store.Sourced fun node next => ∃ job ∈ done, job.Steps layout node next where
  take := fun _ holds => holds
  apply := by
    intro done taken job variations run after explored sourced expanded ran
    have stored := explored.stored job List.mem_cons_self
    obtain ⟨applied, middle, shown, added, _, _, commits, rfl⟩ :=
      applyJob_added explored.wellFormed stored ran
    obtain ⟨view, committed, count, same⟩ :=
      OnlyShows.forM onlyShows_commit (completed job applied) middle
    rw [commits] at same
    have sameStore : (countJob shown).store = middle.store :=
      (congrArg Run.store same : shown.store = _)
    rw [sameStore]
    refine added.store.sourced ?_ stored ?_ ?_
    · intro id state found edge member isStep
      refine (sourced id state found edge member isStep).mono ?_
      rintro node next ⟨earlier, isEarlier, steps⟩
      exact ⟨earlier, List.mem_append_left _ isEarlier, steps⟩
    · intro nodes isChain
      obtain ⟨variation, isVariation, rfl⟩ := List.mem_map.mp isChain
      obtain ⟨chosen, _, made⟩ := Job.mem_expand expanded isVariation
      exact Job.reads_of_variation made
    · intro nodes isChain node next precedes
      obtain ⟨variation, isVariation, rfl⟩ := List.mem_map.mp isChain
      exact ⟨job, by simp, variations, expanded, variation, isVariation, precedes⟩

/-- **The edges of a verification** that succeeds stand for steps of the jobs it explored. -/
theorem sourced_of_verify {settings : VerificationSettings} {schedule : Schedule} {pool : Pool}
    {raised : ν → Nat → List CancellationToken} {bound : Nat} {view : ν}
    {report : VerificationReport} {run : Run ν KripkeStructure}
    (verified : verify settings schedule pool raised bound view KripkeStructure.empty =
      (.ok report, run)) :
    ∃ all, Explored (Layout.new schedule) (schedule.firstJob pool) all [] run ∧
      run.store.Sourced fun node next =>
          ∃ job ∈ all, job.Steps (Layout.new schedule) node next := by
  obtain ⟨opening, processed, _, worked, _, sameRun, _⟩ := verify_eq_ok verified
  have ends := (Verify.invariant_sourced (Layout.new schedule) (schedule.firstJob pool)
    settings.starvationLimit).processQueue raised bound
      (explored_opening schedule pool opening KripkeStructure.wellFormed_empty)
    (KripkeStructure.sourced_empty _)
  rw [worked] at ends
  cases ends with
  | done all explored sourced =>
      rw [sameRun]
      exact ⟨all, ⟨explored.wellFormed, explored.started, explored.reached, explored.stored,
        explored.traced, explored.resumed⟩, sourced⟩

end TimedKripke
