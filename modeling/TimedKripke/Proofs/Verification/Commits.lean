import Mathlib.Data.List.Perm.Subperm
import TimedKripke.Proofs.Verification.Invariants
import TimedKripke.Proofs.Verification.Termination

/-! # What the view receives

A verification keeps books about the states it hands to its view (`Run.Booked`). A state that
is stored has been handed over, or a job that still waits goes on from it (`Run.Accounted`);
when no job waits any more, every state has been handed over once
(`verify_commits_exactly_once`). The statements are about any kind of view: what a view has
become tells which calls it has received in which order (`Receives`).
-/

namespace TimedKripke

variable {ν : Type} [KripkeView ν]

/-- The view takes the calls, one after the other, and becomes `after`. -/
inductive Receives : (view : ν) → List ViewCall → (after : ν) → Prop
  | nil (view : ν) : Receives view [] view
  | cons {view middle after : ν} {call : ViewCall} {calls : List ViewCall}
      (made : call.make view = (.ok (), middle)) (rest : Receives middle calls after) :
      Receives view (call :: calls) after

/-- A view that takes some calls and then others takes them all. -/
theorem Receives.append {view middle after : ν} {calls more : List ViewCall}
    (first : Receives view calls middle) (second : Receives middle more after) :
    Receives view (calls ++ more) after := by
  induction first with
  | nil => exact second
  | cons made _ later => exact .cons made (later second)

/-- A call that a view takes is one that it receives. -/
theorem Receives.single {view after : ν} {call : ViewCall}
    (made : call.make view = (.ok (), after)) : Receives view [call] after :=
  .cons made (.nil _)

/-- The states `commits` were handed to the view since it was `opening`, each once, and the
books say so. -/
structure Run.Booked (opening : ν) (commits : List KripkeState) (run : Run ν KripkeStructure) :
    Prop where
  received : Receives opening (commits.map .commit) run.view
  /-- The states are stored; they may have grown since. -/
  stored : ∀ state ∈ commits, ∃ later, run.store.states[state.id]? = some later ∧
    state.Extends later
  once : (commits.map KripkeState.id).Nodup
  /-- The states count as handed over, and no others. -/
  marked : ∀ id, run.committed.contains id = true ↔ id ∈ commits.map KripkeState.id
  counted : run.stats.statesCommitted = commits.length

/-- What counts as handed over still does when more is handed over. -/
theorem Run.Booked.keeps {opening : ν} {commits more : List KripkeState}
    {run after : Run ν KripkeStructure} (later : after.Booked opening (commits ++ more))
    (booked : run.Booked opening commits) {id : StateId}
    (marked : run.committed.contains id = true) : after.committed.contains id = true := by
  rw [later.marked, List.map_append]
  exact List.mem_append_left _ ((booked.marked id).mp marked)

/-- Every stored state was handed over, or a job that waits goes on from it. -/
def Run.Accounted (waiting : List Job) (run : Run ν KripkeStructure) : Prop :=
  ∀ id < run.store.states.size, run.committed.contains id = true ∨
    ∃ job ∈ waiting, id ∈ job.predecessor.map Predecessor.state

namespace Verify

/-- Handing over a state for the first time shows it to the view, marks it and counts it. -/
theorem commit_new {run after : Run ν KripkeStructure} {id : StateId} {state : KripkeState}
    (found : run.store.states[id]? = some state) (fresh : run.committed.contains id = false)
    (ran : commit id run = (.ok (), after)) :
    KripkeView.commit run.view state = (.ok (), after.view) ∧ after =
      { run with
        view := after.view
        committed := run.committed.insert id
        stats := { run.stats with statesCommitted := run.stats.statesCommitted + 1 } } := by
  have looked := lookup_eq_ok { run with committed := run.committed.insert id } found
  unfold commit at ran
  rw [get_bind, if_neg (by simp [fresh]), modify_bind, bind_of_ok looked] at ran
  obtain ⟨_, last, showStep, ran⟩ := bind_eq_ok ran
  obtain ⟨showed, isLast⟩ := onView_eq_ok showStep
  cases ran
  refine ⟨showed, ?_⟩
  rw [isLast]

/-- **Handing over a state** keeps the books: it is marked afterwards, and was shown now or before.
-/
theorem commit_booked {opening : ν} {commits : List KripkeState} {run after : Run ν KripkeStructure}
    {id : StateId} (wellFormed : run.store.WellFormed) (booked : run.Booked opening commits)
    (stored : id < run.store.states.size) (ran : commit id run = (.ok (), after)) :
    ∃ more, after.Booked opening (commits ++ more) ∧ after.committed.contains id = true ∧
      ∀ state ∈ more, state.id = id ∧ run.store.states[id]? = some state := by
  cases fresh : run.committed.contains id with
  | true =>
      unfold commit at ran
      rw [get_bind, if_pos fresh] at ran
      cases ran
      refine ⟨[], by simpa using booked, fresh, ?_⟩
      exact fun _ impossible => absurd impossible List.not_mem_nil
  | false =>
      have found : run.store.states[id]? = some run.store.states[id] :=
        Array.getElem?_eq_getElem stored
      generalize run.store.states[id] = state at found
      have number := wellFormed.numbered found
      obtain ⟨shown, same⟩ := commit_new found fresh ran
      refine ⟨[state], ⟨?_, ?_, ?_, ?_, ?_⟩, ?_, ?_⟩
      · rw [List.map_append]
        exact booked.received.append (.single shown)
      · intro other member
        rw [same]
        rcases List.mem_append.mp member with member | member
        · exact booked.stored other member
        · rw [List.mem_singleton.mp member, number]
          exact ⟨state, found, .refl state⟩
      · rw [List.map_append]
        refine booked.once.append (List.nodup_singleton _) ?_
        intro other member isNew
        obtain rfl : other = id := (List.mem_singleton.mp isNew).trans number
        rw [(booked.marked other).mpr member] at fresh
        cases fresh
      · intro other
        rw [same, Std.HashSet.contains_insert, Bool.or_eq_true, booked.marked other, beq_iff_eq,
          List.map_append, List.mem_append, List.map_singleton, List.mem_singleton, number,
          or_comm, eq_comm]
      · rw [same, List.length_append, ← booked.counted]
        rfl
      · rw [same]
        simp
      · intro other member
        rw [List.mem_singleton.mp member]
        exact ⟨number, found⟩

/-- Handing over states one after the other keeps the books, and all of them are marked afterwards.
-/
theorem commits_booked {opening : ν} {ids : List StateId} : ∀ {commits : List KripkeState}
    {run after : Run ν KripkeStructure}, run.store.WellFormed → run.Booked opening commits →
      (∀ id ∈ ids, id < run.store.states.size) → ids.forM commit run = (.ok (), after) →
        ∃ more, after.Booked opening (commits ++ more) ∧
          (∀ id ∈ ids, after.committed.contains id = true) ∧
          ∀ state ∈ more, state.id ∈ ids ∧ run.store.states[state.id]? = some state := by
  induction ids with
  | nil =>
      intro commits run after _ booked _ ran
      cases ran
      refine ⟨[], by simpa using booked, ?_, ?_⟩ <;>
        exact fun _ impossible => absurd impossible List.not_mem_nil
  | cons id rest others =>
      intro commits run after wellFormed booked stored ran
      obtain ⟨_, middle, first, later⟩ := bind_eq_ok ran
      have sameStore : middle.store = run.store := by
        obtain ⟨view, committed, shown, same⟩ := onlyShows_commit id run
        rw [first] at same
        exact (congrArg Run.store same : middle.store = _)
      obtain ⟨more, bookedMiddle, isMarked, isHanded⟩ :=
        commit_booked wellFormed booked (stored id List.mem_cons_self) first
      obtain ⟨evenMore, bookedAfter, areMarked, areHanded⟩ :=
        others (sameStore ▸ wellFormed) bookedMiddle
          (fun other member => sameStore ▸ stored other (List.mem_cons_of_mem id member)) later
      refine ⟨more ++ evenMore, by rwa [← List.append_assoc], ?_, ?_⟩
      · intro other member
        rcases List.mem_cons.mp member with rfl | member
        · exact bookedAfter.keeps bookedMiddle isMarked
        · exact areMarked other member
      · intro state member
        rcases List.mem_append.mp member with member | member
        · obtain ⟨number, found⟩ := isHanded state member
          rw [number]
          exact ⟨List.mem_cons_self, found⟩
        · obtain ⟨isLater, found⟩ := areHanded state member
          rw [sameStore] at found
          exact ⟨List.mem_cons_of_mem _ isLater, found⟩

omit [KripkeView ν] in
/-- Writing variations keeps the books, as states are only added. -/
theorem Added.booked [KripkeView ν] {opening : ν} {commits : List KripkeState}
    {previous : Option StateId} {variations : List ScheduleVariation} {applied result : Applied}
    {before after : Run ν KripkeStructure}
    (added : Added previous variations applied result before after)
    (booked : before.Booked opening commits) : after.Booked opening commits where
  received := added.books.view ▸ booked.received
  stored := by
    intro state member
    obtain ⟨later, found, grown⟩ := booked.stored state member
    obtain ⟨last, foundLast, grownLast⟩ := added.store.grows found
    exact ⟨last, foundLast, grown.trans grownLast⟩
  once := booked.once
  marked := added.books.committed ▸ booked.marked
  counted := added.books.counted.trans booked.counted

/-- What applying a job comes to, with what is written and with the states `more` that are handed
to the view. -/
structure Completes (opening : ν) (commits more : List KripkeState) (job : Job)
    (variations : List ScheduleVariation) (applied : Applied)
    (before after : Run ν KripkeStructure) :
    Prop where
  store : KripkeStructure.AddsEach (job.predecessor.map Predecessor.state) before.store
    (variations.map ScheduleVariation.nodes) after.store
  /-- The numbers that were not in use before count as created. -/
  created : applied.created = List.range' before.store.states.size
    (after.store.states.size - before.store.states.size)
  /-- The states from which jobs go on count as deferred. -/
  opened : ∃ opened : List (ScheduleVariation × StateId),
    after.queue = before.queue ++ opened.map (fun next => next.1.successor next.2) ∧
      applied.deferred = opened.map Prod.snd
  booked : after.Booked opening (commits ++ more)
  handed : ∀ id ∈ completed job applied, after.committed.contains id = true
  /-- What is handed over now is completed, and stored as it is handed over. -/
  fresh : ∀ state ∈ more, state.id ∈ completed job applied ∧
    after.store.states[state.id]? = some state

/-- A job completes the state it goes on from and the new states from which no job goes on. -/
theorem Completes.mem_completed {opening : ν} {commits more : List KripkeState} {job : Job}
    {variations : List ScheduleVariation} {applied : Applied} {before after : Run ν KripkeStructure}
    (completes : Completes opening commits more job variations applied before after)
    {id : StateId} :
    id ∈ completed job applied ↔ id ∈ job.predecessor.map Predecessor.state ∨
      before.store.states.size ≤ id ∧ id < after.store.states.size ∧ id ∉ applied.deferred := by
  have grown := Nat.add_sub_cancel' completes.store.grows.size_le
  rw [completed, List.mem_append, Option.mem_toList, List.mem_filter, List.mem_mergeSort,
    completes.created, List.mem_range'_1, grown, and_assoc]
  simp

/-- **Applying a job.** When it succeeds, the variations were added and then the completed states
were handed to the view. -/
theorem applyJob_completes {opening : ν} {commits : List KripkeState} {limit : Time} {job : Job}
    {variations : List ScheduleVariation} {run after : Run ν KripkeStructure}
    (wellFormed : run.store.WellFormed)
    (stored : ∀ source ∈ job.predecessor.map Predecessor.state, source < run.store.states.size)
    (booked : run.Booked opening commits)
    (ran : applyJob limit job variations run = (.ok (), after)) :
    ∃ applied more, Completes opening commits more job variations applied run after := by
  obtain ⟨applied, middle, shown, added, wellFormedMiddle, completedStored, commitStep, rfl⟩ :=
    applyJob_added wellFormed stored ran
  obtain ⟨more, bookedAfter, areMarked, areHanded⟩ :=
    commits_booked wellFormedMiddle (added.booked booked) completedStored commitStep
  obtain ⟨view, committed, count, same⟩ :=
    OnlyShows.forM onlyShows_commit (completed job applied) middle
  rw [commitStep] at same
  have sameStore : (countJob shown).store = middle.store :=
    (congrArg Run.store same : shown.store = _)
  have sameQueue : (countJob shown).queue = middle.queue :=
    (congrArg Run.queue same : shown.queue = _)
  obtain ⟨opened, queue, deferred⟩ := added.opened
  refine ⟨applied, more, ?_, ?_, ⟨opened, sameQueue.trans queue, deferred⟩,
    ⟨bookedAfter.received, bookedAfter.stored, bookedAfter.once, bookedAfter.marked,
      bookedAfter.counted⟩, areMarked, ?_⟩
  · rw [sameStore]
    exact added.store
  · rw [sameStore]
    exact added.created
  · rw [sameStore]
    exact areHanded

/-- Applying a job keeps the books, and all states stay accounted for. -/
theorem applyJob_booked {opening : ν} {commits : List KripkeState} {limit : Time} {job : Job}
    {taken : List Job} {variations : List ScheduleVariation} {run after : Run ν KripkeStructure}
    (wellFormed : run.store.WellFormed)
    (stored : ∀ source ∈ job.predecessor.map Predecessor.state, source < run.store.states.size)
    (booked : run.Booked opening commits) (accounted : run.Accounted (job :: taken ++ run.queue))
    (ran : applyJob limit job variations run = (.ok (), after)) :
    ∃ more, after.Booked opening (commits ++ more) ∧ after.Accounted (taken ++ after.queue) := by
  obtain ⟨applied, more, completes⟩ := applyJob_completes wellFormed stored booked ran
  refine ⟨more, completes.booked, ?_⟩
  obtain ⟨opened, queue, deferred⟩ := completes.opened
  intro id inside
  rw [queue]
  by_cases isOld : id < run.store.states.size
  · rcases accounted id isOld with wasMarked | ⟨next, member, goesOn⟩
    · exact .inl (completes.booked.keeps booked wasMarked)
    · rcases List.mem_cons.mp member with rfl | member
      · exact .inl (completes.handed id (completes.mem_completed.mpr (.inl goesOn)))
      · refine .inr ⟨next, ?_, goesOn⟩
        rw [← List.append_assoc]
        exact List.mem_append_left _ member
  · by_cases isDeferred : id ∈ applied.deferred
    · rw [deferred] at isDeferred
      obtain ⟨⟨variation, state⟩, member, rfl⟩ := List.mem_map.mp isDeferred
      refine .inr ⟨variation.successor state, ?_, rfl⟩
      exact List.mem_append_right _ (List.mem_append_right _ (List.mem_map.mpr ⟨_, member, rfl⟩))
    · exact .inl (completes.handed id (completes.mem_completed.mpr
        (.inr ⟨Nat.le_of_not_lt isOld, inside, isDeferred⟩)))

/-- That the books are kept, and that every waiting job is accounted for, is an invariant of the
exploration. -/
theorem invariant_booked (layout : Layout) (first : Job) (limit : Time) (opening : ν) :
    Invariant layout first limit fun _ taken (run : Run ν KripkeStructure) =>
      ∃ commits, run.Booked opening commits ∧ run.Accounted (taken ++ run.queue) where
  take := by
    intro done run width
    rintro ⟨commits, booked, accounted⟩
    refine ⟨commits, ⟨booked.received, booked.stored, booked.once, booked.marked,
      booked.counted⟩, ?_⟩
    rw [List.take_append_drop]
    exact accounted
  apply := by
    intro done taken job variations run after explored
    rintro ⟨commits, booked, accounted⟩ _ ran
    obtain ⟨more, bookedAfter, accountedAfter⟩ := applyJob_booked explored.wellFormed
      (explored.stored job List.mem_cons_self) booked accounted ran
    exact ⟨commits ++ more, bookedAfter, accountedAfter⟩

end Verify

omit [KripkeView ν] in
/-- At the opening of a run nothing is booked: no state was committed. -/
theorem booked_opening [KripkeView ν] (schedule : Schedule) (pool : Pool) (opening : ν) :
    (Run.opening schedule pool opening KripkeStructure.empty).Booked opening [] where
  received := .nil _
  stored := fun _ impossible => nomatch impossible
  once := .nil
  marked := by simp [Run.opening]
  counted := rfl

/-- In a structure whose states have all been handed over, those handed over are all numbers. -/
theorem Run.Booked.perm_range {opening : ν} {commits : List KripkeState}
    {run : Run ν KripkeStructure} (booked : run.Booked opening commits)
    (accounted : run.Accounted []) :
    (commits.map KripkeState.id).Perm (List.range run.store.states.size) := by
  refine (List.perm_ext_iff_of_nodup booked.once List.nodup_range).mpr fun id => ?_
  rw [List.mem_range]
  constructor
  · intro member
    obtain ⟨state, isCommit, rfl⟩ := List.mem_map.mp member
    obtain ⟨_, found, _⟩ := booked.stored state isCommit
    exact (Array.getElem?_eq_some_iff.mp found).choose
  · intro inside
    rcases accounted id inside with marked | ⟨_, impossible, _⟩
    · exact (booked.marked id).mp marked
    · cases impossible

/-- States that were handed over differ in their properties. -/
theorem Run.Booked.properties_nodup {opening : ν} {commits : List KripkeState}
    {run : Run ν KripkeStructure} (booked : run.Booked opening commits)
    (wellFormed : run.store.WellFormed) : (commits.map KripkeState.properties).Nodup := by
  refine List.Nodup.map_on ?_ booked.once.of_map
  intro state isCommit other isOther same
  obtain ⟨later, found, grown⟩ := booked.stored state isCommit
  obtain ⟨laterOther, foundOther, grownOther⟩ := booked.stored other isOther
  have sameNumber : state.id = other.id := wellFormed.position_unique found foundOther
    (grown.properties.trans (same.trans grownOther.properties.symm))
  exact List.inj_on_of_nodup_map booked.once isCommit isOther sameNumber

/-- **Every state is handed over exactly once.** Into a view that takes every call, a recording
one for example, a verification that succeeds hands over every stored state once and nothing
else, with other properties each time, and finishes after the last of them. A verification that
fails does not finish, and hands over no state twice. -/
theorem verify_commits_exactly_once
    (takes : ∀ (call : ViewCall) (view : ν), ∃ after, call.make view = (.ok (), after))
    (settings : VerificationSettings) (schedule : Schedule) (pool : Pool)
    (raised : ν → Nat → List CancellationToken) (bound : Nat) (view : ν) :
    (∀ report run, verify settings schedule pool raised bound view KripkeStructure.empty =
      (.ok report, run) → ∃ commits : List KripkeState,
        Receives view (.reset settings.usingClocks :: commits.map .commit ++ [.finish]) run.view ∧
        (commits.map KripkeState.id).Perm (List.range run.store.states.size) ∧
        (∀ state ∈ commits, ∃ stored, run.store.states[state.id]? = some stored ∧
          stored.properties = state.properties) ∧
        (commits.map KripkeState.properties).Nodup ∧
        report.stats.statesCommitted = run.store.states.size) ∧
    ∀ error run, verify settings schedule pool raised bound view KripkeStructure.empty =
      (.error error, run) → ∃ calls : List ViewCall, Receives view calls run.view ∧
        (calls = [] ∨ ∃ commits : List KripkeState,
          calls = .reset settings.usingClocks :: commits.map .commit ∧
          (commits.map KripkeState.id).Nodup) := by
  have invariant (opening : ν) := Verify.invariant_booked (Layout.new schedule)
    (schedule.firstJob pool) settings.starvationLimit opening
  have kept (opening : ν) := (invariant opening).processQueue raised bound
    (explored_opening schedule pool opening KripkeStructure.wellFormed_empty)
    ⟨[], booked_opening schedule pool opening, fun _ impossible => nomatch impossible⟩
  have taken {error : VerificationError} : ¬ error.OfView ν := by
    rintro ⟨call, shown, after, cause, refused, _⟩
    obtain ⟨_, took⟩ := takes call shown
    cases took.symm.trans refused
  constructor
  · intro report run verified
    obtain ⟨opening, processed, reset, worked, finish, sameRun, rfl⟩ := verify_eq_ok verified
    have empty := (Verify.processQueue_explored bound
      (explored_opening schedule pool opening KripkeStructure.wellFormed_empty) worked).1
    have ends := kept opening
    rw [worked] at ends
    cases ends with
    | done all explored holds =>
        obtain ⟨commits, booked, accounted⟩ := holds
        rw [empty] at accounted
        have every := booked.perm_range accounted
        rw [sameRun]
        refine ⟨commits, .cons reset (booked.received.append (.single finish)), every, ?_,
          booked.properties_nodup explored.wellFormed, ?_⟩
        · intro state member
          obtain ⟨later, found, grown⟩ := booked.stored state member
          exact ⟨later, found, grown.properties⟩
        · have counted := every.length_eq
          rw [List.length_map, List.length_range] at counted
          exact booked.counted.trans counted
  · intro error run failed
    rcases verify_eq_error failed taken with rfl | ⟨opening, reset, stopped⟩
    · exact ⟨[], .nil _, .inl rfl⟩
    · have ends := kept opening
      rw [stopped] at ends
      cases ends with
      | stopped done jobs error holds =>
          obtain ⟨commits, booked, _⟩ := holds
          exact ⟨.reset settings.usingClocks :: commits.map .commit, .cons reset booked.received,
            .inr ⟨commits, rfl, booked.once⟩⟩
      | refused ofView => exact absurd ofView taken

/-- A recording view keeps the states it is handed and counts the ends. -/
theorem Receives.eq_of_recording {commits : List KripkeState} :
    ∀ {view after : RecordingView}, Receives view (commits.map .commit ++ [.finish]) after →
      after = { view with
        states := view.states ++ commits
        finishCount := view.finishCount + 1 } := by
  induction commits with
  | nil =>
      intro view after received
      cases received with
      | cons made rest =>
          cases rest
          cases made
          simp [RecordingView.finish]
  | cons state commits others =>
      intro view after received
      cases received with
      | cons made rest =>
          cases made
          rw [others rest]
          simp [RecordingView.commit]

/-- The recording view of the switch has every state once and is told once that the
verification is finished. -/
theorem switch_commits_exactly_once : ∃ bound report run,
    verify Switch.settings Switch.schedule Switch.pool (fun _ _ => []) bound
      ({} : RecordingView) KripkeStructure.empty = (.ok report, run) ∧
    (run.view.states.map KripkeState.id).Perm (List.range run.store.states.size) ∧
    report.stats.statesCommitted = run.store.states.size ∧ run.view.finishCount = 1 := by
  obtain ⟨bound, report, run, verified⟩ := Switch.verified
  obtain ⟨commits, received, every, _, _, counted⟩ := (verify_commits_exactly_once
    RecordingView.takes_call Switch.settings Switch.schedule Switch.pool (fun _ _ => []) bound
    {}).1 report run verified
  cases received with
  | cons made rest =>
      cases made
      have recorded := rest.eq_of_recording
      refine ⟨bound, report, run, verified, ?_, counted, ?_⟩
      · rw [recorded]
        exact every
      · rw [recorded]
        rfl

end TimedKripke
