import TimedKripke.Proofs.Verification.Aliasing
import TimedKripke.Proofs.Verification.Termination

/-! # The choices of a job

A job has a variation for every choice of one pathway per thread. A choice is told by the places of
the pathways (`Odometer.Selects`), and the odometer over the threads passes through all of these
readings in lexicographic order and then stops (`Job.expand_passes_all_choices`).
-/

namespace TimedKripke

namespace Odometer

variable {α : Type}

/-- The choices that stand at the positions of a reading, one among the options of each place. -/
inductive Selects : List Nat → List (List α) → List α → Prop
  | nil : Selects [] [] []
  | cons {position : Nat} {positions : List Nat} {options : List α} {more : List (List α)}
      {choice : α} {choices : List α} (found : options[position]? = some choice)
      (rest : Selects positions more choices) :
      Selects (position :: positions) (options :: more) (choice :: choices)

/-- A reading whose positions are within the options selects one of each. -/
theorem selects_select {options : List (List α)} : ∀ {reading : List Nat},
    List.Forall₂ (· < ·) reading (options.map List.length) →
      Selects reading options (select reading (options.map List.toArray)) := by
  induction options with
  | nil =>
      rintro reading ⟨⟩
      exact .nil
  | cons first more others =>
      rintro reading (_ | ⟨inside, rest⟩)
      rename_i position positions
      have found : first[position]? = some first[position] := List.getElem?_eq_getElem inside
      have found' : first.toArray[position]? = some first[position] := by
        rw [List.getElem?_toArray, found]
      simp only [List.map_cons, select, found']
      exact .cons found (others rest)

end Odometer

/-- **A job has every choice of pathways once.** If every thread has its pathways and every choice
of one of them per thread has its variation, the job can be expanded. The odometer over the numbers
of pathways starts at zero and passes through a list of readings until it cannot advance. These are
the readings within the numbers of pathways, in lexicographic order, and the variations of the job
are those that they choose, one for each: as many as the product of the numbers of pathways. -/
theorem Job.expand_passes_all_choices {job : Job} {layout : Layout}
    (varied : ∀ thread ∈ job.threads, ∃ ways,
      thread.variations job.pool layout.timing = .ok ways)
    (made : ∀ chosen, job.Follows layout chosen →
      ∃ variation, job.variation layout chosen = .ok variation) :
    ∃ pathways readings variations,
      List.Forall₂ (fun (thread : ScheduleThread) ways =>
        thread.variations job.pool layout.timing = .ok ways) job.threads pathways ∧
      job.expand layout = .ok variations ∧
      Orbit (Odometer.advance (pathways.map List.length)) (pathways.map fun _ => 0) readings ∧
      (∀ reading, reading ∈ readings ↔
        List.Forall₂ (· < ·) reading (pathways.map List.length)) ∧
      readings.Pairwise (List.Lex (· < ·)) ∧
      List.Forall₂ (fun reading variation => ∃ chosen,
        Odometer.Selects reading pathways chosen ∧
          job.variation layout chosen = .ok variation) readings variations ∧
      variations.length = Count.product (pathways.map List.length) := by
  obtain ⟨pathways, related⟩ := Outcome.exists_forall₂ varied
  have found : job.pathways layout = .ok pathways := Outcome.mapM_eq_ok_iff.mpr related
  have positive : ∀ size ∈ pathways.map List.length, 0 < size := by
    intro size isSize
    obtain ⟨ways, isWays, rfl⟩ := List.mem_map.mp isSize
    obtain ⟨thread, _, isVaried⟩ := Outcome.exists_left related isWays
    obtain ⟨pathway, member⟩ := ScheduleThread.exists_pathway isVaried
    exact List.length_pos_of_mem member
  have orbit := Odometer.orbit_advance positive
  obtain ⟨variations, each⟩ := Outcome.exists_forall₂ fun reading isReading =>
    made _ (follows_select found isReading)
  have expanded : job.expand layout = .ok variations := by
    rw [expand_eq, found]
    exact Outcome.mapM_eq_ok_iff.mpr each
  refine ⟨pathways, _, variations, related, expanded, by rwa [List.map_map] at orbit,
    fun _ => Odometer.mem_allReadings, Odometer.pairwise_allReadings _, ?_, ?_⟩
  · refine List.forall₂_iff_zip.mpr ⟨each.length_eq, fun {reading variation} isPair => ?_⟩
    have within := Odometer.mem_allReadings.mp (List.of_mem_zip isPair).1
    exact ⟨_, Odometer.selects_select within, List.forall₂_zip each isPair⟩
  · rw [← each.length_eq, Odometer.length_allReadings]

namespace Trio

/-- The pool of the three machines: two switches and, between them, a machine that has nothing to
choose. -/
def pool : Pool :=
  { entries := [
      { registration := { id := 0, name := "First", dependencies := [] }
        executable := .scheduled Switch.machine.start },
      { registration := { id := 1, name := "Lamp", dependencies := [] }
        executable := .scheduled (Duo.machine "Lamp").start },
      { registration := { id := 2, name := "Second", dependencies := [] }
        executable := .scheduled Switch.machine.start }] }

/-- Each machine has a thread of its own. -/
def schedule : Schedule :=
  { threads := [{ sections := [{ timeslots := [Timeslot.new 0 0 1] }] },
      { sections := [{ timeslots := [Timeslot.new 1 5 1] }] },
      { sections := [{ timeslots := [Timeslot.new 2 7 1] }] }] }

/-- The first job. -/
def job : Job :=
  schedule.firstJob pool

/-- The switches have two pathways each and the machine between them has one. -/
theorem counts : (job.pathways (Layout.new schedule)).map (List.map List.length) =
    .ok [2, 1, 2] := by
  cbv

/-- The first job has one variation for every choice. -/
theorem expands : (job.expand (Layout.new schedule)).map List.length = .ok 4 := by
  cbv

/-- The three machines have four choices, and the variations come in the order in which the last
machine's choice changes fastest. -/
theorem passes_all_choices : ∃ pathways variations,
    job.pathways (Layout.new schedule) = .ok pathways ∧ pathways.map List.length = [2, 1, 2] ∧
      job.expand (Layout.new schedule) = .ok variations ∧ variations.length = 4 ∧
      List.Forall₂ (fun reading variation => ∃ chosen, Odometer.Selects reading pathways chosen ∧
        job.variation (Layout.new schedule) chosen = .ok variation)
          [[0, 0, 0], [0, 0, 1], [1, 0, 0], [1, 0, 1]] variations := by
  obtain ⟨known, found, isCount⟩ := Outcome.map_eq_ok.mp counts
  obtain ⟨all, isExpanded, _⟩ := Outcome.map_eq_ok.mp expands
  have varied : ∀ thread ∈ job.threads, ∃ ways,
      thread.variations job.pool (Layout.new schedule).timing = .ok ways := by
    intro thread isThread
    obtain ⟨ways, _, isVaried⟩ := Outcome.exists_of_mapM found isThread
    exact ⟨ways, isVaried⟩
  have made : ∀ chosen, job.Follows (Layout.new schedule) chosen →
      ∃ variation, job.variation (Layout.new schedule) chosen = .ok variation := by
    intro chosen follows
    obtain ⟨variation, _, isMade⟩ := Job.exists_of_follows isExpanded follows
    exact ⟨variation, isMade⟩
  obtain ⟨pathways, readings, variations, related, expanded, orbit, _, _, each, counted⟩ :=
    Job.expand_passes_all_choices varied made
  have same : pathways = known :=
    Except.ok.inj ((Outcome.mapM_eq_ok_iff.mpr related).symm.trans found)
  rw [same] at orbit each counted
  rw [isCount] at orbit counted
  have zeros : (known.map fun _ => 0) = [0, 0, 0] := by
    rw [List.map_const', ← List.length_map List.length, isCount]
    rfl
  rw [zeros] at orbit
  have passed : Orbit (Odometer.advance [2, 1, 2]) [0, 0, 0]
      [[0, 0, 0], [0, 0, 1], [1, 0, 0], [1, 0, 1]] :=
    .step rfl (.step rfl (.step rfl (.last rfl)))
  rw [passed.unique orbit] at each
  exact ⟨known, variations, found, isCount, expanded, counted, each⟩

end Trio

end TimedKripke
