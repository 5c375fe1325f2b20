import TimedKripke.Proofs.Variation.Stroll
import TimedKripke.Proofs.Verification.Course
import TimedKripke.Proofs.Verification.Expansion

/-! # Threads on one pool

Every thread is varied by itself, from the pool at the start of the cycle. If the threads are
independent, this comes to running all sections on one pool, in the order of their start: the
paths that the threads take play the courses of the cycle (`Serializes.exists_of_strolls`,
`Serializes.of_course`), and the pathways are put together from these paths
(`Serializes.interleaved_ofPlaced`).
-/

namespace TimedKripke

/-- The call chains of a thread. -/
def ScheduleThread.chains (thread : ScheduleThread) : List CallChain :=
  thread.timeslots.map Timeslot.callChain

/-- The sections of a thread and their timeslots are stored in the order of their start, no thread
changes what another one touches, and no timeslot of a section touches the executable of a later
one. -/
structure ScheduleThread.Independent (origin : Pool) (threads : List ScheduleThread) : Prop where
  /-- Threads that were made by `ScheduleThread.new` are in order; a decoded one may not be. -/
  ordered : ∀ thread ∈ threads, thread.ordered = thread
  /-- The timeslots of a section leave later ones alone. -/
  apart : ∀ thread ∈ threads, ∀ part ∈ thread.sections, Timeslot.Apart origin part.timeslots
  /-- The threads leave each other alone. -/
  separate : ∀ {place place' : Nat} {thread thread' : ScheduleThread},
    threads[place]? = some thread → threads[place']? = some thread' → place ≠ place' →
      ∀ id, origin.Involves thread.chains id → ¬ origin.Touches thread'.chains id

/-- A thread in order has its sections in the order of their start. -/
theorem ScheduleThread.pairwise_of_ordered {thread : ScheduleThread}
    (ordered : thread.ordered = thread) :
    thread.sections.Pairwise fun first second => first.startingTime ≤ second.startingTime := by
  rw [← ordered]
  exact (pairwise_new _).imp of_decide_eq_true

/-- The sections of independent threads are stored in the order of their starts. -/
theorem ScheduleThread.Independent.inOrder {origin : Pool} {threads : List ScheduleThread}
    (independent : Independent origin threads) : ∀ thread ∈ threads,
      thread.sections.Pairwise fun first second => first.startingTime ≤ second.startingTime :=
  fun thread isThread => pairwise_of_ordered (independent.ordered thread isThread)

/-- Every thread has a pool of its own that agrees with the shared one on what the thread
touches. -/
structure Pool.Synced (origin : Pool) (threads : List ScheduleThread) (bases : List Pool)
    (shared : Pool) : Prop where
  counted : bases.length = threads.length
  /-- It agrees with the shared one. -/
  each : ∀ {place : Nat} {thread : ScheduleThread} {base : Pool}, threads[place]? = some thread →
    bases[place]? = some base → Alongside origin thread.chains base shared

section Threads

variable {origin shared : Pool} {threads : List ScheduleThread} {bases : List Pool}
  {timing : ScheduleTiming}

/-- At the start every thread has the shared pool for its own. -/
theorem Pool.Synced.start {pool : Pool} (descends : Descends origin pool)
    (threads : List ScheduleThread) :
    Synced origin threads (threads.map fun _ => pool) pool where
  counted := List.length_map ..
  each := by
    intro place thread base _ based
    rw [List.getElem?_map] at based
    obtain ⟨_, _, rfl⟩ := Option.map_eq_some_iff.mp based
    exact ⟨descends, descends, fun _ _ => rfl⟩

/-- What one thread does keeps all of them in step. -/
theorem Pool.Synced.step (synced : Synced origin threads bases shared)
    (independent : ScheduleThread.Independent origin threads) {place : Nat}
    {thread : ScheduleThread}
    {base changed result : Pool} (isThread : threads[place]? = some thread)
    (carries : Carries origin thread.chains base shared changed result) :
    Synced origin threads (bases.set place changed) result where
  counted := (List.length_set ..).trans synced.counted
  each := by
    intro other thread' base' isOther based
    by_cases same : place = other
    · subst same
      cases isThread.symm.trans isOther
      have inside : place < bases.length := by
        rw [synced.counted]
        exact (List.getElem?_eq_some_iff.mp isThread).choose
      rw [List.getElem?_set_self inside] at based
      cases based
      exact ⟨carries.changes, carries.results, carries.inside⟩
    · rw [List.getElem?_set_ne same] at based
      have alongside := synced.each isOther based
      refine ⟨alongside.thread, carries.results, fun id touches => ?_⟩
      have outside : ¬ origin.Involves thread.chains id := fun involves =>
        independent.separate isThread isOther same id involves touches
      rw [carries.carried id outside]
      exact alongside.agree id touches

/-- A path through a section from the pool of its thread plays moves on the shared pool. -/
def SectionPath.Plays (origin : Pool) (chains : List CallChain) (timing : ScheduleTiming)
    (base shared : Pool) (part : SnapshotSection) (path : SectionPath) (moves : List Move)
    (result : Pool) : Prop :=
  (∃ paths, part.variations base timing = .ok paths ∧ path ∈ paths) ∧
    ∃ slot slots root read conditionals, part.timeslots = slot :: slots ∧
      shared.get? slot.executable = some root ∧
      moves = SnapshotSection.moves root read conditionals ∧
      part.Executes timing shared read conditionals result ∧
      path.Presented origin chains base shared part.timeslots read conditionals result

namespace SectionPath.Plays

variable {chains : List CallChain} {base : Pool} {part : SnapshotSection} {path : SectionPath}
  {paths : List SectionPath} {moves : List Move} {result : Pool}

/-- A path that is played is a course on the shared pool. -/
theorem course (plays : path.Plays origin chains timing base shared part moves result) :
    Course timing part.beats shared moves result := by
  obtain ⟨_, slot, slots, root, read, conditionals, isPart, found, rfl, executes, _⟩ := plays
  exact executes.course isPart found

/-- A path that is played carries its changes over to the shared pool. -/
theorem carries (plays : path.Plays origin chains timing base shared part moves result) :
    Pool.Carries origin chains base shared path.after result := by
  obtain ⟨_, _, _, _, _, _, _, _, _, _, presented⟩ := plays
  exact presented.carries

variable (alongside : Pool.Alongside origin chains base shared)
  (apart : Timeslot.Apart origin part.timeslots)
  (within : ∀ slot ∈ part.timeslots, slot.callChain ∈ chains)
  (varied : part.variations base timing = .ok paths)
include alongside apart within varied

/-- Every path through a section plays some moves on the shared pool. -/
theorem exists_of_mem (member : path ∈ paths) :
    ∃ moves result, path.Plays origin chains timing base shared part moves result := by
  obtain ⟨read, conditionals, result, executes, presented⟩ :=
    SnapshotSection.presented_of_variations alongside apart within varied member
  obtain ⟨slot, slots, isPart⟩ :=
    List.exists_cons_of_ne_nil (SnapshotSection.variations_eq_ok varied).1
  obtain ⟨root, found⟩ : ∃ root, shared.get? slot.executable = some root := by
    obtain ⟨valuation, _, rfl, runs⟩ := executes
    rw [isPart] at runs
    exact runs.exists_root
  exact ⟨_, result, ⟨paths, varied, member⟩, slot, slots, root, read, conditionals, isPart,
    found, rfl,
    executes, presented⟩

/-- Every course of the section on the shared pool is played by a path. -/
theorem exists_of_course (course : Course timing part.beats shared moves result) :
    ∃ path : SectionPath, path.Plays origin chains timing base shared part moves result := by
  obtain ⟨slot, slots, root, read, conditionals, isPart, found, rfl, executes⟩ :=
    SnapshotSection.executes_of_beats course
  obtain ⟨path, member, presented⟩ :=
    SnapshotSection.exists_presented alongside apart within varied executes
  exact ⟨path, ⟨paths, varied, member⟩, slot, slots, root, read, conditionals, isPart, found, rfl,
    executes, presented⟩

end SectionPath.Plays

/-- Paths through sections of all threads, each from the pool of its thread, play moves on the
shared pool. -/
inductive Serializes (origin : Pool) (threads : List ScheduleThread) (timing : ScheduleTiming) :
    List Pool → Pool → List (Indexed (SnapshotSection × SectionPath)) → List Move → Pool → Prop
  | nil (bases : List Pool) (shared : Pool) :
      Serializes origin threads timing bases shared [] [] shared
  | cons {bases : List Pool} {base shared result final : Pool} {thread : ScheduleThread}
      {placed : Indexed (SnapshotSection × SectionPath)}
      {rest : List (Indexed (SnapshotSection × SectionPath))} {moves more : List Move}
      (isThread : threads[placed.thread]? = some thread)
      (based : bases[placed.thread]? = some base)
      (plays : placed.item.2.Plays origin thread.chains timing base shared placed.item.1
        moves result)
      (later : Serializes origin threads timing (bases.set placed.thread placed.item.2.after) result
        rest more final) :
      Serializes origin threads timing bases shared (placed :: rest) (moves ++ more) final

/-- The sections belong to their threads. -/
def ScheduleThread.Places (threads : List ScheduleThread)
    (sections : List (Indexed SnapshotSection)) :
    Prop :=
  ∀ placed ∈ sections, ∃ thread, threads[placed.thread]? = some thread ∧
    placed.item ∈ thread.sections

/-- The call chains of a section's timeslots are among those of the thread. -/
theorem ScheduleThread.within_chains {thread : ScheduleThread} {part : SnapshotSection}
    (isPart : part ∈ thread.sections) : ∀ slot ∈ part.timeslots, slot.callChain ∈ thread.chains :=
  fun _ isSlot => List.mem_map_of_mem (List.mem_flatMap.mpr ⟨part, isPart, isSlot⟩)

namespace Serializes

/-- The moves of sections that are played one after the other are a course of their beats. -/
theorem course {placed : List (Indexed (SnapshotSection × SectionPath))} {moves : List Move}
    {final : Pool} (serializes : Serializes origin threads timing bases shared placed moves final) :
    Course timing (placed.flatMap fun one => one.item.1.beats) shared moves final := by
  induction serializes with
  | nil bases shared => exact .nil shared
  | cons _ _ plays _ others => exact plays.course.append others

/-- Every thread strolls through its sections from its own pool. -/
theorem strolls {placed : List (Indexed (SnapshotSection × SectionPath))} {moves : List Move}
    {final : Pool} (serializes : Serializes origin threads timing bases shared placed moves final)
    {place : Nat} : ∀ {base : Pool}, bases[place]? = some base →
      Strolls timing base ((Indexed.itemsOf place placed).map Prod.fst)
        ((Indexed.itemsOf place placed).map Prod.snd) := by
  induction serializes with
  | nil => exact fun _ => .nil _
  | @cons bases base' shared result final thread one rest moves more isThread based plays later
      others =>
      intro base isBase
      by_cases here : one.thread = place
      · subst here
        cases based.symm.trans isBase
        obtain ⟨⟨paths, varied, member⟩, _⟩ := plays
        rw [Indexed.itemsOf_cons_self]
        refine .cons varied member (others ?_)
        exact List.getElem?_set_self (List.getElem?_eq_some_iff.mp isBase).choose
      · rw [Indexed.itemsOf_cons_of_ne here]
        exact others ((List.getElem?_set_ne here).trans isBase)

/-- **Strolls of independent threads play moves on one pool.** -/
theorem exists_of_strolls (independent : ScheduleThread.Independent origin threads)
    {placed : List (Indexed (SnapshotSection × SectionPath))} :
      ∀ {bases : List Pool} {shared : Pool},
      Pool.Synced origin threads bases shared →
      ScheduleThread.Places threads (placed.map (Indexed.map Prod.fst)) →
      (∀ place base, bases[place]? = some base →
        Strolls timing base ((Indexed.itemsOf place placed).map Prod.fst)
          ((Indexed.itemsOf place placed).map Prod.snd)) →
      ∃ moves final, Serializes origin threads timing bases shared placed moves final := by
  induction placed with
  | nil => exact fun _ _ _ => ⟨[], _, .nil _ _⟩
  | cons one rest others =>
      intro bases shared synced places each
      obtain ⟨thread, isThread, isPart⟩ := places _ List.mem_cons_self
      have inside : one.thread < bases.length := by
        rw [synced.counted]
        exact (List.getElem?_eq_some_iff.mp isThread).choose
      have based := List.getElem?_eq_getElem inside
      have strolls := each _ _ based
      rw [Indexed.itemsOf_cons_self] at strolls
      cases strolls with
      | cons varied member later =>
          obtain ⟨moves, result, plays⟩ :=
            SectionPath.Plays.exists_of_mem (synced.each isThread based)
            (independent.apart thread (List.mem_of_getElem? isThread) _ isPart)
            (ScheduleThread.within_chains isPart) varied member
          have eachLater := Indexed.each_set
              (fun (items : List (SnapshotSection × SectionPath)) base =>
            Strolls timing base (items.map Prod.fst) (items.map Prod.snd)) each later
          obtain ⟨more, final, serializes⟩ :=
            others (synced.step independent isThread plays.carries)
            (fun next isNext => places next (List.mem_cons_of_mem _ isNext)) eachLater
          exact ⟨moves ++ more, final, .cons isThread based plays serializes⟩

end Serializes

/-- The threads are in step with the shared pool, and can be varied through the sections to come. -/
structure Pool.Abreast (origin : Pool) (threads : List ScheduleThread) (timing : ScheduleTiming)
    (sections : List (Indexed SnapshotSection)) (bases : List Pool) (shared : Pool) : Prop where
  synced : Synced origin threads bases shared
  places : ScheduleThread.Places threads sections
  /-- Every thread can be varied. -/
  varies : ∀ place base, bases[place]? = some base →
    Varies timing (Indexed.itemsOf place sections) base

namespace Pool.Abreast

variable {one : Indexed SnapshotSection} {rest : List (Indexed SnapshotSection)}
  (abreast : Abreast origin threads timing (one :: rest) bases shared)
  (independent : ScheduleThread.Independent origin threads)
include abreast independent

/-- The next section can be varied from the pool of its thread, which agrees with the shared one on
what the thread touches. -/
theorem head : ∃ thread base paths, threads[one.thread]? = some thread ∧
    bases[one.thread]? = some base ∧ Alongside origin thread.chains base shared ∧
    Timeslot.Apart origin one.item.timeslots ∧
    (∀ slot ∈ one.item.timeslots, slot.callChain ∈ thread.chains) ∧
    one.item.variations base timing = .ok paths := by
  obtain ⟨thread, isThread, isPart⟩ := abreast.places _ List.mem_cons_self
  have inside : one.thread < bases.length := by
    rw [abreast.synced.counted]
    exact (List.getElem?_eq_some_iff.mp isThread).choose
  have based := List.getElem?_eq_getElem inside
  have varies := abreast.varies _ _ based
  rw [Indexed.itemsOf_cons_self] at varies
  obtain ⟨paths, varied, _⟩ := varies
  exact ⟨thread, _, paths, isThread, based, abreast.synced.each isThread based,
    independent.apart thread (List.mem_of_getElem? isThread) _ isPart,
    ScheduleThread.within_chains isPart, varied⟩

/-- When a section was played, the threads are again abreast, with the pool of its thread moved on.
-/
theorem step {thread : ScheduleThread} {base result : Pool} {path : SectionPath}
    {moves : List Move} (isThread : threads[one.thread]? = some thread)
    (based : bases[one.thread]? = some base)
    (plays : path.Plays origin thread.chains timing base shared one.item moves result) :
    Abreast origin threads timing rest (bases.set one.thread path.after) result := by
  have varies := abreast.varies _ _ based
  rw [Indexed.itemsOf_cons_self] at varies
  obtain ⟨paths, varied, later⟩ := varies
  have member : path ∈ paths := by
    obtain ⟨⟨paths', varied', member⟩, _⟩ := plays
    cases varied.symm.trans varied'
    exact member
  exact ⟨abreast.synced.step independent isThread plays.carries,
    fun next isNext => abreast.places next (List.mem_cons_of_mem _ isNext),
    Indexed.each_set (Varies timing) abreast.varies (later path member)⟩

end Pool.Abreast

/-- **Courses of independent threads are played by strolls**: every course through the interleaved
beats comes from paths of the threads. -/
theorem Serializes.of_course (independent : ScheduleThread.Independent origin threads)
    {sections : List (Indexed SnapshotSection)} {final : Pool} :
      ∀ {bases : List Pool} {shared : Pool}
      {moves : List Move}, Pool.Abreast origin threads timing sections bases shared →
      Course timing (sections.flatMap fun one => one.item.beats) shared moves final →
      ∃ placed, placed.map (Indexed.map Prod.fst) = sections ∧
        Serializes origin threads timing bases shared placed moves final := by
  induction sections with
  | nil =>
      intro bases shared moves _ course
      cases course
      exact ⟨[], rfl, .nil _ _⟩
  | cons one rest others =>
      intro bases shared moves abreast course
      obtain ⟨thread, base, paths, isThread, based, alongside, apart, within, varied⟩ :=
        abreast.head independent
      rw [List.flatMap_cons] at course
      obtain ⟨moves, more, result, rfl, here, later⟩ := Course.of_append course
      obtain ⟨path, plays⟩ := SectionPath.Plays.exists_of_course alongside apart within varied here
      obtain ⟨placed, rfl, serializes⟩ :=
        others (abreast.step independent isThread based plays) later
      have serialized : Serializes origin threads timing bases shared
          (one.map (fun part => (part, path)) :: placed) (moves ++ more) final :=
        .cons isThread based plays serializes
      exact ⟨_, rfl, serialized⟩

/-- Independent threads that can be varied have a course. -/
theorem Pool.Abreast.exists_course (independent : ScheduleThread.Independent origin threads)
    {sections : List (Indexed SnapshotSection)} : ∀ {bases : List Pool} {shared : Pool},
      Abreast origin threads timing sections bases shared → ∃ moves final,
        Course timing (sections.flatMap fun one => one.item.beats) shared moves final := by
  induction sections with
  | nil => exact fun _ => ⟨[], _, .nil _⟩
  | cons one rest others =>
      intro bases shared abreast
      obtain ⟨thread, base, paths, isThread, based, alongside, apart, within, varied⟩ :=
        abreast.head independent
      obtain ⟨path, member⟩ := SnapshotSection.exists_path varied
      obtain ⟨moves, result, plays⟩ :=
        SectionPath.Plays.exists_of_mem alongside apart within varied member
      obtain ⟨more, final, later⟩ := others (abreast.step independent isThread based plays)
      exact ⟨moves ++ more, final, plays.course.append later⟩

/-- Independent threads that can be varied have a course for every environment that the first
section admits. -/
theorem Pool.Abreast.exists_course_of_admits
    (independent : ScheduleThread.Independent origin threads) {one : Indexed SnapshotSection}
    {rest : List (Indexed SnapshotSection)}
    (abreast : Abreast origin threads timing (one :: rest) bases shared) {valuation : Valuation}
    (admits : shared.Admits valuation (Timeslot.roots one.item.timeslots)) :
    ∃ root conditionals more final, Course timing ((one :: rest).flatMap fun one => one.item.beats)
      shared (SnapshotSection.moves root
        (shared.reads valuation (Timeslot.roots one.item.timeslots)) conditionals
            ++ more) final := by
  obtain ⟨thread, base, paths, isThread, based, alongside, apart, within, varied⟩ :=
    abreast.head independent
  obtain ⟨slot, slots, isPart⟩ :=
    List.exists_cons_of_ne_nil (SnapshotSection.variations_eq_ok varied).1
  obtain ⟨conditionals, result, executes⟩ :=
    (SnapshotSection.runnable alongside apart within varied admits).exists_executes
  obtain ⟨root, found⟩ := (isPart ▸ executes).exists_root
  have course := SnapshotSection.Executes.course isPart found ⟨valuation, admits, rfl, executes⟩
  obtain ⟨path, plays⟩ := SectionPath.Plays.exists_of_course alongside apart within varied course
  obtain ⟨more, final, later⟩ :=
    (abreast.step independent isThread based plays).exists_course independent
  exact ⟨root, conditionals, more, final, course.append later⟩

/-- **Independent threads that can be varied go through their beats.** -/
theorem Pool.Abreast.proceeds (independent : ScheduleThread.Independent origin threads)
    {sections : List (Indexed SnapshotSection)} : ∀ {bases : List Pool} {shared : Pool},
      Abreast origin threads timing sections bases shared →
        Proceeds timing (sections.flatMap fun one => one.item.beats) shared := by
  induction sections with
  | nil => exact fun _ => trivial
  | cons one rest others =>
      intro bases shared abreast
      obtain ⟨thread, base, paths, isThread, based, alongside, apart, within, varied⟩ :=
        abreast.head independent
      have here : Proceeds timing one.item.beats shared :=
        SnapshotSection.proceeds (SnapshotSection.variations_eq_ok varied).1 fun _ =>
          SnapshotSection.runnable alongside apart within varied
      rw [List.flatMap_cons, proceeds_append_iff]
      refine ⟨here, fun moves middle course => ?_⟩
      obtain ⟨path, plays⟩ :=
        SectionPath.Plays.exists_of_course alongside apart within varied course
      exact others (abreast.step independent isThread based plays)

end Threads

/-- A path starts when its section does. -/
theorem SectionPath.start_eq {path : SectionPath} {part : SnapshotSection} {first : SectionStep}
    {steps : List SectionStep} {slot : Timeslot} {slots : List Timeslot}
    (isPath : path.steps = first :: steps) (isPart : part.timeslots = slot :: slots)
    (same : first.timeslot.uncounted = slot.uncounted) : path.start = part.startingTime := by
  have starts := congrArg Timeslot.startingTime same
  rw [start, isPath, SnapshotSection.startingTime, isPart]
  exact starts

/-- The start of a path through a section is the start of the section. -/
theorem Strolls.starts {timing : ScheduleTiming} {pool : Pool} {parts : List SnapshotSection}
    {paths : List SectionPath} (strolls : Strolls timing pool parts paths) :
    ∀ pair ∈ parts.zip paths, pair.2.start = pair.1.startingTime := by
  induction strolls with
  | nil => exact fun _ impossible => nomatch impossible
  | @cons pool part parts paths rest path varied member _ others =>
      intro pair isPair
      rcases List.mem_cons.mp isPair with rfl | later
      · have takes := SnapshotSection.takes_of_variations varied path member
        obtain ⟨slot, slots, isPart⟩ :=
          List.exists_cons_of_ne_nil (SnapshotSection.variations_eq_ok varied).1
        unfold SectionPath.Takes at takes
        rw [isPart, List.map_cons] at takes
        obtain ⟨first, steps, isPath, same, _⟩ := List.map_eq_cons_iff.mp takes
        exact SectionPath.start_eq isPath isPart same
      · exact others pair later

/-- Interleaving keeps the sections of an independent thread in their order. -/
theorem ScheduleThread.Independent.itemsOf_interleaved {origin : Pool}
    {threads : List ScheduleThread} (independent : Independent origin threads) (place : Nat) :
    Indexed.itemsOf place (interleaved threads) = ((threads[place]?).map sections).getD [] := by
  rw [Indexed.itemsOf, interleaved, Indexed.ofThread_sorted, ← Indexed.itemsOf, Indexed.itemsOf_all,
    List.getElem?_map]
  intro list isList
  obtain ⟨other, isOther, rfl⟩ := List.mem_map.mp isList
  exact independent.inOrder other isOther

/-- The sections of threads with the paths that pathways take through them, in the order in which
they run. -/
def Pathway.interleaved (threads : List ScheduleThread) (chosen : List Pathway) :
    List (Indexed (SnapshotSection × SectionPath)) :=
  (Indexed.all (List.zipWith (fun (thread : ScheduleThread) (pathway : Pathway) =>
    thread.sections.zip pathway.sections) threads chosen)).mergeSort
      (Indexed.startsBefore fun item => item.1.startingTime)

/-- Every pathway strolls through its thread from a pool. -/
def Pathway.Stroll (timing : ScheduleTiming) (pool : Pool) (threads : List ScheduleThread)
    (chosen : List Pathway) : Prop :=
  List.Forall₂ (fun (thread : ScheduleThread) (pathway : Pathway) => pathway.entry = pool ∧
    Strolls timing pool thread.sections pathway.sections) threads chosen

namespace Pathway.Stroll

variable {timing : ScheduleTiming} {pool : Pool} {threads : List ScheduleThread}
  {chosen : List Pathway} (stroll : Pathway.Stroll timing pool threads chosen)
include stroll

/-- All pathways start from the pool. -/
theorem map_entry : chosen.map Pathway.entry = threads.map fun _ => pool := by
  rw [← List.forall₂_eq_eq_eq, List.forall₂_map_left_iff, List.forall₂_map_right_iff]
  exact (stroll.imp fun _ _ walked => walked.1).flip

/-- Pairing the sections of threads with paths keeps the sections. -/
theorem map_fst_zipWith : (List.zipWith (fun (thread : ScheduleThread) (pathway : Pathway) =>
    thread.sections.zip pathway.sections) threads chosen).map (List.map Prod.fst) =
      threads.map ScheduleThread.sections := by
  induction stroll with
  | nil => rfl
  | cons here _ others =>
      rw [List.zipWith_cons_cons, List.map_cons, List.map_cons, others,
        List.map_fst_zip (Nat.le_of_eq here.2.length_eq.symm)]

/-- Pairing the sections of threads with paths keeps the paths. -/
theorem map_snd_zipWith : (List.zipWith (fun (thread : ScheduleThread) (pathway : Pathway) =>
    thread.sections.zip pathway.sections) threads chosen).map (List.map Prod.snd) =
      chosen.map Pathway.sections := by
  induction stroll with
  | nil => rfl
  | cons here _ others =>
      rw [List.zipWith_cons_cons, List.map_cons, List.map_cons, others,
        List.map_snd_zip (Nat.le_of_eq here.2.length_eq)]

/-- Sections interleaved together with their paths are interleaved as they are without. -/
theorem map_fst_interleaved : (Pathway.interleaved threads chosen).map (Indexed.map Prod.fst) =
    ScheduleThread.interleaved threads := by
  unfold Pathway.interleaved ScheduleThread.interleaved
  rw [Indexed.map_sorted fun _ _ => rfl, Indexed.map_all, stroll.map_fst_zipWith]

/-- The beats of sections interleaved together with their paths are those of the threads. -/
theorem beats_eq : ((Pathway.interleaved threads chosen).flatMap fun one => one.item.1.beats) =
    ScheduleThread.beats threads := by
  rw [ScheduleThread.beats, ← stroll.map_fst_interleaved, List.flatMap_map]
  rfl

/-- The paths come in the order of their sections. -/
theorem map_snd_interleaved : (Pathway.interleaved threads chosen).map (fun one =>
    ScheduledPath.ofIndexed (one.map Prod.snd)) =
      (ScheduledPath.ofPathways chosen).mergeSort ScheduledPath.startsBefore := by
  have starts : ∀ one ∈ Indexed.all (List.zipWith (fun (thread : ScheduleThread)
      (pathway : Pathway) => thread.sections.zip pathway.sections) threads chosen),
      one.item.2.start = one.item.1.startingTime := by
    intro one member
    obtain ⟨pairs, isList, isPair⟩ := Indexed.getElem?_of_mem_all member
    obtain ⟨thread, pathway, isThread, isPathway, rfl⟩ := List.getElem?_zipWith_eq_some.mp isList
    obtain ⟨thread', isThread', _, strolls⟩ := Outcome.exists_getElem?_left stroll isPathway
    cases isThread.symm.trans isThread'
    exact strolls.starts _ (List.mem_of_getElem? isPair)
  have sorted : (Pathway.interleaved threads chosen).map (Indexed.map Prod.snd) =
      (Indexed.all (chosen.map Pathway.sections)).mergeSort
        (Indexed.startsBefore SectionPath.start) := by
    rw [← stroll.map_snd_zipWith, ← Indexed.map_all]
    exact Indexed.map_sorted starts
  rw [ScheduledPath.sorted_ofPathways, ← sorted, List.map_map]
  rfl

variable {origin : Pool} (independent : ScheduleThread.Independent origin threads)
include independent

/-- Every thread meets its sections in order, with the paths of its pathway. -/
theorem itemsOf_interleaved {place : Nat} {thread : ScheduleThread} {pathway : Pathway}
    (isThread : threads[place]? = some thread) (isPathway : chosen[place]? = some pathway) :
    Indexed.itemsOf place (Pathway.interleaved threads chosen) =
      thread.sections.zip pathway.sections := by
  have inOrder : ∀ pairs ∈ List.zipWith (fun (thread : ScheduleThread) (pathway : Pathway) =>
      thread.sections.zip pathway.sections) threads chosen, pairs.Pairwise fun first second =>
        first.1.startingTime ≤ second.1.startingTime := by
    intro pairs member
    have isList : pairs.map Prod.fst ∈ threads.map ScheduleThread.sections :=
      stroll.map_fst_zipWith ▸ List.mem_map_of_mem member
    obtain ⟨known, isKnown, same⟩ := List.mem_map.mp isList
    have ordered := independent.inOrder known isKnown
    rwa [same, List.pairwise_map] at ordered
  rw [Indexed.itemsOf, Pathway.interleaved, Indexed.ofThread_sorted inOrder, ← Indexed.itemsOf,
    Indexed.itemsOf_all, List.getElem?_zipWith, isThread, isPathway]
  rfl

/-- In the interleaving of chosen pathways, every thread strolls through its sections from the pool
of the job. -/
theorem strolls {place : Nat} {base : Pool}
    (based : (threads.map fun _ => pool)[place]? = some base) :
    Strolls timing base ((Indexed.itemsOf place (Pathway.interleaved threads chosen)).map Prod.fst)
      ((Indexed.itemsOf place (Pathway.interleaved threads chosen)).map Prod.snd) := by
  rw [List.getElem?_map] at based
  obtain ⟨thread, isThread, rfl⟩ := Option.map_eq_some_iff.mp based
  have inside : place < chosen.length :=
    stroll.length_eq ▸ (List.getElem?_eq_some_iff.mp isThread).choose
  have isPathway := List.getElem?_eq_getElem inside
  obtain ⟨known, isKnown, _, walked⟩ := Outcome.exists_getElem?_left stroll isPathway
  cases isThread.symm.trans isKnown
  rw [stroll.itemsOf_interleaved independent isThread isPathway,
    List.map_fst_zip (Nat.le_of_eq walked.length_eq.symm),
    List.map_snd_zip (Nat.le_of_eq walked.length_eq)]
  exact walked

end Pathway.Stroll

/-- The pathways that take given paths through the sections of threads. -/
def Pathway.ofPlaced (pool : Pool) (threads : List ScheduleThread)
    (placed : List (Indexed (SnapshotSection × SectionPath))) : List Pathway :=
  threads.mapIdx fun place _ =>
    { entry := pool, sections := (Indexed.itemsOf place placed).map Prod.snd }

namespace Serializes

variable {origin pool final : Pool} {threads : List ScheduleThread} {timing : ScheduleTiming}
  {placed : List (Indexed (SnapshotSection × SectionPath))} {moves : List Move}
  (independent : ScheduleThread.Independent origin threads)
  (isPlaced : placed.map (Indexed.map Prod.fst) = ScheduleThread.interleaved threads)
  (serializes : Serializes origin threads timing (threads.map fun _ => pool) pool placed
    moves final)
include independent isPlaced serializes

/-- The pathways that are read off an interleaving stroll through their threads. -/
theorem stroll : Pathway.Stroll timing pool threads (Pathway.ofPlaced pool threads placed) := by
  refine List.forall₂_iff_get.mpr ⟨(List.length_mapIdx ..).symm, fun place inside inside' => ?_⟩
  have isThread := List.getElem?_eq_getElem inside
  have based : (threads.map fun _ => pool)[place]? = some pool := by simp [inside]
  have strolls := serializes.strolls based
  rw [← Indexed.itemsOf_map, isPlaced, independent.itemsOf_interleaved, isThread] at strolls
  simp only [List.get_eq_getElem, Pathway.ofPlaced, List.getElem_mapIdx]
  exact ⟨trivial, strolls⟩

/-- Interleaving the pathways that were read off gives the interleaving back. -/
theorem interleaved_ofPlaced :
    Pathway.interleaved threads (Pathway.ofPlaced pool threads placed) = placed := by
  have stroll := serializes.stroll independent isPlaced
  have sections := stroll.map_fst_interleaved.trans isPlaced.symm
  refine Indexed.eq_of_ofThread ?_ fun place => Indexed.eq_of_pairs ?_ ?_
  · have threads := congrArg (List.map Indexed.thread) sections
    rwa [List.map_map, List.map_map] at threads
  · rw [← Indexed.ofThread_map, ← Indexed.ofThread_map, sections]
  · change (Indexed.itemsOf place _).map Prod.snd = (Indexed.itemsOf place _).map Prod.snd
    cases isThread : threads[place]? with
    | none =>
        have none : Indexed.itemsOf place (ScheduleThread.interleaved threads) = [] := by
          rw [independent.itemsOf_interleaved, isThread]
          rfl
        have absent : Indexed.itemsOf place placed = [] := by
          rw [← isPlaced, Indexed.itemsOf_map] at none
          exact List.map_eq_nil_iff.mp none
        have absent' : Indexed.itemsOf place
            (Pathway.interleaved threads (Pathway.ofPlaced pool threads placed)) = [] := by
          rw [← stroll.map_fst_interleaved, Indexed.itemsOf_map] at none
          exact List.map_eq_nil_iff.mp none
        rw [absent, absent']
    | some thread =>
        have isPathway : (Pathway.ofPlaced pool threads placed)[place]? =
            some { entry := pool, sections := (Indexed.itemsOf place placed).map Prod.snd } := by
          rw [Pathway.ofPlaced, List.getElem?_mapIdx, isThread]
          rfl
        obtain ⟨known, isKnown, _, strolls⟩ := Outcome.exists_getElem?_left stroll isPathway
        cases isThread.symm.trans isKnown
        rw [stroll.itemsOf_interleaved independent isThread isPathway,
          List.map_snd_zip (Nat.le_of_eq strolls.length_eq)]

end Serializes

end TimedKripke
