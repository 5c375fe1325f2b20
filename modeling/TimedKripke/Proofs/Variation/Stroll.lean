import TimedKripke.Proofs.Variation.Progress

/-! # Strolling through sections

A pathway takes a path through each section of its thread, each from the pool that the one before
left (`Strolls`). The pathways of a thread are exactly the strolls through its sections
(`ScheduleThread.mem_variations_iff`), and a thread that can be varied can be varied on from
whatever part of a stroll has been made (`ScheduleThread.varies`).
-/

namespace TimedKripke

/-- Paths through sections, each from the pool that the one before left. -/
inductive Strolls (timing : ScheduleTiming) : Pool → List SnapshotSection → List SectionPath → Prop
  | nil (pool : Pool) : Strolls timing pool [] []
  | cons {pool : Pool} {part : SnapshotSection} {parts : List SnapshotSection}
      {paths rest : List SectionPath} {path : SectionPath}
      (varied : part.variations pool timing = .ok paths) (member : path ∈ paths)
      (later : Strolls timing path.after parts rest) :
      Strolls timing pool (part :: parts) (path :: rest)

/-- The sections can be varied one after the other, whatever paths are taken. -/
def Varies (timing : ScheduleTiming) : List SnapshotSection → Pool → Prop
  | [], _ => True
  | part :: parts, pool => ∃ paths, part.variations pool timing = .ok paths ∧
      ∀ path ∈ paths, Varies timing parts path.after

/-- A pathway ends where its last section does. -/
theorem Pathway.after_append (pathway : Pathway) (path : SectionPath) :
    Pathway.after { pathway with sections := pathway.sections ++ [path] } = path.after := by
  simp [Pathway.after]

/-- A search from a pathway in the making finds exactly the strolls through the sections that are
left, appended to it. -/
theorem ScheduleThread.explore_spec {timing : ScheduleTiming} {parts : List SnapshotSection} :
    ∀ {pathway : Pathway} {outcomes : List Pathway},
      Search.explore (expandSection timing) parts pathway = .ok outcomes →
        Varies timing parts pathway.after ∧ ∀ outcome, outcome ∈ outcomes ↔
          ∃ rest, Strolls timing pathway.after parts rest ∧
            outcome = { pathway with sections := pathway.sections ++ rest } := by
  induction parts with
  | nil =>
      intro pathway outcomes explored
      cases explored
      refine ⟨trivial, fun outcome => ?_⟩
      rw [List.mem_singleton]
      constructor
      · rintro rfl
        exact ⟨[], .nil _, by rw [List.append_nil]⟩
      · rintro ⟨rest, strolls, rfl⟩
        cases strolls
        rw [List.append_nil]
  | cons part parts others =>
      intro pathway outcomes explored
      obtain ⟨children, inside, expanded, mapped, rfl⟩ := Search.explore_cons_eq_ok.mp explored
      obtain ⟨paths, varied, rfl⟩ := Outcome.map_eq_ok.mp expanded
      constructor
      · refine ⟨paths, varied, fun path isPath => ?_⟩
        obtain ⟨answer, _, found⟩ := Outcome.exists_of_mapM mapped (List.mem_map_of_mem isPath)
        have variesLater := (others found).1
        rwa [Pathway.after_append] at variesLater
      · intro outcome
        constructor
        · intro member
          obtain ⟨answer, isAnswer, member⟩ := List.mem_flatten.mp member
          obtain ⟨child, isChild, found⟩ := Outcome.mem_of_mapM mapped isAnswer
          obtain ⟨path, isPath, rfl⟩ := List.mem_map.mp isChild
          obtain ⟨rest, strolls, rfl⟩ := ((others found).2 outcome).mp member
          rw [Pathway.after_append] at strolls
          exact ⟨path :: rest, .cons varied isPath strolls, by simp⟩
        · rintro ⟨rest, strolls, rfl⟩
          cases strolls with
          | @cons _ _ _ paths' rest path varied' isPath later =>
              cases varied.symm.trans varied'
              obtain ⟨answer, isAnswer, found⟩ :=
                Outcome.exists_of_mapM mapped (List.mem_map_of_mem isPath)
              refine List.mem_flatten.mpr
                ⟨answer, isAnswer, ((others found).2 _).mpr ⟨rest, ?_, ?_⟩⟩
              · rwa [Pathway.after_append]
              · simp

namespace ScheduleThread

variable {thread : ScheduleThread} {pool : Pool} {timing : ScheduleTiming} {pathways : List Pathway}

/-- **Pathways are strolls**: the variations of a thread are exactly the ways to go through its
sections, each from the pool that the one before left. -/
theorem mem_variations_iff (varied : thread.variations pool timing = .ok pathways)
    {pathway : Pathway} : pathway ∈ pathways ↔
      pathway.entry = pool ∧ Strolls timing pool thread.sections pathway.sections := by
  rw [variations, Search.run_eq_explore] at varied
  rw [(explore_spec varied).2]
  constructor
  · rintro ⟨rest, strolls, rfl⟩
    exact ⟨rfl, strolls⟩
  · rintro ⟨rfl, strolls⟩
    exact ⟨pathway.sections, strolls, rfl⟩

/-- A thread with pathways can be varied section by section. -/
theorem varies (varied : thread.variations pool timing = .ok pathways) :
    Varies timing thread.sections pool := by
  rw [variations, Search.run_eq_explore] at varied
  exact (explore_spec varied).1

end ScheduleThread

/-- There is one path for every section. -/
theorem Strolls.length_eq {timing : ScheduleTiming} {pool : Pool} {parts : List SnapshotSection}
    {paths : List SectionPath} (strolls : Strolls timing pool parts paths) :
    paths.length = parts.length := by
  induction strolls with
  | nil => rfl
  | cons _ _ _ others => simp [others]

end TimedKripke
