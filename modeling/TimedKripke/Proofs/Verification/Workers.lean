import TimedKripke.Proofs.Verification.Termination

/-! # The number of workers

Workers expand several jobs together. Two verifications that differ in their number only end
in the same way (`verify_sameEnd_of_workers`): with the same error, or with the same states in
the same order, the same store, the same findings and the same counters but for the longest
queue.
-/

namespace TimedKripke

/-- Two verifications end in the same way: with the same error, or both with a report. Then
the views have received the same states in the same order, the stores are the same, and so
are the findings and all counters but the longest queue. -/
inductive SameEnd : (first second : Except VerificationError VerificationReport ×
    Run RecordingView KripkeStructure) → Prop
  /-- Both fail for one reason. -/
  | failed (error : VerificationError) (left right : Run RecordingView KripkeStructure) :
      SameEnd (.error error, left) (.error error, right)
  /-- Both succeed with one result. -/
  | succeeded (report : VerificationReport) (longest : Nat)
      (left right : Run RecordingView KripkeStructure) (view : left.view = right.view)
      (store : left.store = right.store) :
      SameEnd (.ok report, left)
        (.ok { report with stats := { report.stats with maxQueueLength := longest } }, right)

/-- Runs that are alike come to the same end when they are closed. -/
theorem Verify.Alike.closed {first second : Except VerificationError Unit ×
    Run RecordingView KripkeStructure} (alike : Verify.Alike first second) :
    SameEnd (Verify.closed first) (Verify.closed second) := by
  obtain ⟨outcome, left⟩ := first
  obtain ⟨outcome', right⟩ := second
  obtain ⟨rfl, same⟩ : outcome = outcome' ∧ _ := alike
  cases outcome with
  | error error => exact .failed error left right
  | ok done =>
      obtain ⟨longest, rfl⟩ := same done rfl
      exact .succeeded _ longest _ _ rfl rfl

/-- **The number of workers does not matter.** If a verification into a recording view and a
Kripke structure ends and is not asked to stop, it ends in the same way with any other number
of workers. -/
theorem verify_sameEnd_of_workers (settings : VerificationSettings) (schedule : Schedule)
    (pool : Pool) (raised : RecordingView → Nat → List CancellationToken)
    (quiet : ∀ view jobs, settings.isCancelled (raised view jobs) = false) (view : RecordingView)
    (store : KripkeStructure) (wellFormed : store.WellFormed) (first second bound : Nat)
    (finished : (verify { settings with workers := first } schedule pool raised bound view
      store).1 ≠ .error .unfinished) :
    ∃ enough, ∀ more, enough ≤ more →
      SameEnd (verify { settings with workers := first } schedule pool raised bound view store)
        (verify { settings with workers := second } schedule pool raised more view store) := by
  simp only [verify_eq] at finished ⊢
  cases validated : schedule.validate pool with
  | error cause => exact ⟨0, fun more _ => .failed _ _ _⟩
  | ok _ =>
      simp only [validated] at finished
      have sound := Run.sound_started settings schedule pool view wellFormed
      have ended : (Verify.processQueue { settings with workers := first } (Layout.new schedule)
          raised bound (Run.started settings schedule pool view store)).1 ≠ .error .unfinished := by
        intro unfinished
        exact finished (Verify.closed_of_error unfinished)
      obtain ⟨enough, alike⟩ := Verify.processQueue_alike quiet first second sound ended
      exact ⟨enough, fun more inside => (alike more inside).closed⟩

/-- Three workers find about the switch what one worker finds. -/
theorem switch_sameEnd_of_workers : ∃ bound report run enough,
    verify Switch.settings Switch.schedule Switch.pool (fun _ _ => []) bound
      ({} : RecordingView) KripkeStructure.empty = (.ok report, run) ∧
    ∀ more, enough ≤ more → SameEnd (.ok report, run)
      (verify { Switch.settings with workers := 3 } Switch.schedule Switch.pool (fun _ _ => [])
        more ({} : RecordingView) KripkeStructure.empty) := by
  obtain ⟨bound, report, run, verified⟩ := Switch.verified
  have quiet : ∀ (_ : RecordingView) (_ : Nat), Switch.settings.isCancelled [] = false :=
    fun _ _ => rfl
  have finished : (verify { Switch.settings with workers := 1 } Switch.schedule Switch.pool
      (fun _ _ => []) bound ({} : RecordingView) KripkeStructure.empty).1 ≠ .error .unfinished := by
    rw [show ({ Switch.settings with workers := 1 } : VerificationSettings) = Switch.settings from
      rfl, verified]
    exact fun impossible => nomatch impossible
  obtain ⟨enough, sameEnd⟩ := verify_sameEnd_of_workers Switch.settings Switch.schedule Switch.pool
    (fun _ _ => []) quiet {} KripkeStructure.empty KripkeStructure.wellFormed_empty 1 3 bound
    finished
  refine ⟨bound, report, run, enough, verified, fun more inside => ?_⟩
  rw [← verified]
  exact sameEnd more inside

end TimedKripke
