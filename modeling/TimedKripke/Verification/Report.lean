import TimedKripke.Document.Schedule
import TimedKripke.Kripke.Structure
import TimedKripke.Kripke.View

/-! # Outcomes of a verification

What a run counts and finds, and the reasons for which it stops early.
-/

namespace TimedKripke

/-- The counters of a run. -/
structure VerificationStats where
  jobsProcessed : Nat := 0
  scheduleVariations : Nat := 0
  statesCommitted : Nat := 0
  /-- Variations that ended in a place seen before. -/
  cyclesClosed : Nat := 0
  /-- The greatest length of the queue. -/
  maxQueueLength : Nat := 0
deriving DecidableEq, Repr

/-- A machine that does not get on. -/
structure Stuck where
  executable : ExecutableId
  /-- The number of its steps in a row without a transition. -/
  cycles : Time
deriving DecidableEq, Repr

namespace Stuck

/-- A finding in words. -/
def display (finding : Stuck) : String :=
  finding.executable.display ++ " did not transition for " ++ toString finding.cycles.toNat ++
    " ringlets"

/-- The document of a finding. -/
def toJson (finding : Stuck) : Json :=
  .object [("Stuck", .object
    [("executable", .nat finding.executable), ("cycles", finding.cycles.toJson)])]

/-- Reads the document of a finding. -/
def ofJson? : Json → Option Stuck
  | .object [("Stuck", body)] => do
      let [some executable, some cycles] ← body.record? ["executable", "cycles"] | none
      return {
        executable := ← ExecutableId.ofJson? executable
        cycles := ← Time.ofJson? cycles }
  | _ => none

end Stuck

namespace VerificationStats

/-- The document of the counters. -/
def toJson (stats : VerificationStats) : Json :=
  .object
    [("jobs_processed", .nat stats.jobsProcessed),
      ("schedule_variations", .nat stats.scheduleVariations),
      ("states_committed", .nat stats.statesCommitted),
      ("cycles_closed", .nat stats.cyclesClosed),
      ("max_queue_length", .nat stats.maxQueueLength)]

/-- Reads the document of the counters. -/
def ofJson? (document : Json) : Option VerificationStats := do
  let [some jobs, some variations, some committed, some closed, some queue] ←
    document.record? ["jobs_processed", "schedule_variations", "states_committed",
      "cycles_closed", "max_queue_length"] | none
  return {
    jobsProcessed := ← ExecutableId.ofJson? jobs
    scheduleVariations := ← ExecutableId.ofJson? variations
    statesCommitted := ← ExecutableId.ofJson? committed
    cyclesClosed := ← ExecutableId.ofJson? closed
    maxQueueLength := ← ExecutableId.ofJson? queue }

end VerificationStats

/-- The outcome of a completed run. -/
structure VerificationReport where
  stats : VerificationStats
  /-- The findings, at most one for each executable. -/
  liveness : List Stuck
deriving DecidableEq, Repr

namespace VerificationReport

/-- The document of a report. -/
def toJson (report : VerificationReport) : Json :=
  .object
    [("stats", report.stats.toJson), ("liveness", .array (report.liveness.map Stuck.toJson))]

/-- Reads the document of a report. -/
def ofJson? (document : Json) : Option VerificationReport := do
  let [some stats, some liveness] ← document.record? ["stats", "liveness"] | none
  return {
    stats := ← VerificationStats.ofJson? stats
    liveness := ← liveness.list? Stuck.ofJson? }

end VerificationReport

/-- The reasons for which a run ends without a report. There is none for a worker that
panicked in an action of a machine, since programs always end with a result. -/
inductive VerificationError where
  | fault (cause : Fault)
  | store (error : StoreError)
  | view (error : ViewError)
  /-- The run was asked to stop. -/
  | cancelled (jobs : Nat)
  /-- The greatest number of jobs was reached with work left. -/
  | jobLimitExceeded (limit : Nat)
  /-- The bound on batches was reached with work left. -/
  | unfinished
deriving DecidableEq, Repr

namespace VerificationError

/-- The name of an error's cause. -/
def kind : VerificationError → String
  | fault cause => cause.kind
  | store error => error.kind
  | view error => error.kind
  | cancelled _ => "Cancelled"
  | jobLimitExceeded _ => "JobLimitExceeded"
  | unfinished => "Unfinished"

/-- An error in words. -/
def message? : VerificationError → Option String
  | fault cause => some cause.message
  | store error => error.message?
  | view error => some error.message
  | cancelled jobs => some ("verification cancelled after " ++ toString jobs ++ " jobs")
  | jobLimitExceeded limit => some ("job limit of " ++ toString limit ++ " exceeded")
  | unfinished => none

end VerificationError

end TimedKripke
