import TimedKripke.Document.Schedule
import TimedKripke.Json.Parser

/-! # Settings of a verification

The settings of one run and their document. Every field of the document may be left
out. A cancellation token is not part of the document; it names a flag that others may
raise while the run goes on.
-/

namespace TimedKripke

/-- The name of a flag that asks a run to stop. -/
structure CancellationToken where
  /-- The number that tells tokens apart. -/
  serial : Nat
deriving DecidableEq, Repr

/-- The settings of a run. -/
structure VerificationSettings where
  /-- Views are asked to show clocks. -/
  usingClocks : Bool := true
  /-- The number of jobs expanded together. -/
  workers : Nat := 1
  /-- The greatest number of jobs to process. -/
  maxJobs : Option Nat := none
  /-- The number of idle steps in a row that is tolerated. -/
  starvationLimit : Time := 10
  /-- The flag that asks the run to stop. -/
  cancellation : Option CancellationToken := none
deriving DecidableEq, Repr

namespace VerificationSettings

/-- The flag of the run is among those raised. -/
def isCancelled (settings : VerificationSettings) (raised : List CancellationToken) : Bool :=
  match settings.cancellation with
  | some token => raised.contains token
  | none => false

/-- Sets the number of jobs expanded together, at least one. -/
def withWorkers (settings : VerificationSettings) (workers : Nat) : VerificationSettings :=
  { settings with workers := max workers 1 }

/-- The document of the settings. -/
def toJson (settings : VerificationSettings) : Json :=
  .object
    [("using_clocks", .bool settings.usingClocks), ("workers", .nat settings.workers),
      ("max_jobs", match settings.maxJobs with
        | some limit => .nat limit
        | none => .null),
      ("starvation_limit", settings.starvationLimit.toJson)]

/-- The fields of a document of settings: of an object each may be left out, of an
array the last ones. -/
def fieldsOfJson? (document : Json) : Option (List (Option Json)) :=
  let names := ["using_clocks", "workers", "max_jobs", "starvation_limit"]
  match document with
  | .array elements =>
      if elements.length ≤ names.length then
        some (elements.map some ++ List.replicate (names.length - elements.length) none)
      else none
  | document => document.record? names

/-- Reads a field that may be left out. -/
def fieldOfJson? {α : Type} (read : Json → Option α) (absent : α) : Option Json → Option α
  | some document => read document
  | none => some absent

/-- Reads a document of settings. -/
def ofJson? (document : Json) : Option VerificationSettings := do
  let [usingClocks, workers, maxJobs, starvationLimit] ← fieldsOfJson? document | none
  return {
    usingClocks := ← fieldOfJson? Json.bool? true usingClocks
    workers := ← fieldOfJson? ExecutableId.ofJson? 1 workers
    maxJobs := ← fieldOfJson? (Json.nullable? ExecutableId.ofJson?) none maxJobs
    starvationLimit := ← fieldOfJson? Time.ofJson? 10 starvationLimit }

/-- Reads the text of a document of settings. -/
def parse? (text : String) : Option VerificationSettings :=
  (Json.ofText? text).bind ofJson?

end VerificationSettings

end TimedKripke
