import TimedKripke.Bytes
import TimedKripke.Call.Basic
import TimedKripke.Call.Chain
import TimedKripke.Clock
import TimedKripke.Constraint
import TimedKripke.Count
import TimedKripke.Document.Constraint
import TimedKripke.Document.Kripke
import TimedKripke.Document.Machine
import TimedKripke.Document.Pool
import TimedKripke.Document.Schedule
import TimedKripke.Document.Script
import TimedKripke.Document.Value
import TimedKripke.Enumeration.Combinations
import TimedKripke.Enumeration.Domain
import TimedKripke.Enumeration.Enumerator
import TimedKripke.Fault
import TimedKripke.Json.Basic
import TimedKripke.Json.Numeral
import TimedKripke.Json.Parser
import TimedKripke.Json.Token
import TimedKripke.Kripke.Durable
import TimedKripke.Kripke.Probe
import TimedKripke.Kripke.State
import TimedKripke.Kripke.Structure
import TimedKripke.Kripke.View
import TimedKripke.Live
import TimedKripke.Machine.Blueprint
import TimedKripke.Machine.External
import TimedKripke.Machine.Instance
import TimedKripke.OrderedMap
import TimedKripke.Pool.Basic
import TimedKripke.Pool.Executable
import TimedKripke.Program.Basic
import TimedKripke.Program.Run
import TimedKripke.Program.Script
import TimedKripke.Proofs.Enumeration.Domain
import TimedKripke.Proofs.Enumeration.Enumerator
import TimedKripke.Proofs.Enumeration.Flattening
import TimedKripke.Proofs.Enumeration.Nested
import TimedKripke.Proofs.Enumeration.Orbit
import TimedKripke.Proofs.Kripke.Durable
import TimedKripke.Proofs.Kripke.Edges
import TimedKripke.Proofs.Kripke.Lines
import TimedKripke.Proofs.Kripke.Structure
import TimedKripke.Proofs.Live.Coverage
import TimedKripke.Proofs.Live.Outputs
import TimedKripke.Proofs.Machine.Blueprint
import TimedKripke.Proofs.Machine.Instance
import TimedKripke.Proofs.Machine.Range
import TimedKripke.Proofs.OrderedMap
import TimedKripke.Proofs.Outcome
import TimedKripke.Proofs.Pool.Basic
import TimedKripke.Proofs.Pool.Executable
import TimedKripke.Proofs.Pool.Fingerprint
import TimedKripke.Proofs.Pool.Range
import TimedKripke.Proofs.Program.Elsewhere
import TimedKripke.Proofs.Program.Run
import TimedKripke.Proofs.Ringlet.Dispatch
import TimedKripke.Proofs.Ringlet.Intervals
import TimedKripke.Proofs.Ringlet.Locality
import TimedKripke.Proofs.Ringlet.TimeAware
import TimedKripke.Proofs.Ringlet.Writes
import TimedKripke.Proofs.Schedule.Order
import TimedKripke.Proofs.Schedule.Validation
import TimedKripke.Proofs.Value.Default
import TimedKripke.Proofs.Value.Type
import TimedKripke.Proofs.Variation.Detour
import TimedKripke.Proofs.Variation.Execution
import TimedKripke.Proofs.Variation.IdleSteps
import TimedKripke.Proofs.Variation.Inputs
import TimedKripke.Proofs.Variation.Progress
import TimedKripke.Proofs.Variation.Search
import TimedKripke.Proofs.Variation.Section
import TimedKripke.Proofs.Variation.Uncounted
import TimedKripke.Proofs.Verification.Additions
import TimedKripke.Proofs.Verification.Alike
import TimedKripke.Proofs.Verification.Batching
import TimedKripke.Proofs.Verification.Choices
import TimedKripke.Proofs.Verification.Commits
import TimedKripke.Proofs.Verification.CycleClosure
import TimedKripke.Proofs.Verification.CycleLength
import TimedKripke.Proofs.Verification.Deadlock
import TimedKripke.Proofs.Verification.Expansion
import TimedKripke.Proofs.Verification.Exploration
import TimedKripke.Proofs.Verification.Finality
import TimedKripke.Proofs.Verification.Finiteness
import TimedKripke.Proofs.Verification.JobLimit
import TimedKripke.Proofs.Verification.Ledger
import TimedKripke.Proofs.Verification.Places
import TimedKripke.Proofs.Verification.Reachability
import TimedKripke.Proofs.Verification.Repetition
import TimedKripke.Proofs.Verification.Splicing
import TimedKripke.Proofs.Verification.Starvation
import TimedKripke.Proofs.Verification.Termination
import TimedKripke.Proofs.Verification.Workers
import TimedKripke.Proofs.Verification.Writing
import TimedKripke.Ringlet.Basic
import TimedKripke.Ringlet.Dispatch
import TimedKripke.Ringlet.TimeAware
import TimedKripke.Schedule.Basic
import TimedKripke.Schedule.Section
import TimedKripke.Schedule.Timeslot
import TimedKripke.Schedule.Validation
import TimedKripke.Summary.Kripke
import TimedKripke.Summary.Live
import TimedKripke.Summary.Machine
import TimedKripke.Summary.Schedule
import TimedKripke.Summary.Variation
import TimedKripke.Time
import TimedKripke.Value.Basic
import TimedKripke.Value.Type
import TimedKripke.Variation.Search
import TimedKripke.Variation.Section
import TimedKripke.Variation.Thread
import TimedKripke.Verification.Expansion
import TimedKripke.Verification.Odometer
import TimedKripke.Verification.Report
import TimedKripke.Verification.Run
import TimedKripke.Verification.Settings
import TimedKripke.Proofs.Kripke.Union
import TimedKripke.Proofs.Ringlet.CallOrder
import TimedKripke.Proofs.Variation.Observation
import TimedKripke.Proofs.Ringlet.Nesting
import TimedKripke.Proofs.Ringlet.Participants
import TimedKripke.Proofs.Machine.Lifetime
import TimedKripke.Proofs.Ringlet.Noninterference
import TimedKripke.Proofs.Pool.FiniteMap
import TimedKripke.Proofs.Pool.Overlay
import TimedKripke.Proofs.Machine.Variables
import TimedKripke.Proofs.Variation.Recursion
import TimedKripke.Proofs.Constraint.Expression
import TimedKripke.Proofs.Machine.Suspension
