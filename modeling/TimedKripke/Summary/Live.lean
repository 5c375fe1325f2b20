import TimedKripke.Document.Value
import TimedKripke.Live

/-! # Summaries of live runs

What happened in a cycle, and where a live run stands.
-/

namespace TimedKripke

namespace CycleReport

/-- The document of a cycle's report. -/
def toJson (report : CycleReport) : Json :=
  .object
    [("cycle", .nat report.cycle), ("started_at", report.startedAt.toJson),
      ("ringlets", .nat report.ringlets), ("transitioned", .nats report.transitioned),
      ("calls", .nat report.calls)]

end CycleReport

namespace LiveScheduler

/-- The time, the environment and the pool of a live run. -/
def summary (scheduler : LiveScheduler) : Json.Members :=
  [("now", scheduler.now.toJson), ("cycles", .nat scheduler.cycles),
    ("finished", .bool scheduler.hasFinished),
    ("env", PropertyList.toJson scheduler.environment),
    ("pool", .string scheduler.pool.display)]

end LiveScheduler

end TimedKripke
