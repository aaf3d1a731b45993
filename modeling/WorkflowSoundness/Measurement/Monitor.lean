import WorkflowSoundness.Measurement.Report
import WorkflowSoundness.Measurement.Reporter

/-!
Passing the events of a run on to a reporter. The monitor's clock moves one nanosecond at
each look, which makes every run repeatable. A section's time is what passed between its
beginning and its end, less the time that the reporter says was left out meanwhile.
-/

namespace WorkflowSoundness

structure RunningSection where
  part : Section
  since : Nat
  /-- What the reporter had left out of the section before it began. -/
  ignoredBefore : Nat

/-- A reporter that is being told the events of a run. -/
structure Monitor where
  reporter : Reporter
  /-- Log messages, in order. -/
  messages : List (Level × String) := []
  clock : Nat := 0
  /-- The innermost section comes first. -/
  running : List RunningSection := []

def Section.name : Section → String
  | .timed name => name
  | .plan name => name
  | .ignored name => name

namespace Monitor

def looking (monitor : Monitor) : Monitor :=
  { monitor with clock := monitor.clock + 1 }

def beginSection (graph : String) (part : Section) (monitor : Monitor) : Monitor :=
  { monitor.looking with
    running := ⟨part, monitor.clock, monitor.reporter.ignored graph part.name⟩ :: monitor.running }

/-- What the reporter is told when a section ends that took `elapsed` nanoseconds. -/
def closing (graph : String) (part : Section) (elapsed ignored : Nat) (reporter : Reporter) :
    Reporter :=
  match part with
  | .timed name => reporter.recordTime graph name (elapsed - ignored)
  | .plan _ => reporter.put graph Metric.planTime (Reporter.clamp (elapsed - ignored))
  | .ignored name => reporter.recordIgnored graph name elapsed

def endSection (graph : String) (monitor : Monitor) : Monitor :=
  match monitor.running with
  | [] => monitor
  | ⟨part, since, before⟩ :: rest =>
    let ignored := monitor.reporter.ignored graph part.name - before
    { monitor.looking with
      reporter := closing graph part (monitor.clock - since) ignored monitor.reporter
      running := rest }

/-- Tells one event to the reporter, the log or the clock. -/
def observe (graph : String) (monitor : Monitor) : Event → Monitor
  | .put key value => { monitor with reporter := monitor.reporter.put graph key value }
  | .add key delta => { monitor with reporter := monitor.reporter.add graph key delta }
  | .log level message => { monitor with messages := monitor.messages ++ [(level, message)] }
  | .begins part => monitor.beginSection graph part
  | .ends => monitor.endSection graph

/-- Sections that a misuse left open are forgotten. -/
def watch (graph : String) (events : List Event) (monitor : Monitor) : Monitor :=
  { events.foldl (observe graph) monitor with running := monitor.running }

end Monitor

/-- The reporter after the events of a run. -/
def Reporter.watch (graph : String) (events : List Event) (reporter : Reporter) : Reporter :=
  (Monitor.watch graph events ⟨reporter, [], 0, []⟩).reporter

end WorkflowSoundness
