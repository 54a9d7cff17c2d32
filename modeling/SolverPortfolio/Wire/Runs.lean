import SolverPortfolio.Archive
import SolverPortfolio.Json
import SolverPortfolio.Json.Record
import SolverPortfolio.Run
import SolverPortfolio.RunStore
import SolverPortfolio.Scalar.Double
import SolverPortfolio.Session.Service
import SolverPortfolio.Wire.Portfolio

/-!
# Runs and what is kept of them in JSON

Runs with everything a run is made of, archived sessions, and the stores of runs and features.
-/

namespace SolverPortfolio.Wire

/-!
## Runs in JSON

For every type a writer and a reader. Fields are written in the order of the
definitions here; the certificate of an outcome is left out when there is none,
every other absent value is written as `null`.
-/

open Document Json

/-! ### Outcomes -/

def kindNames : List (String × OutcomeKind) := OutcomeKind.all.map fun k => (k.name, k)

def writeKind (k : OutcomeKind) : Json := .string k.name

def readKind? : Json → Option OutcomeKind := toNamed? kindNames

def writeOutcome (o : Outcome) : Json :=
  .object (("kind", writeKind o.kind) ::
    match o.certificate with
    | some tokens => [("certificate", strings tokens)]
    | none => [])

/-- The certificate may be missing, also by position. -/
def readOutcome? (j : Json) : Option Outcome := do
  let f ← fields? ["kind", "certificate"] j
  let kind ← f.required "kind" readKind?
  let certificate ← f.defaulted "certificate" none (toOption? (toList? toText?))
  return ⟨kind, certificate⟩

/-! ### Terminations -/

def writeTermination : Termination → Json
  | .exited code => .object [("type", .string "exited"), ("code", int code)]
  | .signaled signal => .object [("type", .string "signaled"), ("signal", int signal)]
  | .ceilingExceeded => .object [("type", .string "ceiling_exceeded")]
  | .recycled => .object [("type", .string "recycled")]

def readTermination? (j : Json) : Option Termination := do
  let (tag, rest) ← tagged? "type" j
  if tag = "exited" then
    let f ← fields? ["code"] rest
    return .exited (← f.required "code" toInt32?)
  else if tag = "signaled" then
    let f ← fields? ["signal"] rest
    return .signaled (← f.required "signal" toInt32?)
  else
    let _ ← fields? [] rest
    if tag = "ceiling_exceeded" then return .ceilingExceeded
    else if tag = "recycled" then return .recycled
    else none

/-! ### Runs -/

def writeAction (a : Action Float) : Json :=
  .object [("solver", .string a.solver), ("cost", double a.cost),
    ("description", .string a.description)]

/-- The text of an action is kept as it is written. -/
def readAction? (j : Json) : Option (Action Float) := do
  let f ← fields? ["solver", "cost", "description"] j
  let solver ← f.required "solver" toText?
  let cost ← f.required "cost" toDouble?
  let description ← f.required "description" toText?
  return ⟨solver, cost, description⟩

def writeResult (r : RunResult Float) : Json :=
  .object [("cost", double r.cost), ("outcome", writeOutcome r.outcome),
    ("termination", writeTermination r.termination)]

def readResult? (j : Json) : Option (RunResult Float) := do
  let f ← fields? ["cost", "outcome", "termination"] j
  let cost ← f.required "cost" toDouble?
  let outcome ← f.required "outcome" readOutcome?
  let termination ← f.required "termination" readTermination?
  return ⟨cost, outcome, termination⟩

def writeRun (r : RecordedRun Float) : Json :=
  .object [("task_id", .string r.taskId), ("solver", .string r.solver),
    ("budget", double r.budget), ("cost", double r.cost), ("outcome", writeOutcome r.outcome)]

def readRun? (j : Json) : Option (RecordedRun Float) := do
  let f ← fields? ["task_id", "solver", "budget", "cost", "outcome"] j
  let taskId ← f.required "task_id" toText?
  let solver ← f.required "solver" toText?
  let budget ← f.required "budget" toDouble?
  let cost ← f.required "cost" toDouble?
  let outcome ← f.required "outcome" readOutcome?
  return ⟨taskId, solver, budget, cost, outcome⟩

/-! ### Sessions -/

def writeAttempt (a : Attempt Float) : Json :=
  .object [("action", writeAction a.action), ("result", writeResult a.result)]

def readAttempt? (j : Json) : Option (Attempt Float) := do
  let f ← fields? ["action", "result"] j
  let action ← f.required "action" readAction?
  let result ← f.required "result" readResult?
  return ⟨action, result⟩

def writeSummary (s : PreprocessingSummary Float) : Json :=
  .object [("preprocessor", .string s.preprocessor), ("cost", double s.cost),
    ("solved_directly", .bool s.solvedDirectly), ("output_task", option .string s.outputTask)]

def readSummary? (j : Json) : Option (PreprocessingSummary Float) := do
  let f ← fields? ["preprocessor", "cost", "solved_directly", "output_task"] j
  let preprocessor ← f.required "preprocessor" toText?
  let cost ← f.required "cost" toDouble?
  let solvedDirectly ← f.required "solved_directly" toBool?
  let outputTask ← f.optional "output_task" toText?
  return ⟨preprocessor, cost, solvedDirectly, outputTask⟩

end SolverPortfolio.Wire

namespace SolverPortfolio.Wire

/-! ## Archived sessions in JSON -/

open Document Json

def writeArchived (s : ArchivedSession Float) : Json :=
  .object [("id", .string s.id.text), ("task_id", .string s.record.taskId),
    ("budget", double s.record.budget), ("cost", double s.record.cost),
    ("entries", list writeAttempt s.record.attempts),
    ("answer", option writeOutcome s.record.answer),
    ("preprocessing", option writeSummary s.record.preprocessing),
    ("started_at", .string s.startedAt.text), ("finished_at", .string s.finishedAt.text)]

def archivedNames : List String :=
  ["id", "task_id", "budget", "cost", "entries", "answer", "preprocessing", "started_at",
    "finished_at"]

def readArchived? (j : Json) : Option (ArchivedSession Float) := do
  let f ← fields? archivedNames j
  let id ← f.required "id" fun v => (toText? v).bind RecordId.parse
  let taskId ← f.required "task_id" toText?
  let budget ← f.required "budget" toDouble?
  let cost ← f.required "cost" toDouble?
  let attempts ← f.required "entries" (toList? readAttempt?)
  let answer ← f.optional "answer" readOutcome?
  let preprocessing ← f.optional "preprocessing" readSummary?
  let startedAt ← f.required "started_at" fun v => (toText? v).bind Instant.parse
  let finishedAt ← f.required "finished_at" fun v => (toText? v).bind Instant.parse
  return ⟨id, ⟨taskId, budget, cost, attempts, answer, preprocessing⟩, startedAt, finishedAt⟩

end SolverPortfolio.Wire

namespace SolverPortfolio.Wire

/-!
## Stores in JSON

A run store is saved as an array of runs, recorded features as an object from
tasks to vectors; of a repeated task the last vector counts.
-/

open Document Json

def storeText (s : RunStore Float) : String := (list writeRun s.saved).pretty

def parseStore? (text : String) : Option (RunStore Float) := do
  let runs ← toList? readRun? (← parse text)
  return .ofRuns runs

def readFeatureTable? : Json → Option (List (String × FeatureVector Float))
  | .object fs => do
    let table ← fs.mapM fun (task, j) => do return (task, ← readFeatures? j)
    return table.reverse
  | _ => none

def parseFeatureTable? (text : String) : Option (List (String × FeatureVector Float)) :=
  (parse text).bind readFeatureTable?

end SolverPortfolio.Wire
