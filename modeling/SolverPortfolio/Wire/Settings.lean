import SolverPortfolio.Json.Record
import SolverPortfolio.Scalar.Double
import SolverPortfolio.Settings

/-!
# Settings as documents

The settings of the program, and the log plans that follow from them.
-/

namespace SolverPortfolio.Wire

/-!
## The settings of the program

Settings are read from any document and written in JSON. Every section and
every setting may be left out; it then has its default.
-/

open Document Json

variable {δ : Type} [Document δ]

def readWord? : δ → Option Nat := toNat? Scalar.wordBound

/-! ### Choices by name -/

def plannerKindName : PlannerKind → String
  | .knapsack => "knapsack"
  | .bellman => "bellman"

def modelKindName : ModelKind → String
  | .mixture => "mixture"
  | .multinomial => "multinomial"
  | .classifier => "classifier"
  | .oracle => "oracle"
  | .random => "random"

def familyName : Family → String
  | .multinomial => "multinomial"
  | .dcm => "dcm"

def modeName : ExecutionMode → String
  | .live => "live"
  | .recycled => "recycled"

/-- A table for reading what `name` writes. -/
def named {β : Type} (name : β → String) (choices : List β) : List (String × β) :=
  choices.map fun c => (name c, c)

def readPlannerKind? : δ → Option PlannerKind :=
  toNamed? (named plannerKindName [.knapsack, .bellman])

def readModelKind? : δ → Option ModelKind :=
  toNamed? (named modelKindName [.mixture, .multinomial, .classifier, .oracle, .random])

def readFamily? : δ → Option Family := toNamed? (named familyName [.multinomial, .dcm])

def readMode? : δ → Option ExecutionMode := toNamed? (named modeName [.live, .recycled])

/-! ### Sections -/

def writeBudget (s : BudgetSettings Float) : Json :=
  .object [("ladder_step", double s.ladderStep), ("ladder_len", nat s.ladderLength),
    ("machine_speed", double s.machineSpeed)]

def readBudget? (d : δ) : Option (BudgetSettings Float) := do
  let base : BudgetSettings Float := .default
  let f ← fields? ["ladder_step", "ladder_len", "machine_speed"] d
  let ladderStep ← f.defaulted "ladder_step" base.ladderStep toDouble?
  let ladderLength ← f.defaulted "ladder_len" base.ladderLength readWord?
  let machineSpeed ← f.defaulted "machine_speed" base.machineSpeed toDouble?
  return ⟨ladderStep, ladderLength, machineSpeed⟩

def writeSession (s : SessionSettings) : Json :=
  .object [("max_invocations", nat s.maxInvocations),
    ("charge_feature_cost", .bool s.chargeFeatures), ("charge_overhead", .bool s.chargeOverhead)]

def readSession? (d : δ) : Option SessionSettings := do
  let base := SessionSettings.default
  let f ← fields? ["max_invocations", "charge_feature_cost", "charge_overhead"] d
  let maxInvocations ← f.defaulted "max_invocations" base.maxInvocations (toNat? (Nat.pow 2 32))
  let chargeFeatures ← f.defaulted "charge_feature_cost" base.chargeFeatures toBool?
  let chargeOverhead ← f.defaulted "charge_overhead" base.chargeOverhead toBool?
  return ⟨maxInvocations, chargeFeatures, chargeOverhead⟩

def writePlanner (s : PlannerSettings Float) : Json :=
  .object [("kind", .string (plannerKindName s.kind)), ("replan", .bool s.replan),
    ("discount", double s.discount), ("horizon", nat s.horizon)]

def readPlanner? (d : δ) : Option (PlannerSettings Float) := do
  let base : PlannerSettings Float := .default
  let f ← fields? ["kind", "replan", "discount", "horizon"] d
  let kind ← f.defaulted "kind" base.kind readPlannerKind?
  let replan ← f.defaulted "replan" base.replan toBool?
  let discount ← f.defaulted "discount" base.discount toDouble?
  let horizon ← f.defaulted "horizon" base.horizon readWord?
  return ⟨kind, replan, discount, horizon⟩

def writeEstimator (s : EstimatorSettings Float) : Json :=
  .object [("model", .string (modelKindName s.model)), ("family", .string (familyName s.family)),
    ("components", nat s.components), ("restarts", nat s.restarts),
    ("max_iterations", nat s.maxIterations), ("tolerance", double s.tolerance),
    ("concentration", double s.concentration), ("dcm_prior_shape", double s.priorShape),
    ("dcm_prior_scale", double s.priorScale), ("logistic_iterations", nat s.logisticIterations),
    ("logistic_step", double s.logisticStep), ("logistic_l2", double s.logisticPenalty),
    ("seed", option nat s.seed)]

def estimatorNames : List String :=
  ["model", "family", "components", "restarts", "max_iterations", "tolerance",
    "concentration", "dcm_prior_shape", "dcm_prior_scale", "logistic_iterations",
    "logistic_step", "logistic_l2", "seed"]

def readEstimator? (d : δ) : Option (EstimatorSettings Float) := do
  let base : EstimatorSettings Float := .default
  let f ← fields? estimatorNames d
  return {
    model := ← f.defaulted "model" base.model readModelKind?
    family := ← f.defaulted "family" base.family readFamily?
    components := ← f.defaulted "components" base.components readWord?
    restarts := ← f.defaulted "restarts" base.restarts readWord?
    maxIterations := ← f.defaulted "max_iterations" base.maxIterations readWord?
    tolerance := ← f.defaulted "tolerance" base.tolerance toDouble?
    concentration := ← f.defaulted "concentration" base.concentration toDouble?
    priorShape := ← f.defaulted "dcm_prior_shape" base.priorShape toDouble?
    priorScale := ← f.defaulted "dcm_prior_scale" base.priorScale toDouble?
    logisticIterations := ← f.defaulted "logistic_iterations" base.logisticIterations readWord?
    logisticStep := ← f.defaulted "logistic_step" base.logisticStep toDouble?
    logisticPenalty := ← f.defaulted "logistic_l2" base.logisticPenalty toDouble?
    seed := ← f.defaulted "seed" base.seed (toOption? readWord?) }

def writeExecution (s : ExecutionSettings Float) : Json :=
  .object [("mode", .string (modeName s.mode)), ("poll_interval_ms", nat s.pollInterval),
    ("wall_clock_slack", double s.wallClockSlack), ("kill_grace_ms", nat s.killGrace)]

def readExecution? (d : δ) : Option (ExecutionSettings Float) := do
  let base : ExecutionSettings Float := .default
  let f ← fields? ["mode", "poll_interval_ms", "wall_clock_slack", "kill_grace_ms"] d
  let mode ← f.defaulted "mode" base.mode readMode?
  let pollInterval ← f.defaulted "poll_interval_ms" base.pollInterval readWord?
  let wallClockSlack ← f.defaulted "wall_clock_slack" base.wallClockSlack toDouble?
  let killGrace ← f.defaulted "kill_grace_ms" base.killGrace readWord?
  return ⟨mode, pollInterval, wallClockSlack, killGrace⟩

def writeLogging (s : LoggingSettings) : Json :=
  .object [("level", .string s.level), ("format", .string s.format)]

def readLogging? (d : δ) : Option LoggingSettings := do
  let base := LoggingSettings.default
  let f ← fields? ["level", "format"] d
  let level ← f.defaulted "level" base.level toText?
  let format ← f.defaulted "format" base.format toText?
  return ⟨level, format⟩

/-! ### All of them -/

def writeSettings (s : Settings Float) : Json :=
  .object [("budget", writeBudget s.budget), ("portfolio", writeSession s.session),
    ("planner", writePlanner s.planner), ("estimator", writeEstimator s.estimator),
    ("execution", writeExecution s.execution), ("logging", writeLogging s.logging)]

def readSettings? (d : δ) : Option (Settings Float) := do
  let base : Settings Float := .default
  let f ← fields? ["budget", "portfolio", "planner", "estimator", "execution", "logging"] d
  let budget ← f.defaulted "budget" base.budget readBudget?
  let session ← f.defaulted "portfolio" base.session readSession?
  let planner ← f.defaulted "planner" base.planner readPlanner?
  let estimator ← f.defaulted "estimator" base.estimator readEstimator?
  let execution ← f.defaulted "execution" base.execution readExecution?
  let logging ← f.defaulted "logging" base.logging readLogging?
  return ⟨budget, session, planner, estimator, execution, logging⟩

end SolverPortfolio.Wire

namespace SolverPortfolio.Wire

/-! ## Log plans as documents -/

open Document Json

def logFormatName : LogFormat → String
  | .json => "json"
  | .pretty => "pretty"

def rotationName : LogRotation → String
  | .daily => "daily"
  | .hourly => "hourly"
  | .never => "never"

def writeLogPlan (p : LogPlan) : Json :=
  .object [("level", .string p.level), ("format", .string (logFormatName p.format)),
    ("log_dir", option .string p.directory), ("enable_stdout", .bool p.toStdout),
    ("rotation", .string (rotationName p.rotation))]

variable {δ : Type} [Document δ]

def readLogFormat? : δ → Option LogFormat := toNamed? (named logFormatName [.json, .pretty])

def readRotation? : δ → Option LogRotation :=
  toNamed? (named rotationName [.daily, .hourly, .never])

def readLogPlan? (d : δ) : Option LogPlan := do
  let base := LogPlan.default
  let f ← fields? ["level", "format", "log_dir", "enable_stdout", "rotation"] d
  let level ← f.defaulted "level" base.level toText?
  let format ← f.defaulted "format" base.format readLogFormat?
  let directory ← f.optional "log_dir" toText?
  let toStdout ← f.defaulted "enable_stdout" base.toStdout toBool?
  let rotation ← f.defaulted "rotation" base.rotation readRotation?
  return ⟨level, format, directory, toStdout, rotation⟩

end SolverPortfolio.Wire
