import SolverPortfolio.Scalar

/-!
# Settings

What can be configured, which settings can be used, and what follows from them for logging.
-/

namespace SolverPortfolio

/-!
## What can be configured

Everything that can be set, with the values that hold when nothing is said.
-/

/-! ### Choices -/

inductive PlannerKind where
  | knapsack
  | bellman
deriving DecidableEq

inductive ModelKind where
  | mixture
  | multinomial
  | classifier
  | oracle
  | random
deriving DecidableEq

/-- How a mixture component describes the outcomes of one action: by fixed
probabilities, or by Dirichlet concentrations that the outcomes seen update. -/
inductive Family where
  | multinomial
  | dcm
deriving DecidableEq

inductive ExecutionMode where
  | live
  | recycled
deriving DecidableEq

/-! ### Sections -/

/-- The ladder, and how fast this host is compared with the recorded one. -/
structure BudgetSettings (α : Type) where
  ladderStep : α
  ladderLength : Nat
  machineSpeed : α

structure SessionSettings where
  maxInvocations : Nat
  chargeFeatures : Bool
  chargeOverhead : Bool
deriving DecidableEq

/-- `discount` and `horizon` belong to the Bellman planner, `replan` to the
knapsack planner. -/
structure PlannerSettings (α : Type) where
  kind : PlannerKind
  replan : Bool
  discount : α
  horizon : Nat

/-- Settings of the model fits. `concentration` is the pseudo-count of
categorical estimates; the prior of Dirichlet concentrations is a gamma
distribution of the given shape and scale. -/
structure EstimatorSettings (α : Type) where
  model : ModelKind
  family : Family
  components : Nat
  restarts : Nat
  maxIterations : Nat
  tolerance : α
  concentration : α
  priorShape : α
  priorScale : α
  logisticIterations : Nat
  logisticStep : α
  logisticPenalty : α
  seed : Option Nat

/-- Times are in milliseconds. -/
structure ExecutionSettings (α : Type) where
  mode : ExecutionMode
  pollInterval : Nat
  wallClockSlack : α
  killGrace : Nat

structure LoggingSettings where
  level : String
  format : String
deriving DecidableEq

structure Settings (α : Type) where
  budget : BudgetSettings α
  session : SessionSettings
  planner : PlannerSettings α
  estimator : EstimatorSettings α
  execution : ExecutionSettings α
  logging : LoggingSettings

/-! ### Defaults -/

section

variable {α : Type} [Scalar α]

def BudgetSettings.default : BudgetSettings α := ⟨100, 10, 1⟩

def SessionSettings.default : SessionSettings := ⟨50, true, false⟩

def PlannerSettings.default : PlannerSettings α := ⟨.knapsack, true, 5e-4, 4⟩

def EstimatorSettings.default : EstimatorSettings α where
  model := .mixture
  family := .dcm
  components := 16
  restarts := 4
  maxIterations := 64
  tolerance := 1e-6
  concentration := 1e-2
  priorShape := 1.1
  priorScale := 2
  logisticIterations := 500
  logisticStep := 0.5
  logisticPenalty := 1e-3
  seed := none

def ExecutionSettings.default : ExecutionSettings α := ⟨.live, 100, 2, 2000⟩

def LoggingSettings.default : LoggingSettings := ⟨"info", "json"⟩

def Settings.default : Settings α where
  budget := .default
  session := .default
  planner := .default
  estimator := .default
  execution := .default
  logging := .default

end

/-!
## Usable settings

`Settings.check` goes through the sections in order and reports the first
setting that is out of range. The error says which one and shows its value.
-/

inductive SettingsError (α : Type) where
  | ladderStep (value : α)
  | ladderLength (value : Nat)
  | machineSpeed (value : α)
  | maxInvocations (value : Nat)
  | discount (value : α)
  | horizon (value : Nat)
  | components (value : Nat)
  | restarts (value : Nat)
  | priorShape (value : α)
  | smoothing
  | logistic
  | pollInterval (value : Nat)
  | wallClockSlack (value : α)
  | logLevel (value : String)
  | logFormat (value : String)

namespace SettingsError

variable {α : Type} [Scalar α]

def leastOne (what : String) (value : Nat) : String :=
  "Invalid " ++ what ++ ": " ++ toString value ++ ". Must be at least 1"

def failed (reason : String) : String := "Configuration validation failed: " ++ reason

def message : SettingsError α → String
  | .ladderStep x =>
    "Invalid ladder_step: " ++ Scalar.text x ++ ". Must be positive and finite"
  | .ladderLength n => leastOne "ladder_len" n
  | .machineSpeed x =>
    "Invalid machine_speed: " ++ Scalar.text x ++ ". Must be positive and finite"
  | .maxInvocations n => leastOne "max_invocations" n
  | .discount x => "Invalid discount: " ++ Scalar.text x ++ ". Must be in [0, 1)"
  | .horizon n => leastOne "horizon" n
  | .components n => leastOne "components" n
  | .restarts n => leastOne "restarts" n
  | .priorShape x => "Invalid dcm_prior_shape: " ++ Scalar.text x ++ ". Must be at least 1"
  | .smoothing => failed "dcm_prior_scale must be positive and concentration nonnegative"
  | .logistic => failed "logistic_step must be positive and logistic_l2 nonnegative"
  | .pollInterval n => leastOne "poll_interval_ms" n
  | .wallClockSlack x => failed ("wall_clock_slack must be at least 1, got " ++ Scalar.text x)
  | .logLevel s =>
    "Invalid log level: " ++ s ++ ". Must be one of: trace, debug, info, warn, error"
  | .logFormat s => "Invalid log format: " ++ s ++ ". Must be one of: json, pretty"

end SettingsError

def logLevels : List String := ["trace", "debug", "info", "warn", "error"]

def logFormats : List String := ["json", "pretty"]

section

variable {α : Type} [Scalar α]

/-- In `[0, 1)`. -/
def isDiscount (x : α) : Bool := decide (0 ≤ x) && decide (x < 1)

/-- An error when the condition fails. -/
def demand (holds : Bool) (error : SettingsError α) : Except (SettingsError α) Unit :=
  if holds then .ok () else .error error

def BudgetSettings.check (s : BudgetSettings α) : Except (SettingsError α) Unit := do
  demand (Scalar.isPositiveFinite s.ladderStep) (.ladderStep s.ladderStep)
  demand (s.ladderLength != 0) (.ladderLength s.ladderLength)
  demand (Scalar.isPositiveFinite s.machineSpeed) (.machineSpeed s.machineSpeed)

def SessionSettings.check (s : SessionSettings) : Except (SettingsError α) Unit :=
  demand (s.maxInvocations != 0) (.maxInvocations s.maxInvocations)

def PlannerSettings.check (s : PlannerSettings α) : Except (SettingsError α) Unit := do
  demand (isDiscount s.discount) (.discount s.discount)
  demand (s.horizon != 0) (.horizon s.horizon)

/-- The priors are refused when they are out of range, the step and the penalty
of the classifier when they are not in range: a value that is not a number
passes the first and fails the second. -/
def EstimatorSettings.check (s : EstimatorSettings α) : Except (SettingsError α) Unit := do
  demand (s.components != 0) (.components s.components)
  demand (s.restarts != 0) (.restarts s.restarts)
  demand (!decide (s.priorShape < 1)) (.priorShape s.priorShape)
  demand (!decide (s.priorScale ≤ 0) && !decide (s.concentration < 0)) .smoothing
  demand (decide (0 < s.logisticStep) && decide (0 ≤ s.logisticPenalty)) .logistic

def ExecutionSettings.check (s : ExecutionSettings α) : Except (SettingsError α) Unit := do
  demand (s.pollInterval != 0) (.pollInterval s.pollInterval)
  demand (!decide (s.wallClockSlack < 1)) (.wallClockSlack s.wallClockSlack)

def LoggingSettings.check (s : LoggingSettings) : Except (SettingsError α) Unit := do
  demand (logLevels.contains s.level) (.logLevel s.level)
  demand (logFormats.contains s.format) (.logFormat s.format)

def Settings.check (s : Settings α) : Except (SettingsError α) Unit := do
  s.budget.check
  s.session.check
  s.planner.check
  s.estimator.check
  s.execution.check
  s.logging.check

end

/-!
## Logging

How and where log lines are written. The settings of the program name a level
and a format; everything else has its default.
-/

inductive LogFormat where
  | json
  | pretty
deriving DecidableEq

/-- How often a log file is begun anew. -/
inductive LogRotation where
  | daily
  | hourly
  | never
deriving DecidableEq

/-- Without a directory nothing is logged to a file. -/
structure LogPlan where
  level : String
  format : LogFormat
  directory : Option String
  toStdout : Bool
  rotation : LogRotation
deriving DecidableEq

namespace LogPlan

def default : LogPlan := ⟨"info", .json, none, true, .daily⟩

/-- Letters in either case; a level has no others that differ by case. -/
def lower (s : String) : String := String.ofList (s.toList.map Char.toLower)

/-- Every format but the pretty one is written as JSON. -/
def ofSettings (s : LoggingSettings) : LogPlan :=
  { default with
    level := s.level
    format := if lower s.format = "pretty" then .pretty else .json }

/-- The level has to be known, in either case. -/
def checkLevel (p : LogPlan) : Except String Unit :=
  if logLevels.contains (lower p.level) then .ok ()
  else .error ("Invalid log level: " ++ p.level)

end LogPlan

end SolverPortfolio
