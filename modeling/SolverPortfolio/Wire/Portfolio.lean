import SolverPortfolio.Json
import SolverPortfolio.Json.Record
import SolverPortfolio.Portfolio
import SolverPortfolio.Run
import SolverPortfolio.Scalar.Double
import SolverPortfolio.Wire.Settings
import SolverPortfolio.World

/-!
# Portfolios and their parts in JSON

Worlds with the tables and vectors that go with them, and portfolios.
-/

namespace SolverPortfolio.Wire

/-!
## Worlds, counts and features in JSON

Readers check the form only; whether a ladder or a world is sound is checked
where it is used.
-/

open Document Json

def readIndex? {δ : Type} [Document δ] : δ → Option Nat := toNat? Scalar.wordBound

def writeLadder (l : Ladder Float) : Json :=
  .object [("step", double l.step), ("len", nat l.size)]

def readLadder? (j : Json) : Option (Ladder Float) := do
  let f ← fields? ["step", "len"] j
  let step ← f.required "step" toDouble?
  let size ← f.required "len" readIndex?
  return ⟨step, size⟩

def writeWorld (w : World Float) : Json :=
  .object [("solvers", strings w.solvers), ("ladder", writeLadder w.ladder)]

def readWorld? (j : Json) : Option (World Float) := do
  let f ← fields? ["solvers", "ladder"] j
  let solvers ← f.required "solvers" (toList? toText?)
  let ladder ← f.required "ladder" readLadder?
  return ⟨solvers, ladder⟩

/-! ### Counts -/

def writeCount (c : UInt32) : Json := nat c.toNat

def readCount? (j : Json) : Option UInt32 := (toNat? (Nat.pow 2 32) j).map UInt32.ofNat

def writeCounts (c : Counts) : Json :=
  .object [("nactions", nat c.nactions), ("noutcomes", nat c.noutcomes),
    ("counts", list writeCount c.cells)]

def readCounts? (j : Json) : Option Counts := do
  let f ← fields? ["nactions", "noutcomes", "counts"] j
  let nactions ← f.required "nactions" readIndex?
  let noutcomes ← f.required "noutcomes" readIndex?
  let cells ← f.required "counts" (toList? readCount?)
  return ⟨nactions, noutcomes, cells⟩

/-! ### Features -/

def writeFeatures (v : FeatureVector Float) : Json :=
  .object [("names", strings v.names), ("values", list double v.values)]

def readFeatures? (j : Json) : Option (FeatureVector Float) := do
  let f ← fields? ["names", "values"] j
  let names ← f.required "names" (toList? toText?)
  let values ← f.required "values" (toList? toDouble?)
  return ⟨names, values⟩

/-! ### Phases -/

def phaseNames : List (String × Phase) :=
  [Phase.ready, .awaitingOutcome, .exhausted].map fun p => (p.name, p)

def writePhase (p : Phase) : Json := .string p.name

def readPhase? : Json → Option Phase := toNamed? phaseNames

end SolverPortfolio.Wire

namespace SolverPortfolio.Wire

/-!
## Portfolios in JSON

A model is tagged by its kind, and the tag may stand anywhere among its fields.
Reading a portfolio checks it, so that everything read is fit for use.
-/

open Document Json

variable {δ : Type} [Document δ]

/-! ### Tables and mixtures -/

def writePrediction (p : Prediction Float) : Json :=
  .object [("nactions", nat p.nactions), ("noutcomes", nat p.noutcomes),
    ("probabilities", list double p.probabilities)]

def readPrediction? (d : δ) : Option (Prediction Float) := do
  let f ← fields? ["nactions", "noutcomes", "probabilities"] d
  let nactions ← f.required "nactions" readIndex?
  let noutcomes ← f.required "noutcomes" readIndex?
  let probabilities ← f.required "probabilities" (toList? toDouble?)
  return ⟨nactions, noutcomes, probabilities⟩

def writeMixture (m : Mixture Float) : Json :=
  .object [("family", .string (familyName m.family)), ("nactions", nat m.nactions),
    ("noutcomes", nat m.noutcomes), ("weights", list double m.weights),
    ("components", list (list double) m.components),
    ("training_log_likelihood", option double m.trainingLogLikelihood)]

def mixtureNames : List String :=
  ["family", "nactions", "noutcomes", "weights", "components", "training_log_likelihood"]

/-- The log likelihood may be missing, also by position. -/
def readMixture? (d : δ) : Option (Mixture Float) := do
  let f ← fields? mixtureNames d
  let family ← f.required "family" readFamily?
  let nactions ← f.required "nactions" readIndex?
  let noutcomes ← f.required "noutcomes" readIndex?
  let weights ← f.required "weights" (toList? toDouble?)
  let components ← f.required "components" (toList? (toList? toDouble?))
  let score ← f.defaulted "training_log_likelihood" none (toOption? toDouble?)
  return ⟨family, nactions, noutcomes, weights, components, score⟩

/-! ### Classifiers -/

def writeClassifier (c : Classifier Float) : Json :=
  .object [("names", strings c.names), ("means", list double c.means),
    ("scales", list double c.scales), ("weights", list (list double) c.weights),
    ("pooled", writePrediction c.pooled)]

def readClassifier? (d : δ) : Option (Classifier Float) := do
  let f ← fields? ["names", "means", "scales", "weights", "pooled"] d
  let names ← f.required "names" (toList? toText?)
  let means ← f.required "means" (toList? toDouble?)
  let scales ← f.required "scales" (toList? toDouble?)
  let weights ← f.required "weights" (toList? (toList? toDouble?))
  let pooled ← f.required "pooled" readPrediction?
  return ⟨names, means, scales, weights, pooled⟩

/-! ### Models -/

/-- Tables by task; of repeated tasks the last one counts. -/
def readTables? (d : δ) : Option (List (String × Prediction Float)) := do
  let entries ← toEntries? d
  let tables ← entries.mapM fun (task, v) => do return (task, ← readPrediction? v)
  return tables.foldl (fun ts (task, p) => insertSorted task p ts) []

def writeTables (tables : List (String × Prediction Float)) : Json :=
  .object (tables.map fun (task, p) => (task, writePrediction p))

def writeModel : Model Float → Json
  | .multinomial p =>
    .object [("kind", .string "multinomial"), ("prediction", writePrediction p)]
  | .mixture m => .object [("kind", .string "mixture"), ("mixture", writeMixture m)]
  | .classifier c =>
    .object [("kind", .string "classifier"), ("classifier", writeClassifier c)]
  | .oracle tables => .object [("kind", .string "oracle"), ("tables", writeTables tables)]
  | .random seed nactions noutcomes =>
    .object [("kind", .string "random"), ("seed", nat seed.toNat),
      ("nactions", nat nactions), ("noutcomes", nat noutcomes)]

/-- The fields of a model of the given kind. -/
def readModelOf? (kind : String) (rest : δ) : Option (Model Float) :=
  if kind = "multinomial" then do
    let f ← fields? ["prediction"] rest
    return .multinomial (← f.required "prediction" readPrediction?)
  else if kind = "mixture" then do
    let f ← fields? ["mixture"] rest
    return .mixture (← f.required "mixture" readMixture?)
  else if kind = "classifier" then do
    let f ← fields? ["classifier"] rest
    return .classifier (← f.required "classifier" readClassifier?)
  else if kind = "oracle" then do
    let f ← fields? ["tables"] rest
    return .oracle (← f.required "tables" readTables?)
  else if kind = "random" then do
    let f ← fields? ["seed", "nactions", "noutcomes"] rest
    let seed ← f.required "seed" readWord?
    let nactions ← f.required "nactions" readIndex?
    let noutcomes ← f.required "noutcomes" readIndex?
    return .random (UInt64.ofNat seed) nactions noutcomes
  else none

def readModel? (j : Json) : Option (Model Float) := do
  let (kind, rest) ← tagged? "kind" j
  readModelOf? kind rest

/-! ### Portfolios -/

def writePortfolio (p : Portfolio Float) : Json :=
  .object [("world", writeWorld p.world), ("model", writeModel p.model),
    ("planner", writePlanner p.planner)]

def readPortfolio? (j : Json) : Option (Portfolio Float) := do
  let f ← fields? ["world", "model", "planner"] j
  let world ← f.required "world" readWorld?
  let model ← f.required "model" readModel?
  let planner ← f.required "planner" readPlanner?
  return ⟨world, model, planner⟩

/-- The text a portfolio is saved as. -/
def portfolioText (p : Portfolio Float) : String := (writePortfolio p).pretty

/-- A portfolio from a JSON value, fit for use. -/
def loadPortfolio (j : Json) : Decision Float (Portfolio Float) :=
  match readPortfolio? j with
  | none => .error .unreadable
  | some p => p.check.map fun _ => p

/-- A portfolio from the text it was saved as. -/
def parsePortfolio (text : String) : Decision Float (Portfolio Float) :=
  match parse text with
  | none => .error .unreadable
  | some j => loadPortfolio j

/-! ### Files -/

/-- The texts of files, by path. -/
abbrev Files := String → Option String

/-- Save a portfolio in place of what a file held. -/
def savePortfolio (path : String) (p : Portfolio Float) (files : Files) : Files :=
  fun other => if other = path then some (portfolioText p) else files other

/-- The portfolio saved in a file, if the file is there. -/
def openPortfolio (path : String) (files : Files) : Option (Decision Float (Portfolio Float)) :=
  (files path).map parsePortfolio

end SolverPortfolio.Wire
