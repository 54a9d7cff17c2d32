import SolverPortfolio.Json.Record
import SolverPortfolio.Registry
import SolverPortfolio.Settings
import SolverPortfolio.Settings.Layer
import SolverPortfolio.Wire.Settings
import SolverPortfolio.Yaml.Reader

/-!
# Files of a project

The registry of solvers and the settings files, both in YAML.
-/

namespace SolverPortfolio.Wire

/-!
## Solver commands as documents

A command is written in JSON and read from any document. A registry is read
from a YAML file whose `solvers` are commands.
-/

open Document Json

def formatName : OutputFormat → String
  | .satCompetition => "sat_competition"
  | .pbCompetition => "pb_competition"

def writeCommand (c : SolverCommand) : Json :=
  .object [("name", .string c.name), ("program", .string c.program),
    ("args", strings c.arguments), ("format", .string (formatName c.format))]

section

variable {δ : Type} [Document δ]

def readFormat? : δ → Option OutputFormat :=
  toNamed? (named formatName [.satCompetition, .pbCompetition])

def readCommand? (d : δ) : Option SolverCommand := do
  let f ← fields? ["name", "program", "args", "format"] d
  let name ← f.required "name" toText?
  let program ← f.required "program" toText?
  let arguments ← f.defaulted "args" [] (toList? toText?)
  let format ← f.required "format" readFormat?
  return ⟨name, program, arguments, format⟩

end

/-! ### Registries -/

open Yaml

/-- How many references are followed in reading a command. -/
def commandReferences : View → Nat :=
  View.recordReferences [("name", View.references), ("program", View.references),
    ("args", View.listReferences View.references), ("format", View.references)]

/-- How many references are followed in reading a registry. -/
def registryReferences : View → Nat :=
  View.recordReferences [("solvers", View.listReferences commandReferences)]

/-- The commands of a registry file. -/
def parseCommands? (text : String) : Option (List SolverCommand) := do
  let v ← Yaml.parse text
  let f ← fields? ["solvers"] v
  let commands ← f.defaulted "solvers" [] (toList? readCommand?)
  if registryReferences v ≤ referenceLimit v.node.size then some commands else none

end SolverPortfolio.Wire

namespace SolverPortfolio.Wire

/-!
## Loading settings

Settings are loaded from layers: the defaults, the settings files of a project,
and the environment over all of them. They have to be readable first and usable
second.
-/

inductive LoadError where
  /-- A layer cannot be read, or does not fit the settings. -/
  | unreadable
  | unusable (error : SettingsError Float)

/-- The layer of a settings file that may be missing. -/
def fileLayer? (text : Option String) : Option Layer :=
  match text with
  | none => some (.group [])
  | some t => (Yaml.parse t).bind Layer.ofFile?

def loadLayers (layers : List Layer) : Except LoadError (Settings Float) :=
  match readSettings? (Layer.stack layers) with
  | none => .error .unreadable
  | some s =>
    match s.check with
    | .ok () => .ok s
    | .error e => .error (.unusable e)

/-- The settings of one file over the defaults. -/
def loadFile (text : String) : Except LoadError (Settings Float) :=
  match fileLayer? (some text) with
  | some file => loadLayers [file]
  | none => .error .unreadable

/-- The settings of a project file, a file for this host, and the environment. -/
def loadProject (project host : Option String) (bindings : List (String × String)) :
    Except LoadError (Settings Float) :=
  match fileLayer? project, fileLayer? host with
  | some project, some host => loadLayers [project, host, Environment.layer bindings]
  | _, _ => .error .unreadable

end SolverPortfolio.Wire
