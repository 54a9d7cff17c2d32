import SolverPortfolio.Archive
import SolverPortfolio.Classifier
import SolverPortfolio.Counts
import SolverPortfolio.Decimal
import SolverPortfolio.Decimal.Layout
import SolverPortfolio.Document
import SolverPortfolio.Error
import SolverPortfolio.Json
import SolverPortfolio.Json.Record
import SolverPortfolio.Mixture
import SolverPortfolio.Planner
import SolverPortfolio.Portfolio
import SolverPortfolio.Prediction
import SolverPortfolio.Proofs.Arguments
import SolverPortfolio.Proofs.Bounds.Access
import SolverPortfolio.Proofs.Bounds.Model
import SolverPortfolio.Proofs.Bounds.Planner
import SolverPortfolio.Proofs.Bounds.Strategy
import SolverPortfolio.Proofs.Bounds.Tables
import SolverPortfolio.Proofs.Bounds.Words
import SolverPortfolio.Proofs.Classifier
import SolverPortfolio.Proofs.Classifier.Distribution
import SolverPortfolio.Proofs.Classifier.Units
import SolverPortfolio.Proofs.Counting
import SolverPortfolio.Proofs.Counts
import SolverPortfolio.Proofs.Expansion
import SolverPortfolio.Proofs.Grouping
import SolverPortfolio.Proofs.Ladder
import SolverPortfolio.Proofs.Ladder.Ascending
import SolverPortfolio.Proofs.LogSpace
import SolverPortfolio.Proofs.Mixture.Ascent
import SolverPortfolio.Proofs.Mixture.Coherence
import SolverPortfolio.Proofs.Mixture.Posterior
import SolverPortfolio.Proofs.Mixture.Queries
import SolverPortfolio.Proofs.Mixture.Restarts
import SolverPortfolio.Proofs.Planner
import SolverPortfolio.Proofs.Planner.Agreement
import SolverPortfolio.Proofs.Planner.Bellman
import SolverPortfolio.Proofs.Planner.Knapsack
import SolverPortfolio.Proofs.Planner.MoreBudget
import SolverPortfolio.Proofs.Planner.Steps
import SolverPortfolio.Proofs.Portfolio.Checked
import SolverPortfolio.Proofs.Portfolio.Oracle
import SolverPortfolio.Proofs.Portfolio.Rates
import SolverPortfolio.Proofs.Portfolio.Scores
import SolverPortfolio.Proofs.Replay
import SolverPortfolio.Proofs.RunStore.Answers
import SolverPortfolio.Proofs.Scalar.Binary.Grid
import SolverPortfolio.Proofs.Scalar.Binary.Packing
import SolverPortfolio.Proofs.Scalar.Binary.Rounding
import SolverPortfolio.Proofs.Scalar.Exact
import SolverPortfolio.Proofs.Scalar.Rounded
import SolverPortfolio.Proofs.Scalar.RoundedDouble
import SolverPortfolio.Proofs.Session.Accounting
import SolverPortfolio.Proofs.Session.Audit
import SolverPortfolio.Proofs.Session.Calls
import SolverPortfolio.Proofs.Session.Preprocessing
import SolverPortfolio.Proofs.Session.Rounds
import SolverPortfolio.Proofs.Session.Shape
import SolverPortfolio.Proofs.Session.SharedTask
import SolverPortfolio.Proofs.Session.Transcript
import SolverPortfolio.Proofs.Settings
import SolverPortfolio.Proofs.Softmax
import SolverPortfolio.Proofs.SolverOutput
import SolverPortfolio.Proofs.Strategy.Beliefs
import SolverPortfolio.Proofs.Strategy.Coherence
import SolverPortfolio.Proofs.Strategy.Events
import SolverPortfolio.Proofs.Strategy.Exhaustion
import SolverPortfolio.Proofs.Strategy.FixedPlan
import SolverPortfolio.Proofs.Strategy.History
import SolverPortfolio.Proofs.Strategy.Progress
import SolverPortfolio.Proofs.Strategy.Protocol
import SolverPortfolio.Proofs.Strategy.Recount
import SolverPortfolio.Proofs.Strategy.Selection
import SolverPortfolio.Proofs.Strategy.Supply
import SolverPortfolio.Proofs.Training
import SolverPortfolio.Proofs.Unobserved
import SolverPortfolio.Proofs.Wire.Runs
import SolverPortfolio.Proofs.Wire.Saved
import SolverPortfolio.Proofs.Wire.Types
import SolverPortfolio.Proofs.World
import SolverPortfolio.Proofs.World.Lookup
import SolverPortfolio.Randomness.Stream
import SolverPortfolio.Registry
import SolverPortfolio.Run
import SolverPortfolio.RunStore
import SolverPortfolio.Scalar
import SolverPortfolio.Scalar.Double
import SolverPortfolio.Session
import SolverPortfolio.Session.Service
import SolverPortfolio.Settings
import SolverPortfolio.Settings.Layer
import SolverPortfolio.Strategy
import SolverPortfolio.Text
import SolverPortfolio.Training
import SolverPortfolio.Wire.Files
import SolverPortfolio.Wire.Portfolio
import SolverPortfolio.Wire.Runs
import SolverPortfolio.Wire.Settings
import SolverPortfolio.World
import SolverPortfolio.Yaml.Layout
import SolverPortfolio.Yaml.Node
import SolverPortfolio.Yaml.Reader
import SolverPortfolio.Yaml.Scalar
import SolverPortfolio.Yaml.Token
