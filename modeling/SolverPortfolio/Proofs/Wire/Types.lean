import SolverPortfolio.Proofs.Json.Rewriting
import SolverPortfolio.Proofs.Wire.Runs
import SolverPortfolio.Wire.Files

/-!
# Values read back

The remaining types one by one, and then what holds of all types on the wire.
-/

namespace SolverPortfolio.Wire

/-!
## Worlds, counts and commands read from what was written for them

The same for the values a portfolio is trained and run with: ladders, worlds, counts and features,
the settings of a planner, the commands of solvers, and the phases of a strategy.
-/

open Document Json Scalar

/-! ### Worlds -/

theorem restored_ladder (n : Nat) {l : Ladder Float} (hstep : ReadsBack l.step)
    (hsize : l.size < wordBound) : Restored (n + 1) writeLadder readLadder? l := by
  have hread : toDouble? (double l.step) = some l.step := hstep
  have hreadSize : readIndex? (nat l.size) = some l.size := readIndex_nat isView_id hsize
  constructor
  · refine isSavable_object ?_
    simp [isSavable_double hstep n, isSavable_nat hsize n]
  · simp [readLadder?, writeLadder, fields_object, Fields.required, Fields.find?, hread, hreadSize]

theorem restored_world (n : Nat) {w : World Float} (hstep : ReadsBack w.ladder.step)
    (hsize : w.ladder.size < wordBound) : Restored (n + 2) writeWorld readWorld? w :=
  ⟨isSavable_writeWorld hstep hsize n, readWorld_writeWorld hstep hsize⟩

/-! ### Counts and features -/

theorem restored_count (n : Nat) (c : UInt32) : Restored n writeCount readCount? c := by
  have hlimit : Nat.pow 2 32 ≤ wordLimit := by decide
  have hread : toNat? (Nat.pow 2 32) (nat c.toNat) = some c.toNat :=
    isView_id.toNat_nat c.toNat_lt hlimit
  constructor
  · exact isSavable_nat (Nat.lt_of_lt_of_le c.toNat_lt hlimit) n
  · rw [readCount?, writeCount, hread, Option.map_some, UInt32.ofNat_toNat]

theorem restored_counts (n : Nat) {c : Counts} (hactions : c.nactions < wordBound)
    (houtcomes : c.noutcomes < wordBound) : Restored (n + 2) writeCounts readCounts? c := by
  have hcells : IsSavable (n + 1) (list writeCount c.cells) :=
    isSavable_list fun cell _ => (restored_count n cell).savable
  have hreadCells : toList? readCount? (list writeCount c.cells) = some c.cells :=
    isView_id.toList_list fun cell _ => (restored_count n cell).read
  have hreadActions : readIndex? (nat c.nactions) = some c.nactions :=
    readIndex_nat isView_id hactions
  have hreadOutcomes : readIndex? (nat c.noutcomes) = some c.noutcomes :=
    readIndex_nat isView_id houtcomes
  constructor
  · refine isSavable_object ?_
    simp [isSavable_nat hactions (n + 1), isSavable_nat houtcomes (n + 1), hcells]
  · simp [readCounts?, writeCounts, fields_object, Fields.required, Fields.find?, hreadActions,
      hreadOutcomes, hreadCells]

theorem restored_features (n : Nat) {v : FeatureVector Float}
    (hvalues : ∀ x ∈ v.values, ReadsBack x) : Restored (n + 2) writeFeatures readFeatures? v := by
  have hreadNames : toList? toText? (strings v.names) = some v.names :=
    toList_strings isView_id v.names
  have hreadValues : toList? toDouble? (list double v.values) = some v.values :=
    toList_doubles isView_id hvalues
  constructor
  · refine isSavable_object ?_
    simp [isSavable_strings v.names n, isSavable_doubles hvalues n]
  · simp [readFeatures?, writeFeatures, fields_object, Fields.required, Fields.find?, hreadNames,
      hreadValues]

/-! ### Planners, commands and phases -/

theorem restored_planner (n : Nat) {s : PlannerSettings Float} (hdiscount : ReadsBack s.discount)
    (hhorizon : s.horizon < wordBound) : Restored (n + 1) writePlanner readPlanner? s :=
  ⟨isSavable_writePlanner hdiscount hhorizon n,
    readPlanner_writePlanner isView_id hdiscount hhorizon⟩

theorem restored_command (n : Nat) (c : SolverCommand) :
    Restored (n + 2) writeCommand readCommand? c := by
  have harguments : toList? toText? (strings c.arguments) = some c.arguments :=
    toList_strings isView_id c.arguments
  have hformat : readFormat? (Json.string (formatName c.format)) = some c.format := by
    cases c.format <;> rfl
  constructor
  · refine isSavable_object ?_
    simp [isSavable_string, isSavable_strings c.arguments n]
  · simp [readCommand?, writeCommand, fields_object, Fields.required, Fields.defaulted,
      Fields.find?, toText?_string, harguments, hformat]

theorem restored_phase (n : Nat) (p : Phase) : Restored n writePhase readPhase? p where
  savable := isSavable_string n p.name
  read := by cases p <;> rfl

end SolverPortfolio.Wire

namespace SolverPortfolio.Wire

/-!
## Values on the wire

The types that are written and read one by one (`WireType`), and what holds of all of them: a value
is read back from its compact text, and a reader cannot tell a tree from what it is rewritten to
(`Wire.wire_round_trip`).

Both halves go type by type, a type by its parts. The first is `Restored`, which says more, as it
also covers the values of a type inside others. The second is `Respects`.
-/

open Document Json Scalar

/-! ### What readers know -/

/-- A record without records in it. -/
def plainForm (names : List String) : Form := .record names fun _ => .leaf

def outcomeForm : Form := plainForm ["kind", "certificate"]

/-- The fields that go with each kind of termination. -/
def terminationNames : String → List String
  | "exited" => ["code"]
  | "signaled" => ["signal"]
  | _ => []

def terminationForm : Form := .tagged "type" terminationNames

def resultForm : Form :=
  .record ["cost", "outcome", "termination"] fun
    | "outcome" => outcomeForm
    | "termination" => terminationForm
    | _ => .leaf

def runForm : Form :=
  .record ["task_id", "solver", "budget", "cost", "outcome"] fun
    | "outcome" => outcomeForm
    | _ => .leaf

def actionForm : Form := plainForm ["solver", "cost", "description"]

def attemptForm : Form :=
  .record ["action", "result"] fun
    | "action" => actionForm
    | "result" => resultForm
    | _ => .leaf

def summaryForm : Form := plainForm ["preprocessor", "cost", "solved_directly", "output_task"]

def ladderForm : Form := plainForm ["step", "len"]

def worldForm : Form :=
  .record ["solvers", "ladder"] fun
    | "ladder" => ladderForm
    | _ => .leaf

def featuresForm : Form := plainForm ["names", "values"]

def countsForm : Form := plainForm ["nactions", "noutcomes", "counts"]

def plannerForm : Form := plainForm ["kind", "replan", "discount", "horizon"]

def commandForm : Form := plainForm ["name", "program", "args", "format"]

/-! ### Readers respect it -/

theorem respects_outcome : Respects readOutcome? outcomeForm := by
  refine respects_record (fun _ => rfl) fun f f' h => ?_
  simp only [h.required "kind" (by decide) (respects_leaf readKind?),
    h.defaulted "certificate" (by decide) none (respects_leaf (toOption? (toList? toText?)))]

theorem respects_action : Respects readAction? actionForm := by
  refine respects_record (fun _ => rfl) fun f f' h => ?_
  simp only [h.required "solver" (by decide) (respects_leaf toText?),
    h.required "cost" (by decide) (respects_leaf toDouble?),
    h.required "description" (by decide) (respects_leaf toText?)]

/-- The fields of a termination with this tag. -/
def readTerminationOf (tag : String) (rest : Held) : Option Termination :=
  if tag = "exited" then do
    let f ← fields? ["code"] rest
    return .exited (← f.required "code" toInt32?)
  else if tag = "signaled" then do
    let f ← fields? ["signal"] rest
    return .signaled (← f.required "signal" toInt32?)
  else do
    let _ ← fields? [] rest
    if tag = "ceiling_exceeded" then return .ceilingExceeded
    else if tag = "recycled" then return .recycled
    else none

/-- Such fields are the same if each known name finds the same. -/
theorem readTerminationOf_congr {tag : String} {fs fs' : List (String × Json)}
    (h : ∀ name ∈ terminationNames tag,
      Fields.find? ⟨false, fs'.map fun f => (f.1, Held.mk f.2)⟩ name =
        Fields.find? ⟨false, fs.map fun f => (f.1, Held.mk f.2)⟩ name) :
    readTerminationOf tag ⟨.object fs'⟩ = readTerminationOf tag ⟨.object fs⟩ := by
  simp only [readTerminationOf, isView_held.fields_object]
  by_cases hexited : tag = "exited"
  · subst hexited
    simp [Fields.required, h "code" (by decide)]
  · by_cases hsignaled : tag = "signaled"
    · subst hsignaled
      simp [Fields.required, h "signal" (by decide)]
    · simp [hexited, hsignaled]

theorem taggedReader_termination :
    TaggedReader "type" terminationNames readTermination? readTerminationOf where
  read_eq _ := rfl
  perm _ _ _ hperm := readTerminationOf_congr fun name _ => Fields.find?_perm (hperm.map _) name
  cons _ _ _ _ hname := by
    refine readTerminationOf_congr fun known hknown => Fields.find?_cons_of_ne ?_
    rintro rfl
    exact hname hknown

theorem respects_termination : Respects readTermination? terminationForm :=
  taggedReader_termination.respects

theorem respects_result : Respects readResult? resultForm := by
  refine respects_record (fun _ => rfl) fun f f' h => ?_
  simp only [h.required "cost" (by decide) (respects_leaf toDouble?),
    h.required "outcome" (by decide) respects_outcome,
    h.required "termination" (by decide) respects_termination]

theorem respects_run : Respects readRun? runForm := by
  refine respects_record (fun _ => rfl) fun f f' h => ?_
  simp only [h.required "task_id" (by decide) (respects_leaf toText?),
    h.required "solver" (by decide) (respects_leaf toText?),
    h.required "budget" (by decide) (respects_leaf toDouble?),
    h.required "cost" (by decide) (respects_leaf toDouble?),
    h.required "outcome" (by decide) respects_outcome]

theorem respects_attempt : Respects readAttempt? attemptForm := by
  refine respects_record (fun _ => rfl) fun f f' h => ?_
  simp only [h.required "action" (by decide) respects_action,
    h.required "result" (by decide) respects_result]

theorem respects_summary : Respects readSummary? summaryForm := by
  refine respects_record (fun _ => rfl) fun f f' h => ?_
  simp only [h.required "preprocessor" (by decide) (respects_leaf toText?),
    h.required "cost" (by decide) (respects_leaf toDouble?),
    h.required "solved_directly" (by decide) (respects_leaf toBool?),
    h.optional "output_task" (by decide) (respects_leaf (toOption? toText?))]

theorem respects_features : Respects readFeatures? featuresForm := by
  refine respects_record (fun _ => rfl) fun f f' h => ?_
  simp only [h.required "names" (by decide) (respects_leaf (toList? toText?)),
    h.required "values" (by decide) (respects_leaf (toList? toDouble?))]

theorem respects_counts : Respects readCounts? countsForm := by
  refine respects_record (fun _ => rfl) fun f f' h => ?_
  simp only [h.required "nactions" (by decide) (respects_leaf readIndex?),
    h.required "noutcomes" (by decide) (respects_leaf readIndex?),
    h.required "counts" (by decide) (respects_leaf (toList? readCount?))]

theorem respects_ladder : Respects readLadder? ladderForm := by
  refine respects_record (fun _ => rfl) fun f f' h => ?_
  simp only [h.required "step" (by decide) (respects_leaf toDouble?),
    h.required "len" (by decide) (respects_leaf readIndex?)]

theorem respects_world : Respects readWorld? worldForm := by
  refine respects_record (fun _ => rfl) fun f f' h => ?_
  simp only [h.required "solvers" (by decide) (respects_leaf (toList? toText?)),
    h.required "ladder" (by decide) respects_ladder]

theorem respects_planner : Respects readPlanner? plannerForm := by
  refine respects_record (fun _ => rfl) fun f f' h => ?_
  simp only [h.defaulted "kind" (by decide) _ (respects_leaf readPlannerKind?),
    h.defaulted "replan" (by decide) _ (respects_leaf toBool?),
    h.defaulted "discount" (by decide) _ (respects_leaf toDouble?),
    h.defaulted "horizon" (by decide) _ (respects_leaf readWord?)]

theorem respects_command : Respects readCommand? commandForm := by
  refine respects_record (fun _ => rfl) fun f f' h => ?_
  simp only [h.required "name" (by decide) (respects_leaf toText?),
    h.required "program" (by decide) (respects_leaf toText?),
    h.defaulted "args" (by decide) _ (respects_leaf (toList? toText?)),
    h.required "format" (by decide) (respects_leaf readFormat?)]

/-! ### All types -/

inductive WireType where
  | kind
  | outcome
  | termination
  | result
  | run
  | action
  | attempt
  | summary
  | features
  | counts
  | ladder
  | world
  | planner
  | command
  | phase

namespace WireType

def Value : WireType → Type
  | kind => OutcomeKind
  | outcome => Outcome
  | termination => Termination
  | result => RunResult Float
  | run => RecordedRun Float
  | action => Action Float
  | attempt => Attempt Float
  | summary => PreprocessingSummary Float
  | features => FeatureVector Float
  | counts => Counts
  | ladder => Ladder Float
  | world => World Float
  | planner => PlannerSettings Float
  | command => SolverCommand
  | phase => Phase

def write : (t : WireType) → t.Value → Json
  | kind => writeKind
  | outcome => writeOutcome
  | termination => writeTermination
  | result => writeResult
  | run => writeRun
  | action => writeAction
  | attempt => writeAttempt
  | summary => writeSummary
  | features => writeFeatures
  | counts => writeCounts
  | ladder => writeLadder
  | world => writeWorld
  | planner => writePlanner
  | command => writeCommand
  | phase => writePhase

def read : (t : WireType) → Json → Option t.Value
  | kind => readKind?
  | outcome => readOutcome?
  | termination => readTermination?
  | result => readResult?
  | run => readRun?
  | action => readAction?
  | attempt => readAttempt?
  | summary => readSummary?
  | features => readFeatures?
  | counts => readCounts?
  | ladder => readLadder?
  | world => readWorld?
  | planner => readPlanner?
  | command => readCommand?
  | phase => readPhase?

def form : WireType → Form
  | kind => .leaf
  | outcome => outcomeForm
  | termination => terminationForm
  | result => resultForm
  | run => runForm
  | action => actionForm
  | attempt => attemptForm
  | summary => summaryForm
  | features => featuresForm
  | counts => countsForm
  | ladder => ladderForm
  | world => worldForm
  | planner => plannerForm
  | command => commandForm
  | phase => .leaf

/-- The doubles of a value. -/
def doubles : (t : WireType) → t.Value → List Float
  | result, r => [r.cost]
  | run, r => [r.budget, r.cost]
  | action, a => [a.cost]
  | attempt, a => [a.action.cost, a.result.cost]
  | summary, s => [s.cost]
  | features, v => v.values
  | ladder, l => [l.step]
  | world, w => [w.ladder.step]
  | planner, s => [s.discount]
  | _, _ => []

/-- The whole numbers of a value fit in the words of the machine. -/
def InRange : (t : WireType) → t.Value → Prop
  | termination, t => CodeInRange t
  | result, r => CodeInRange r.termination
  | attempt, a => CodeInRange a.result.termination
  | counts, c => c.nactions < wordBound ∧ c.noutcomes < wordBound
  | ladder, l => l.size < wordBound
  | world, w => w.ladder.size < wordBound
  | planner, s => s.horizon < wordBound
  | _, _ => True

/-- The value a text is read as. -/
def decode (t : WireType) (text : String) : Option t.Value := (parse text).bind t.read

end WireType

theorem restored_value {t : WireType} {v : t.Value} (hrange : t.InRange v)
    (hdoubles : ∀ x ∈ t.doubles v, ReadsBack x) : Restored depthLimit t.write t.read v := by
  cases t with
  | kind => exact restored_kind _ v
  | outcome => exact restored_outcome 125 v
  | termination => exact restored_termination 126 hrange
  | result => exact restored_result 124 (hdoubles _ (by simp [WireType.doubles])) hrange
  | run =>
      exact restored_run 124 (hdoubles _ (by simp [WireType.doubles]))
        (hdoubles _ (by simp [WireType.doubles]))
  | action => exact restored_action 126 (hdoubles _ (by simp [WireType.doubles]))
  | attempt =>
      exact restored_attempt 123 (hdoubles _ (by simp [WireType.doubles]))
        (hdoubles _ (by simp [WireType.doubles])) hrange
  | summary => exact restored_summary 126 (hdoubles _ (by simp [WireType.doubles]))
  | features => exact restored_features 125 hdoubles
  | counts => exact restored_counts 125 hrange.1 hrange.2
  | ladder => exact restored_ladder 126 (hdoubles _ (by simp [WireType.doubles])) hrange
  | world => exact restored_world 125 (hdoubles _ (by simp [WireType.doubles])) hrange
  | planner => exact restored_planner 126 (hdoubles _ (by simp [WireType.doubles])) hrange
  | command => exact restored_command 125 v
  | phase => exact restored_phase _ v

theorem respects_form (t : WireType) : Respects t.read t.form := by
  cases t with
  | kind => exact respects_leaf readKind?
  | outcome => exact respects_outcome
  | termination => exact respects_termination
  | result => exact respects_result
  | run => exact respects_run
  | action => exact respects_action
  | attempt => exact respects_attempt
  | summary => exact respects_summary
  | features => exact respects_features
  | counts => exact respects_counts
  | ladder => exact respects_ladder
  | world => exact respects_world
  | planner => exact respects_planner
  | command => exact respects_command
  | phase => exact respects_leaf readPhase?

/-- **A value is read back, and from every tree that says the same.** Each value whose doubles are
read back and whose whole numbers fit is what its compact text is read as. Texts whose trees differ
in the order of fields or by fields that are not known, at any depth, are read as the same value,
whatever the place of a tag. A field added to a tagged record has to be one that can be held. -/
theorem wire_round_trip (t : WireType) :
    (∀ v : t.Value, t.InRange v → (∀ x ∈ t.doubles v, ReadsBack x) →
      t.decode (t.write v).compact = some v) ∧
    ∀ (text text' : String) (j j' : Json), parse text = some j → parse text' = some j' →
      Rewritten t.form j j' → t.decode text' = t.decode text := by
  constructor
  · intro v hrange hdoubles
    have hrestored := restored_value hrange hdoubles
    rw [WireType.decode, parse_compact hrestored.savable.writable]
    exact hrestored.read
  · intro text text' j j' hj hj' hrewritten
    rw [WireType.decode, WireType.decode, hj, hj']
    exact respects_form t hrewritten

/-! A result that is written with its fields in another order and one more among them. -/

def someResult : RunResult Float := ⟨2.5, .unsolved, .exited (-1)⟩

def someFields : List (String × Json) :=
  [("cost", double 2.5), ("outcome", writeOutcome .unsolved)]

def codeFirst : Json := .object [("code", int (-1)), ("type", .string "exited")]

def otherFields : List (String × Json) :=
  ("note", .null) :: (someFields ++ [("termination", codeFirst)])

theorem rewritten_someResult :
    Rewritten resultForm (writeResult someResult) (.object otherFields.reverse) := by
  have hinner : Rewritten terminationForm (writeTermination someResult.termination) codeFirst :=
    .reorderedTagged (.swap ..)
  have hfield : Rewritten resultForm
      (.object (someFields ++ [("termination", writeTermination someResult.termination)]))
      (.object (someFields ++ [("termination", codeFirst)])) := .field hinner
  have hadded : Rewritten resultForm (.object (someFields ++ [("termination", codeFirst)]))
      (.object otherFields) := .added .null (by decide)
  exact hfield.trans (hadded.trans (.reordered (List.reverse_perm _).symm))

theorem wire_round_trip_result :
    ReadsBack 2.5 ∧ WireType.result.decode (writeResult someResult).compact = some someResult ∧
      WireType.result.decode (Json.object otherFields.reverse).compact = some someResult := by
  have hcost : ReadsBack 2.5 := readsBack_of_toBits (by decide +kernel)
  have hcode : IsInt32 (-1) := ⟨by decide, by decide⟩
  have hrestored : Restored depthLimit writeResult readResult? someResult :=
    restored_result 124 hcost hcode
  have hparse : parse (writeResult someResult).compact = some (writeResult someResult) :=
    parse_compact hrestored.savable.writable
  have hparse' : parse (Json.object otherFields.reverse).compact =
      some (.object otherFields.reverse) := by
    have hcodeFirst : IsSavable 126 codeFirst :=
      isSavable_object (by simp [isSavable_int hcode, isSavable_string])
    have hnull : IsSavable 126 .null := ⟨trivial, rfl⟩
    have houtcome := (restored_outcome 124 .unsolved).savable
    refine parse_compact (isSavable_object fun f hf => ?_).writable
    rw [List.mem_reverse] at hf
    revert f
    simp [otherFields, someFields, hcodeFirst, hnull, houtcome, isSavable_double hcost]
  obtain ⟨hback, hsame⟩ := wire_round_trip .result
  have hread := hback someResult hcode (List.forall_mem_singleton.mpr hcost)
  exact ⟨hcost, hread, (hsame _ _ _ _ hparse hparse' rewritten_someResult).trans hread⟩

/-- A number that is too large for a double cannot be held, although its name is not known. -/
theorem decode_recycled_out_of_range :
    WireType.termination.decode "\x7b\"type\":\"recycled\"\x7d" = some Termination.recycled ∧
      "x" ∉ "type" :: terminationNames "recycled" ∧
      WireType.termination.decode "\x7b\"type\":\"recycled\",\"x\":1e999\x7d" = none := by
  have hread : (parse "\x7b\"type\":\"recycled\"\x7d").bind readTermination? =
      some .recycled := by decide +kernel
  have hrefused : (parse "\x7b\"type\":\"recycled\",\"x\":1e999\x7d").bind readTermination? =
      none := by decide +kernel
  exact ⟨hread, by decide, hrefused⟩

end SolverPortfolio.Wire
