import SolverPortfolio.Proofs.Json.Documents
import SolverPortfolio.Proofs.RunStore
import SolverPortfolio.Proofs.Wire.Portfolio
import SolverPortfolio.Wire.Runs

/-!
# Runs and stores read back

Everything that is written for runs is read from its text again, one run or a whole store.
-/

namespace SolverPortfolio

/-!
## Runs read from what was written for them

What is written for a run, and for everything a run is made of or goes into, can be saved and is
read back (`Wire.Restored`), as long as its doubles are read back and its codes have 32 bits. There
is one lemma per type, put together from the lemmas of its parts.
-/

open Document Json

/-! ### Whole numbers with a sign -/

theorem Decimal.Numeral.isProper_ofInt (k : Int) : (Decimal.Numeral.ofInt k).IsProper := by
  cases k with
  | ofNat n => exact isProper_ofNat n
  | negSucc n =>
      obtain ⟨hne, hlt, hfraction, hleading⟩ := isProper_ofNat (n + 1)
      exact ⟨hne, hlt, hfraction, hleading⟩

/-- The whole numbers of 32 bits. -/
def IsInt32 (k : Int) : Prop := -(Nat.pow 2 31 : Int) ≤ k ∧ k < Nat.pow 2 31

namespace Json

theorem toWhole_ofInt {k : Int} (hk : IsInt32 k) :
    (number? (Decimal.Numeral.ofInt k)).bind Number.toWhole? = some k := by
  obtain ⟨hlow, hhigh⟩ := hk
  have hbound : (Nat.pow 2 31 : Int) = 2147483648 := rfl
  have hlimit : wordLimit = 18446744073709551616 := rfl
  rw [hbound] at hlow hhigh
  cases k with
  | ofNat n =>
      rw [Int.ofNat_eq_natCast] at hhigh
      have hn : n < wordLimit := by omega
      show (number? (Decimal.Numeral.ofNat n)).bind _ = _
      rw [number?_ofNat hn]
      rfl
  | negSucc n =>
      have hn : n + 1 < wordLimit := by omega
      have hvalue : Decimal.ofDigitsFrom 0 (Decimal.digits (n + 1)) = n + 1 :=
        Decimal.ofDigits_digits (n + 1)
      have htake : takeDigits 0 (Decimal.digits (n + 1)) = (n + 1, []) := by
        rw [takeDigits_eq (hvalue.symm ▸ hn), hvalue]
      have hsmall : n + 1 ≤ Nat.pow 2 63 := by
        have hpow : Nat.pow 2 63 = 9223372036854775808 := rfl
        omega
      have hwhole : Decimal.Numeral.isWhole ⟨true, Decimal.digits (n + 1), [], none⟩ = true := rfl
      simp only [number?, Decimal.Numeral.ofInt, htake, hwhole, List.isEmpty_nil, Bool.and_self,
        Bool.not_true, if_true, Bool.false_eq_true, if_false, Nat.succ_ne_zero, hsmall]
      rfl

theorem isSavable_int {k : Int} (hk : IsInt32 k) (n : Nat) : IsSavable n (int k) := by
  refine isSavable_number (Decimal.Numeral.isProper_ofInt k) ?_ n
  obtain ⟨_, hsome, _⟩ := Option.bind_eq_some_iff.mp (toWhole_ofInt hk)
  rw [hsome]
  rfl

theorem toText?_string (s : String) : toText? (Json.string s) = some s := rfl

theorem IsView.toInt32_int {δ : Type} [Document δ] {view : Json → δ} (hview : IsView view)
    {k : Int} (hk : IsInt32 k) : toInt32? (view (int k)) = some k := by
  have hwhole : toWhole? (view (int k)) = some k := (hview.toWhole _).trans (toWhole_ofInt hk)
  rw [toInt32?, hwhole]
  exact if_pos hk

end Json

namespace Wire

/-- What is written for the value is nested at most `n` deep, can be saved, and is read as the
value. -/
structure Restored {β : Type} (n : Nat) (write : β → Json) (read : Json → Option β) (b : β) :
    Prop where
  savable : IsSavable n (write b)
  read : read (write b) = some b

/-! ### Outcomes -/

theorem restored_kind (n : Nat) (k : OutcomeKind) : Restored n writeKind readKind? k where
  savable := isSavable_string n k.name
  read := by cases k <;> rfl

theorem restored_outcome (n : Nat) (o : Outcome) :
    Restored (n + 2) writeOutcome readOutcome? o := by
  obtain ⟨kind, certificate⟩ := o
  have hkind := (restored_kind (n + 1) kind).savable
  have hread := (restored_kind (n + 1) kind).read
  cases certificate with
  | none =>
      constructor
      · refine isSavable_object ?_
        simp [hkind]
      · simp [readOutcome?, writeOutcome, fields_object, Fields.required, Fields.defaulted,
          Fields.find?, hread]
  | some tokens =>
      have htokens : toOption? (toList? toText?) (strings tokens) = some (some tokens) := by
        have hlist : toList? toText? (strings tokens) = some tokens :=
          toList_strings isView_id tokens
        rw [toOption?, hlist]
        rfl
      constructor
      · refine isSavable_object ?_
        simp [hkind, isSavable_strings tokens n]
      · simp [readOutcome?, writeOutcome, fields_object, Fields.required, Fields.defaulted,
          Fields.find?, hread, htokens]

/-! ### Terminations -/

/-- The codes and signals of terminations have 32 bits. -/
def CodeInRange : Termination → Prop
  | .exited code => IsInt32 code
  | .signaled signal => IsInt32 signal
  | _ => True

theorem isSavable_tagged {n : Nat} {tag : String} {fields : List (String × Json)} (s : String)
    (h : ∀ f ∈ fields, IsSavable n f.2) :
    IsSavable (n + 1) (.object ((tag, .string s) :: fields)) := by
  refine isSavable_object ?_
  rw [List.forall_mem_cons]
  exact ⟨isSavable_string n s, h⟩

theorem tagged_of_isSavable {n : Nat} (tag s : String) {fields : List (String × Json)}
    (htag : ∀ f ∈ fields, f.1 ≠ tag) (h : ∀ f ∈ fields, IsSavable n f.2) :
    tagged? tag (.object ((tag, .string s) :: fields)) = some (s, ⟨.object fields⟩) :=
  tagged_object htag (isSavable_object h).holdable

theorem restored_termination (n : Nat) {t : Termination} (ht : CodeInRange t) :
    Restored (n + 1) writeTermination readTermination? t := by
  have hview := isView_held
  cases t with
  | exited code =>
      have hsavable : ∀ f ∈ [("code", int code)], IsSavable n f.2 :=
        List.forall_mem_singleton.mpr (isSavable_int ht n)
      have htagged := tagged_of_isSavable "type" "exited" (by simp) hsavable
      refine ⟨isSavable_tagged "exited" hsavable, ?_⟩
      simp [readTermination?, writeTermination, htagged, hview.fields_object, Fields.required,
        Fields.find?, hview.toInt32_int ht]
  | signaled signal =>
      have hsavable : ∀ f ∈ [("signal", int signal)], IsSavable n f.2 :=
        List.forall_mem_singleton.mpr (isSavable_int ht n)
      have htagged := tagged_of_isSavable "type" "signaled" (by simp) hsavable
      refine ⟨isSavable_tagged "signaled" hsavable, ?_⟩
      simp [readTermination?, writeTermination, htagged, hview.fields_object, Fields.required,
        Fields.find?, hview.toInt32_int ht]
  | ceilingExceeded => exact ⟨isSavable_tagged "ceiling_exceeded" (List.forall_mem_nil _), rfl⟩
  | recycled => exact ⟨isSavable_tagged "recycled" (List.forall_mem_nil _), rfl⟩

/-! ### Runs -/

theorem restored_action (n : Nat) {a : Action Float} (hcost : ReadsBack a.cost) :
    Restored (n + 1) writeAction readAction? a := by
  have hread : toDouble? (double a.cost) = some a.cost := hcost
  constructor
  · refine isSavable_object ?_
    simp [isSavable_string, isSavable_double hcost n]
  · simp [readAction?, writeAction, fields_object, Fields.required, Fields.find?, toText?_string,
      hread]

theorem restored_result (n : Nat) {r : RunResult Float} (hcost : ReadsBack r.cost)
    (hcode : CodeInRange r.termination) : Restored (n + 3) writeResult readResult? r := by
  have houtcome := restored_outcome n r.outcome
  have htermination := restored_termination (n + 1) hcode
  have hread : toDouble? (double r.cost) = some r.cost := hcost
  constructor
  · refine isSavable_object ?_
    simp [isSavable_double hcost (n + 2), houtcome.savable, htermination.savable]
  · simp [readResult?, writeResult, fields_object, Fields.required, Fields.find?, hread,
      houtcome.read, htermination.read]

theorem restored_run (n : Nat) {r : RecordedRun Float} (hbudget : ReadsBack r.budget)
    (hcost : ReadsBack r.cost) : Restored (n + 3) writeRun readRun? r := by
  have houtcome := restored_outcome n r.outcome
  have hreadBudget : toDouble? (double r.budget) = some r.budget := hbudget
  have hreadCost : toDouble? (double r.cost) = some r.cost := hcost
  constructor
  · refine isSavable_object ?_
    simp [isSavable_string, isSavable_double hbudget (n + 2), isSavable_double hcost (n + 2),
      houtcome.savable]
  · simp [readRun?, writeRun, fields_object, Fields.required, Fields.find?, toText?_string,
      hreadBudget, hreadCost, houtcome.read]

/-! ### Sessions -/

theorem restored_attempt (n : Nat) {a : Attempt Float} (haction : ReadsBack a.action.cost)
    (hcost : ReadsBack a.result.cost) (hcode : CodeInRange a.result.termination) :
    Restored (n + 4) writeAttempt readAttempt? a := by
  have haction := restored_action (n + 2) haction
  have hresult := restored_result n hcost hcode
  constructor
  · refine isSavable_object ?_
    simp [haction.savable, hresult.savable]
  · simp [readAttempt?, writeAttempt, fields_object, Fields.required, Fields.find?, haction.read,
      hresult.read]

theorem restored_summary (n : Nat) {s : PreprocessingSummary Float} (hcost : ReadsBack s.cost) :
    Restored (n + 1) writeSummary readSummary? s := by
  have houtput : IsSavable n (option .string s.outputTask) :=
    isSavable_option fun task _ => isSavable_string n task
  have hread : toDouble? (double s.cost) = some s.cost := hcost
  have hbool : toBool? (Json.bool s.solvedDirectly) = some s.solvedDirectly := rfl
  have hoption : toOption? toText? (option .string s.outputTask) = some s.outputTask :=
    isView_id.toOption_option fun _ _ => ⟨rfl, rfl⟩
  constructor
  · refine isSavable_object ?_
    simp [isSavable_string, isSavable_double hcost n, isSavable_bool, houtput]
  · simp [readSummary?, writeSummary, fields_object, Fields.required, Fields.optional,
      Fields.defaulted, Fields.find?, toText?_string, hread, hbool, hoption]

end Wire

end SolverPortfolio

namespace SolverPortfolio.Wire

/-!
## Stores that are saved and loaded

The text of a store is read as the store of its saved runs (`Wire.parseStore_storeText`), and that
answers as the store that was saved. Which of several runs of equal budget is found depends on
the order they were inserted in, and that survives because saving is stable
(`Wire.loaded_answers`).
-/

open Document Json RunStore

/-- The text of a store is read back, as long as its numbers are. -/
theorem parseStore_storeText {store : RunStore Float}
    (h : ∀ r ∈ store.runs, ReadsBack r.budget ∧ ReadsBack r.cost) :
    parseStore? (storeText store) = some (.ofRuns store.saved) := by
  have hrestored : ∀ r ∈ store.saved, Restored 126 writeRun readRun? r := by
    intro r hr
    obtain ⟨hbudget, hcost⟩ := h r (store.saved_perm.mem_iff.mp hr)
    exact restored_run 123 hbudget hcost
  have hsavable : IsSavable 127 (list writeRun store.saved) :=
    isSavable_list fun r hr => (hrestored r hr).savable
  have hparse : parse (storeText store) = some (list writeRun store.saved) :=
    parse_pretty hsavable.writable
  have hread : toList? readRun? (list writeRun store.saved) = some store.saved :=
    isView_id.toList_list fun r hr => (hrestored r hr).read
  rw [parseStore?, hparse]
  simp only [Option.bind_eq_bind, Option.bind_some, hread]
  rfl

/-- **A loaded store answers as the saved one.** Insert runs whose numbers are read back one
after the other, save the store and load it. The loaded store knows the same tasks, has the same
runs for each, and every lookup finds the same run, also among several of equal budget. The runs
are saved in the same order however they are grouped by task. -/
theorem loaded_answers (runs : List (RecordedRun Float))
    (hnumbers : ∀ r ∈ runs, ReadsBack r.budget ∧ ReadsBack r.cost) :
    (∀ tasks : List String, tasks.Perm (filled runs).taskIds →
      (tasks.flatMap (filled runs).runsForTask).mergeSort savedBefore = (filled runs).saved) ∧
    ∃ loaded, parseStore? (storeText (filled runs)) = some loaded ∧
      loaded.taskIds = (filled runs).taskIds ∧
      (∀ task, (loaded.runsForTask task).Perm ((filled runs).runsForTask task)) ∧
      ∀ task solver least,
        loaded.lookup task solver least = (filled runs).lookup task solver least := by
  have hruns : ∀ r ∈ (filled runs).runs, ReadsBack r.budget ∧ ReadsBack r.cost := by
    rwa [runs_filled]
  exact ⟨fun _ => (filled runs).mergeSort_collected, .ofRuns (filled runs).saved,
    parseStore_storeText hruns, (filled runs).taskIds_saved, (filled runs).runsForTask_saved,
    (filled runs).lookup_saved⟩

/-! Three runs, two of them of equal budget. -/

def equalBudgets : List (RecordedRun Float) :=
  [⟨"t", "a", 8, 2.5, .unsolved⟩, ⟨"t", "a", 4, 1, .positive none⟩, ⟨"t", "a", 4, 0.1, .negative⟩]

theorem loaded_answers_equalBudgets :
    (∀ r ∈ equalBudgets, ReadsBack r.budget ∧ ReadsBack r.cost) ∧
      ∃ loaded, parseStore? (storeText (filled equalBudgets)) = some loaded ∧
        loaded.lookup "t" "a" 3 = some ⟨"t", "a", 4, 1, .positive none⟩ := by
  have hnumbers : ∀ r ∈ equalBudgets, ReadsBack r.budget ∧ ReadsBack r.cost := by
    have height : ReadsBack 8 := readsBack_of_toBits (by decide +kernel)
    have hfour : ReadsBack 4 := readsBack_of_toBits (by decide +kernel)
    have hcosts : ReadsBack 2.5 ∧ ReadsBack 1 ∧ ReadsBack 0.1 :=
      ⟨readsBack_of_toBits (by decide +kernel), readsBack_of_toBits (by decide +kernel),
        readsBack_of_toBits (by decide +kernel)⟩
    simp [equalBudgets, height, hfour, hcosts]
  obtain ⟨-, loaded, hparse, -, -, hlookup⟩ := loaded_answers equalBudgets hnumbers
  exact ⟨hnumbers, loaded, hparse, by rw [hlookup]; rfl⟩

end SolverPortfolio.Wire
