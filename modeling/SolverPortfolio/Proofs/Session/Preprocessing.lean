import SolverPortfolio.Proofs.Planner
import SolverPortfolio.Proofs.Session.Course

/-!
# Sessions with a preprocessor

Preprocessing is the first thing such a session asks for, and its reply decides about the rest
(`preprocessing_decides`). An answer that solves the task ends the session at the cost of
preprocessing; otherwise the session goes on with the task that preprocessing made, or with the
given one if it made none, as `Continued` tells. Failures of any service are covered, because the
course of a session is followed whichever way it ends.
-/

namespace SolverPortfolio

open Scalar Rounded

/-- The part of a cost that is charged: nothing unless it is finite and positive. -/
def Scalar.chargeable {α : Type} [Scalar α] (cost : α) : α :=
  if isPositiveFinite cost then cost else 0

/-! ## One charge -/

namespace Ledger

variable {α : Type} [Scalar α] {l : Ledger α}

theorem overhead_charge (l : Ledger α) (cost : α) : (l.charge cost).overhead = l.overhead := by
  rw [charge]
  split <;> rfl

variable [Rounded α]

/-- Adding to nothing rounds nothing. -/
theorem value_spent_charge (hspent : l.spent = 0) (cost : α) :
    value (l.charge cost).spent = value (chargeable cost) := by
  rw [charge, chargeable]
  split
  · rename_i hcost
    obtain ⟨x, -, hx⟩ := isPositiveFinite_iff.mp hcost
    show value (l.spent + cost) = _
    rw [hspent, value_add, value_zero, hx, Exact.real_add, zero_add]
    exact nearest_of_value hx
  · rw [hspent]

theorem value_elapsed_charge (hspent : l.spent = 0) (hoverhead : l.overhead = 0) (cost : α) :
    value (l.charge cost).elapsed = value (chargeable cost) := by
  have hreal : ∃ x, value (chargeable cost) = .real x := by
    rw [chargeable]
    split
    · rename_i hcost
      obtain ⟨x, -, hx⟩ := isPositiveFinite_iff.mp hcost
      exact ⟨x, hx⟩
    · exact ⟨0, value_zero⟩
  obtain ⟨x, hx⟩ := hreal
  rw [elapsed, overhead_charge, hoverhead, value_add, value_spent_charge hspent, hx, value_zero,
    Exact.real_add, add_zero]
  exact nearest_of_value hx

end Ledger

namespace Session

variable {α σ : Type} [Analytic α] {services : Services α σ} {settings : SessionSettings}
  {budget : α} {l l' : Ledger α} {s s' : σ}

theorem spent_of_upToDate (h : upToDate services settings l s = (l', s')) :
    l'.spent = l.spent ∧ (settings.chargeOverhead = false → l' = l) := by
  rw [upToDate] at h
  split at h
  · rename_i hcpu
    obtain ⟨rfl, rfl⟩ := h
    exact ⟨rfl, fun hoff => by rw [hcpu] at hoff; cases hoff⟩
  · obtain ⟨rfl, rfl⟩ := h
    exact ⟨rfl, fun _ => rfl⟩

theorem spent_of_openLedger (h : openLedger services settings budget s = (l, s')) :
    l.spent = 0 ∧ l.overhead = 0 := by
  rw [openLedger] at h
  split at h <;>
    · obtain ⟨rfl, rfl⟩ := h
      exact ⟨rfl, rfl⟩

/-! ## The reply of preprocessing -/

variable [GammaFunctions α] [Rounded α] {strategy : Task α → Strategy α} {task : Task α}
  {t t' : Traced α σ} {ending : Ending α}

/-- How a watched session ends that made these calls and asked for no more than `later` once it
had the reply of preprocessing. An answer that solves the task is the answer of the session, which
costs what preprocessing is charged, besides its own time if that is charged. -/
inductive Preprocessing (services : Services α σ) (settings : SessionSettings)
    (strategy : Task α → Strategy α) (budget : α) (task : Task α) (name : String)
    (calls : List (ServiceCall α)) :
    Except PreprocessError (Preprocessed α) → List (ServiceCall α) → Ending α → Prop
  | failed {e : PreprocessError} :
      Preprocessing services settings strategy budget task name calls (.error e) []
        ⟨.error (.preprocess task.id e), task⟩
  | solved {pre : Preprocessed α} {l : Ledger α}
      (solves : pre.answer.any Outcome.isSolved = true)
      (ledger : l = .ofCalls settings budget calls)
      (spent : value l.spent = value (chargeable pre.cost))
      (untimed : settings.chargeOverhead = false → value l.elapsed = value (chargeable pre.cost)) :
      Preprocessing services settings strategy budget task name calls (.ok pre) []
        ⟨.ok ⟨task.id, budget, l.elapsed, [], pre.answer, some (summaryOf name pre)⟩, task⟩
  | continued {pre : Preprocessed α} {later : List (ServiceCall α)} {ending : Ending α}
      (fails : pre.answer.any Outcome.isSolved = false)
      (goes_on : Continued services settings strategy budget task pre.output
        (some (summaryOf name pre)) calls later ending) :
      Preprocessing services settings strategy budget task name calls (.ok pre) later ending

theorem preprocessing_of_run {p : Preprocessor α σ}
    (hopened : Booked settings budget [] l t.2 []) (hspent : l.spent = 0)
    (hoverhead : l.overhead = 0)
    (hrun : runPreprocessed services.traced p.traced settings strategy task budget l t =
      (ending, t')) :
    ∃ remaining reply later,
      t'.2.filter ServiceCall.isRequest = .preprocess task remaining reply :: later ∧
      Preprocessing services settings strategy budget task p.name t'.2 reply later ending := by
  rw [runPreprocessed] at hrun
  rcases hlook : upToDate services.traced settings l t with ⟨l₁, t₁⟩
  have hlooked := hopened.refreshed hlook
  obtain ⟨hspent₁, huntimed₁⟩ := spent_of_upToDate hlook
  have hnoted : p.traced.preprocess task l₁.remaining t₁ =
      (p.preprocess task l₁.remaining).noting (.preprocess task l₁.remaining) t₁ := rfl
  have hname : p.traced.name = p.name := rfl
  simp only [hlook, hnoted, hname, Service.noting] at hrun
  rcases hreply : p.preprocess task l₁.remaining t₁.1 with ⟨e | pre, s₁⟩
  · simp only [hreply] at hrun
    obtain ⟨rfl, rfl⟩ := hrun
    have hasked := (hlooked.request (.preprocess task l₁.remaining (.error e)) rfl).asked
    exact ⟨_, _, [], hasked, .failed⟩
  · have hcharged := hlooked.request (.preprocess task l₁.remaining (.ok pre)) rfl
    simp only [hreply] at hrun
    refine ⟨l₁.remaining, .ok pre, ?_⟩
    cases hsolved : (summaryOf p.name pre).solvedDirectly with
    | true =>
        simp only [hsolved, if_true, conclude] at hrun
        rcases hlook' : upToDate services.traced settings (l₁.charge pre.cost)
          (s₁, t₁.2 ++ [.preprocess task l₁.remaining (.ok pre)]) with ⟨l₂, t₂⟩
        have hclosed := hcharged.refreshed hlook'
        obtain ⟨hspent₂, huntimed₂⟩ := spent_of_upToDate hlook'
        simp only [hlook'] at hrun
        obtain ⟨rfl, rfl⟩ := hrun
        refine ⟨[], hclosed.asked, .solved hsolved hclosed.ledger ?_ fun hcpu => ?_⟩
        · rw [hspent₂, Ledger.value_spent_charge (hspent₁.trans hspent)]
        · rw [huntimed₂ hcpu, huntimed₁ hcpu, Ledger.value_elapsed_charge hspent hoverhead]
    | false =>
        simp only [hsolved, Bool.false_eq_true, if_false] at hrun
        cases houtput : pre.output with
        | none =>
            simp only [houtput] at hrun
            obtain ⟨later, hasked, hcontinued⟩ := continued_runDirect hcharged hrun
            rw [← houtput] at hcontinued
            exact ⟨later, hasked, .continued hsolved hcontinued⟩
        | some output =>
            simp only [houtput] at hrun
            obtain ⟨later, hasked, hcontinued⟩ := continued_runSimplified hcharged hrun
            rw [← houtput] at hcontinued
            exact ⟨later, hasked, .continued hsolved hcontinued⟩

omit [Rounded α] in
theorem Continued.taskId {output : Option (Task α)} {summary : Option (PreprocessingSummary α)}
    {calls later : List (ServiceCall α)}
    (h : Continued services settings strategy budget task output summary calls later ending)
    {record : SessionRecord α} (hrecord : ending.result = .ok record) :
    record.taskId = task.id := by
  cases h with
  | unfeatured lacked => cases hrecord
  | @looped v asked runs extension loopTask r answer ending featured at_hand looped ran answered
      result kept =>
      rw [hrecord] at result
      cases answer with
      | error e => cases result
      | ok final =>
          obtain rfl := Except.ok.inj result
          rfl

theorem Preprocessing.taskId {name : String} {calls later : List (ServiceCall α)}
    {reply : Except PreprocessError (Preprocessed α)}
    (h : Preprocessing services settings strategy budget task name calls reply later ending)
    {record : SessionRecord α} (hrecord : ending.result = .ok record) :
    record.taskId = task.id := by
  cases h with
  | failed => cases hrecord
  | solved solves ledger spent untimed =>
      obtain rfl := Except.ok.inj hrecord
      rfl
  | continued fails goes_on => exact goes_on.taskId hrecord

/-- **Preprocessing decides.** Watch a session that has a preprocessor. With a budget it can
have, the first request is to preprocess the task, and everything else depends on the reply. An
answer that solves the task is the answer of the record, which has no attempts and costs what
preprocessing is charged; nothing else is asked for. Otherwise the features, the strategy and every
run are for the task that preprocessing made, or for the given one if it made none, and the
record has the answer of the loop, extended once exactly if it is positive and preprocessing
made a task. The record is of the given task in any case. -/
theorem preprocessing_decides (settings : SessionSettings) (strategy : Task α → Strategy α)
    (task : Task α) (budget : α) (s : σ) {p : Preprocessor α σ}
    (hp : services.preprocessor = some p) :
    ∃ calls,
      run services.traced settings strategy task budget (s, []) =
        ((run services settings strategy task budget s).1,
          (run services settings strategy task budget s).2, calls) ∧
      (∀ record, (run services settings strategy task budget s).1.result = .ok record →
        record.taskId = task.id) ∧
      (¬IsBudget budget → calls = [] ∧
        (run services settings strategy task budget s).1.result =
          .error (.decision (.negativeBudget budget))) ∧
      (IsBudget budget → ∃ remaining reply later,
        calls.filter ServiceCall.isRequest = .preprocess task remaining reply :: later ∧
        Preprocessing services settings strategy budget task p.name calls reply later
          (run services settings strategy task budget s).1) := by
  have hsame := run_traced services settings strategy task budget (s, [])
  rcases hwatched : run services.traced settings strategy task budget (s, []) with
    ⟨ending, s', calls⟩
  rw [hwatched, unwatched] at hsame
  have htraced : services.traced.preprocessor = some p.traced := by
    show services.preprocessor.map Preprocessor.traced = _
    rw [hp]
    rfl
  rw [run, htraced] at hwatched
  rw [hsame]
  refine ⟨calls, rfl, ?_⟩
  by_cases hbudget : IsBudget budget
  · rw [if_neg (by rw [hbudget]; exact Bool.false_ne_true)] at hwatched
    rcases hopen : openLedger services.traced settings budget (s, []) with ⟨l, t⟩
    obtain ⟨hspent, hoverhead⟩ := spent_of_openLedger hopen
    simp only [hopen] at hwatched
    obtain ⟨remaining, reply, later, hasked, hpreprocessing⟩ :=
      preprocessing_of_run (audit_openLedger hopen).booked hspent hoverhead hwatched
    exact ⟨fun record hrecord => hpreprocessing.taskId hrecord, fun hnot => absurd hbudget hnot,
      fun _ => ⟨remaining, reply, later, hasked, hpreprocessing⟩⟩
  · rw [if_pos (Bool.eq_true_of_not_eq_false hbudget)] at hwatched
    obtain ⟨rfl, hrest⟩ := Prod.mk.inj hwatched
    obtain ⟨-, rfl⟩ := Prod.mk.inj hrest
    refine ⟨fun record hrecord => ?_, fun _ => ⟨rfl, rfl⟩, fun hok => absurd hok hbudget⟩
    cases hrecord

set_option maxRecDepth 1000 in
theorem preprocessing_decides_simplifying :
    ∃ p, simplifying.preprocessor = some p ∧ IsBudget (100 : Float) ∧ ∃ calls later,
      (run simplifying.traced ⟨5, true, true⟩ (fun _ => .fixed shortRun) (.ofPath "t") 100
        (0, [])).2.2 = calls ∧
      calls.filter ServiceCall.isRequest =
        .preprocess (.ofPath "t") 100 (.ok ⟨1, none, some (.ofPath "simpler")⟩) :: later ∧
      Continued simplifying ⟨5, true, true⟩ (fun _ => .fixed shortRun) 100 (.ofPath "t")
        (some (.ofPath "simpler")) (some ⟨"simplify", 1, false, some "simpler"⟩) calls later
        ⟨.ok simplified, .ofPath "t"⟩ := by
  obtain ⟨p, hp⟩ : ∃ p, simplifying.preprocessor = some p := ⟨_, rfl⟩
  have hbudget : IsBudget (100 : Float) := rfl
  obtain ⟨calls, hwatched, -, -, hcourse⟩ :=
    preprocessing_decides ⟨5, true, true⟩ (fun _ => .fixed shortRun) (.ofPath "t") 100 0 hp
  obtain ⟨remaining, reply, later, hasked, hreply⟩ := hcourse hbudget
  have hname : p.name = "simplify" := by
    obtain rfl := Option.some.inj hp
    rfl
  have hcalls : (run simplifying.traced ⟨5, true, true⟩ (fun _ => .fixed shortRun) (.ofPath "t") 100
      (0, [])).2.2 = calls := by rw [hwatched]
  have hfirst : (calls.filter ServiceCall.isRequest).head? =
      some (.preprocess (.ofPath "t") 100 (.ok ⟨1, none, some (.ofPath "simpler")⟩)) := by
    rw [← hcalls]
    rfl
  rw [hasked] at hfirst
  obtain ⟨-, rfl, rfl⟩ := ServiceCall.preprocess.inj (Option.some.inj hfirst)
  refine ⟨p, hp, hbudget, calls, later, hcalls, hasked, ?_⟩
  have hend : (run simplifying ⟨5, true, true⟩ (fun _ => .fixed shortRun) (.ofPath "t") 100 0).1 =
      ⟨.ok simplified, .ofPath "t"⟩ := rfl
  rw [hend, hname] at hreply
  generalize (⟨.ok simplified, .ofPath "t"⟩ : Ending Float) = ending at hreply ⊢
  cases hreply with
  | solved solves ledger spent untimed => cases solves
  | continued fails goes_on => exact goes_on

end Session

end SolverPortfolio
