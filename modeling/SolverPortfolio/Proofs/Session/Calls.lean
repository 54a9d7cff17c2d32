import SolverPortfolio.Session

/-!
# The calls of a session

A session is watched by running it on services that note every call with its reply
(`Services.traced`). Watching changes nothing: the session ends the same way, and the
services are left in the same state (`run_traced`). So what is proved of the calls of the
watched session holds of the session itself, although a record does not tell them.
-/

namespace SolverPortfolio

variable {α σ : Type}

/-- A call of a service, with its reply. -/
inductive ServiceCall (α : Type) where
  | clock (reading : Option α)
  | preprocess (task : Task α) (remaining : α) (reply : Except PreprocessError (Preprocessed α))
  | features (task : Task α) (reply : Except FeatureError (FeatureVector α))
  | run (action : Action α) (task : Task α) (reply : Except (HarnessError α) (RunResult α))
  | extend (output : Task α) (answer : Outcome) (reply : Except PreprocessError Outcome)

/-- A state with the calls made so far. -/
abbrev Traced (α σ : Type) := σ × List (ServiceCall α)

/-- The service, noting every call. -/
def Service.noting {ε β : Type} (call : Except ε β → ServiceCall α) (f : Service σ ε β) :
    Service (Traced α σ) ε β :=
  fun t =>
    let (reply, s) := f t.1
    (reply, s, t.2 ++ [call reply])

def Preprocessor.traced (p : Preprocessor α σ) : Preprocessor α (Traced α σ) where
  name := p.name
  preprocess task remaining :=
    Service.noting (.preprocess task remaining) (p.preprocess task remaining)
  extend output answer := Service.noting (.extend output answer) (p.extend output answer)

/-- The services, noting every call. -/
def Services.traced (services : Services α σ) : Services α (Traced α σ) where
  run action task := Service.noting (.run action task) (services.run action task)
  features task := Service.noting (.features task) (services.features task)
  preprocessor := services.preprocessor.map Preprocessor.traced
  clock t :=
    let (now, s) := services.clock t.1
    (now, s, t.2 ++ [.clock now])

namespace Session

variable [Analytic α]

/-- What came of a watched computation, without the calls. -/
def unwatched {β : Type} (r : β × Traced α σ) : β × σ := (r.1, r.2.1)

/-! ## Watching changes nothing -/

variable (services : Services α σ) (settings : SessionSettings)

theorem openLedger_traced (budget : α) (t : Traced α σ) :
    openLedger services settings budget t.1 =
      unwatched (openLedger services.traced settings budget t) := by
  rw [openLedger, openLedger]
  split <;> rfl

theorem upToDate_traced (l : Ledger α) (t : Traced α σ) :
    upToDate services settings l t.1 = unwatched (upToDate services.traced settings l t) := by
  rw [upToDate, upToDate]
  split <;> rfl

theorem ensureFeatures_traced (task : Task α) (t : Traced α σ) :
    ensureFeatures services task t.1 =
      let (cost, task, t) := ensureFeatures services.traced task t
      (cost, task, t.1) := by
  have hnoting : services.traced.features task t =
      (services.features task).noting (.features task) t := rfl
  rw [ensureFeatures, ensureFeatures]
  cases task.features with
  | some v => rfl
  | none =>
      rw [hnoting, Service.noting]
      rcases services.features task t.1 with ⟨e | v, s⟩ <;> rfl

theorem conclude_traced (task : Task α) (budget : α) (summary : Option (PreprocessingSummary α))
    (attempts : List (Attempt α)) (answer : Option Outcome) (l : Ledger α) (t : Traced α σ) :
    conclude services settings task budget summary attempts answer l t.1 =
      unwatched (conclude services.traced settings task budget summary attempts answer l t) := by
  rw [conclude, conclude, upToDate_traced]
  rfl

omit [Analytic α] in
theorem extendAnswer_traced (p : Preprocessor α σ) (task output : Task α)
    (answer : Option Outcome) (t : Traced α σ) :
    extendAnswer p task output answer t.1 =
      unwatched (extendAnswer p.traced task output answer t) := by
  match answer with
  | none => rfl
  | some ⟨.unsolved, _⟩ => rfl
  | some ⟨.negative, _⟩ => rfl
  | some ⟨.positive, certificate⟩ =>
      have hnoting : p.traced.extend output ⟨.positive, certificate⟩ t =
          (p.extend output ⟨.positive, certificate⟩).noting (.extend output _) t := rfl
      rw [extendAnswer, extendAnswer, hnoting, Service.noting]
      rcases p.extend output ⟨.positive, certificate⟩ t.1 with ⟨e | extended, s⟩ <;> rfl

variable [GammaFunctions α]

theorem attempt_traced (task : Task α) (strategy : Strategy α) (action : Action α)
    (l : Ledger α) (t : Traced α σ) :
    attempt services task strategy action l t.1 =
      let (round, l, t) := attempt services.traced task strategy action l t
      (round, l, t.1) := by
  have hnoting : services.traced.run action task t =
      (services.run action task).noting (.run action task) t := rfl
  rw [attempt, attempt, hnoting, Service.noting]
  rcases services.run action task t.1 with ⟨e | result, s⟩
  · rfl
  · simp only
    rcases strategy.observe action result.outcome with ⟨strategy, e | _⟩ <;> rfl

theorem playRound_traced (task : Task α) (strategy : Strategy α) (l : Ledger α)
    (t : Traced α σ) :
    playRound services settings task strategy l t.1 =
      let (round, l, t) := playRound services.traced settings task strategy l t
      (round, l, t.1) := by
  have hplain := upToDate_traced services settings l t
  rcases htraced : upToDate services.traced settings l t with ⟨l, t⟩
  rw [htraced, unwatched] at hplain
  rw [playRound, playRound, hplain, htraced]
  simp only
  by_cases hspent : l.remaining ≤ 0
  · rw [if_pos hspent, if_pos hspent]
  · rw [if_neg hspent, if_neg hspent]
    rcases strategy.select l.remaining with ⟨strategy, e | _ | action⟩
    · rfl
    · rfl
    · exact attempt_traced services task strategy action l t

theorem solveLoop_traced (task : Task α) (n : Nat) (strategy : Strategy α) (l : Ledger α)
    (t : Traced α σ) :
    solveLoop services settings task n strategy l t.1 =
      unwatched (solveLoop services.traced settings task n strategy l t) := by
  induction n generalizing strategy l t with
  | zero => rfl
  | succ n ih =>
      rw [solveLoop, solveLoop, playRound_traced]
      obtain ⟨ending | ⟨attempt, strategy⟩, l, t⟩ :=
        playRound services.traced settings task strategy l t
      · rfl
      · simp only [ih]
        by_cases hsolved : attempt.result.outcome.isSolved = true
        · simp only [if_pos hsolved, unwatched]
        · simp only [if_neg hsolved, unwatched]

theorem solveTask_traced (strategy : Task α → Strategy α) (task : Task α) (l : Ledger α)
    (t : Traced α σ) :
    solveTask services settings strategy task l t.1 =
      let (r, task, t) := solveTask services.traced settings strategy task l t
      (r, task, t.1) := by
  rw [solveTask, solveTask, ensureFeatures_traced]
  obtain ⟨e | cost, task, t⟩ := ensureFeatures services.traced task t
  · rfl
  · simp only [solveLoop_traced services settings task]
    rfl

theorem runDirect_traced (strategy : Task α → Strategy α) (task : Task α) (budget : α)
    (summary : Option (PreprocessingSummary α)) (l : Ledger α) (t : Traced α σ) :
    runDirect services settings strategy task budget summary l t.1 =
      unwatched (runDirect services.traced settings strategy task budget summary l t) := by
  rw [runDirect, runDirect, solveTask_traced]
  obtain ⟨⟨attempts, l, e | answer⟩, task, t⟩ :=
    solveTask services.traced settings strategy task l t
  · rfl
  · exact conclude_traced services settings task budget summary attempts answer l t

theorem runSimplified_traced (p : Preprocessor α σ) (strategy : Task α → Strategy α)
    (task output : Task α) (budget : α) (summary : PreprocessingSummary α) (l : Ledger α)
    (t : Traced α σ) :
    runSimplified services p settings strategy task output budget summary l t.1 =
      unwatched
        (runSimplified services.traced p.traced settings strategy task output budget summary l
          t) := by
  rw [runSimplified, runSimplified, solveTask_traced]
  obtain ⟨⟨attempts, l, e | answer⟩, output, t⟩ :=
    solveTask services.traced settings strategy output l t
  · rfl
  · simp only [extendAnswer_traced]
    obtain ⟨e | extended, t⟩ := extendAnswer p.traced task output answer t
    · rfl
    · exact conclude_traced services settings task budget (some summary) attempts extended l t

theorem runPreprocessed_traced (p : Preprocessor α σ) (strategy : Task α → Strategy α)
    (task : Task α) (budget : α) (l : Ledger α) (t : Traced α σ) :
    runPreprocessed services p settings strategy task budget l t.1 =
      unwatched (runPreprocessed services.traced p.traced settings strategy task budget l t) := by
  have hplain := upToDate_traced services settings l t
  rcases htraced : upToDate services.traced settings l t with ⟨l, t⟩
  rw [htraced, unwatched] at hplain
  have hnoting : p.traced.preprocess task l.remaining t =
      (p.preprocess task l.remaining).noting (.preprocess task l.remaining) t := rfl
  rw [runPreprocessed, runPreprocessed, hplain, htraced]
  simp only
  rw [hnoting, Service.noting]
  rcases p.preprocess task l.remaining t.1 with ⟨e | pre, s⟩
  · rfl
  · have hname : p.traced.name = p.name := rfl
    simp only [hname]
    by_cases hsolved : (summaryOf p.name pre).solvedDirectly = true
    · rw [if_pos hsolved, if_pos hsolved]
      exact conclude_traced services settings task budget _ [] pre.answer _ (s, _)
    · rw [if_neg hsolved, if_neg hsolved]
      cases pre.output with
      | none => exact runDirect_traced services settings strategy task budget _ _ (s, _)
      | some output =>
          exact runSimplified_traced services settings p strategy task output budget _ _ (s, _)

/-- **Watching changes nothing.** -/
theorem run_traced (strategy : Task α → Strategy α) (task : Task α) (budget : α) (t : Traced α σ) :
    run services settings strategy task budget t.1 =
      unwatched (run services.traced settings strategy task budget t) := by
  rw [run, run, openLedger_traced]
  split
  · rfl
  · obtain ⟨l, t⟩ := openLedger services.traced settings budget t
    have hpre : services.traced.preprocessor = services.preprocessor.map .traced := rfl
    rw [hpre]
    cases services.preprocessor with
    | none => exact runDirect_traced services settings strategy task budget none l t
    | some p => exact runPreprocessed_traced services settings p strategy task budget l t

end Session

end SolverPortfolio
