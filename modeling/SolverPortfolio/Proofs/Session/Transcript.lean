import SolverPortfolio.Proofs.Session.Audit

/-!
# The transcript of a session

`Transcript` says how the record of a watched session and its calls belong together: the
task is preprocessed, if it can be; that may solve it, or else the features are asked for,
the loop is run, and a positive answer may be extended to the task the session was given.
The audit goes along, so the requests of the whole session are known, and the ledger before
the loop and at the end.

`transcript_of_record` is all that is needed of the functions a session is made of.
-/

namespace SolverPortfolio.Session

variable {α σ : Type}

/-! ## Before and after the loop -/

/-- A preprocessor by name, the budget it was offered and what it handed over. -/
structure Handed (α : Type) where
  name : String
  remaining : α
  reply : Preprocessed α

namespace Handed

def summary (h : Handed α) : PreprocessingSummary α := summaryOf h.name h.reply

def call (task : Task α) (h : Handed α) : ServiceCall α :=
  .preprocess task h.remaining (.ok h.reply)

end Handed

/-- The requests before the loop. -/
def openingCalls (task given : Task α) (handed : Option (Handed α))
    (computed : Option (FeatureVector α)) : List (ServiceCall α) :=
  handed.toList.map (Handed.call task) ++ computed.toList.map fun v => .features given (.ok v)

/-- The answer of a record is that of the loop, or was extended from a positive one. -/
inductive Extension (loopTask : Task α) :
    Option Outcome → Option Outcome → List (ServiceCall α) → Prop
  | kept (answer : Option Outcome) : Extension loopTask answer answer []
  | extended {answer final : Outcome} (positive : answer.kind = .positive) :
      Extension loopTask (some answer) (some final) [.extend loopTask answer (.ok final)]

/-! ## The whole session -/

variable [Analytic α] [GammaFunctions α]

/-- A record and the calls of the session it is of. -/
inductive Transcript (services : Services α σ) (settings : SessionSettings)
    (strategy : Task α → Strategy α) (task : Task α) (budget : α) :
    SessionRecord α → List (ServiceCall α) → Prop
  | direct {handed : Handed α} {l : Ledger α} {calls : List (ServiceCall α)}
      (solves : handed.summary.solvedDirectly = true)
      (closing : Audit settings budget [] l calls [handed.call task]) :
      Transcript services settings strategy task budget
        ⟨task.id, budget, l.elapsed, [], handed.reply.answer, some handed.summary⟩ calls
  | looped {handed : Option (Handed α)} {computed : Option (FeatureVector α)}
      {given loopTask : Task α} {l₀ l : Ledger α} {t₀ t₁ : Traced α σ} {r : LoopResult α}
      {answer final : Option Outcome} {extension calls : List (ServiceCall α)}
      (opening : Audit settings budget [] l₀ t₀.2 (openingCalls task given handed computed))
      (looped : solveLoop services.traced settings loopTask settings.maxInvocations
        (strategy loopTask) l₀ t₀ = (r, t₁))
      (ended : r.ending = .ok answer)
      (extended : Extension loopTask answer final extension)
      (closing : Audit settings budget t₁.2 l calls
        (openingCalls task given handed computed ++ r.attempts.map (Attempt.call loopTask) ++
          extension)) :
      Transcript services settings strategy task budget
        ⟨task.id, budget, l.elapsed, r.attempts, final, handed.map Handed.summary⟩ calls

variable {services : Services α σ} {settings : SessionSettings}
  {strategy : Task α → Strategy α} {task given loopTask : Task α} {budget : α}
  {l : Ledger α} {t t' : Traced α σ} {record : SessionRecord α}

omit [GammaFunctions α] in
theorem id_of_ensureFeatures {s s' : σ} {reply : Except (SessionError α) α}
    (h : ensureFeatures services given s = (reply, loopTask, s')) : loopTask.id = given.id := by
  rw [ensureFeatures] at h
  cases hfeatures : given.features with
  | some v =>
      simp only [hfeatures] at h
      obtain ⟨-, rfl, -⟩ := h
      rfl
  | none =>
      simp only [hfeatures] at h
      rcases hreply : services.features given s with ⟨e | v, s₁⟩ <;>
        · simp only [hreply] at h
          obtain ⟨-, rfl, -⟩ := h
          rfl

variable [Rounded α] [EqualByValue α]

/-- A loop that ends without an error had its features, and went in rounds. -/
theorem Audit.solved (handed : Option (Handed α)) {r : LoopResult α} {answer : Option Outcome}
    (opened : Audit settings budget [] l t.2 (handed.toList.map (Handed.call task)))
    (h : solveTask services.traced settings strategy given l t = (r, loopTask, t'))
    (hend : r.ending = .ok answer) :
    loopTask.id = given.id ∧ ∃ computed l₀ t₀,
      Audit settings budget [] l₀ t₀.2 (openingCalls task given handed computed) ∧
      solveLoop services.traced settings loopTask settings.maxInvocations (strategy loopTask)
        l₀ t₀ = (r, t') ∧
      Audit settings budget t'.2 r.ledger t'.2
        (openingCalls task given handed computed ++ r.attempts.map (Attempt.call loopTask)) := by
  rw [solveTask] at h
  rcases hfeatures : ensureFeatures services.traced given t with ⟨e | cost, task₁, t₀⟩
  · simp only [hfeatures] at h
    obtain ⟨rfl, -⟩ := h
    cases hend
  · simp only [hfeatures] at h
    obtain ⟨rfl, rfl, rfl⟩ := h
    obtain ⟨computed, hopening⟩ := opened.featured hfeatures
    exact ⟨id_of_ensureFeatures hfeatures, computed, _, t₀, hopening, rfl,
      (hopening.rounds (rounds_of_solveLoop _ rfl hend)).rebase⟩

theorem transcript_of_runDirect (handed : Option (Handed α))
    (opened : Audit settings budget [] l t.2 (handed.toList.map (Handed.call task)))
    (h : runDirect services.traced settings strategy task budget (handed.map Handed.summary) l t =
      (⟨.ok record, given⟩, t')) :
    Transcript services settings strategy task budget record t'.2 := by
  rw [runDirect] at h
  rcases hsolve : solveTask services.traced settings strategy task l t with ⟨r, loopTask, t₁⟩
  simp only [hsolve] at h
  cases hend : r.ending with
  | error e => simp [hend] at h
  | ok answer =>
      obtain ⟨hid, computed, l₀, t₀, hopening, hloop, hlooped⟩ := opened.solved handed hsolve hend
      simp only [hend, conclude] at h
      rcases hlook : upToDate services.traced settings r.ledger t₁ with ⟨l', t₂⟩
      simp only [hlook, hid] at h
      obtain ⟨⟨rfl, -⟩, rfl⟩ := h
      refine .looped hopening hloop hend (.kept answer) ?_
      simpa using hlooped.refreshed hlook

omit [Rounded α] [EqualByValue α] [GammaFunctions α] in
/-- Extending an answer is one request, or none. -/
theorem Audit.extended {p : Preprocessor α σ} {answer final : Option Outcome}
    {base requests : List (ServiceCall α)}
    (opened : Audit settings budget base l t.2 requests)
    (h : extendAnswer p.traced task loopTask answer t = (.ok final, t')) :
    ∃ extension, Extension loopTask answer final extension ∧
      Audit settings budget base l t'.2 (requests ++ extension) := by
  have hkept : ∀ {same : Option Outcome},
      (Except.ok same, t) = ((.ok final, t') : Except (SessionError α) _ × _) →
      ∃ extension, Extension loopTask same final extension ∧
        Audit settings budget base l t'.2 (requests ++ extension) := by
    rintro same hsame
    obtain ⟨rfl, rfl⟩ := hsame
    exact ⟨[], .kept _, by simpa using opened⟩
  rcases answer with _ | ⟨kind, certificate⟩
  · exact hkept h
  · cases kind with
    | unsolved => exact hkept h
    | negative => exact hkept h
    | positive =>
        rcases hreply : p.extend loopTask ⟨.positive, certificate⟩ t.1 with ⟨e | extended, s⟩
        · simp [extendAnswer, Preprocessor.traced, Service.noting, hreply] at h
        · simp only [extendAnswer, Preprocessor.traced, Service.noting, hreply, Prod.mk.injEq,
            Except.ok.injEq] at h
          obtain ⟨rfl, rfl⟩ := h
          exact ⟨_, .extended rfl, opened.request (.extend loopTask _ (.ok extended)) rfl
            fun _ _ _ hrun => by cases hrun⟩

theorem transcript_of_runSimplified {p : Preprocessor α σ} {handed : Handed α} {output : Task α}
    (opened : Audit settings budget [] l t.2 [handed.call task])
    (h : runSimplified services.traced p.traced settings strategy task output budget
      handed.summary l t = (⟨.ok record, given⟩, t')) :
    Transcript services settings strategy task budget record t'.2 := by
  rw [runSimplified] at h
  rcases hsolve : solveTask services.traced settings strategy output l t with ⟨r, loopTask, t₁⟩
  simp only [hsolve] at h
  cases hend : r.ending with
  | error e => simp [hend] at h
  | ok answer =>
      obtain ⟨_, computed, l₀, t₀, hopening, hloop, hlooped⟩ :=
        opened.solved (some handed) hsolve hend
      simp only [hend] at h
      rcases hextend : extendAnswer p.traced task loopTask answer t₁ with ⟨e | final, t₂⟩
      · simp [hextend] at h
      · obtain ⟨extension, hextension, hextended⟩ := hlooped.extended hextend
        simp only [hextend, conclude] at h
        rcases hlook : upToDate services.traced settings r.ledger t₂ with ⟨l', t₃⟩
        simp only [hlook] at h
        obtain ⟨⟨rfl, -⟩, rfl⟩ := h
        exact .looped hopening hloop hend hextension (hextended.refreshed hlook)

theorem transcript_of_runPreprocessed {p : Preprocessor α σ}
    (opened : Audit settings budget [] l t.2 [])
    (h : runPreprocessed services.traced p.traced settings strategy task budget l t =
      (⟨.ok record, given⟩, t')) :
    Transcript services settings strategy task budget record t'.2 := by
  rw [runPreprocessed] at h
  rcases hlook : upToDate services.traced settings l t with ⟨l₁, t₁⟩
  simp only [hlook] at h
  rcases hreply : p.preprocess task l₁.remaining t₁.1 with ⟨e | pre, s⟩
  · simp [Preprocessor.traced, Service.noting, hreply] at h
  · let handed : Handed α := ⟨p.name, l₁.remaining, pre⟩
    have hnoted : p.traced.preprocess task l₁.remaining t₁ =
        (.ok pre, s, t₁.2 ++ [handed.call task]) := by
      simp only [Preprocessor.traced, Service.noting, hreply, handed, Handed.call]
    have hhanded : Audit settings budget [] (l₁.charge pre.cost) (t₁.2 ++ [handed.call task])
        [handed.call task] :=
      (opened.refreshed hlook).request (handed.call task) rfl fun _ _ _ hrun => by cases hrun
    have hsummary : summaryOf p.traced.name pre = handed.summary := rfl
    simp only [hnoted, hsummary] at h
    cases hsolved : handed.summary.solvedDirectly with
    | true =>
        simp only [hsolved, if_true, conclude] at h
        rcases hlook' : upToDate services.traced settings (l₁.charge pre.cost)
          (s, t₁.2 ++ [handed.call task]) with ⟨l', t₂⟩
        simp only [hlook'] at h
        obtain ⟨⟨rfl, -⟩, rfl⟩ := h
        exact .direct hsolved (hhanded.refreshed hlook')
    | false =>
        simp only [hsolved, Bool.false_eq_true, if_false] at h
        cases houtput : pre.output with
        | none =>
            simp only [houtput] at h
            exact transcript_of_runDirect (some handed) hhanded h
        | some output =>
            simp only [houtput] at h
            exact transcript_of_runSimplified hhanded h

/-- Every record of a watched session has its transcript. -/
theorem transcript_of_run {s : σ}
    (h : run services.traced settings strategy task budget (s, []) = (⟨.ok record, given⟩, t')) :
    Transcript services settings strategy task budget record t'.2 := by
  rw [run] at h
  split at h
  · simp at h
  · rcases hopen : openLedger services.traced settings budget (s, []) with ⟨l, t₀⟩
    have hopened := audit_openLedger hopen
    have htraced : services.traced.preprocessor = services.preprocessor.map .traced := rfl
    simp only [hopen, htraced] at h
    cases hpre : services.preprocessor with
    | none =>
        simp only [hpre, Option.map_none] at h
        exact transcript_of_runDirect none hopened h
    | some p =>
        simp only [hpre, Option.map_some] at h
        exact transcript_of_runPreprocessed hopened h

/-- A session that ends with a record, watched: it ends the same way, and its calls are told
by the transcript. -/
theorem transcript_of_record {s : σ}
    (hrun : (run services settings strategy task budget s).1.result = .ok record) :
    ∃ calls,
      run services.traced settings strategy task budget (s, []) =
        ((run services settings strategy task budget s).1,
          (run services settings strategy task budget s).2, calls) ∧
      Transcript services settings strategy task budget record calls := by
  have hsame := run_traced services settings strategy task budget (s, [])
  rcases hwatched : run services.traced settings strategy task budget (s, []) with
    ⟨⟨result, given⟩, s', calls⟩
  rw [hwatched] at hsame
  simp only [unwatched] at hsame
  rw [hsame] at hrun ⊢
  obtain rfl : result = .ok record := hrun
  exact ⟨calls, rfl, transcript_of_run hwatched⟩

end SolverPortfolio.Session
