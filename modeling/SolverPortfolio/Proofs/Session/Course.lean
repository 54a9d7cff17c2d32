import SolverPortfolio.Proofs.Session.Shape

/-!
# The course of a session

A session that fails leaves no record, but it has asked its services for something until
then, and its task may have got features. So the parts of a watched session are followed here
whichever way they end. What survives of an audit is `Booked`: the ledger is that of the calls,
and the requests among them are known. Only that runs are within the budget is lost, as the one
a loop fails on need not be.

`Continued` tells the course of a session once preprocessing, if there was any, has left the
task unsolved: the features, the loop, and the extension of its answer. Both kinds of session,
on the task itself and on a simplified one, are instances (`continued_runDirect`,
`continued_runSimplified`).
-/

namespace SolverPortfolio

open Scalar

variable {α σ : Type}

/-- A run of an action on this task. -/
def ServiceCall.IsRunOn (task : Task α) (c : ServiceCall α) : Prop :=
  ∃ action reply, c = .run action task reply

namespace Session

/-! ## Books that are kept whatever happens -/

/-- What holds of a watched session whose calls began with `base`: the ledger is that of the
calls, and the requests among them are these. A session that charges its own time has read the
clock. -/
structure Booked [Scalar α] (settings : SessionSettings) (budget : α)
    (base : List (ServiceCall α)) (l : Ledger α) (calls requests : List (ServiceCall α)) :
    Prop where
  ledger : l = .ofCalls settings budget calls
  grown : base <+: calls
  asked : calls.filter ServiceCall.isRequest = requests
  timed : settings.chargeOverhead = true → calls ≠ []

variable [Analytic α] {services : Services α σ} {settings : SessionSettings} {budget : α}
  {base calls requests : List (ServiceCall α)} {l l' : Ledger α} {t t' : Traced α σ}

theorem Audit.booked (h : Audit settings budget base l calls requests) :
    Booked settings budget base l calls requests :=
  ⟨h.ledger, h.grown, h.asked, h.timed⟩

theorem Booked.rebase (h : Booked settings budget base l calls requests) :
    Booked settings budget calls l calls requests :=
  { h with grown := List.prefix_refl calls }

theorem Booked.look (h : Booked settings budget base l calls requests)
    (hcpu : settings.chargeOverhead = true) (now : Option α) :
    Booked settings budget base (l.look now) (calls ++ [.clock now]) requests where
  ledger := by rw [Ledger.ofCalls_append (.inl (h.timed hcpu)), ← h.ledger]; rfl
  grown := h.grown.trans (List.prefix_append ..)
  asked := by rw [List.filter_append, h.asked]; exact List.append_nil requests
  timed _ := List.append_ne_nil_of_right_ne_nil _ (List.cons_ne_nil _ _)

theorem Booked.request (h : Booked settings budget base l calls requests) (c : ServiceCall α)
    (hc : c.isRequest = true) :
    Booked settings budget base (l.after settings c) (calls ++ [c]) (requests ++ [c]) where
  ledger := by rw [Ledger.ofCalls_append (.inr hc), ← h.ledger]
  grown := h.grown.trans (List.prefix_append ..)
  asked := by rw [List.filter_append, h.asked, List.filter_singleton, hc]; rfl
  timed _ := List.append_ne_nil_of_right_ne_nil _ (List.cons_ne_nil _ _)

theorem Booked.refreshed (h : Booked settings budget base l t.2 requests)
    (hlook : upToDate services.traced settings l t = (l', t')) :
    Booked settings budget base l' t'.2 requests := by
  rw [upToDate] at hlook
  split at hlook
  · rename_i hcpu
    obtain ⟨rfl, rfl⟩ := hlook
    exact h.look hcpu _
  · obtain ⟨rfl, rfl⟩ := hlook
    exact h

/-! ## Features -/

/-- How a task came by its features: it had them, or the provider was asked for them. -/
inductive Featured (given : Task α) (v : FeatureVector α) : List (ServiceCall α) → Prop
  | kept (had : given.features = some v) : Featured given v []
  | computed (lacked : given.features = none) : Featured given v [.features given (.ok v)]

/-- A task gets its features, or the provider fails and it stays as it is. -/
theorem Booked.featured [Rounded α] {given task : Task α} {reply : Except (SessionError α) α}
    (h : Booked settings budget base l t.2 requests)
    (hf : ensureFeatures services.traced given t = (reply, task, t')) :
    (∃ e, given.features = none ∧ reply = .error (.features given.id e) ∧ task = given ∧
      Booked settings budget base l t'.2 (requests ++ [.features given (.error e)])) ∨
    ∃ v asked cost, Featured given v asked ∧ reply = .ok cost ∧
      task = { given with features := some v } ∧
      Booked settings budget base (if settings.chargeFeatures then l.charge cost else l) t'.2
        (requests ++ asked) := by
  rw [ensureFeatures] at hf
  cases hfeatures : given.features with
  | some v =>
      simp only [hfeatures] at hf
      obtain ⟨rfl, rfl, rfl⟩ := hf
      refine Or.inr ⟨v, [], 0, .kept hfeatures, rfl, ?_, ?_⟩
      · rw [← hfeatures]
      · simpa [Ledger.charge_zero] using h
  | none =>
      have hnoted : services.traced.features given t =
          (services.features given).noting (.features given) t := rfl
      simp only [hfeatures, hnoted, Service.noting] at hf
      rcases hreply : services.features given t.1 with ⟨e | v, s⟩
      · simp only [hreply] at hf
        obtain ⟨rfl, rfl, rfl⟩ := hf
        exact Or.inl ⟨e, rfl, rfl, rfl, h.request (.features given (.error e)) rfl⟩
      · simp only [hreply] at hf
        obtain ⟨rfl, rfl, rfl⟩ := hf
        have hcomputed := h.request (.features given (.ok v)) rfl
        rw [Ledger.after_features] at hcomputed
        exact Or.inr ⟨v, _, v.cost, .computed hfeatures, rfl, rfl, hcomputed⟩

/-! ## The loop -/

variable [GammaFunctions α] {task : Task α}

/-- A round runs one action on the task, or none. -/
theorem Booked.round {strategy : Strategy α} {round : Round α}
    (h : Booked settings budget base l t.2 requests)
    (hround : playRound services.traced settings task strategy l t = (round, l', t')) :
    ∃ runs, (∀ c ∈ runs, c.IsRunOn task) ∧
      Booked settings budget base l' t'.2 (requests ++ runs) := by
  have hnothing : ∀ {l : Ledger α} {t : Traced α σ}, Booked settings budget base l t.2 requests →
      ∃ runs, (∀ c ∈ runs, c.IsRunOn task) ∧
        Booked settings budget base l t.2 (requests ++ runs) :=
    fun h => ⟨[], nofun, by rwa [List.append_nil]⟩
  rw [playRound] at hround
  rcases hlook : upToDate services.traced settings l t with ⟨l₁, t₁⟩
  have hlooked := h.refreshed hlook
  simp only [hlook] at hround
  by_cases hspent : l₁.remaining ≤ 0
  · rw [if_pos hspent] at hround
    obtain ⟨-, rfl, rfl⟩ := hround
    exact hnothing hlooked
  · rw [if_neg hspent] at hround
    rcases hselect : strategy.select l₁.remaining with ⟨strategy₁, e | _ | action⟩
    · simp only [hselect] at hround
      obtain ⟨-, rfl, rfl⟩ := hround
      exact hnothing hlooked
    · simp only [hselect] at hround
      obtain ⟨-, rfl, rfl⟩ := hround
      exact hnothing hlooked
    · have hnoted : services.traced.run action task t₁ =
          (services.run action task).noting (.run action task) t₁ := rfl
      have hon : ∀ reply, ∀ c ∈ [ServiceCall.run action task reply], c.IsRunOn task := by
        intro reply c hc
        obtain rfl := List.mem_singleton.mp hc
        exact ⟨action, reply, rfl⟩
      simp only [hselect, attempt, hnoted, Service.noting] at hround
      rcases hrun : services.run action task t₁.1 with ⟨e | result, s⟩
      · simp only [hrun] at hround
        obtain ⟨-, rfl, rfl⟩ := hround
        exact ⟨_, hon (.error e), hlooked.request (.run action task (.error e)) rfl⟩
      · -- The run is charged before the strategy has its say.
        have hcharged := hlooked.request (.run action task (.ok result)) rfl
        simp only [hrun] at hround
        rcases hobserve : strategy₁.observe action result.outcome with ⟨strategy₂, e | _⟩
        · simp only [hobserve] at hround
          obtain ⟨-, rfl, rfl⟩ := hround
          exact ⟨_, hon (.ok result), hcharged⟩
        · simp only [hobserve] at hround
          obtain ⟨-, rfl, rfl⟩ := hround
          exact ⟨_, hon (.ok result), hcharged⟩

/-- A loop runs actions on its task and asks for nothing else, whichever way it ends. -/
theorem Booked.loop (n : Nat) : ∀ {strategy : Strategy α} {l : Ledger α} {t t' : Traced α σ}
    {requests : List (ServiceCall α)} {r : LoopResult α},
    Booked settings budget base l t.2 requests →
    solveLoop services.traced settings task n strategy l t = (r, t') →
    ∃ runs, (∀ c ∈ runs, c.IsRunOn task) ∧
      Booked settings budget base r.ledger t'.2 (requests ++ runs) := by
  induction n with
  | zero =>
      intro strategy l t t' requests r h hloop
      obtain ⟨rfl, rfl⟩ := hloop
      exact ⟨[], nofun, by rwa [List.append_nil]⟩
  | succ n ih =>
      intro strategy l t t' requests r h hloop
      rw [solveLoop] at hloop
      rcases hround : playRound services.traced settings task strategy l t with ⟨round, l₁, t₁⟩
      obtain ⟨runs, hruns, hplayed⟩ := h.round hround
      rw [hround] at hloop
      rcases round with ending | ⟨a, strategy'⟩
      · obtain ⟨rfl, rfl⟩ := hloop
        exact ⟨runs, hruns, hplayed⟩
      · simp only at hloop
        split at hloop
        · obtain ⟨rfl, rfl⟩ := hloop
          exact ⟨runs, hruns, hplayed⟩
        · obtain ⟨rfl, rfl⟩ := hloop
          obtain ⟨later, hlater, hended⟩ := ih hplayed rfl
          refine ⟨runs ++ later, fun c hc => ?_, by rwa [← List.append_assoc]⟩
          exact (List.mem_append.mp hc).elim (hruns c) (hlater c)

/-! ## After preprocessing -/

/-- What becomes of the ending of the loop. A positive answer on a task that preprocessing made
is extended, every other ending is kept. -/
inductive Answered (id : String) (output : Option (Task α)) (loopTask : Task α) :
    Except (SessionError α) (Option Outcome) → List (ServiceCall α) →
      Except (SessionError α) (Option Outcome) → Prop
  | failed (e : SessionError α) : Answered id output loopTask (.error e) [] (.error e)
  | kept {answer : Option Outcome}
      (stands : output = none ∨ ∀ a ∈ answer, a.kind ≠ .positive) :
      Answered id output loopTask (.ok answer) [] (.ok answer)
  | extended {answer final : Outcome} (simplified : output.isSome = true)
      (positive : answer.kind = .positive) :
      Answered id output loopTask (.ok (some answer)) [.extend loopTask answer (.ok final)]
        (.ok (some final))
  | stuck {answer : Outcome} {e : PreprocessError} (simplified : output.isSome = true)
      (positive : answer.kind = .positive) :
      Answered id output loopTask (.ok (some answer)) [.extend loopTask answer (.error e)]
        (.error (.preprocess id e))

/-- How a watched session goes on that was not over after preprocessing, with the requests it
makes from there on. The task of the loop is the output of preprocessing, or the given one if there
is none. It is the one whose features are asked for; the strategy is made for it with them, and
every run is on it. -/
inductive Continued (services : Services α σ) (settings : SessionSettings)
    (strategy : Task α → Strategy α) (budget : α) (task : Task α) (output : Option (Task α))
    (summary : Option (PreprocessingSummary α)) (calls : List (ServiceCall α)) :
    List (ServiceCall α) → Ending α → Prop
  | unfeatured {e : FeatureError} (lacked : (output.getD task).features = none) :
      Continued services settings strategy budget task output summary calls
        [.features (output.getD task) (.error e)]
        ⟨.error (.features (output.getD task).id e), task⟩
  | looped {v : FeatureVector α} {asked runs extension : List (ServiceCall α)}
      {loopTask : Task α} {r : LoopResult α} {answer : Except (SessionError α) (Option Outcome)}
      {ending : Ending α}
      (featured : Featured (output.getD task) v asked)
      (at_hand : loopTask = { output.getD task with features := some v })
      (looped : Looped services settings strategy budget calls loopTask r)
      (ran : ∀ c ∈ runs, c.IsRunOn loopTask)
      (answered : Answered task.id output loopTask r.ending extension answer)
      (result : ending.result = answer.map fun final =>
        ⟨task.id, budget, (Ledger.ofCalls settings budget calls).elapsed, r.attempts, final,
          summary⟩)
      (kept : ending.task = output.elim loopTask fun _ => task) :
      Continued services settings strategy budget task output summary calls
        (asked ++ runs ++ extension) ending

variable {strategy : Task α → Strategy α} {given loopTask : Task α} {r : LoopResult α}
  {summary : Option (PreprocessingSummary α)} {ending : Ending α}

theorem Looped.mono {calls calls' : List (ServiceCall α)} (hcalls : calls <+: calls')
    (h : Looped services settings strategy budget calls loopTask r) :
    Looped services settings strategy budget calls' loopTask r := by
  obtain ⟨t₀, t₁, hbefore, hafter, hloop⟩ := h
  exact ⟨t₀, t₁, hbefore, hafter.trans hcalls, hloop⟩

omit [GammaFunctions α] in
/-- A record costs what the calls of its session have used up. -/
theorem Booked.concluded {attempts : List (Attempt α)} {answer : Option Outcome}
    (h : Booked settings budget base l t.2 requests)
    (hc : conclude services.traced settings task budget summary attempts answer l t =
      (ending, t')) :
    ending = ⟨.ok ⟨task.id, budget, (Ledger.ofCalls settings budget t'.2).elapsed, attempts,
        answer, summary⟩, task⟩ ∧
      base <+: t'.2 ∧ t'.2.filter ServiceCall.isRequest = requests := by
  rw [conclude] at hc
  rcases hlook : upToDate services.traced settings l t with ⟨l₁, t₁⟩
  have hlooked := h.refreshed hlook
  simp only [hlook] at hc
  obtain ⟨rfl, rfl⟩ := hc
  exact ⟨by rw [hlooked.ledger], hlooked.grown, hlooked.asked⟩

variable [Rounded α]

/-- The loop on a task, with the features that come before it. -/
theorem Booked.solved (h : Booked settings budget [] l t.2 requests)
    (hsolve : solveTask services.traced settings strategy given l t = (r, loopTask, t')) :
    (∃ e, given.features = none ∧ r.ending = .error (.features given.id e) ∧ loopTask = given ∧
      t'.2.filter ServiceCall.isRequest = requests ++ [.features given (.error e)]) ∨
    ∃ v asked runs, Featured given v asked ∧ loopTask = { given with features := some v } ∧
      Looped services settings strategy budget t'.2 loopTask r ∧
      (∀ c ∈ runs, c.IsRunOn loopTask) ∧
      Booked settings budget t'.2 r.ledger t'.2 (requests ++ asked ++ runs) := by
  rw [solveTask] at hsolve
  rcases hensure : ensureFeatures services.traced given t with ⟨reply, task₁, t₁⟩
  rcases h.featured hensure with ⟨e, hlacked, rfl, rfl, hasked⟩ | ⟨v, asked, cost, hfeatured, rfl,
    htask, hopened⟩
  · simp only [hensure] at hsolve
    obtain ⟨rfl, rfl, rfl⟩ := hsolve
    exact Or.inl ⟨e, hlacked, rfl, rfl, hasked.asked⟩
  · simp only [hensure] at hsolve
    obtain ⟨rfl, rfl, rfl⟩ := hsolve
    obtain ⟨runs, hruns, hlooped⟩ := hopened.rebase.loop settings.maxInvocations rfl
    refine Or.inr ⟨v, asked, runs, hfeatured, htask, ?_, hruns, hlooped.rebase⟩
    refine ⟨t₁, _, hlooped.grown, List.prefix_refl _, ?_⟩
    rw [← hopened.ledger]

/-- A loop that ends in an error ends its session, as does a failure to get features. -/
theorem Booked.failed {e : SessionError α} (output : Option (Task α))
    (h : Booked settings budget [] l t.2 requests)
    (hsolve : solveTask services.traced settings strategy (output.getD task) l t =
      (r, loopTask, t'))
    (hend : r.ending = .error e) :
    ∃ later, t'.2.filter ServiceCall.isRequest = requests ++ later ∧
      Continued services settings strategy budget task output summary t'.2 later
        ⟨.error e, output.elim loopTask fun _ => task⟩ := by
  rcases h.solved hsolve with ⟨e', hlacked, hfailed, rfl, hasked⟩ | ⟨v, asked, runs, hfeatured,
    htask, hlooped, hruns, hplayed⟩
  · obtain rfl := Except.error.inj (hend.symm.trans hfailed)
    have hkept : output.elim (output.getD task) (fun _ => task) = task := by
      cases output <;> rfl
    rw [hkept]
    exact ⟨_, hasked, .unfeatured hlacked⟩
  · have hanswered : Answered task.id output loopTask r.ending [] (.error e) := by
      rw [hend]
      exact .failed e
    refine ⟨asked ++ runs ++ [], ?_,
      .looped hfeatured htask hlooped hruns hanswered rfl rfl⟩
    rw [List.append_nil, ← List.append_assoc]
    exact hplayed.asked

/-- A loop that ends with an answer has had features. -/
theorem Booked.looped {answer : Option Outcome} (h : Booked settings budget [] l t.2 requests)
    (hsolve : solveTask services.traced settings strategy given l t = (r, loopTask, t'))
    (hend : r.ending = .ok answer) :
    ∃ v asked runs, Featured given v asked ∧ loopTask = { given with features := some v } ∧
      Looped services settings strategy budget t'.2 loopTask r ∧
      (∀ c ∈ runs, c.IsRunOn loopTask) ∧
      Booked settings budget t'.2 r.ledger t'.2 (requests ++ (asked ++ runs)) := by
  rcases h.solved hsolve with ⟨e, -, hfailed, -⟩ | ⟨v, asked, runs, hfeatured, htask, hlooped,
    hruns, hplayed⟩
  · cases hend.symm.trans hfailed
  · rw [List.append_assoc] at hplayed
    exact ⟨v, asked, runs, hfeatured, htask, hlooped, hruns, hplayed⟩

theorem continued_runDirect (h : Booked settings budget [] l t.2 requests)
    (hrun : runDirect services.traced settings strategy task budget summary l t = (ending, t')) :
    ∃ later, t'.2.filter ServiceCall.isRequest = requests ++ later ∧
      Continued services settings strategy budget task none summary t'.2 later ending := by
  rw [runDirect] at hrun
  rcases hsolve : solveTask services.traced settings strategy task l t with ⟨r, loopTask, t₁⟩
  simp only [hsolve] at hrun
  cases hend : r.ending with
  | error e =>
      simp only [hend] at hrun
      obtain ⟨rfl, rfl⟩ := hrun
      exact h.failed none hsolve hend
  | ok answer =>
      obtain ⟨v, asked, runs, hfeatured, rfl, hlooped, hruns, hplayed⟩ := h.looped hsolve hend
      simp only [hend] at hrun
      obtain ⟨rfl, hgrown, hasked⟩ := hplayed.concluded hrun
      have hanswered : Answered task.id none { task with features := some v } r.ending []
          (.ok answer) := by
        rw [hend]
        exact .kept (Or.inl rfl)
      refine ⟨asked ++ runs ++ [], ?_,
        .looped hfeatured rfl (hlooped.mono hgrown) hruns hanswered rfl rfl⟩
      rwa [List.append_nil]

omit [GammaFunctions α] [Rounded α] in
/-- The answer of the loop on a simplified task, extended if it is to be. -/
theorem Booked.answered {p : Preprocessor α σ} {answer : Option Outcome}
    {reply : Except (SessionError α) (Option Outcome)} (output : Task α)
    (h : Booked settings budget base l t.2 requests)
    (hextend : extendAnswer p.traced task loopTask answer t = (reply, t')) :
    ∃ extension, Answered task.id (some output) loopTask (.ok answer) extension reply ∧
      Booked settings budget base l t'.2 (requests ++ extension) := by
  have hkept : (∀ a ∈ answer, a.kind ≠ .positive) →
      (Except.ok answer, t) = ((reply, t') : Except (SessionError α) _ × _) →
      ∃ extension, Answered task.id (some output) loopTask (.ok answer) extension reply ∧
        Booked settings budget base l t'.2 (requests ++ extension) := by
    rintro hstands hsame
    obtain ⟨rfl, rfl⟩ := hsame
    exact ⟨[], .kept (Or.inr hstands), by rwa [List.append_nil]⟩
  rcases answer with _ | ⟨kind, certificate⟩
  · exact hkept nofun hextend
  · cases kind with
    | unsolved => exact hkept (by simp) hextend
    | negative => exact hkept (by simp) hextend
    | positive =>
        have hnoted : p.traced.extend loopTask ⟨.positive, certificate⟩ t =
            (p.extend loopTask ⟨.positive, certificate⟩).noting (.extend loopTask _) t := rfl
        simp only [extendAnswer, hnoted, Service.noting] at hextend
        rcases hreply : p.extend loopTask ⟨.positive, certificate⟩ t.1 with ⟨e | final, s⟩
        · simp only [hreply] at hextend
          obtain ⟨rfl, rfl⟩ := hextend
          exact ⟨_, .stuck rfl rfl, h.request (.extend loopTask _ (.error e)) rfl⟩
        · simp only [hreply] at hextend
          obtain ⟨rfl, rfl⟩ := hextend
          exact ⟨_, .extended rfl rfl, h.request (.extend loopTask _ (.ok final)) rfl⟩

theorem continued_runSimplified {p : Preprocessor α σ} {output : Task α}
    {pre : PreprocessingSummary α} (h : Booked settings budget [] l t.2 requests)
    (hrun : runSimplified services.traced p.traced settings strategy task output budget pre l t =
      (ending, t')) :
    ∃ later, t'.2.filter ServiceCall.isRequest = requests ++ later ∧
      Continued services settings strategy budget task (some output) (some pre) t'.2 later
        ending := by
  rw [runSimplified] at hrun
  rcases hsolve : solveTask services.traced settings strategy output l t with ⟨r, loopTask, t₁⟩
  simp only [hsolve] at hrun
  cases hend : r.ending with
  | error e =>
      simp only [hend] at hrun
      obtain ⟨rfl, rfl⟩ := hrun
      exact h.failed (some output) hsolve hend
  | ok answer =>
      obtain ⟨v, asked, runs, hfeatured, htask, hlooped, hruns, hplayed⟩ := h.looped hsolve hend
      simp only [hend] at hrun
      rcases hextend : extendAnswer p.traced task loopTask answer t₁ with ⟨reply, t₂⟩
      obtain ⟨extension, hanswered, hextended⟩ := hplayed.answered output hextend
      rw [← hend] at hanswered
      rw [List.append_assoc] at hextended
      simp only [hextend] at hrun
      cases reply with
      | error e =>
          obtain ⟨rfl, rfl⟩ := hrun
          exact ⟨_, hextended.asked,
            .looped hfeatured htask (hlooped.mono hextended.grown) hruns hanswered rfl rfl⟩
      | ok final =>
          obtain ⟨rfl, hgrown, hasked⟩ := hextended.rebase.concluded hrun
          exact ⟨_, hasked,
            .looped hfeatured htask (hlooped.mono (hextended.grown.trans hgrown)) hruns hanswered
              rfl rfl⟩

end Session

end SolverPortfolio
