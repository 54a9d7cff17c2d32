import SolverPortfolio.Proofs.Session.Accounting
import SolverPortfolio.Proofs.Session.Course

/-!
# Sessions on a shared task

A task keeps its features once they are computed, and sessions without a preprocessor hand it
on to each other. So what a session does about features depends on the sessions before it, and
the property is one of whole histories: features are computed once, by the first session that
gets them, and every later session plans with them and is not charged for them, however the
sessions end (`features_computed_once`).

One session can do three things about features (`FeatureStep`): ask nobody, ask in vain, or
get them for a task that had none. What the task has at any time is read off the sessions until
then by induction on the history (`given_of_history`), and the rest follows.
-/

namespace SolverPortfolio

open Scalar

variable {α σ : Type}

/-- A call that asks for features. -/
def ServiceCall.isFeatures : ServiceCall α → Bool
  | .features _ _ => true
  | _ => false

theorem ServiceCall.filterMap_computed (calls : List (ServiceCall α)) :
    (calls.filter isFeatures).filterMap computed? = calls.filterMap computed? := by
  rw [List.filterMap_filter]
  refine List.filterMap_congr fun c _ => ?_
  cases c <;> rfl

/-! ## Without a charge for features -/

/-- The settings, but features are free. -/
def SessionSettings.featuresFree (settings : SessionSettings) : SessionSettings :=
  { settings with chargeFeatures := false }

namespace Ledger

variable [Scalar α] {settings : SessionSettings}

theorem after_featuresFree {c : ServiceCall α} (hc : c.computed? = none) (l : Ledger α) :
    l.after settings.featuresFree c = l.after settings c := by
  rcases c with now | ⟨task, remaining, e | pre⟩ | ⟨task, e | v⟩ | ⟨action, task, e | result⟩ |
    ⟨output, answer, e | final⟩
  case features.ok => cases hc
  all_goals rfl

theorem ofCalls_featuresFree {calls : List (ServiceCall α)} (budget : α)
    (h : calls.filterMap ServiceCall.computed? = []) :
    ofCalls settings.featuresFree budget calls = ofCalls settings budget calls := by
  have hnone := List.filterMap_eq_nil_iff.mp h
  have hfold : ∀ (l : Ledger α) (made : List (ServiceCall α)), (∀ c ∈ made, c.computed? = none) →
      made.foldl (after settings.featuresFree) l = made.foldl (after settings) l := by
    intro l made hmade
    exact List.foldl_ext _ _ l fun l c hc => after_featuresFree (hmade c hc) l
  cases calls with
  | nil => rfl
  | cons c calls =>
      cases c with
      | clock now => exact hfold _ _ fun c hc => hnone c (List.mem_cons_of_mem _ hc)
      | _ => exact hfold _ _ hnone

end Ledger

namespace Session

variable [Analytic α] [GammaFunctions α] {services : Services α σ} {settings : SessionSettings}
  {strategy : Task α → Strategy α} {task : Task α} {budget : α} {ending : Ending α}

theorem solveLoop_featuresFree (n : Nat) (s : Strategy α) (l : Ledger α) (t : σ) :
    solveLoop services settings.featuresFree task n s l t =
      solveLoop services settings task n s l t := by
  induction n generalizing s l t with
  | zero => rfl
  | succ n ih =>
      have hround : playRound services settings.featuresFree task s l t =
          playRound services settings task s l t := rfl
      rw [solveLoop, solveLoop, hround]
      simp only [ih]

variable [Rounded α]

section runDirect

variable {base requests : List (ServiceCall α)} {l : Ledger α} {t t' : Traced α σ}
  {summary : Option (PreprocessingSummary α)}

omit [Rounded α] in
/-- A vector that is computed is among the calls of its session. -/
theorem Booked.computed_mem {v : FeatureVector α} {s : σ}
    (h : Booked settings budget base l t.2 requests)
    (hrun : runDirect services.traced settings strategy task budget summary l t = (ending, t'))
    (hlacked : task.features = none) (hreply : services.features task t.1 = (.ok v, s)) :
    ServiceCall.features task (.ok v) ∈ t'.2 := by
  have hnoted : services.traced.features task t =
      (services.features task).noting (.features task) t := rfl
  have hbooked := h.request (.features task (.ok v)) rfl
  rw [Ledger.after_features] at hbooked
  rw [runDirect, solveTask] at hrun
  simp only [ensureFeatures, hlacked, hnoted, Service.noting, hreply] at hrun
  rcases hloop : solveLoop services.traced settings { task with features := some v }
    settings.maxInvocations (strategy { task with features := some v })
    (if settings.chargeFeatures then l.charge v.cost else l)
    (s, t.2 ++ [.features task (.ok v)]) with ⟨r, t₁⟩
  obtain ⟨runs, -, hlooped⟩ := hbooked.rebase.loop settings.maxInvocations hloop
  simp only [hloop] at hrun
  suffices hgrown : t.2 ++ [.features task (.ok v)] <+: t'.2 from
    hgrown.mem (List.mem_append_right _ (List.mem_singleton_self _))
  split at hrun
  · obtain ⟨-, rfl⟩ := hrun
    exact hlooped.grown
  · obtain ⟨-, hgrown, -⟩ := hlooped.concluded hrun
    exact hgrown

/-- A charge for features matters only to a session that computes some. -/
theorem Booked.runDirect_featuresFree (h : Booked settings budget base l t.2 requests)
    (hrun : runDirect services.traced settings strategy task budget summary l t = (ending, t'))
    (hcomputed : t'.2.filterMap ServiceCall.computed? = []) :
    runDirect services.traced settings.featuresFree strategy task budget summary l t =
      (ending, t') := by
  have hconclude : ∀ attempts answer (l : Ledger α) (task : Task α) (t : Traced α σ),
      conclude services.traced settings.featuresFree task budget summary attempts answer l t =
        conclude services.traced settings task budget summary attempts answer l t :=
    fun _ _ _ _ _ => rfl
  suffices hsolve : solveTask services.traced settings.featuresFree strategy task l t =
      solveTask services.traced settings strategy task l t by
    rw [← hrun, runDirect, runDirect, hsolve]
    simp only [hconclude]
  rw [solveTask, solveTask]
  simp only [solveLoop_featuresFree]
  cases hfeatures : task.features with
  | some v =>
      simp only [ensureFeatures, hfeatures, Ledger.charge_zero, ite_self]
      rfl
  | none =>
      have hnoted : services.traced.features task t =
          (services.features task).noting (.features task) t := rfl
      rcases hreply : services.features task t.1 with ⟨e | v, s⟩
      · simp only [ensureFeatures, hfeatures, hnoted, Service.noting, hreply]
      · have hmem := h.computed_mem hrun hfeatures hreply
        cases List.filterMap_eq_nil_iff.mp hcomputed _ hmem

end runDirect

/-! ## One session -/

/-- What a session did about the features of its task, by the calls that asked for them. -/
inductive FeatureStep (task : Task α) : List (ServiceCall α) → Ending α → Prop
  | unasked {ending : Ending α} (left : ending.task = task) : FeatureStep task [] ending
  | failed {e : FeatureError} (lacked : task.features = none) :
      FeatureStep task [.features task (.error e)] ⟨.error (.features task.id e), task⟩
  | computed {v : FeatureVector α} {ending : Ending α} (lacked : task.features = none)
      (left : ending.task = { task with features := some v }) :
      FeatureStep task [.features task (.ok v)] ending

/-- A session with these calls planned with the features of this task, and ended as its loop. -/
def PlannedWith (services : Services α σ) (settings : SessionSettings)
    (strategy : Task α → Strategy α) (budget : α) (calls : List (ServiceCall α))
    (loopTask : Task α) (ending : Ending α) : Prop :=
  ∃ r, Looped services settings strategy budget calls loopTask r ∧
    ending.result = r.ending.map fun answer =>
      ⟨loopTask.id, budget, (Ledger.ofCalls settings budget calls).elapsed, r.attempts, answer,
        none⟩

/-- A session without a preprocessor is refused its budget, or goes on with its task. -/
theorem continued_of_run (hdirect : services.preprocessor = none) {s : σ} {t' : Traced α σ}
    (hrun : run services.traced settings strategy task budget (s, []) = (ending, t')) :
    (¬IsBudget budget ∧ t'.2 = [] ∧ ending = ⟨.error (.decision (.negativeBudget budget)), task⟩) ∨
    IsBudget budget ∧ Continued services settings strategy budget task none none t'.2
      (t'.2.filter ServiceCall.isRequest) ending := by
  have htraced : services.traced.preprocessor = none := by
    show services.preprocessor.map Preprocessor.traced = none
    rw [hdirect]
    rfl
  rw [run, htraced] at hrun
  by_cases hbudget : IsBudget budget
  · rw [if_neg (by rw [hbudget]; exact Bool.false_ne_true)] at hrun
    rcases hopen : openLedger services.traced settings budget (s, []) with ⟨l, t⟩
    simp only [hopen] at hrun
    obtain ⟨later, hasked, hcontinued⟩ :=
      continued_runDirect (audit_openLedger hopen).booked hrun
    rw [List.nil_append] at hasked
    exact Or.inr ⟨hbudget, by rwa [hasked]⟩
  · rw [if_pos (Bool.eq_true_of_not_eq_false hbudget)] at hrun
    obtain ⟨rfl, rfl⟩ := hrun
    exact Or.inl ⟨hbudget, rfl, rfl⟩

theorem run_featuresFree (hdirect : services.preprocessor = none) {s : σ} {t' : Traced α σ}
    (hrun : run services.traced settings strategy task budget (s, []) = (ending, t'))
    (hcomputed : t'.2.filterMap ServiceCall.computed? = []) :
    run services.traced settings.featuresFree strategy task budget (s, []) = (ending, t') := by
  have htraced : services.traced.preprocessor = none := by
    show services.preprocessor.map Preprocessor.traced = none
    rw [hdirect]
    rfl
  have hsame : openLedger services.traced settings.featuresFree budget (s, []) =
      openLedger services.traced settings budget (s, []) := rfl
  rw [run, htraced] at hrun ⊢
  rw [hsame]
  split at hrun
  · rename_i hrefused
    rw [if_pos hrefused]
    exact hrun
  · rename_i hbudget
    rw [if_neg hbudget]
    exact (audit_openLedger rfl).booked.runDirect_featuresFree hrun hcomputed

omit [Analytic α] [GammaFunctions α] [Rounded α] in
/-- Without a simplified task there is nothing to extend. -/
theorem Answered.direct {id : String} {loopTask : Task α}
    {reply answer : Except (SessionError α) (Option Outcome)} {extension : List (ServiceCall α)}
    (h : Answered id none loopTask reply extension answer) : extension = [] ∧ answer = reply := by
  cases h with
  | failed e => exact ⟨rfl, rfl⟩
  | kept stands => exact ⟨rfl, rfl⟩
  | extended simplified positive => cases simplified
  | stuck simplified positive => cases simplified

omit [Rounded α] in
theorem featureStep_of_continued {calls : List (ServiceCall α)}
    (h : Continued services settings strategy budget task none none calls
      (calls.filter ServiceCall.isRequest) ending) :
    FeatureStep task (calls.filter ServiceCall.isFeatures) ending ∧
      ∀ v, ending.task.features = some v →
        PlannedWith services settings strategy budget calls { task with features := some v }
          ending := by
  rw [← ServiceCall.filter_requests (fun _ => rfl)]
  generalize calls.filter ServiceCall.isRequest = requests at h
  cases h with
  | unfeatured lacked =>
      exact ⟨.failed lacked, fun v hv => by cases lacked.symm.trans hv⟩
  | @looped v asked runs extension loopTask r answer ending featured at_hand looped ran answered
      result kept =>
      obtain ⟨rfl, rfl⟩ := answered.direct
      obtain rfl := at_hand
      have hruns : runs.filter ServiceCall.isFeatures = [] := by
        refine List.filter_eq_nil_iff.mpr fun c hc => ?_
        obtain ⟨action, reply, rfl⟩ := ran c hc
        exact Bool.false_ne_true
      rw [List.append_nil, List.filter_append, hruns, List.append_nil]
      constructor
      · cases featured with
        | kept had =>
            refine .unasked (kept.trans ?_)
            show { task with features := some v } = task
            rw [← had]
            rfl
        | computed lacked => exact .computed lacked kept
      · intro v' hv'
        rw [kept] at hv'
        obtain rfl := Option.some.inj hv'
        exact ⟨r, looped, result⟩

namespace FeatureStep

variable {asked : List (ServiceCall α)}

omit [Analytic α] [GammaFunctions α] [Rounded α]

theorem length_le (h : FeatureStep task asked ending) :
    (asked.filterMap ServiceCall.computed?).length ≤ 1 := by
  cases h with
  | unasked left => exact Nat.zero_le 1
  | failed lacked => exact Nat.zero_le 1
  | computed lacked left => exact Nat.le_refl 1

theorem left (h : FeatureStep task asked ending) :
    ending.task = { task with
      features := task.features.or (asked.filterMap ServiceCall.computed?).head? } := by
  cases h with
  | unasked left =>
      rw [left, List.filterMap_nil, List.head?_nil, Option.or_none]
  | failed lacked =>
      show task = { task with features := task.features.or none }
      rw [Option.or_none]
  | computed lacked left =>
      rw [left, lacked]
      rfl

/-- Nobody is asked for features that are known. -/
theorem asked_eq_nil (h : FeatureStep task asked ending) {v : FeatureVector α}
    (hknown : task.features = some v) : asked = [] := by
  cases h with
  | unasked left => rfl
  | failed lacked => cases lacked.symm.trans hknown
  | computed lacked left => cases lacked.symm.trans hknown

theorem failed_of_mem (h : FeatureStep task asked ending) {given : Task α} {e : FeatureError}
    (hmem : ServiceCall.features given (.error e) ∈ asked) :
    task.features = none ∧ ending = ⟨.error (.features task.id e), task⟩ := by
  cases h with
  | unasked left => cases hmem
  | failed lacked =>
      obtain ⟨-, hsame⟩ := ServiceCall.features.inj (List.mem_singleton.mp hmem)
      obtain rfl := Except.error.inj hsame
      exact ⟨lacked, rfl⟩
  | computed lacked left =>
      obtain ⟨-, hsame⟩ := ServiceCall.features.inj (List.mem_singleton.mp hmem)
      cases hsame

end FeatureStep

/-! ## Sessions in turn -/

/-- A session that is to be run on a task. -/
structure Job (α σ : Type) where
  services : Services α σ
  settings : SessionSettings
  strategy : Task α → Strategy α
  budget : α

def Job.run (job : Job α σ) (task : Task α) (s : σ) : Ending α × σ :=
  Session.run job.services job.settings job.strategy task job.budget s

def Job.watch (job : Job α σ) (task : Task α) (s : σ) : Ending α × Traced α σ :=
  Session.run job.services.traced job.settings job.strategy task job.budget (s, [])

def Job.featuresFree (job : Job α σ) : Job α σ :=
  { job with settings := job.settings.featuresFree }

/-- Run sessions one after the other on the same task. -/
def runInTurn : List (Job α σ) → Task α → σ → List (Ending α)
  | [], _, _ => []
  | job :: jobs, task, s =>
    let (ending, s) := job.run task s
    ending :: runInTurn jobs ending.task s

/-- What is known of a session that was watched: the task and the state it was given, how it
ended and its calls. -/
structure Report (α σ : Type) where
  job : Job α σ
  given : Task α
  state : σ
  ending : Ending α
  calls : List (ServiceCall α)

/-- Watch sessions that are run one after the other on the same task. -/
def history : List (Job α σ) → Task α → σ → List (Report α σ)
  | [], _, _ => []
  | job :: jobs, task, s =>
    let (ending, s', calls) := job.watch task s
    ⟨job, task, s, ending, calls⟩ :: history jobs ending.task s'

/-- The vectors that were computed in a session. -/
def Report.computed (e : Report α σ) : List (FeatureVector α) :=
  e.calls.filterMap ServiceCall.computed?

/-- The vectors that were computed in a history. -/
def computedIn (log : List (Report α σ)) : List (FeatureVector α) := log.flatMap Report.computed

/-- The report is of the session that it says was run. -/
def Report.Genuine (e : Report α σ) : Prop :=
  ∃ s, e.job.watch e.given e.state = (e.ending, s, e.calls)

variable {jobs : List (Job α σ)} {s : σ}

omit [Rounded α] in
theorem ending_history (jobs : List (Job α σ)) (task : Task α) (s : σ) :
    (history jobs task s).map Report.ending = runInTurn jobs task s := by
  induction jobs generalizing task s with
  | nil => rfl
  | cons job jobs ih =>
      have hsame : job.run task s = unwatched (job.watch task s) :=
        run_traced job.services job.settings job.strategy task job.budget (s, [])
      rw [runInTurn, history, hsame, List.map_cons, ih]
      rfl

theorem Report.Genuine.featureStep {e : Report α σ} (h : e.Genuine)
    (hdirect : e.job.services.preprocessor = none) :
    FeatureStep e.given (e.calls.filter ServiceCall.isFeatures) e.ending := by
  obtain ⟨s, hwatch⟩ := h
  rcases continued_of_run hdirect hwatch with ⟨-, hcalls, hending⟩ | ⟨-, hcontinued⟩
  · rw [show e.calls = [] from hcalls, hending]
    exact .unasked rfl
  · exact (featureStep_of_continued hcontinued).1

theorem Report.Genuine.left {e : Report α σ} (h : e.Genuine)
    (hdirect : e.job.services.preprocessor = none) :
    e.ending.task = { e.given with features := e.given.features.or e.computed.head? } := by
  have hleft := (h.featureStep hdirect).left
  rwa [ServiceCall.filterMap_computed] at hleft

theorem Report.Genuine.length_computed_le {e : Report α σ} (h : e.Genuine)
    (hdirect : e.job.services.preprocessor = none) : e.computed.length ≤ 1 := by
  have hle := (h.featureStep hdirect).length_le
  rwa [ServiceCall.filterMap_computed] at hle

theorem Report.Genuine.computed_eq_nil {e : Report α σ} (h : e.Genuine)
    (hdirect : e.job.services.preprocessor = none) {v : FeatureVector α}
    (hknown : e.given.features = some v) : e.computed = [] := by
  have hasked := (h.featureStep hdirect).asked_eq_nil hknown
  rw [Report.computed, ← ServiceCall.filterMap_computed, hasked]
  rfl

/-- A session finds its task with the features that the sessions before it have computed first. -/
theorem given_of_history (hdirect : ∀ job ∈ jobs, job.services.preprocessor = none)
    {earlier later : List (Report α σ)} {e : Report α σ}
    (h : history jobs task s = earlier ++ e :: later) :
    e.Genuine ∧ e.job ∈ jobs ∧
      e.given = { task with features := task.features.or (computedIn earlier).head? } := by
  induction jobs generalizing task s earlier with
  | nil => simp [history] at h
  | cons job jobs ih =>
      rw [history] at h
      rcases hwatch : job.watch task s with ⟨ending, s', calls⟩
      simp only [hwatch] at h
      cases earlier with
      | nil =>
          obtain ⟨rfl, -⟩ := List.cons.inj h
          refine ⟨⟨s', hwatch⟩, List.mem_cons_self .., ?_⟩
          show task = { task with features := task.features.or none }
          rw [Option.or_none]
      | cons first earlier =>
          obtain ⟨rfl, hrest⟩ := List.cons.inj h
          obtain ⟨hgenuine, hmem, hgiven⟩ :=
            ih (fun job hjob => hdirect job (List.mem_cons_of_mem _ hjob)) hrest
          have hleft := Report.Genuine.left (e := ⟨job, task, s, ending, calls⟩) ⟨s', hwatch⟩
            (hdirect job (List.mem_cons_self ..))
          refine ⟨hgenuine, List.mem_cons_of_mem _ hmem, ?_⟩
          rw [hgiven, show ending.task = _ from hleft]
          simp only [computedIn, List.flatMap_cons, List.head?_append, Option.or_assoc]

theorem computedIn_of_featured (hdirect : ∀ job ∈ jobs, job.services.preprocessor = none)
    {v : FeatureVector α} (hknown : task.features = some v) :
    computedIn (history jobs task s) = [] := by
  refine List.flatMap_eq_nil_iff.mpr fun e he => ?_
  obtain ⟨earlier, later, hlog⟩ := List.append_of_mem he
  obtain ⟨hgenuine, hmem, hgiven⟩ := given_of_history hdirect hlog
  refine hgenuine.computed_eq_nil (hdirect _ hmem) (v := v) ?_
  rw [hgiven, hknown]
  rfl

theorem length_computedIn_le (hdirect : ∀ job ∈ jobs, job.services.preprocessor = none) :
    (computedIn (history jobs task s)).length ≤ 1 := by
  induction jobs generalizing task s with
  | nil => exact Nat.zero_le 1
  | cons job jobs ih =>
      have hothers : ∀ job ∈ jobs, job.services.preprocessor = none :=
        fun job hjob => hdirect job (List.mem_cons_of_mem _ hjob)
      rw [history]
      rcases hwatch : job.watch task s with ⟨ending, s', calls⟩
      have hgenuine : Report.Genuine ⟨job, task, s, ending, calls⟩ := ⟨s', hwatch⟩
      have hleft := hgenuine.left (hdirect job (List.mem_cons_self ..))
      have hle := hgenuine.length_computed_le (hdirect job (List.mem_cons_self ..))
      simp only [computedIn, List.flatMap_cons, List.length_append]
      cases hcomputed : Report.computed ⟨job, task, s, ending, calls⟩ with
      | nil =>
          rw [List.length_nil, Nat.zero_add]
          exact ih hothers
      | cons v vs =>
          -- From here on the task has features, so nothing more is computed.
          obtain ⟨w, hw⟩ : ∃ w, ending.task.features = some w := by
            rw [show ending.task = _ from hleft, hcomputed]
            cases task.features <;> exact ⟨_, rfl⟩
          have hrest := computedIn_of_featured (s := s') hothers hw
          rw [computedIn] at hrest
          rw [hrest, ← hcomputed]
          exact hle

/-- What holds of a session among those before and after it on the same task. -/
structure FeaturedOnce (task : Task α) (earlier : List (Report α σ)) (e : Report α σ)
    (later : List (Report α σ)) : Prop where
  /-- The session finds the features that were computed first. -/
  found : e.given = { task with features := task.features.or (computedIn earlier).head? }
  /-- It leaves them, or what it has computed if there were none. -/
  left : e.ending.task = { e.given with features := e.given.features.or e.computed.head? }
  /-- Only the first session that gets features has computed them. -/
  first : ∀ v ∈ e.computed,
    task.features = none ∧ ∀ e' ∈ earlier, e'.ending.task.features = none
  /-- A session whose provider fails leaves the task without features. -/
  failed : ∀ given error, .features given (.error error) ∈ e.calls →
    e.ending = ⟨.error (.features task.id error), task⟩ ∧ e.ending.task.features = none
  /-- What is computed stays, and nobody is asked again. -/
  remembered : ∀ v ∈ e.computed, e.ending.task.features = some v ∧ ∀ e' ∈ later,
    e'.given = { task with features := some v } ∧ ∀ c ∈ e'.calls, c.isFeatures = false
  /-- The session plans with the features it leaves. -/
  planned : IsBudget e.job.budget → ∀ v, e.ending.task.features = some v →
    PlannedWith e.job.services e.job.settings e.job.strategy e.job.budget e.calls
      { task with features := some v } e.ending
  /-- The ledger of a session that computes nothing never includes a charge for features. -/
  uncharged : e.computed = [] → ∀ made, made <+: e.calls →
    Ledger.ofCalls e.job.settings.featuresFree e.job.budget made =
      Ledger.ofCalls e.job.settings e.job.budget made
  /-- So the session goes as it would if features were free. -/
  unaffected : e.computed = [] →
    e.job.featuresFree.watch e.given e.state = e.job.watch e.given e.state

section report

variable {earlier later : List (Report α σ)} {e : Report α σ}

/-- Nothing was known before features were computed. -/
theorem unknown_before (hdirect : ∀ job ∈ jobs, job.services.preprocessor = none)
    (h : history jobs task s = earlier ++ e :: later) {v : FeatureVector α}
    (hv : v ∈ e.computed) :
    task.features = none ∧ computedIn earlier = [] ∧ e.computed.head? = some v := by
  obtain ⟨hgenuine, hmem, hgiven⟩ := given_of_history hdirect h
  have hjob := hdirect _ hmem
  have hlacked : e.given.features = none := by
    refine Option.eq_none_iff_forall_not_mem.mpr fun w hw => ?_
    rw [hgenuine.computed_eq_nil hjob hw] at hv
    cases hv
  rw [hgiven] at hlacked
  obtain ⟨hnone, hearlier⟩ := Option.or_eq_none_iff.mp hlacked
  refine ⟨hnone, List.head?_eq_none_iff.mp hearlier, ?_⟩
  have hle := hgenuine.length_computed_le hjob
  rcases hcomputed : e.computed with _ | ⟨w, _ | ⟨w', ws⟩⟩
  · rw [hcomputed] at hv
    cases hv
  · rw [hcomputed] at hv
    obtain rfl := List.mem_singleton.mp hv
    rfl
  · rw [hcomputed, List.length_cons, List.length_cons] at hle
    omega

theorem planned_of_history (hdirect : ∀ job ∈ jobs, job.services.preprocessor = none)
    (h : history jobs task s = earlier ++ e :: later) (hbudget : IsBudget e.job.budget)
    {v : FeatureVector α} (hv : e.ending.task.features = some v) :
    PlannedWith e.job.services e.job.settings e.job.strategy e.job.budget e.calls
      { task with features := some v } e.ending := by
  obtain ⟨⟨s', hwatch⟩, hmem, hgiven⟩ := given_of_history hdirect h
  rcases continued_of_run (hdirect _ hmem) hwatch with ⟨hrefused, -, -⟩ | ⟨-, hcontinued⟩
  · exact absurd hbudget hrefused
  · have hplanned := (featureStep_of_continued hcontinued).2 v hv
    rwa [hgiven] at hplanned

/-- Only the first session that gets features has computed them. -/
theorem first_of_history (hdirect : ∀ job ∈ jobs, job.services.preprocessor = none)
    (h : history jobs task s = earlier ++ e :: later) {v : FeatureVector α}
    (hv : v ∈ e.computed) :
    task.features = none ∧ ∀ e' ∈ earlier, e'.ending.task.features = none := by
  obtain ⟨hlacked, hnothing, -⟩ := unknown_before hdirect h hv
  refine ⟨hlacked, fun e' he' => ?_⟩
  obtain ⟨before, between, rfl⟩ := List.append_of_mem he'
  rw [List.append_assoc, List.cons_append] at h
  obtain ⟨hgenuine, hmem, hgiven⟩ := given_of_history hdirect h
  simp only [computedIn, List.flatMap_append, List.flatMap_cons, List.append_eq_nil_iff]
    at hnothing
  rw [hgenuine.left (hdirect _ hmem), hgiven, computedIn, hnothing.1, hnothing.2.1, hlacked]
  rfl

theorem failed_of_history (hdirect : ∀ job ∈ jobs, job.services.preprocessor = none)
    (h : history jobs task s = earlier ++ e :: later) {given : Task α} {error : FeatureError}
    (hcall : .features given (.error error) ∈ e.calls) :
    e.ending = ⟨.error (.features task.id error), task⟩ ∧ e.ending.task.features = none := by
  obtain ⟨hgenuine, hmem, hgiven⟩ := given_of_history hdirect h
  have hasked : ServiceCall.features given (.error error) ∈
      e.calls.filter ServiceCall.isFeatures := List.mem_filter.mpr ⟨hcall, rfl⟩
  obtain ⟨hlacked, hending⟩ := (hgenuine.featureStep (hdirect _ hmem)).failed_of_mem hasked
  have hsame : e.given = task := by
    rw [hgiven] at hlacked ⊢
    obtain ⟨hnone, hnothing⟩ := Option.or_eq_none_iff.mp hlacked
    rw [hnone, hnothing, Option.or_none, ← hnone]
  rw [hsame] at hending hlacked
  rw [hending]
  exact ⟨rfl, hlacked⟩

/-- What is computed stays, and nobody is asked again. -/
theorem remembered_of_history (hdirect : ∀ job ∈ jobs, job.services.preprocessor = none)
    (h : history jobs task s = earlier ++ e :: later) {v : FeatureVector α}
    (hv : v ∈ e.computed) : e.ending.task.features = some v ∧ ∀ e' ∈ later,
      e'.given = { task with features := some v } ∧ ∀ c ∈ e'.calls, c.isFeatures = false := by
  obtain ⟨hgenuine, hmem, hgiven⟩ := given_of_history hdirect h
  obtain ⟨hlacked, hnothing, hfirst⟩ := unknown_before hdirect h hv
  refine ⟨?_, fun e' he' => ?_⟩
  · rw [hgenuine.left (hdirect _ hmem), hgiven, hnothing, hlacked, hfirst]
    rfl
  · obtain ⟨between, after, rfl⟩ := List.append_of_mem he'
    rw [← List.cons_append, ← List.append_assoc] at h
    obtain ⟨hgenuine', hmem', hgiven'⟩ := given_of_history hdirect h
    have hknown : computedIn (earlier ++ e :: between) =
        computedIn earlier ++ (e.computed ++ computedIn between) := by
      simp only [computedIn, List.flatMap_append, List.flatMap_cons]
    rw [hknown, hnothing, hlacked, List.nil_append, List.head?_append, hfirst] at hgiven'
    have hfound : e'.given.features = some v := by
      rw [hgiven']
      rfl
    refine ⟨hgiven', fun c hc => ?_⟩
    have hasked := (hgenuine'.featureStep (hdirect _ hmem')).asked_eq_nil hfound
    exact Bool.eq_false_of_not_eq_true (List.filter_eq_nil_iff.mp hasked c hc)

theorem featuredOnce_of_history (hdirect : ∀ job ∈ jobs, job.services.preprocessor = none)
    (h : history jobs task s = earlier ++ e :: later) : FeaturedOnce task earlier e later := by
  obtain ⟨hgenuine, hmem, hgiven⟩ := given_of_history hdirect h
  exact {
    found := hgiven
    left := hgenuine.left (hdirect _ hmem)
    first := fun _ hv => first_of_history hdirect h hv
    failed := fun _ _ hcall => failed_of_history hdirect h hcall
    remembered := fun _ hv => remembered_of_history hdirect h hv
    planned := fun hbudget _ hv => planned_of_history hdirect h hbudget hv
    uncharged := fun hnone made hmade => by
      refine Ledger.ofCalls_featuresFree _ (List.filterMap_eq_nil_iff.mpr fun c hc => ?_)
      exact List.filterMap_eq_nil_iff.mp hnone c (hmade.subset hc)
    unaffected := fun hnone => by
      obtain ⟨s', hwatch⟩ := hgenuine
      exact (run_featuresFree (hdirect _ hmem) hwatch hnone).trans hwatch.symm }

end report

/-- **Features are computed once.** Run sessions without a preprocessor one after the other on
the same task. Then features are computed at most once, by the first session that gets them. No
other session is charged for them, and each later one plans with the vector that was computed,
however the sessions end. -/
theorem features_computed_once (jobs : List (Job α σ))
    (hdirect : ∀ job ∈ jobs, job.services.preprocessor = none) (task : Task α) (s : σ) :
    (history jobs task s).map Report.ending = runInTurn jobs task s ∧
      (computedIn (history jobs task s)).length ≤ 1 ∧
      ∀ earlier e later, history jobs task s = earlier ++ e :: later →
        FeaturedOnce task earlier e later :=
  ⟨ending_history jobs task s, length_computedIn_le hdirect,
    fun _ _ _ => featuredOnce_of_history hdirect⟩

/-! Three sessions: the provider fails, then the harness, then all goes well. -/

/-- The state is the number of requests so far. -/
def flaky : Services Float Nat where
  run _ _ n :=
    (if n < 3 then .error (.store "unavailable") else .ok ⟨4, .positive none, .exited 0⟩, n + 1)
  features task n :=
    (if n = 0 then .error (.unavailable task.id) else .ok ⟨["time"], [2]⟩, n + 1)
  preprocessor := none

def flakyJobs : List (Job Float Nat) :=
  List.replicate 3 ⟨flaky, ⟨5, true, false⟩, fun _ => .fixed shortRun, 100⟩

set_option maxRecDepth 2000 in
theorem features_computed_once_flaky :
    (∀ job ∈ flakyJobs, job.services.preprocessor = none) ∧
      ∃ first second third, history flakyJobs (.ofPath "t") 0 = [first, second, third] ∧
        first.ending.task.features = none ∧
        second.computed = [⟨["time"], [2]⟩] ∧
        second.ending.result = .error (.harness "t" "a@5s" (.store "unavailable")) ∧
        third.given.features = some ⟨["time"], [2]⟩ ∧
        third.ending.result = .ok ⟨"t", 100, 4, [⟨shortRun, ⟨4, .positive none, .exited 0⟩⟩],
          some (.positive none), none⟩ := by
  have hdirect : ∀ job ∈ flakyJobs, job.services.preprocessor = none := by
    intro job hjob
    obtain rfl := List.eq_of_mem_replicate hjob
    rfl
  refine ⟨hdirect, _, _, _, rfl, rfl, rfl, rfl, ?_, rfl⟩
  obtain ⟨-, -, hsessions⟩ := features_computed_once flakyJobs hdirect (.ofPath "t") 0
  obtain ⟨-, hlater⟩ :=
    (hsessions [_] _ [_] rfl).remembered ⟨["time"], [2]⟩ (List.mem_singleton_self _)
  rw [(hlater _ (List.mem_singleton_self _)).1]

end Session

end SolverPortfolio
