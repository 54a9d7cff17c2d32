import SolverPortfolio.Proofs.RunStore.Answers
import SolverPortfolio.Proofs.Scalar.Exact
import SolverPortfolio.Proofs.Session.Shape

/-!
# What a session costs

In exact arithmetic, and without the session's own time, a ledger is its budget and the sum
of what was charged (`Ledger.untimed`), each cost counting only if it is finite and positive
(`Exact.charged`). The requests of a session are known from its transcript, so its record
costs what preprocessing, features and attempts were charged for.

A harness that keeps to ceilings cannot overspend: every attempt costs at most its ceiling,
which was within what was left (`Rounds.charged_le_remaining`, an induction on the rounds).
A harness that replays recorded runs is one, whatever its store holds. `cost_accounts` is
the headline.
-/

namespace SolverPortfolio

open Scalar

/-! ## Charges -/

namespace Exact

/-- The part of a cost that is charged: nothing unless it is finite and positive. -/
noncomputable def charged (x : Exact) : ℝ := if isPositiveFinite x then x.toReal else 0

theorem charged_of_not {x : Exact} (h : isPositiveFinite x = false) : x.charged = 0 :=
  if_neg (by rw [h]; exact Bool.false_ne_true)

theorem real_charged {x : Exact} (h : isPositiveFinite x = true) : .real x.charged = x := by
  obtain ⟨v, _, rfl⟩ := eq_real_of_isPositiveFinite h
  exact congrArg real (if_pos h)

theorem not_isPositiveFinite_zero : isPositiveFinite (0 : Exact) = false := by
  simp [isPositiveFinite]

end Exact

/-- Features name a cost that is charged as it is. -/
theorem FeatureVector.real_charged_cost (v : FeatureVector Exact) :
    .real v.cost.charged = v.cost := by
  have hzero : Exact.real (0 : Exact).charged = 0 := by
    rw [Exact.charged_of_not Exact.not_isPositiveFinite_zero, Exact.zero_eq]
  rw [cost]
  cases v.values with
  | nil => exact hzero
  | cons c values =>
      simp only
      split
      · rename_i hc
        exact Exact.real_charged hc
      · exact hzero

/-- The features a call has computed. -/
def ServiceCall.computed? {α : Type} : ServiceCall α → Option (FeatureVector α)
  | .features _ (.ok v) => some v
  | _ => none

/-- What is charged for a call. -/
noncomputable def ServiceCall.charge (settings : SessionSettings) (c : ServiceCall Exact) : ℝ :=
  (c.cost? settings).elim 0 Exact.charged

namespace Ledger

/-- The ledger of a session that does not charge its own time. -/
noncomputable def untimed (budget : Exact) (spent : ℝ) : Ledger Exact :=
  ⟨budget, .real spent, none, .real 0⟩

variable {budget : Exact} {x : ℝ} {settings : SessionSettings}

theorem elapsed_untimed : (untimed budget x).elapsed = .real x := by
  show Exact.real x + Exact.real 0 = _
  rw [Exact.real_add, add_zero]

theorem remaining_untimed : (untimed budget x).remaining = Scalar.max (budget - .real x) 0 := by
  rw [remaining, elapsed_untimed]
  rfl

theorem charge_untimed (c : Exact) :
    (untimed budget x).charge c = untimed budget (x + c.charged) := by
  cases hc : isPositiveFinite c with
  | true =>
      rw [charge, if_pos hc]
      show (⟨budget, .real x + c, none, .real 0⟩ : Ledger Exact) = untimed budget (x + c.charged)
      rw [untimed, ← Exact.real_add, Exact.real_charged hc]
  | false =>
      rw [charge, if_neg (by rw [hc]; exact Bool.false_ne_true), Exact.charged_of_not hc, add_zero]

theorem after_untimed {c : ServiceCall Exact} (hc : c.isRequest = true) :
    (untimed budget x).after settings c = untimed budget (x + c.charge settings) := by
  rw [after_request hc, ServiceCall.charge]
  cases c.cost? settings with
  | none => exact congrArg (untimed budget) (add_zero x).symm
  | some cost => exact charge_untimed cost

theorem foldl_after_untimed {calls : List (ServiceCall Exact)}
    (hcalls : ∀ c ∈ calls, c.isRequest = true) :
    calls.foldl (after settings) (untimed budget x) =
      untimed budget (x + (calls.map (ServiceCall.charge settings)).sum) := by
  induction calls generalizing x with
  | nil => exact congrArg (untimed budget) (add_zero x).symm
  | cons c calls ih =>
      rw [List.foldl_cons, after_untimed (hcalls c (List.mem_cons_self ..)),
        ih fun c hc => hcalls c (List.mem_cons_of_mem _ hc), List.map_cons, List.sum_cons,
        add_assoc]

theorem ofCalls_untimed {calls : List (ServiceCall Exact)}
    (hcalls : ∀ c ∈ calls, c.isRequest = true) :
    ofCalls settings budget calls =
      untimed budget (calls.map (ServiceCall.charge settings)).sum := by
  have hstart : start budget none = untimed budget 0 := by
    rw [start, Exact.zero_eq]
    rfl
  have hfold : ofCalls settings budget calls =
      calls.foldl (after settings) (.start budget none) := by
    cases calls with
    | nil => rfl
    | cons c calls =>
        cases c with
        | clock now => cases hcalls _ (List.mem_cons_self ..)
        | _ => rfl
  rw [hfold, hstart, foldl_after_untimed hcalls, zero_add]

/-! ## What is left -/

/-- What is left of a budget that is a number, infinite, or neither. -/
theorem remaining_untimed_cases (budget : Exact) :
    (∃ b, ∀ x, (untimed budget x).remaining = .real (max (b - x) 0)) ∨
      (∀ x, (untimed budget x).remaining = .posInf) ∨
      ∀ x, (untimed budget x).remaining = .real 0 := by
  cases budget with
  | real b =>
      refine Or.inl ⟨b, fun x => ?_⟩
      rw [remaining_untimed, Exact.real_sub, Exact.zero_eq, Exact.max_real]
  | posInf =>
      refine Or.inr (Or.inl fun x => ?_)
      rw [remaining_untimed]
      exact (if_neg Bool.false_ne_true).trans (if_neg (Exact.not_posInf_lt 0))
  | negInf =>
      refine Or.inr (Or.inr fun x => ?_)
      have hlt : Exact.negInf < 0 := by
        rw [Exact.zero_eq]
        exact ⟨by simp, by simp, EReal.bot_lt_coe 0⟩
      rw [remaining_untimed, ← Exact.zero_eq]
      exact (if_neg Bool.false_ne_true).trans (if_pos hlt)
  | nan =>
      refine Or.inr (Or.inr fun x => ?_)
      rw [remaining_untimed, ← Exact.zero_eq]
      exact if_pos rfl

theorem remaining_untimed_nonneg (budget : Exact) (x : ℝ) :
    .real 0 ≤ (untimed budget x).remaining := by
  rcases remaining_untimed_cases budget with ⟨b, h⟩ | h | h
  · rw [h, Exact.real_le]
    exact le_max_right _ _
  · rw [h]
    exact Exact.real_le_posInf 0
  · rw [h, Exact.real_le]

/-- Two charges that fit one after the other fit together. -/
theorem add_le_remaining_untimed {c y : ℝ} (hc : .real c ≤ (untimed budget x).remaining)
    (hy : .real y ≤ (untimed budget (x + c)).remaining) :
    .real (c + y) ≤ (untimed budget x).remaining := by
  rcases remaining_untimed_cases budget with ⟨b, h⟩ | h | h
  · rw [h, Exact.real_le] at hc hy ⊢
    rcases le_max_iff.mp hy with hy | hy
    · exact le_max_of_le_left (by linarith)
    · exact (add_le_of_nonpos_right hy).trans hc
  · rw [h]
    exact Exact.real_le_posInf _
  · rw [h, Exact.real_le] at hc hy ⊢
    exact add_nonpos hc hy

end Ledger

/-! ## Harnesses that keep to ceilings -/

theorem Exact.charged_le {x y : Exact} (hx : x ≤ y) (hy : .real 0 ≤ y) : .real x.charged ≤ y := by
  cases hpos : isPositiveFinite x with
  | true => rwa [real_charged hpos]
  | false => rwa [charged_of_not hpos]

namespace Session

variable {σ : Type} {services : Services Exact σ} {settings : SessionSettings}
  {task : Task Exact} {budget : Exact}

/-- A run that succeeds costs no more than the ceiling of its action, if that is a
number. -/
def KeepsCeilings (services : Services Exact σ) : Prop :=
  ∀ action task s result s', action.cost ≠ .nan →
    services.run action task s = (.ok result, s') → result.cost ≤ action.cost

theorem keepsCeilings_of_replay {store : RunStore Exact} (h : services.run = store.harness) :
    KeepsCeilings services.traced := by
  intro action task t result t' hnan hrun
  have hreply : store.replay action task.id = .ok result := by
    have hfst := congrArg Prod.fst hrun
    simp only [Services.traced, Service.noting, h, RunStore.harness] at hfst
    exact hfst
  rw [RunStore.replay] at hreply
  cases hlookup : store.lookup task.id action.solver action.cost with
  | none => simp [hlookup] at hreply
  | some run =>
      simp only [hlookup] at hreply
      obtain rfl := Except.ok.inj hreply
      exact run.cost_under_le (Rounded.isNaN_eq_false_iff.mpr hnan)

/-- The charges for attempts. -/
noncomputable def attemptCharges (attempts : List (Attempt Exact)) : ℝ :=
  (attempts.map fun a => a.result.cost.charged).sum

variable (hcpu : settings.chargeOverhead = false)

include hcpu

theorem Attempted.charged_le (hkeeps : KeepsCeilings services) {l' : Ledger Exact} {s s' : σ}
    {a : Attempt Exact} {x : ℝ}
    (h : Attempted services settings task (.untimed budget x) s a l' s') :
    .real a.result.cost.charged ≤ (Ledger.untimed budget x).remaining ∧
      l' = .untimed budget (x + a.result.cost.charged) := by
  obtain ⟨looked, fits, ran⟩ := h
  rw [upToDate, if_neg (by rw [hcpu]; exact Bool.false_ne_true)] at looked
  obtain ⟨rfl, rfl⟩ := looked
  have hcost : a.result.cost ≤ (Ledger.untimed budget x).remaining :=
    Exact.le_trans (hkeeps _ _ _ _ _ fits.1 ran) fits
  exact ⟨Exact.charged_le hcost (Ledger.remaining_untimed_nonneg budget x),
    Ledger.charge_untimed a.result.cost⟩

/-- The attempts of a loop are charged no more than was left when it began. -/
theorem Rounds.charged_le_remaining (hkeeps : KeepsCeilings services) {n : ℕ}
    {l l' : Ledger Exact} {s s' : σ} {attempts : List (Attempt Exact)} {answer : Option Outcome}
    (h : Rounds services settings task n l s attempts answer l' s') :
    ∀ {x : ℝ}, l = .untimed budget x →
      .real (attemptCharges attempts) ≤ (Ledger.untimed budget x).remaining := by
  induction h with
  | limit l s => exact fun _ => Ledger.remaining_untimed_nonneg budget _
  | stopped looked => exact fun _ => Ledger.remaining_untimed_nonneg budget _
  | solved attempted solves =>
      rintro x rfl
      obtain ⟨hle, _⟩ := attempted.charged_le hcpu hkeeps
      rwa [attemptCharges, List.map_singleton, List.sum_singleton]
  | unsolved attempted fails rest ih =>
      rintro x rfl
      obtain ⟨hle, hl⟩ := attempted.charged_le hcpu hkeeps
      rw [attemptCharges, List.map_cons, List.sum_cons]
      exact Ledger.add_le_remaining_untimed hle (ih hl)

/-- Without readings of the clock, calls are requests and the ledger is what they are
charged. -/
theorem Audit.ledger_untimed {base calls requests : List (ServiceCall Exact)} {l : Ledger Exact}
    (h : Audit settings budget base l calls requests) :
    calls = requests ∧
      l = .untimed budget (requests.map (ServiceCall.charge settings)).sum := by
  have hcalls : calls = requests := h.untimed hcpu
  have hrequests : ∀ c ∈ calls, c.isRequest = true :=
    List.filter_eq_self.mp (h.asked.trans hcalls.symm)
  exact ⟨hcalls, by rw [h.ledger, Ledger.ofCalls_untimed hrequests, hcalls]⟩

omit hcpu

/-! ## Charges of requests -/

/-- The charge for preprocessing. -/
noncomputable def preprocessingCharge (record : SessionRecord Exact) : ℝ :=
  (record.preprocessing.map fun p => p.cost.charged).getD 0

/-- The cost of the features that were computed, if settings charge it. -/
noncomputable def featureCharge (settings : SessionSettings)
    (calls : List (ServiceCall Exact)) : ℝ :=
  if settings.chargeFeatures then
    ((calls.filterMap ServiceCall.computed?).map fun v => v.cost.toReal).sum
  else 0

section requests

variable {given loopTask : Task Exact} {handed : Option (Handed Exact)}
  {computed : Option (FeatureVector Exact)} {answer final : Option Outcome}
  {extension : List (ServiceCall Exact)}

theorem computed_openingCalls :
    (openingCalls task given handed computed).filterMap ServiceCall.computed? =
      computed.toList := by
  cases handed <;> cases computed <;> rfl

/-- Features are computed before the loop only. -/
theorem computed_requests (attempts : List (Attempt Exact))
    (h : Extension loopTask answer final extension) :
    (openingCalls task given handed computed ++ attempts.map (Attempt.call loopTask) ++
      extension).filterMap ServiceCall.computed? = computed.toList := by
  have hattempts :
      (attempts.map (Attempt.call loopTask)).filterMap ServiceCall.computed? = [] := by
    refine List.filterMap_eq_nil_iff.mpr fun c hc => ?_
    obtain ⟨a, _, rfl⟩ := List.mem_map.mp hc
    rfl
  have hextension : extension.filterMap ServiceCall.computed? = [] := by cases h <;> rfl
  rw [List.filterMap_append, List.filterMap_append, computed_openingCalls, hattempts, hextension,
    List.append_nil, List.append_nil]

theorem preprocessingCharge_of_handed {record : SessionRecord Exact}
    (h : record.preprocessing = handed.map Handed.summary) :
    preprocessingCharge record = (handed.map fun h => h.reply.cost.charged).getD 0 := by
  rw [preprocessingCharge, h]
  cases handed <;> rfl

theorem sum_openingCalls :
    ((openingCalls task given handed computed).map (ServiceCall.charge settings)).sum =
      (handed.map fun h => h.reply.cost.charged).getD 0 +
        if settings.chargeFeatures then (computed.toList.map fun v => v.cost.toReal).sum
        else 0 := by
  have hhanded : ((handed.toList.map (Handed.call task)).map (ServiceCall.charge settings)).sum =
      (handed.map fun h => h.reply.cost.charged).getD 0 := by
    cases handed with
    | none => rfl
    | some h => exact add_zero _
  have hcost : ∀ v : FeatureVector Exact, v.cost.charged = v.cost.toReal := fun v =>
    congrArg Exact.toReal v.real_charged_cost
  rw [openingCalls, List.map_append, List.sum_append, hhanded]
  cases computed <;> cases hcharge : settings.chargeFeatures <;>
    simp [ServiceCall.charge, ServiceCall.cost?, hcharge, hcost]

theorem sum_requests (attempts : List (Attempt Exact))
    (h : Extension loopTask answer final extension) :
    ((openingCalls task given handed computed ++ attempts.map (Attempt.call loopTask) ++
        extension).map (ServiceCall.charge settings)).sum =
      ((openingCalls task given handed computed).map (ServiceCall.charge settings)).sum +
        attemptCharges attempts := by
  have hextension : (extension.map (ServiceCall.charge settings)).sum = 0 := by
    cases h with
    | kept answer => rfl
    | extended positive => exact add_zero 0
  have hattempts : ((attempts.map (Attempt.call loopTask)).map (ServiceCall.charge settings)).sum =
      attemptCharges attempts := by
    rw [List.map_map]
    rfl
  rw [List.map_append, List.map_append, List.sum_append, List.sum_append, hattempts, hextension,
    add_zero]

end requests

/-! ## The cost of a session -/

section record

variable [GammaFunctions Exact] {strategy : Task Exact → Strategy Exact} {s : σ}
  {record : SessionRecord Exact}

/-- **The accounts of a session.** A session that does not charge its own time costs what
preprocessing, the features it computed and its attempts are charged. If its harness replays
recorded runs, the attempts are charged no more than preprocessing and features have left of
the budget. -/
theorem cost_accounts (hcpu : settings.chargeOverhead = false)
    (hrun : (run services settings strategy task budget s).1.result = .ok record) :
    ∃ calls,
      run services.traced settings strategy task budget (s, []) =
        ((run services settings strategy task budget s).1,
          (run services settings strategy task budget s).2, calls) ∧
      (calls.filterMap ServiceCall.computed?).length ≤ 1 ∧
      record.cost = .real (preprocessingCharge record + featureCharge settings calls +
        attemptCharges record.attempts) ∧
      ∀ store : RunStore Exact, services.run = store.harness →
        .real (attemptCharges record.attempts) ≤
          Scalar.max (budget - .real (preprocessingCharge record + featureCharge settings calls))
            0 := by
  obtain ⟨calls, hwatched, htranscript⟩ := transcript_of_record hrun
  refine ⟨calls, hwatched, ?_⟩
  cases htranscript with
  | @direct handed l _ solves closing =>
      obtain ⟨rfl, rfl⟩ := closing.ledger_untimed hcpu
      have hfeatures : featureCharge settings [handed.call task] = 0 := by
        rw [featureCharge]
        split <;> rfl
      refine ⟨Nat.zero_le 1, ?_, fun store _ => ?_⟩
      · rw [Ledger.elapsed_untimed, hfeatures, add_zero]
        rfl
      · rw [← Ledger.remaining_untimed]
        exact Ledger.remaining_untimed_nonneg budget _
  | @looped handed computed given loopTask l₀ l t₀ t₁ r answer final extension _ opening looped
      ended extended closing =>
      obtain ⟨rfl, rfl⟩ := closing.ledger_untimed hcpu
      obtain ⟨-, hl₀⟩ := opening.ledger_untimed hcpu
      have hcomputed : (openingCalls task given handed computed ++
          r.attempts.map (Attempt.call loopTask) ++ extension).filterMap
            ServiceCall.computed? = computed.toList :=
        computed_requests r.attempts extended
      refine ⟨?_, ?_, fun store hstore => ?_⟩
      · rw [hcomputed]
        cases computed <;> simp
      · rw [Ledger.elapsed_untimed, sum_requests r.attempts extended, sum_openingCalls,
          featureCharge, hcomputed, preprocessingCharge_of_handed rfl]
      · have hrounds := rounds_of_solveLoop _ looped ended
        rw [featureCharge, hcomputed, preprocessingCharge_of_handed rfl, ← sum_openingCalls,
          ← Ledger.remaining_untimed]
        exact hrounds.charged_le_remaining hcpu (keepsCeilings_of_replay hstore) hl₀

end record

/-! A session that preprocesses in vain, computes features and replays one run. -/

noncomputable def boundedRun : Action Exact := ⟨"a", .real 12, "a@12s"⟩

noncomputable def recordedRun : RecordedRun Exact := ⟨"t", "a", .posInf, .real 3, .positive none⟩

noncomputable def solvedAttempt : Attempt Exact :=
  ⟨boundedRun, ⟨.real 3, .positive none, .recycled⟩⟩

/-- A preprocessor that finds nothing to simplify. -/
noncomputable def unhelpful : Preprocessor Exact Unit where
  name := "simplify"
  preprocess _ _ s := (.ok ⟨.real 1, none, none⟩, s)
  extend _ answer s := (.ok answer, s)

noncomputable def replaying : Services Exact Unit where
  run := (RunStore.ofRuns [recordedRun]).harness
  features _ s := (.ok ⟨["time"], [.real 1]⟩, s)
  preprocessor := some unhelpful

noncomputable def replayed : SessionRecord Exact where
  taskId := "t"
  budget := .real 20
  cost := .real 5
  attempts := [solvedAttempt]
  answer := some (.positive none)
  preprocessing := some ⟨"simplify", .real 1, false, none⟩

theorem replay_recordedRun :
    (RunStore.ofRuns [recordedRun]).replay boundedRun "t" = .ok solvedAttempt.result := by
  have htask : (recordedRun.taskId == "t") = true := rfl
  have hserves : RunStore.serves boundedRun.solver boundedRun.cost recordedRun = true :=
    decide_eq_true (Exact.real_le_posInf _)
  have hlookup : (RunStore.ofRuns [recordedRun]).lookup "t" boundedRun.solver boundedRun.cost =
      some recordedRun := by
    rw [RunStore.lookup, RunStore.runsForTask, RunStore.ofRuns, List.filter_singleton, htask,
      cond_true, List.filter_singleton, hserves]
    rfl
  rw [RunStore.replay, hlookup]
  exact congrArg Except.ok (if_pos ((Exact.real_le 3 12).mpr (by norm_num)))

theorem charge_twenty (x : ℝ) {c : ℝ} (hc : 0 < c) :
    (Ledger.untimed (.real 20) x).charge (.real c) = .untimed (.real 20) (x + c) := by
  have hpos : isPositiveFinite (Exact.real c) = true := by simpa [isPositiveFinite] using hc
  rw [Ledger.charge_untimed, Exact.charged, if_pos hpos]
  rfl

theorem playRound_replaying {task : Task Exact} (htask : task.id = "t") :
    playRound replaying ⟨1, true, false⟩ task (.fixed boundedRun) (.untimed (.real 20) (1 + 1)) () =
      (.attempted solvedAttempt (.fixed boundedRun), .untimed (.real 20) 5, ()) := by
  have hremaining : (Ledger.untimed (.real 20) (1 + 1)).remaining = .real 18 := by
    rw [Ledger.remaining_untimed, Exact.real_sub, Exact.zero_eq, Exact.max_real]
    norm_num
  have hleft : ¬Exact.real 18 ≤ 0 := by simp
  have hselect : (Strategy.fixed boundedRun).select (.real 18) =
      ({ Strategy.fixed boundedRun with
          pending := some (boundedRun, none), phase := .awaitingOutcome },
        .ok (some boundedRun)) := by
    have hfits : boundedRun.cost ≤ .real 18 := (Exact.real_le 12 18).mpr (by norm_num)
    simp [Strategy.select, Strategy.fixed, Strategy.ofPolicy, Strategy.choose,
      Strategy.unlessStopped, hfits]
  have hrun : replaying.run boundedRun task () = (.ok solvedAttempt.result, ()) := by
    show ((RunStore.ofRuns [recordedRun]).replay boundedRun task.id, ()) = _
    rw [htask, replay_recordedRun]
  have hcharge : (Ledger.untimed (.real 20) (1 + 1)).charge solvedAttempt.result.cost =
      .untimed (.real 20) 5 :=
    (charge_twenty (1 + 1) three_pos).trans (congrArg _ (by norm_num))
  have hself : (boundedRun == boundedRun) = true := by
    rw [Action.beq_self_iff]
    rfl
  simp only [playRound, upToDate, Bool.false_eq_true, if_false, hremaining, hleft, hselect,
    attempt, hrun, hcharge]
  simp [Strategy.observe, Strategy.unlessStopped, hself, Strategy.absorb, Strategy.fixed,
    Strategy.ofPolicy, solvedAttempt]

theorem run_replaying :
    (run replaying ⟨1, true, false⟩ (fun _ => .fixed boundedRun) (.ofPath "t") (.real 20)
      ()).1.result = .ok replayed := by
  have hbudget : ¬Exact.real 20 < 0 := by simp
  have hopen : Ledger.start (.real 20) none = Ledger.untimed (.real 20) 0 := by
    rw [Ledger.start, Exact.zero_eq]
    rfl
  have hpreprocessor : replaying.preprocessor = some unhelpful := rfl
  have hfeatures : replaying.features ⟨"t", "t", none⟩ () = (.ok ⟨["time"], [.real 1]⟩, ()) := rfl
  have hcost : (⟨["time"], [.real 1]⟩ : FeatureVector Exact).cost = .real 1 := by
    simp [FeatureVector.cost, isPositiveFinite]
  have hloop : solveLoop replaying ⟨1, true, false⟩ ⟨"t", "t", some ⟨["time"], [.real 1]⟩⟩ 1
      (.fixed boundedRun) (.untimed (.real 20) (1 + 1)) () =
        (⟨[solvedAttempt], .untimed (.real 20) 5, .ok (some (.positive none))⟩, ()) := by
    rw [solveLoop, playRound_replaying rfl]
    rfl
  simp only [run, Exact.isNaN_real, hbudget, decide_false, Bool.or_self, Bool.false_eq_true,
    if_false, openLedger, hopen, hpreprocessor, runPreprocessed, upToDate, unhelpful, summaryOf,
    Option.any_none, charge_twenty 0 one_pos, runDirect, solveTask, ensureFeatures, Task.ofPath,
    hfeatures, hcost, if_true, zero_add, charge_twenty 1 one_pos, hloop, conclude,
    Ledger.elapsed_untimed]
  rfl

theorem cost_accounts_replaying :
    (run replaying ⟨1, true, false⟩ (fun _ => .fixed boundedRun) (.ofPath "t") (.real 20)
        ()).1.result = .ok replayed ∧
      ∃ calls,
        (run replaying.traced ⟨1, true, false⟩ (fun _ => .fixed boundedRun) (.ofPath "t")
          (.real 20) ((), [])).2.2 = calls ∧
        replayed.cost = .real (preprocessingCharge replayed +
          featureCharge ⟨1, true, false⟩ calls + attemptCharges replayed.attempts) ∧
        Exact.real (attemptCharges replayed.attempts) ≤
          Scalar.max (.real 20 - Exact.real
            (preprocessingCharge replayed + featureCharge ⟨1, true, false⟩ calls)) 0 := by
  obtain ⟨calls, hwatched, -, hcost, hbound⟩ := cost_accounts rfl run_replaying
  exact ⟨run_replaying, calls, by rw [hwatched], hcost, hbound _ rfl⟩

end Session

end SolverPortfolio
