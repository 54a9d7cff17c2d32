import SolverPortfolio.Proofs.Scalar.RoundedDouble
import SolverPortfolio.Proofs.Strategy.Selection
import SolverPortfolio.Session

/-!
# The rounds of a session

`Rounds` says round by round what a loop that ends without an error has done: in every
round but perhaps a last one without action, an action that fits what is left of the budget was
run, and only the last one solved the task. The strategy does not occur in it. All that is
needed of strategies is that an action which passed both of their tests, the one against the
budget and the one for the outcome being that of the pending action, costs at most the budget
(`Strategy.cost_le_of_observe`); it holds of strategies in any state.
-/

namespace SolverPortfolio

open Scalar Rounded

/-! ## What strategies let through -/

section fits

variable {α : Type}

theorem QueuedStep.not_lt_of_fit? [Scalar α] [Rounded α] {q : QueuedStep α} {remaining : α}
    {p : Pending α} (h : q.fit? remaining = some p) : ¬remaining < p.1.cost := by
  obtain ⟨hfits, rfl⟩ := of_fit? h
  cases q.runsToRemaining with
  | true =>
      show ¬remaining < remaining
      rw [lt_iff]
      exact irrefl _
  | false => exact hfits

theorem QueuedStep.TakenFrom.not_lt [Scalar α] [Rounded α] {remaining : α}
    {queue : List (QueuedStep α)} {result : Option (Pending α) × List (QueuedStep α)}
    (h : TakenFrom remaining queue result) {p : Pending α} (hp : result.1 = some p) :
    ¬remaining < p.1.cost := by
  obtain ⟨q, _, hfit⟩ := h.taken p hp
  exact not_lt_of_fit? hfit

variable [Analytic α] [GammaFunctions α] [Rounded α]

namespace Strategy

theorem not_lt_of_choose {s s' : Strategy α} {remaining : α} {p : Pending α}
    (h : s.choose remaining = (s', .ok (some p))) : ¬remaining < p.1.cost := by
  rw [choose] at h
  cases hpolicy : s.policy with
  | modeling m =>
      rw [hpolicy] at h
      rcases hplan : s.replan m remaining with ⟨s₁, e | _⟩
      · simp [hplan] at h
      · simp only [hplan, Prod.mk.injEq, Except.ok.injEq] at h
        exact (QueuedStep.takenFrom_nextFitting remaining s₁.queue).not_lt h.2
  | sequence =>
      simp only [hpolicy, Prod.mk.injEq, Except.ok.injEq] at h
      exact (QueuedStep.takenFrom_frontFitting remaining s.queue).not_lt h.2
  | fixed a =>
      simp only [hpolicy, Prod.mk.injEq, Except.ok.injEq] at h
      by_cases hfits : a.cost ≤ remaining
      · rw [if_pos hfits] at h
        obtain rfl := Option.some.inj h.2
        exact not_lt_of_le hfits
      · simp [if_neg hfits] at h

/-- An action that was just selected is pending, and not over the budget. -/
theorem pending_of_select {s s' : Strategy α} {remaining : α} {a : Action α}
    (h : s.select remaining = (s', .ok (some a))) :
    IsBudget remaining ∧ ¬remaining < a.cost ∧ ∃ index, s'.pending = some (a, index) := by
  by_cases hready : s.phase = .ready
  · by_cases hr : IsBudget remaining
    · rw [select_of_ready hready hr] at h
      rcases hchoose : s.choose remaining with ⟨s₁, e | _ | p⟩
      · rw [hchoose] at h
        cases e <;> cases h
      · rw [hchoose] at h
        cases h
      · simp only [hchoose, unlessStopped, Prod.mk.injEq, Except.ok.injEq, Option.some.injEq] at h
        obtain ⟨rfl, rfl⟩ := h
        exact ⟨hr, not_lt_of_choose hchoose, p.2, rfl⟩
    · simp [select_of_not_isBudget hready hr] at h
  · simp [select, hready] at h

/-- An action that was selected, and whose outcome was taken in, is within the budget. -/
theorem cost_le_of_observe [EqualByValue α] {s s₁ s₂ : Strategy α} {remaining : α}
    {a : Action α} {outcome : Outcome} (hselect : s.select remaining = (s₁, .ok (some a)))
    (hobserve : s₁.observe a outcome = (s₂, .ok ())) : a.cost ≤ remaining := by
  obtain ⟨hr, hfits, index, hp⟩ := pending_of_select hselect
  exact (not_lt_iff_le hr (a.beq_self_iff.mp (beq_of_observe hp hobserve))).mp hfits

end Strategy

end fits

/-! ## Rounds -/

namespace Session

variable {α σ : Type} [Analytic α]

/-- A round that ran an action within what was left of the budget. -/
inductive Attempted (services : Services α σ) (settings : SessionSettings) (task : Task α)
    (l : Ledger α) (s : σ) (a : Attempt α) : Ledger α → σ → Prop
  | intro {l₁ : Ledger α} {s₁ s' : σ}
      (looked : upToDate services settings l s = (l₁, s₁))
      (fits : a.action.cost ≤ l₁.remaining)
      (ran : services.run a.action task s₁ = (.ok a.result, s')) :
      Attempted services settings task l s a (l₁.charge a.result.cost) s'

/-- At most so many rounds that end without an error: the attempts made in them and the
answer. -/
inductive Rounds (services : Services α σ) (settings : SessionSettings) (task : Task α) :
    Nat → Ledger α → σ → List (Attempt α) → Option Outcome → Ledger α → σ → Prop
  | limit (l : Ledger α) (s : σ) : Rounds services settings task 0 l s [] none l s
  | stopped {n : Nat} {l l' : Ledger α} {s s' : σ}
      (looked : upToDate services settings l s = (l', s')) :
      Rounds services settings task (n + 1) l s [] none l' s'
  | solved {n : Nat} {l l' : Ledger α} {s s' : σ} {a : Attempt α}
      (attempted : Attempted services settings task l s a l' s')
      (solves : a.result.outcome.isSolved = true) :
      Rounds services settings task (n + 1) l s [a] (some a.result.outcome) l' s'
  | unsolved {n : Nat} {l l₁ l' : Ledger α} {s s₁ s' : σ} {a : Attempt α}
      {attempts : List (Attempt α)} {answer : Option Outcome}
      (attempted : Attempted services settings task l s a l₁ s₁)
      (fails : a.result.outcome.isSolved = false)
      (rest : Rounds services settings task n l₁ s₁ attempts answer l' s') :
      Rounds services settings task (n + 1) l s (a :: attempts) answer l' s'

variable {services : Services α σ} {settings : SessionSettings} {task : Task α}

section attempts

variable {n : Nat} {l l' : Ledger α} {s s' : σ} {attempts : List (Attempt α)}
  {answer : Option Outcome} (h : Rounds services settings task n l s attempts answer l' s')

include h

theorem Rounds.length_le : attempts.length ≤ n := by
  induction h with
  | limit l s => exact Nat.le_refl 0
  | stopped looked => exact Nat.zero_le _
  | solved attempted solves => exact Nat.succ_le_succ (Nat.zero_le _)
  | unsolved attempted fails rest ih => exact Nat.succ_le_succ ih

/-- Only the last attempt can have solved the task. -/
theorem Rounds.isSolved_of_mem_dropLast :
    ∀ a ∈ attempts.dropLast, a.result.outcome.isSolved = false := by
  induction h with
  | limit l s => exact fun _ ha => (List.not_mem_nil ha).elim
  | stopped looked => exact fun _ ha => (List.not_mem_nil ha).elim
  | solved attempted solves => exact fun _ ha => (List.not_mem_nil ha).elim
  | @unsolved n l l₁ l' s s₁ s' a attempts answer attempted fails rest ih =>
      cases attempts with
      | nil => exact fun _ ha => (List.not_mem_nil ha).elim
      | cons b attempts =>
          rw [List.dropLast_cons_cons]
          intro x hx
          rcases List.mem_cons.mp hx with rfl | hx
          · exact fails
          · exact ih x hx

/-- The answer is the outcome of the last attempt, if that solved the task. -/
theorem Rounds.answer_eq :
    answer = (attempts.getLast?.map fun a => a.result.outcome).filter Outcome.isSolved := by
  induction h with
  | limit l s => rfl
  | stopped looked => rfl
  | solved attempted solves => exact (Option.filter_some_pos solves).symm
  | @unsolved n l l₁ l' s s₁ s' a attempts answer attempted fails rest ih =>
      cases attempts with
      | nil => exact ih.trans (Option.filter_some_neg fails).symm
      | cons b attempts => rw [ih, List.getLast?_cons_cons]

end attempts

/-! ## The loop goes in rounds -/

variable [GammaFunctions α] [Rounded α] [EqualByValue α]

/-- How a round comes out that does not end in an error. -/
theorem playRound_cases {strategy : Strategy α} {l l' : Ledger α} {s s' : σ} {round : Round α}
    (h : playRound services settings task strategy l s = (round, l', s')) :
    (∃ e, round = .ended (.error e)) ∨
    (round = .ended (.ok none) ∧ upToDate services settings l s = (l', s')) ∨
    ∃ a strategy', round = .attempted a strategy' ∧
      Attempted services settings task l s a l' s' := by
  rw [playRound] at h
  rcases hlook : upToDate services settings l s with ⟨l₁, s₁⟩
  simp only [hlook] at h
  by_cases hspent : l₁.remaining ≤ 0
  · rw [if_pos hspent] at h
    obtain ⟨rfl, rfl, rfl⟩ := h
    exact Or.inr (Or.inl ⟨rfl, rfl⟩)
  · rw [if_neg hspent] at h
    rcases hselect : strategy.select l₁.remaining with ⟨strategy₁, e | _ | action⟩
    · simp only [hselect] at h
      obtain ⟨rfl, -⟩ := h
      exact Or.inl ⟨_, rfl⟩
    · simp only [hselect] at h
      obtain ⟨rfl, rfl, rfl⟩ := h
      exact Or.inr (Or.inl ⟨rfl, rfl⟩)
    · simp only [hselect, attempt] at h
      rcases hrun : services.run action task s₁ with ⟨e | result, s₂⟩
      · simp only [hrun] at h
        obtain ⟨rfl, -⟩ := h
        exact Or.inl ⟨_, rfl⟩
      · simp only [hrun] at h
        rcases hobserve : strategy₁.observe action result.outcome with ⟨strategy₂, e | _⟩
        · simp only [hobserve] at h
          obtain ⟨rfl, -⟩ := h
          exact Or.inl ⟨_, rfl⟩
        · simp only [hobserve] at h
          obtain ⟨rfl, rfl, rfl⟩ := h
          have hfits := Strategy.cost_le_of_observe hselect hobserve
          exact Or.inr (Or.inr ⟨⟨action, result⟩, strategy₂, rfl, .intro hlook hfits hrun⟩)

/-- A loop that ends without an error went in rounds. -/
theorem rounds_of_solveLoop (n : Nat) :
    ∀ {strategy : Strategy α} {l : Ledger α} {s s' : σ} {r : LoopResult α}
      {answer : Option Outcome},
      solveLoop services settings task n strategy l s = (r, s') → r.ending = .ok answer →
      Rounds services settings task n l s r.attempts answer r.ledger s' := by
  induction n with
  | zero =>
      intro strategy l s s' r answer h hend
      obtain ⟨rfl, rfl⟩ := h
      obtain rfl := Except.ok.inj hend
      exact .limit l s
  | succ n ih =>
      intro strategy l s s' r answer h hend
      rw [solveLoop] at h
      rcases hround : playRound services settings task strategy l s with ⟨round, l₁, s₁⟩
      rw [hround] at h
      rcases playRound_cases hround with ⟨e, rfl⟩ | ⟨rfl, hlook⟩ | ⟨a, strategy', rfl, ha⟩
      · obtain ⟨rfl, rfl⟩ := h
        cases hend
      · obtain ⟨rfl, rfl⟩ := h
        obtain rfl := Except.ok.inj hend
        exact .stopped hlook
      · cases hsolved : a.result.outcome.isSolved with
        | true =>
            simp only [hsolved, if_true] at h
            obtain ⟨rfl, rfl⟩ := h
            obtain rfl := Except.ok.inj hend
            exact .solved ha hsolved
        | false =>
            simp only [hsolved, Bool.false_eq_true, if_false] at h
            obtain ⟨rfl, rfl⟩ := h
            exact .unsolved ha hsolved (ih rfl hend)

end Session

end SolverPortfolio
