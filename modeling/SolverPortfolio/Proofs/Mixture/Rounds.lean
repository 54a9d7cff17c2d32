import Mathlib.Data.List.Basic
import Mathlib.Data.Nat.Init
import Mathlib.Logic.Function.Iterate
import SolverPortfolio.Mixture
import SolverPortfolio.Proofs.Counts

/-!
# Rounds of a fit

A restart goes through rounds, each of which starts from parameters and responsibilities
(`Mixture.Progress.next`). However many rounds there may be and whenever the score settles, the
mixture a restart ends with is the one it has after some number of rounds
(`Mixture.exists_restart_eq`). Restarts draw from one stream, each from where the one before left
off (`Mixture.restartAt`), and the best of them is one of them (`Mixture.exists_bestRestart_eq`).
So what holds at the start of every restart and is kept by a round holds of what is fitted
(`Mixture.exists_fit_eq`).
-/

namespace SolverPortfolio

open Scalar LogSpace Randomness

namespace Mixture

variable {α : Type} [Analytic α]

/-- Where a restart stands between two rounds. -/
structure Progress (α : Type) where
  model : Mixture α
  responsibilities : List (List α)

namespace Progress

/-- The start of a restart: equal parameters and random responsibilities. -/
def start (family : Family) (training : List Counts) (nactions noutcomes ncomponents : ℕ)
    (stream : Stream) : Progress α where
  model := initial family nactions noutcomes ncomponents
  responsibilities := (stream.takeRows ncomponents training.length).1.map normalizeScores

variable [GammaFunctions α]

/-- One round: parameters from the responsibilities, then responsibilities and score from the
parameters. -/
def next (s : EstimatorSettings α) (training : List Counts) (p : Progress α) : Progress α :=
  let fitted := maximize s p.model training p.responsibilities
  { model := { fitted with trainingLogLikelihood := some (fitted.trainingScore training) }
    responsibilities := fitted.responsibilitiesOf training }

/-- What a round keeps holds after any number of rounds. -/
theorem iterate_next {P : Progress α → Prop} {s : EstimatorSettings α} {training : List Counts}
    (hnext : ∀ p, P p → P (p.next s training)) {p : Progress α} (h : P p) (n : ℕ) :
    P ((next s training)^[n] p) := by
  induction n with
  | zero => exact h
  | succ n ih =>
      rw [Function.iterate_succ_apply']
      exact hnext _ ih

end Progress

variable [GammaFunctions α] {s : EstimatorSettings α} {training : List Counts}

/-- Settling early is stopping after fewer rounds. -/
theorem exists_iterate_eq (rounds : ℕ) (p : Progress α) (previous : α) :
    ∃ n ≤ rounds, iterate s training rounds p.model p.responsibilities previous =
      ((Progress.next s training)^[n] p).model := by
  induction rounds generalizing p previous with
  | zero => exact ⟨0, Nat.le_refl 0, rfl⟩
  | succ rounds ih =>
      simp only [iterate]
      split
      · exact ⟨1, Nat.succ_le_succ (Nat.zero_le _), rfl⟩
      · obtain ⟨n, hn, heq⟩ := ih (p.next s training)
          ((maximize s p.model training p.responsibilities).trainingScore training)
        exact ⟨n + 1, Nat.succ_le_succ hn, heq⟩

section restarts

variable (s : EstimatorSettings α) (training : List Counts) (nactions noutcomes ncomponents : ℕ)

theorem exists_restart_eq (stream : Stream) :
    ∃ n ≤ s.maxIterations,
      (restart s training nactions noutcomes ncomponents stream).1 =
        ((Progress.next s training)^[n]
          (.start s.family training nactions noutcomes ncomponents stream)).model :=
  exists_iterate_eq s.maxIterations
    (.start s.family training nactions noutcomes ncomponents stream) (-infinity)

/-- The mixture that restart number `i` from a stream comes to, with the draws of the restarts
before it taken. -/
def restartAt (stream : Stream) (i : ℕ) : Mixture α :=
  (restart s training nactions noutcomes ncomponents
    ((fun t => (restart s training nactions noutcomes ncomponents t).2)^[i] stream)).1

theorem bestRestart_eq_foldl (n : ℕ) (stream : Stream) (best : Option (Mixture α)) :
    bestRestart s training nactions noutcomes ncomponents n stream best =
      (List.range n).foldl (fun best i =>
        some (better best (restartAt s training nactions noutcomes ncomponents stream i)))
        best := by
  induction n generalizing stream best with
  | zero => rfl
  | succ n ih =>
      rw [List.range_succ_eq_map, List.foldl_cons, List.foldl_map]
      exact ih _ _

/-- With one restart more there is one more mixture to compare. -/
theorem bestRestart_succ (n : ℕ) (stream : Stream) :
    bestRestart s training nactions noutcomes ncomponents (n + 1) stream none =
      some (better (bestRestart s training nactions noutcomes ncomponents n stream none)
        (restartAt s training nactions noutcomes ncomponents stream n)) := by
  rw [bestRestart_eq_foldl, bestRestart_eq_foldl, List.range_succ, List.foldl_concat]

/-- Some restart is the best one. -/
theorem exists_bestRestart_eq {restarts : ℕ} (hrestarts : 0 < restarts) (stream : Stream) :
    ∃ i, bestRestart s training nactions noutcomes ncomponents restarts stream none =
      some (restartAt s training nactions noutcomes ncomponents stream i) := by
  induction restarts, hrestarts using Nat.le_induction with
  | base => exact ⟨0, rfl⟩
  | succ restarts _ ih =>
      obtain ⟨i, hi⟩ := ih
      rw [bestRestart_succ, hi, better]
      split
      · exact ⟨restarts, rfl⟩
      · exact ⟨i, rfl⟩

end restarts

variable {nactions noutcomes : ℕ}

omit [Analytic α] [GammaFunctions α] in
theorem commonShape_eq_ok (hne : training ≠ [])
    (hsized : ∀ c ∈ training, c.IsSized nactions noutcomes) :
    Prediction.commonShape (α := α) training = .ok (nactions, noutcomes) := by
  cases training with
  | nil => exact absurd rfl hne
  | cons first rest =>
      have hfirst := hsized first List.mem_cons_self
      have hnone : ((first :: rest).find? fun c =>
          !(c.checkShape first.nactions first.noutcomes).isOk) = none := by
        refine List.find?_eq_none.mpr fun c hc => ?_
        have hc := hsized c hc
        rw [Counts.checkShape, hc.nactions, hc.noutcomes, hfirst.nactions, hfirst.noutcomes,
          if_pos ⟨rfl, rfl⟩]
        decide
      simp only [Prediction.commonShape]
      rw [hnone, hfirst.nactions, hfirst.noutcomes]

omit [Analytic α] [GammaFunctions α] in
/-- With no rounds there is nothing to add up, and otherwise all row totals are words. -/
theorem canFit_iff : canFit s training nactions = true ↔
    s.maxIterations = 0 ∨ ∀ c ∈ training, ∀ a < nactions, c.total a < UInt32.size := by
  simp only [canFit, Bool.or_eq_true, beq_iff_eq, List.all_eq_true, Counts.hasTotals_iff]

omit [Analytic α] [GammaFunctions α] in
/-- What is fitted has one shape. -/
theorem of_commonShape
    (h : Prediction.commonShape (α := α) training = .ok (nactions, noutcomes)) :
    ∀ c ∈ training, c.nactions = nactions ∧ c.noutcomes = noutcomes := by
  cases training with
  | nil => cases h
  | cons first rest =>
      simp only [Prediction.commonShape] at h
      split at h
      · cases h
      · rename_i hnone
        obtain ⟨rfl, rfl⟩ := Prod.mk.inj (Except.ok.inj h)
        intro c hc
        have hsame := List.find?_eq_none.mp hnone c hc
        rw [Counts.checkShape] at hsame
        split at hsame
        · assumption
        · exact absurd rfl hsame

/-- A fit goes through rounds only if all row totals are words. -/
theorem total_lt_of_fit {e : Randomness.Entropy} {m : Mixture α} (h : fit s e training = .ok m)
    (hrounds : s.maxIterations ≠ 0) {c : Counts} (hc : c ∈ training) {a : ℕ}
    (ha : a < c.nactions) : c.total a < UInt32.size := by
  obtain ⟨⟨nactions, noutcomes⟩, hshape, h⟩ := Decision.bind_eq_ok h
  obtain ⟨rfl, -⟩ := of_commonShape hshape c hc
  by_cases hnothing : (s.components = 0 || s.restarts = 0) = true
  · simp only [if_pos hnothing] at h
    cases h
  · simp only [if_neg hnothing] at h
    obtain ⟨_, hfits, -⟩ := Decision.bind_eq_ok h
    exact (canFit_iff.mp (Decision.of_provided hfits)).resolve_left hrounds c hc a ha

/-- Past the checks of its inputs, a fit adds up the rows of the training tasks, or stops. -/
theorem fit_eq (hne : training ≠ []) (hsized : ∀ c ∈ training, c.IsSized nactions noutcomes)
    (hcomponents : 0 < s.components) (hrestarts : 0 < s.restarts) (e : Randomness.Entropy) :
    fit s e training = if canFit s training nactions = true then
      match bestRestart s training nactions noutcomes (min s.components training.length) s.restarts
          (e.streamFor s.seed) none with
      | none => .error .emptyTraining
      | some m => m.check.map fun _ => m
    else .error .overflow := by
  have hnonempty : ¬(s.components = 0 || s.restarts = 0) = true := by
    simp only [Bool.or_eq_true, decide_eq_true_eq]
    omega
  rw [fit, commonShape_eq_ok hne hsized]
  simp only [bind, Except.bind]
  rw [if_neg hnonempty]
  cases canFit s training nactions with
  | false => rfl
  | true =>
      simp only [Decision.provided_true, if_true]
      cases bestRestart s training nactions noutcomes (min s.components training.length) s.restarts
        (e.streamFor s.seed) none with
      | none => rfl
      | some m => cases m.check <;> rfl

/-- What holds at the start of every restart, is kept by a round and passes the check is what a
fit returns. -/
theorem exists_fit_eq {P : Progress α → Prop} (hne : training ≠ [])
    (hsized : ∀ c ∈ training, c.IsSized nactions noutcomes) (hcomponents : 0 < s.components)
    (hrestarts : 0 < s.restarts) (hfit : canFit s training nactions = true)
    (e : Randomness.Entropy)
    (hstart : ∀ stream, P (.start s.family training nactions noutcomes
      (min s.components training.length) stream))
    (hnext : ∀ p, P p → P (p.next s training)) (hcheck : ∀ p, P p → p.model.check = .ok ()) :
    ∃ p, P p ∧ fit s e training = .ok p.model := by
  obtain ⟨i, hbest⟩ := exists_bestRestart_eq s training nactions noutcomes
    (min s.components training.length) hrestarts (e.streamFor s.seed)
  obtain ⟨stream, hrestart⟩ : ∃ stream, restartAt s training nactions noutcomes
      (min s.components training.length) (e.streamFor s.seed) i =
        (restart s training nactions noutcomes (min s.components training.length) stream).1 :=
    ⟨_, rfl⟩
  obtain ⟨n, -, hround⟩ := exists_restart_eq s training nactions noutcomes
    (min s.components training.length) stream
  have hp := Progress.iterate_next hnext (hstart stream) n
  refine ⟨_, hp, ?_⟩
  rw [hrestart, hround] at hbest
  rw [fit_eq hne hsized hcomponents hrestarts, if_pos hfit, hbest]
  simp only [hcheck _ hp]
  rfl

end Mixture

end SolverPortfolio
