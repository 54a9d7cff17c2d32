import SolverPortfolio.Proofs.Classifier
import SolverPortfolio.Proofs.Mixture.Rounds

/-!
# Actions that were never run

Whether an action was run at all is read off the total of its row. The total is the number of
observations that were ever put in for the action (`Counts.Built.total_eq`), so it is zero for the
rows without outcomes and for no others. As it is added up it is a word, and the library stops
where it is not: likelihoods, concentrations, the samples of a classifier and the truth of an
oracle leave out exactly the rows without outcomes, wherever they get past the totals
(`Counts.left_out_iff_never_run`).
-/

namespace SolverPortfolio

open LogSpace

namespace Counts

/-! ## Arrays as they come about -/

/-- Count arrays with the number of observations that were put in for each action: rows of words
or zeros to begin with, then one more in a cell with room for it, over and over. The cell belongs
to the row that its place is in. -/
inductive Built : Counts → (ℕ → ℕ) → Prop
  | ofRows {rows : List (List UInt32)} {c : Counts} (h : ofRows rows = .ok c) :
      Built c fun a => ((rows.getD a []).map UInt32.toNat).sum
  | zeros (nactions noutcomes : ℕ) : Built (zeros nactions noutcomes) fun _ => 0
  | increment {c c' : Counts} {made : ℕ → ℕ} (h : Built c made) {a d : ℕ}
      (hlt : c.place a d < c.cells.length) (hone : c.increment a d = some c') :
      Built c' (Function.update made (c.place a d / c.noutcomes)
        (made (c.place a d / c.noutcomes) + 1))

theorem eq_of_ofRows {rows : List (List UInt32)} {c : Counts} (h : ofRows rows = .ok c) :
    ∃ k, (∀ r ∈ rows, r.length = k) ∧ c = ⟨rows.length, k, rows.flatten⟩ := by
  simp only [ofRows] at h
  split at h
  · cases h
  · rename_i hnone
    refine ⟨_, fun r hr => ?_, (Except.ok.inj h).symm⟩
    simpa using List.find?_eq_none.mp hnone r hr

/-- A cell is the cell of a row and a column. -/
theorem place_place (c : Counts) (a d : ℕ) :
    c.place (c.place a d / c.noutcomes) (c.place a d % c.noutcomes) = c.place a d := by
  rw [place, Nat.div_add_mod']

theorem total_zeros (n k a : ℕ) : (zeros n k).total a = 0 :=
  total_of_isZero (List.all_eq_true.mpr fun _ hu => beq_iff_eq.mpr (List.eq_of_mem_replicate hu)) a

namespace Built

variable {c : Counts} {made : ℕ → ℕ}

theorem isSized (h : c.Built made) : c.IsSized c.nactions c.noutcomes := by
  induction h with
  | ofRows h =>
      obtain ⟨k, hk, rfl⟩ := eq_of_ofRows h
      exact ⟨rfl, rfl, length_flatten_of_rows hk⟩
  | zeros n k => exact ⟨rfl, rfl, List.length_replicate⟩
  | increment h hlt hone ih =>
      obtain ⟨-, rfl⟩ := increment_eq_some_iff.mp hone
      exact ih.bump _ _

/-- The total of a row is the number of observations that were put in. -/
theorem total_eq (h : c.Built made) {b : ℕ} (hb : b < c.nactions) : c.total b = made b := by
  induction h with
  | @ofRows rows c h =>
      obtain ⟨k, hk, rfl⟩ := eq_of_ofRows h
      have hget : rows.getD b [] = rows[b] := List.getD_eq_getElem _ _ hb
      simp only [total_eq_sum, row, row_flatten hk hb, hget]
  | zeros n k => exact total_zeros n k b
  | @increment c c' made h a d hlt hone ih =>
      -- The cell is taken by its row and column; the totals of the other rows stay.
      obtain ⟨hroom, rfl⟩ := increment_eq_some_iff.mp hone
      have hsized := h.isSized
      have hrow : c.place a d / c.noutcomes < c.nactions :=
        Nat.div_lt_of_lt_mul (by rwa [Nat.mul_comm, ← hsized.length])
      have hcolumn : c.place a d % c.noutcomes < c.noutcomes := by
        refine Nat.mod_lt _ (Nat.pos_of_ne_zero fun hzero => ?_)
        rw [hsized.length, hzero, Nat.mul_zero] at hlt
        exact Nat.not_lt_zero _ hlt
      have hbump : c.bump a d =
          c.bump (c.place a d / c.noutcomes) (c.place a d % c.noutcomes) := by
        rw [bump, bump, place_place]
      have hroom' : c.hasRoom (c.place a d / c.noutcomes) (c.place a d % c.noutcomes) = true := by
        rwa [hasRoom, get, place_place]
      rw [hbump]
      by_cases hself : b = c.place a d / c.noutcomes
      · subst hself
        rw [hsized.total_bump_self hrow hcolumn hroom', ih hrow, Function.update_self]
      · rw [hsized.total_bump hrow hcolumn hb hself, ih hb, Function.update_of_ne hself]

end Built

/-- A total as it is added up is the number of observations, above zero for the rows with
outcomes. -/
theorem of_total?_eq_some {c : Counts} {a : ℕ} {t : UInt32} (h : c.total? a = some t) :
    t.toNat = ((c.row a).map UInt32.toNat).sum ∧ (0 < t ↔ c.HasOutcomes a) := by
  rw [total?_eq] at h
  split at h
  · rename_i hfits
    obtain rfl := Option.some.inj h
    have htoNat : (UInt32.ofNat (c.total a)).toNat = c.total a := UInt32.toNat_ofNat_of_lt' hfits
    refine ⟨htoNat.trans (total_eq_sum c a), ?_⟩
    rw [hasOutcomes_iff, UInt32.lt_iff_toNat_lt, htoNat]
    exact Nat.pos_iff_ne_zero
  · cases h

/-! ## What is left out -/

/-- An action that is expected to stay unsolved. -/
def unsolvedRow {α : Type} [Scalar α] (noutcomes : ℕ) : List α :=
  (List.range noutcomes).map fun d => if d = OutcomeKind.unsolved.index then 1 else 0

section

variable {α : Type} [Analytic α]

theorem truthRow_eq (c : Counts) (a : ℕ) : Model.truthRow (α := α) c a =
    if c.HasOutcomes a then (c.row a).map ofCount else unsolvedRow c.noutcomes := by
  have htotal : (c.total a == 0) = !decide (c.HasOutcomes a) := by
    rw [← total_bne_zero, bne, Bool.not_not]
  rw [Model.truthRow, htotal]
  by_cases hseen : c.HasOutcomes a
  · rw [if_pos hseen, decide_eq_true hseen]
    rfl
  · rw [if_neg hseen, decide_eq_false hseen]
    rfl

/-- The row of an action in the table of an oracle. -/
theorem IsSized.row_truthTable {c : Counts} (h : c.IsSized c.nactions c.noutcomes) {a : ℕ}
    (ha : a < c.nactions) : (Model.truthTable (α := α) c).row a =
      normalizeScores (if c.HasOutcomes a then (c.row a).map ofCount
        else unsolvedRow c.noutcomes) := by
  have hlength : ∀ r ∈ (List.range c.nactions).map (Model.truthRow (α := α) c),
      r.length = c.noutcomes := by
    intro r hr
    obtain ⟨b, hb, rfl⟩ := List.mem_map.mp hr
    rw [truthRow_eq]
    split
    · rw [List.length_map, h.row_eq (List.mem_range.mp hb), List.length_map, List.length_range]
    · rw [unsolvedRow, List.length_map, List.length_range]
  rw [Model.truthTable, Prediction.row_ofScores (by rwa [List.length_map, List.length_range])
    hlength, List.getElem_map, List.getElem_range, truthRow_eq]

end

/-! ## Who gets past the totals -/

section

variable {α : Type} [Analytic α] {c : Counts} {a : ℕ}

theorem total_lt_of_fit_classifier {s : EstimatorSettings α} {training : List Counts}
    {features : List (FeatureVector α)} {k : Classifier α}
    (h : Classifier.fit s training features = .ok k) (hc : c ∈ training) (ha : a < c.nactions) :
    c.total a < UInt32.size := by
  obtain ⟨-, -, -, hpooled, htotals, -⟩ := Classifier.fit_eq_ok_iff.mp h
  obtain ⟨⟨nactions, noutcomes⟩, hshape, hpooled⟩ := Decision.map_eq_ok hpooled
  have hactions : k.pooled.nactions = c.nactions := by
    rw [← hpooled, (Mixture.of_commonShape hshape c hc).1]
    rfl
  exact hasTotals_iff.mp (htotals c hc) a (hactions ▸ ha)

theorem total_lt_of_ofRuns {w : World α} {runs : List (RecordedRun α)} {model : Model α}
    (h : Model.ofRuns w runs = .ok model) {task : String} {taskRuns : List (RecordedRun α)}
    (htask : (task, taskRuns) ∈ groupByName RecordedRun.taskId runs)
    (hc : w.countsFromRuns taskRuns = .ok c) (ha : a < c.nactions) :
    c.total a < UInt32.size := by
  obtain ⟨tables, htables, -⟩ := Decision.bind_eq_ok h
  obtain ⟨_, -, htable⟩ := Decision.mapM_eq_ok htables _ htask
  obtain ⟨c', hc', htable⟩ := Decision.bind_eq_ok htable
  obtain rfl := Except.ok.inj (hc'.symm.trans hc)
  obtain ⟨_, htotals, -⟩ := Decision.bind_eq_ok htable
  exact hasTotals_iff.mp (Decision.of_provided htotals) a ha

end

/-- **The actions left out are those never run.** Take any array as it comes about and any of its
actions. Its total is added up to the number of observations put in for it if that number is a
word, and to nothing if not: the library stops. A total that is added up is the sum of the row, and
above zero for the rows with outcomes and for no others.

A likelihood is worked out if all totals are words. Likelihoods, the samples that re-estimate
concentrations, the samples of a classifier and the table of an oracle leave out exactly the rows
without outcomes. No mixture, classifier or oracle is fitted to an array with a total that is not
a word, but for a mixture fitted in no rounds, which looks at none. -/
theorem left_out_iff_never_run {α : Type} [Analytic α] [GammaFunctions α] {c : Counts}
    {made : ℕ → ℕ} (hc : c.Built made) {a : ℕ} (ha : a < c.nactions) :
    (c.total? a = if made a < 2 ^ 32 then some (UInt32.ofNat (made a)) else none) ∧
      (∀ t, c.total? a = some t →
        t.toNat = ((c.row a).map UInt32.toNat).sum ∧ (0 < t ↔ c.HasOutcomes a)) ∧
      (∀ (m : Mixture α) (component : List α), m.logLikelihood? component c =
        if ∀ b < m.nactions, c.total b < 2 ^ 32 then some (Scalar.sum
          (((List.range m.nactions).filter fun b => c.HasOutcomes b).map fun b =>
            Mixture.actionLogLikelihood m.family (m.parameters component b) (c.row b)))
        else none) ∧
      (∀ samples : List (Counts × α), Mixture.informative samples a =
        samples.filter fun x => x.1.HasOutcomes a ∧ ¬x.2 ≤ 0) ∧
      (∀ (counts : List Counts) (rows : List (List α)), Classifier.samplesOf counts rows a =
        ((counts.zip rows).filter fun x => x.1.HasOutcomes a).map fun x =>
          (x.2, Classifier.label x.1 a)) ∧
      (Model.truthTable (α := α) c).row a = normalizeScores
        (if c.HasOutcomes a then (c.row a).map ofCount else unsolvedRow c.noutcomes) ∧
      (∀ (s : EstimatorSettings α) (e : Randomness.Entropy) (training : List Counts)
        (m : Mixture α),
        c ∈ training → s.maxIterations ≠ 0 → Mixture.fit s e training = .ok m → made a < 2 ^ 32) ∧
      (∀ (s : EstimatorSettings α) (training : List Counts) (features : List (FeatureVector α))
        (k : Classifier α),
        c ∈ training → Classifier.fit s training features = .ok k → made a < 2 ^ 32) ∧
      ∀ (w : World α) (runs taskRuns : List (RecordedRun α)) (task : String) (model : Model α),
        (task, taskRuns) ∈ groupByName RecordedRun.taskId runs →
          w.countsFromRuns taskRuns = .ok c → Model.ofRuns w runs = .ok model →
            made a < 2 ^ 32 := by
  have htotal := hc.total_eq ha
  refine ⟨?_, fun t ht => of_total?_eq_some ht, fun m component => ?_, fun samples => ?_,
    fun counts rows => ?_, hc.isSized.row_truthTable ha, fun s e training m hmem hrounds hfit => ?_,
    fun s training features k hmem hfit => ?_,
    fun w runs taskRuns task model htask hcounts hfit => ?_⟩
  · rw [total?_eq, htotal]
    rfl
  · by_cases hfits : ∀ b < m.nactions, c.total b < 2 ^ 32
    · rw [if_pos hfits, Mixture.logLikelihood?, if_pos (hasTotals_iff.mpr hfits)]
      simp only [Mixture.logLikelihood, observed, total_bne_zero]
    · rw [if_neg hfits, Mixture.logLikelihood?, if_neg fun h => hfits (hasTotals_iff.mp h)]
  · simp only [Mixture.informative, total_bne_zero, Bool.decide_and, decide_not]
  · simp only [Classifier.samplesOf, total_bne_zero]
  · rw [← htotal]
    exact Mixture.total_lt_of_fit hfit hrounds hmem ha
  · rw [← htotal]
    exact total_lt_of_fit_classifier hfit hmem ha
  · rw [← htotal]
    exact total_lt_of_ofRuns hfit htask hcounts ha

/-- Twice half a word of outcomes for one action, a single outcome for another. -/
def halfWords : Counts := ⟨2, 3, [2147483648, 2147483648, 0, 0, 1, 0]⟩

theorem left_out_iff_never_run_halfWords :
    0 < halfWords.nactions ∧ halfWords.HasOutcomes 0 ∧ halfWords.total? 0 = none ∧
      1 < halfWords.nactions ∧ halfWords.total? 1 = some 1 := by
  have hbuilt := Built.ofRows
    (show ofRows [[2147483648, 2147483648, 0], [0, 1, 0]] = .ok halfWords from rfl)
  have hfirst : 0 < halfWords.nactions := by decide
  have hsecond : 1 < halfWords.nactions := by decide
  obtain ⟨hnone, -⟩ := left_out_iff_never_run (α := Exact) hbuilt hfirst
  obtain ⟨hsome, -⟩ := left_out_iff_never_run (α := Exact) hbuilt hsecond
  exact ⟨hfirst, by decide, hnone, hsecond, hsome⟩

end Counts

end SolverPortfolio
