import SolverPortfolio.Proofs.Scalar.Rounded
import SolverPortfolio.Proofs.World
import SolverPortfolio.Settings

/-!
# Settings in range

`Settings.InRange` is what the settings are documented with, section by section. The check
goes through the sections in order, so it passes if they all pass (`seq_eq_ok_iff`), and what
it reports is the first setting that is out of range, with its value
(`complains_of_check_eq_error`).

A check that asks a value to be in range and one that refuses a value out of range are the
same for a number (`not_lt_iff_le_numberOr`), and part on what is not a number: the first
refuses it, the second lets it pass. Four settings are only refused out of range
(`Settings.unguarded`). So the check reads the settings as if each of them that is not a
number had its default: `inRange_iff_accepted` is the headline.
-/

namespace SolverPortfolio

open Scalar Rounded

/-! ## One check after the other -/

section

variable {ε : Type} {first next : Except ε Unit}

theorem seq_eq_ok_iff :
    (first >>= fun _ => next) = .ok () ↔ first = .ok () ∧ next = .ok () := by
  cases first with
  | error e => exact iff_of_false nofun fun h => nomatch h.1
  | ok u => exact (and_iff_right rfl).symm

theorem seq_eq_error_iff {e : ε} :
    (first >>= fun _ => next) = .error e ↔
      first = .error e ∨ first = .ok () ∧ next = .error e := by
  cases first with
  | error e' => exact (or_iff_left fun h => nomatch h.1).symm
  | ok u => exact ((or_iff_right nofun).trans (and_iff_right rfl)).symm

end

variable {α : Type}

theorem demand_eq_ok_iff {holds : Bool} {error : SettingsError α} :
    demand holds error = .ok () ↔ holds = true := by
  cases holds with
  | false => exact iff_of_false nofun nofun
  | true => exact iff_of_true rfl rfl

theorem demand_eq_error_iff {holds : Bool} {error e : SettingsError α} :
    demand holds error = .error e ↔ holds = false ∧ error = e := by
  cases holds with
  | false => exact Except.error.injEq error e ▸ (and_iff_right rfl).symm
  | true => exact iff_of_false nofun nofun

theorem bne_zero_iff {n : ℕ} : (n != 0) = true ↔ 1 ≤ n := by
  rw [bne_iff_ne]
  omega

variable [Scalar α]

/-! ## Documented ranges -/

structure BudgetSettings.InRange (s : BudgetSettings α) : Prop where
  ladderStep : isFinite s.ladderStep = true ∧ 0 < s.ladderStep
  ladderLength : 1 ≤ s.ladderLength
  machineSpeed : isFinite s.machineSpeed = true ∧ 0 < s.machineSpeed

structure PlannerSettings.InRange (s : PlannerSettings α) : Prop where
  discount : 0 ≤ s.discount ∧ s.discount < 1
  horizon : 1 ≤ s.horizon

structure EstimatorSettings.InRange (s : EstimatorSettings α) : Prop where
  components : 1 ≤ s.components
  restarts : 1 ≤ s.restarts
  priorShape : 1 ≤ s.priorShape
  priorScale : 0 < s.priorScale
  concentration : 0 ≤ s.concentration
  logisticStep : 0 < s.logisticStep
  logisticPenalty : 0 ≤ s.logisticPenalty

structure ExecutionSettings.InRange (s : ExecutionSettings α) : Prop where
  pollInterval : 1 ≤ s.pollInterval
  wallClockSlack : 1 ≤ s.wallClockSlack

structure LoggingSettings.InRange (s : LoggingSettings) : Prop where
  level : s.level ∈ ["trace", "debug", "info", "warn", "error"]
  format : s.format ∈ ["json", "pretty"]

/-- Every setting is in the range it is documented with. -/
structure Settings.InRange (s : Settings α) : Prop where
  budget : s.budget.InRange
  session : 1 ≤ s.session.maxInvocations
  planner : s.planner.InRange
  estimator : s.estimator.InRange
  execution : s.execution.InRange
  logging : s.logging.InRange

/-! ## Settings that may not be numbers -/

def numberOr (default x : α) : α := if isNaN x then default else x

theorem numberOr_eq {default x : α} (h : isNaN x = false) : numberOr default x = x := by
  unfold numberOr
  rw [h]
  rfl

/-- The settings that are refused where they are out of range, and otherwise pass. -/
def Settings.unguarded (s : Settings α) : List α :=
  [s.estimator.priorShape, s.estimator.priorScale, s.estimator.concentration,
    s.execution.wallClockSlack]

def EstimatorSettings.numbered (s : EstimatorSettings α) : EstimatorSettings α :=
  { s with
    priorShape := numberOr EstimatorSettings.default.priorShape s.priorShape
    priorScale := numberOr EstimatorSettings.default.priorScale s.priorScale
    concentration := numberOr EstimatorSettings.default.concentration s.concentration }

def ExecutionSettings.numbered (s : ExecutionSettings α) : ExecutionSettings α :=
  { s with wallClockSlack := numberOr ExecutionSettings.default.wallClockSlack s.wallClockSlack }

/-- The settings with the defaults in the place of the unguarded ones that are not numbers. -/
def Settings.numbered (s : Settings α) : Settings α :=
  { s with estimator := s.estimator.numbered, execution := s.execution.numbered }

theorem Settings.numbered_eq {s : Settings α} (h : ∀ x ∈ s.unguarded, isNaN x = false) :
    s.numbered = s := by
  unfold unguarded at h
  simp only [List.forall_mem_cons, List.not_mem_nil, false_implies, implies_true, and_true] at h
  obtain ⟨hshape, hscale, hconcentration, hslack⟩ := h
  unfold numbered EstimatorSettings.numbered ExecutionSettings.numbered
  rw [numberOr_eq hshape, numberOr_eq hscale, numberOr_eq hconcentration, numberOr_eq hslack]

/-! ## What a check reports -/

/-- The errors that say what is wrong with the settings, each with the value it is about. -/
inductive Settings.Complains (s : Settings α) : SettingsError α → Prop
  | ladderStep (range : ¬(isFinite s.budget.ladderStep = true ∧ 0 < s.budget.ladderStep)) :
      Complains s (.ladderStep s.budget.ladderStep)
  | ladderLength (range : s.budget.ladderLength = 0) :
      Complains s (.ladderLength s.budget.ladderLength)
  | machineSpeed (range : ¬(isFinite s.budget.machineSpeed = true ∧ 0 < s.budget.machineSpeed)) :
      Complains s (.machineSpeed s.budget.machineSpeed)
  | maxInvocations (range : s.session.maxInvocations = 0) :
      Complains s (.maxInvocations s.session.maxInvocations)
  | discount (range : ¬(0 ≤ s.planner.discount ∧ s.planner.discount < 1)) :
      Complains s (.discount s.planner.discount)
  | horizon (range : s.planner.horizon = 0) : Complains s (.horizon s.planner.horizon)
  | components (range : s.estimator.components = 0) :
      Complains s (.components s.estimator.components)
  | restarts (range : s.estimator.restarts = 0) : Complains s (.restarts s.estimator.restarts)
  | priorShape (range : s.estimator.priorShape < 1) :
      Complains s (.priorShape s.estimator.priorShape)
  | smoothing (range : s.estimator.priorScale ≤ 0 ∨ s.estimator.concentration < 0) :
      Complains s .smoothing
  | logistic (range : ¬(0 < s.estimator.logisticStep ∧ 0 ≤ s.estimator.logisticPenalty)) :
      Complains s .logistic
  | pollInterval (range : s.execution.pollInterval = 0) :
      Complains s (.pollInterval s.execution.pollInterval)
  | wallClockSlack (range : s.execution.wallClockSlack < 1) :
      Complains s (.wallClockSlack s.execution.wallClockSlack)
  | logLevel (range : s.logging.level ∉ logLevels) : Complains s (.logLevel s.logging.level)
  | logFormat (range : s.logging.format ∉ logFormats) : Complains s (.logFormat s.logging.format)

theorem not_isPositiveFinite {x : α} (h : isPositiveFinite x = false) :
    ¬(isFinite x = true ∧ 0 < x) := by
  intro hrange
  unfold isPositiveFinite at h
  rw [hrange.1, decide_eq_true hrange.2] at h
  cases h

/-- What is reported is wrong. -/
theorem Settings.complains_of_check_eq_error {s : Settings α} {e : SettingsError α}
    (h : s.check = .error e) : s.Complains e := by
  unfold check at h
  simp only [seq_eq_error_iff] at h
  rcases h with h | ⟨-, h | ⟨-, h | ⟨-, h | ⟨-, h | ⟨-, h⟩⟩⟩⟩⟩
  case inl =>
    unfold BudgetSettings.check at h
    simp only [seq_eq_error_iff, demand_eq_error_iff] at h
    rcases h with ⟨h, rfl⟩ | ⟨-, ⟨h, rfl⟩ | ⟨-, h, rfl⟩⟩
    · exact .ladderStep (not_isPositiveFinite h)
    · exact .ladderLength (by simpa using h)
    · exact .machineSpeed (not_isPositiveFinite h)
  case inr.inl =>
    unfold SessionSettings.check at h
    obtain ⟨hzero, rfl⟩ := demand_eq_error_iff.mp h
    exact .maxInvocations (by simpa using hzero)
  case inr.inr.inl =>
    unfold PlannerSettings.check isDiscount at h
    simp only [seq_eq_error_iff, demand_eq_error_iff] at h
    rcases h with ⟨h, rfl⟩ | ⟨-, h, rfl⟩
    · exact .discount (by simpa using h)
    · exact .horizon (by simpa using h)
  case inr.inr.inr.inl =>
    unfold EstimatorSettings.check at h
    simp only [seq_eq_error_iff, demand_eq_error_iff] at h
    rcases h with ⟨h, rfl⟩ | ⟨-, ⟨h, rfl⟩ | ⟨-, ⟨h, rfl⟩ | ⟨-, ⟨h, rfl⟩ | ⟨-, h, rfl⟩⟩⟩⟩
    · exact .components (by simpa using h)
    · exact .restarts (by simpa using h)
    · exact .priorShape (by simpa using h)
    · exact .smoothing (by simpa [or_iff_not_imp_left] using h)
    · exact .logistic (by simpa using h)
  case inr.inr.inr.inr.inl =>
    unfold ExecutionSettings.check at h
    simp only [seq_eq_error_iff, demand_eq_error_iff] at h
    rcases h with ⟨h, rfl⟩ | ⟨-, h, rfl⟩
    · exact .pollInterval (by simpa using h)
    · exact .wallClockSlack (by simpa using h)
  case inr.inr.inr.inr.inr =>
    unfold LoggingSettings.check at h
    simp only [seq_eq_error_iff, demand_eq_error_iff] at h
    rcases h with ⟨h, rfl⟩ | ⟨-, h, rfl⟩
    · exact .logLevel (by simpa using h)
    · exact .logFormat (by simpa using h)

/-! ## What a check accepts -/

theorem isPositiveFinite_eq_true {x : α} :
    isPositiveFinite x = true ↔ isFinite x = true ∧ 0 < x := by
  unfold isPositiveFinite
  rw [Bool.and_eq_true, decide_eq_true_iff]

theorem BudgetSettings.check_eq_ok_iff (s : BudgetSettings α) :
    s.check = .ok () ↔ s.InRange := by
  unfold check
  simp only [seq_eq_ok_iff, demand_eq_ok_iff, isPositiveFinite_eq_true, bne_zero_iff]
  constructor
  · intro ⟨hstep, hlength, hspeed⟩
    exact ⟨hstep, hlength, hspeed⟩
  · intro h
    exact ⟨h.ladderStep, h.ladderLength, h.machineSpeed⟩

theorem PlannerSettings.check_eq_ok_iff (s : PlannerSettings α) :
    s.check = .ok () ↔ s.InRange := by
  unfold check isDiscount
  simp only [seq_eq_ok_iff, demand_eq_ok_iff, Bool.and_eq_true, decide_eq_true_iff, bne_zero_iff]
  constructor
  · intro ⟨hdiscount, hhorizon⟩
    exact ⟨hdiscount, hhorizon⟩
  · intro h
    exact ⟨h.discount, h.horizon⟩

omit [Scalar α] in
theorem LoggingSettings.check_eq_ok_iff (s : LoggingSettings) :
    s.check (α := α) = .ok () ↔ s.InRange := by
  unfold check
  rw [seq_eq_ok_iff, demand_eq_ok_iff, demand_eq_ok_iff, List.contains_iff_mem,
    List.contains_iff_mem]
  constructor
  · intro ⟨hlevel, hformat⟩
    exact ⟨hlevel, hformat⟩
  · intro h
    exact ⟨h.level, h.format⟩

variable [Rounded α]

/-- A value that is not out of range is in range, if it is a number. -/
theorem not_lt_iff_le_numberOr {bound default x : α} (hdefault : bound ≤ default) :
    ¬x < bound ↔ bound ≤ numberOr default x := by
  have hbound : isNaN bound = false := isNaN_eq_false_iff.mpr ((le_iff _ _).mp hdefault).1
  cases hx : isNaN x with
  | true =>
      refine iff_of_true (fun hlt => ?_) ?_
      · rw [isNaN_eq_false_iff.mpr ((lt_iff _ _).mp hlt).1] at hx
        cases hx
      · unfold numberOr
        rwa [hx]
  | false =>
      rw [numberOr_eq hx]
      exact ⟨Rounded.le_of_not_lt hx hbound, not_lt_of_le⟩

theorem not_le_iff_lt_numberOr {bound default x : α} (hdefault : bound < default) :
    ¬x ≤ bound ↔ bound < numberOr default x := by
  have hbound : value bound ≠ .nan := ((lt_iff _ _).mp hdefault).1
  cases hx : isNaN x with
  | true =>
      refine iff_of_true (fun hle => ?_) ?_
      · rw [isNaN_eq_false_iff.mpr ((le_iff _ _).mp hle).1] at hx
        cases hx
      · unfold numberOr
        rwa [hx]
  | false =>
      rw [numberOr_eq hx, le_iff, lt_iff, ← Exact.not_lt_iff hbound (isNaN_eq_false_iff.mp hx),
        not_not]

/-! ## Defaults -/

theorem value_natCast {n : ℕ} (hn : n ≤ 2 ^ 53) : value (ofNat n : α) = .real n := by
  rw [value_ofNat, nearest_natCast hn]

theorem natCast_lt {m n : ℕ} (hn : n ≤ 2 ^ 53) (h : m < n) : (ofNat m : α) < ofNat n := by
  rw [lt_iff, value_natCast hn, value_natCast (h.le.trans hn), Exact.real_lt]
  exact Nat.cast_lt.mpr h

/-- A decimal keeps its order with the whole numbers below it. -/
theorem natCast_le_decimal {n m e : ℕ} (hm : m < 2 ^ 53) (he : e ≤ 22)
    (h : (n : ℝ) ≤ m / 10 ^ e) :
    (ofNat n : α) ≤ OfScientific.ofScientific m true e := by
  rw [le_iff, value_ofNat, value_decimal hm he]
  exact nearest_mono h

/-- A decimal stays positive and at most doubles when it is rounded. -/
theorem exists_decimal_value {m e : ℕ} (hm : m < 2 ^ 53) (he : e ≤ 22) (hpos : 0 < m) :
    ∃ y : ℝ, value (OfScientific.ofScientific m true e : α) = .real y ∧
      0 < y ∧ y < 2 * (m / 10 ^ e) := by
  have hone : (1 : ℝ) ≤ m := Nat.one_le_cast.mpr hpos
  have hbits : (m : ℝ) ≤ 2 ^ 53 := by exact_mod_cast hm.le
  have hten : (10 : ℝ) ^ e ≤ 10 ^ 22 := pow_le_pow_right₀ (by norm_num) he
  have hx : (0 : ℝ) < m / 10 ^ e := by positivity
  have hlow : (1 : ℝ) / 2 ^ 100 ≤ m / 10 ^ e := by
    calc (1 : ℝ) / 2 ^ 100 ≤ 1 / 10 ^ 22 := by norm_num
      _ ≤ 1 / 10 ^ e := one_div_le_one_div_of_le (by positivity) hten
      _ ≤ m / 10 ^ e := by gcongr
  have hhigh : (m : ℝ) / 10 ^ e ≤ 2 ^ 100 := by
    calc (m : ℝ) / 10 ^ e ≤ m := div_le_self (by linarith) (one_le_pow₀ (by norm_num))
      _ ≤ 2 ^ 100 := hbits.trans (by norm_num)
  obtain ⟨y, hy, hnear⟩ := nearest_near_mid α hlow hhigh
  have hshift : (m : ℝ) / 10 ^ e / 2 ^ 53 < m / 10 ^ e := div_lt_self hx (by norm_num)
  have habs := abs_le.mp hnear
  exact ⟨y, (value_decimal hm he).trans hy, by linarith, by linarith⟩

theorem decimal_pos {m e : ℕ} (hm : m < 2 ^ 53) (he : e ≤ 22) (hpos : 0 < m) :
    (0 : α) < OfScientific.ofScientific m true e := by
  obtain ⟨y, hy, hy0, _⟩ := exists_decimal_value (α := α) hm he hpos
  rwa [lt_iff, value_zero, hy, Exact.real_lt]

theorem BudgetSettings.inRange_default : (.default : BudgetSettings α).InRange := by
  have hstep : isPositiveFinite (ofNat 100 : α) = true :=
    isPositiveFinite_iff.mpr ⟨100, by norm_num, value_natCast (by norm_num)⟩
  have hspeed : isPositiveFinite (ofNat 1 : α) = true :=
    isPositiveFinite_iff.mpr ⟨1, one_pos, value_one⟩
  exact ⟨isPositiveFinite_eq_true.mp hstep, Nat.le_of_ble_eq_true rfl,
    isPositiveFinite_eq_true.mp hspeed⟩

theorem PlannerSettings.inRange_default : (.default : PlannerSettings α).InRange := by
  obtain ⟨y, hy, hpos, hlt⟩ := exists_decimal_value (α := α) (m := 5) (e := 4) (by norm_num)
    (by norm_num) (by norm_num)
  refine ⟨⟨?_, ?_⟩, Nat.le_of_ble_eq_true rfl⟩
  · show (0 : α) ≤ OfScientific.ofScientific 5 true 4
    rw [le_iff, value_zero, hy, Exact.real_le]
    exact hpos.le
  · show (OfScientific.ofScientific 5 true 4 : α) < 1
    rw [lt_iff, value_one, hy, Exact.real_lt]
    norm_num at hlt
    linarith

theorem EstimatorSettings.inRange_default : (.default : EstimatorSettings α).InRange where
  components := Nat.le_of_ble_eq_true rfl
  restarts := Nat.le_of_ble_eq_true rfl
  priorShape :=
    natCast_le_decimal (n := 1) (m := 11) (e := 1) (by norm_num) (by norm_num) (by norm_num)
  priorScale := natCast_lt (m := 0) (n := 2) (by norm_num) (by norm_num)
  concentration :=
    Rounded.le_of_lt (decimal_pos (m := 1) (e := 2) (by norm_num) (by norm_num) (by norm_num))
  logisticStep := decimal_pos (m := 5) (e := 1) (by norm_num) (by norm_num) (by norm_num)
  logisticPenalty :=
    Rounded.le_of_lt (decimal_pos (m := 1) (e := 3) (by norm_num) (by norm_num) (by norm_num))

theorem ExecutionSettings.inRange_default : (.default : ExecutionSettings α).InRange where
  pollInterval := Nat.le_of_ble_eq_true rfl
  wallClockSlack := Rounded.le_of_lt (natCast_lt (m := 1) (n := 2) (by norm_num) (by norm_num))

theorem Settings.inRange_default : (.default : Settings α).InRange where
  budget := BudgetSettings.inRange_default
  session := Nat.le_of_ble_eq_true rfl
  planner := PlannerSettings.inRange_default
  estimator := EstimatorSettings.inRange_default
  execution := ExecutionSettings.inRange_default
  logging := ⟨List.mem_of_elem_eq_true rfl, List.mem_of_elem_eq_true rfl⟩

/-! ## Checks of single sections -/

theorem EstimatorSettings.check_eq_ok_iff (s : EstimatorSettings α) :
    s.check = .ok () ↔ s.numbered.InRange := by
  have hdefault := inRange_default (α := α)
  unfold check
  simp only [seq_eq_ok_iff, demand_eq_ok_iff, Bool.and_eq_true, Bool.not_eq_true',
    decide_eq_false_iff_not, decide_eq_true_iff, bne_zero_iff,
    not_lt_iff_le_numberOr hdefault.priorShape, not_le_iff_lt_numberOr hdefault.priorScale,
    not_lt_iff_le_numberOr hdefault.concentration]
  constructor
  · intro ⟨hcomponents, hrestarts, hshape, ⟨hscale, hconcentration⟩, hstep, hpenalty⟩
    exact ⟨hcomponents, hrestarts, hshape, hscale, hconcentration, hstep, hpenalty⟩
  · intro h
    exact ⟨h.components, h.restarts, h.priorShape, ⟨h.priorScale, h.concentration⟩,
      h.logisticStep, h.logisticPenalty⟩

theorem ExecutionSettings.check_eq_ok_iff (s : ExecutionSettings α) :
    s.check = .ok () ↔ s.numbered.InRange := by
  unfold check
  simp only [seq_eq_ok_iff, demand_eq_ok_iff, Bool.not_eq_true', decide_eq_false_iff_not,
    bne_zero_iff, not_lt_iff_le_numberOr (inRange_default (α := α)).wallClockSlack]
  constructor
  · intro ⟨hinterval, hslack⟩
    exact ⟨hinterval, hslack⟩
  · intro h
    exact ⟨h.pollInterval, h.wallClockSlack⟩

namespace Settings

theorem check_eq_ok_iff (s : Settings α) : s.check = .ok () ↔ s.numbered.InRange := by
  unfold check SessionSettings.check
  rw [seq_eq_ok_iff, seq_eq_ok_iff, seq_eq_ok_iff, seq_eq_ok_iff, seq_eq_ok_iff,
    BudgetSettings.check_eq_ok_iff, demand_eq_ok_iff, bne_zero_iff,
    PlannerSettings.check_eq_ok_iff, EstimatorSettings.check_eq_ok_iff,
    ExecutionSettings.check_eq_ok_iff, LoggingSettings.check_eq_ok_iff]
  constructor
  · intro ⟨hbudget, hsession, hplanner, hestimator, hexecution, hlogging⟩
    exact ⟨hbudget, hsession, hplanner, hestimator, hexecution, hlogging⟩
  · intro h
    exact ⟨h.budget, h.session, h.planner, h.estimator, h.execution, h.logging⟩

/-- What is in range is a number. -/
theorem InRange.isNaN_of_mem_unguarded {s : Settings α} (h : s.InRange) :
    ∀ x ∈ s.unguarded, isNaN x = false := by
  have hnumber : ∀ {bound x : α}, bound ≤ x → isNaN x = false := fun hle =>
    isNaN_eq_false_iff.mpr ((le_iff _ _).mp hle).2.1
  intro x hx
  unfold unguarded at hx
  simp only [List.mem_cons, List.not_mem_nil, or_false] at hx
  rcases hx with rfl | rfl | rfl | rfl
  · exact hnumber h.estimator.priorShape
  · exact hnumber (Rounded.le_of_lt h.estimator.priorScale)
  · exact hnumber h.estimator.concentration
  · exact hnumber h.execution.wallClockSlack

/-- Settings in range are accepted, the defaults among them. -/
theorem InRange.check {s : Settings α} (h : s.InRange) : s.check = .ok () := by
  rw [check_eq_ok_iff, numbered_eq h.isNaN_of_mem_unguarded]
  exact h

/-- **Accepted settings.** The check accepts exactly the settings that are in range once the
unguarded ones that are not numbers have their defaults. So settings are in the documented
ranges exactly if they are accepted and the unguarded ones are numbers. -/
theorem inRange_iff_accepted (s : Settings α) :
    (s.check = .ok () ↔ s.numbered.InRange) ∧
      (s.InRange ↔ s.check = .ok () ∧ ∀ x ∈ s.unguarded, isNaN x = false) := by
  refine ⟨check_eq_ok_iff s, fun h => ⟨h.check, h.isNaN_of_mem_unguarded⟩, fun h => ?_⟩
  obtain ⟨hcheck, hnumbers⟩ := h
  rw [check_eq_ok_iff, numbered_eq hnumbers] at hcheck
  exact hcheck

/-- Settings in doubles with a prior shape that is not a number. -/
def shapeless : Settings Float :=
  { Settings.default with estimator := { EstimatorSettings.default with priorShape := 0 / 0 } }

-- The shape has to be at least one, and passes all the same.
example : shapeless.check = .ok () ∧ ¬1 ≤ shapeless.estimator.priorShape :=
  ⟨rfl, by decide +kernel⟩

end Settings

end SolverPortfolio
