import SolverPortfolio.Proofs.Scalar.Exact

/-!
# Rounded arithmetic

The laws of rounded scalars, and the order that rounding keeps.
-/

namespace SolverPortfolio

/-!
## Scalars that stand for numbers

Scalars that stand for exact numbers. Every operation gives the exact result rounded
once (`Rounded`): a double is such a scalar, and so is an exact number, which is rounded
to itself. What is proved of rounded scalars uses that rounding is monotone and keeps
the numbers that can be written, and that in the middle of the range it is relatively
close; neither the format nor the way of breaking ties matters.
-/

/-- A result that is a real number is rounded; the special values stay. -/
def Exact.rounded (nearest : ℝ → Exact) : Exact → Exact
  | .real x => nearest x
  | a => a

class Rounded (α : Type) [Scalar α] where
  /-- The number a scalar stands for. Both zeros stand for the same. -/
  value : α → Exact
  nearest : ℝ → Exact
  nearest_mono : ∀ {x y : ℝ}, x ≤ y → nearest x ≤ nearest y
  nearest_of_value : ∀ {a : α} {x : ℝ}, value a = .real x → nearest x = .real x
  nearest_natCast : ∀ {n : ℕ}, n ≤ 2 ^ 53 → nearest n = .real n
  nearest_near : ∀ {x : ℝ}, 1 / 2 ^ 1000 ≤ x → x ≤ 2 ^ 1000 →
    ∃ y : ℝ, nearest x = .real y ∧ |y - x| ≤ x / 2 ^ 53
  value_neg : ∀ a : α, value (-a) = -value a
  value_add : ∀ a b : α, value (a + b) = (value a + value b).rounded nearest
  value_sub : ∀ a b : α, value (a - b) = (value a - value b).rounded nearest
  value_mul : ∀ a b : α, value (a * b) = (value a * value b).rounded nearest
  value_div : ∀ (a : α) {b : α}, value b ≠ .real 0 →
    value (a / b) = (value a / value b).rounded nearest
  value_ofNat : ∀ n : ℕ, value (Scalar.ofNat n : α) = nearest n
  value_decimal : ∀ {m e : ℕ}, m < 2 ^ 53 → e ≤ 22 →
    value (OfScientific.ofScientific m true e : α) = nearest (m / 10 ^ e)
  value_infinity : value (Scalar.infinity : α) = .posInf
  lt_iff : ∀ a b : α, a < b ↔ value a < value b
  le_iff : ∀ a b : α, a ≤ b ↔ value a ≤ value b
  isNaN_eq : ∀ a : α, Scalar.isNaN a = Scalar.isNaN (value a)
  isFinite_eq : ∀ a : α, Scalar.isFinite a = Scalar.isFinite (value a)
  wholePart_eq : ∀ a : α, Scalar.wholePart a = Scalar.wholePart (value a)

namespace Exact

theorem real_near {x : ℝ} (hx : 1 / 2 ^ 1000 ≤ x) (_ : x ≤ 2 ^ 1000) :
    ∃ y : ℝ, real x = real y ∧ |y - x| ≤ x / 2 ^ 53 := by
  have hpos : 0 ≤ x := le_trans (by positivity) hx
  exact ⟨x, rfl, by rw [sub_self, abs_zero]; positivity⟩

theorem real_decimal {m e : ℕ} (_ : m < 2 ^ 53) (_ : e ≤ 22) :
    (OfScientific.ofScientific m true e : Exact) = real (m / 10 ^ e) := by
  show real (OfScientific.ofScientific m true e : ℝ) = _
  rw [NNRatCast.ofScientific_eq_ite, if_pos rfl, NNRat.cast_divNat, Nat.cast_pow, Nat.cast_ofNat]

theorem real_decimal_one {e : ℕ} (he : e ≤ 22) :
    (OfScientific.ofScientific 1 true e : Exact) = real (1 / 10 ^ e) := by
  rw [real_decimal (by norm_num) he, Nat.cast_one]

end Exact

/-- Exact numbers are rounded to themselves. -/
noncomputable instance : Rounded Exact where
  value a := a
  nearest := .real
  nearest_mono h := (Exact.real_le _ _).mpr h
  nearest_of_value _ := rfl
  nearest_natCast _ := rfl
  nearest_near := @Exact.real_near
  value_neg _ := rfl
  value_add a b := by cases h : a + b <;> rfl
  value_sub a b := by cases h : a - b <;> rfl
  value_mul a b := by cases h : a * b <;> rfl
  value_div a {b} _ := by cases h : a / b <;> rfl
  value_ofNat _ := rfl
  value_decimal := @Exact.real_decimal
  value_infinity := rfl
  lt_iff _ _ := Iff.rfl
  le_iff _ _ := Iff.rfl
  isNaN_eq _ := rfl
  isFinite_eq _ := rfl
  wholePart_eq _ := rfl

namespace Rounded

open Scalar

/-! ### Rounding -/

section nearest

variable (α : Type) [Scalar α] [Rounded α]

theorem nearest_ne_nan (x : ℝ) : nearest α x ≠ .nan :=
  (nearest_mono (α := α) (le_refl x)).1

@[simp] theorem nearest_zero : nearest α 0 = .real 0 := by
  have h := nearest_natCast (α := α) (n := 0) (Nat.zero_le _)
  rwa [Nat.cast_zero] at h

@[simp] theorem nearest_one : nearest α 1 = .real 1 := by
  have h := nearest_natCast (α := α) (n := 1) Nat.one_le_two_pow
  rwa [Nat.cast_one] at h

/-- Rounding does not lead past numbers that are kept. -/
theorem nearest_between {x a b : ℝ} (ha : nearest α a = .real a) (hb : nearest α b = .real b)
    (hax : a ≤ x) (hxb : x ≤ b) : ∃ y, nearest α x = .real y ∧ a ≤ y ∧ y ≤ b := by
  have hlow := nearest_mono (α := α) hax
  have hhigh := nearest_mono (α := α) hxb
  rw [ha] at hlow
  rw [hb] at hhigh
  exact Exact.eq_real_of_between hlow hhigh

theorem nearest_near_mid {x : ℝ} (hlow : 1 / 2 ^ 100 ≤ x) (hhigh : x ≤ 2 ^ 100) :
    ∃ y : ℝ, nearest α x = .real y ∧ |y - x| ≤ x / 2 ^ 53 := by
  have hpow : (2 : ℝ) ^ 100 ≤ 2 ^ 1000 := pow_le_pow_right₀ one_le_two (by norm_num)
  refine nearest_near (le_trans ?_ hlow) (hhigh.trans hpow)
  exact one_div_le_one_div_of_le (by positivity) hpow

end nearest

variable {α : Type} [Scalar α] [Rounded α]

/-! ### Values -/

@[simp] theorem value_zero : value (0 : α) = .real 0 := by
  rw [← nearest_zero α, ← Nat.cast_zero]
  exact value_ofNat 0

@[simp] theorem value_one : value (1 : α) = .real 1 := by
  rw [← nearest_one α, ← Nat.cast_one]
  exact value_ofNat 1

theorem isFinite_iff {a : α} : isFinite a = true ↔ ∃ x, value a = .real x := by
  rw [isFinite_eq]
  constructor
  · exact Exact.eq_real_of_isFinite
  · rintro ⟨x, hx⟩
    rw [hx, Exact.isFinite_real]

theorem isNaN_eq_false_iff {a : α} : isNaN a = false ↔ value a ≠ .nan := by
  rw [isNaN_eq]
  cases value a <;> simp [isNaN, Exact.isNaN]

theorem isPositiveFinite_iff {a : α} :
    isPositiveFinite a = true ↔ ∃ x, 0 < x ∧ value a = .real x := by
  rw [isPositiveFinite, Bool.and_eq_true_iff, isFinite_iff, decide_eq_true_iff, lt_iff, value_zero]
  constructor
  · rintro ⟨⟨x, hx⟩, hpos⟩
    rw [hx, Exact.real_lt] at hpos
    exact ⟨x, hpos, hx⟩
  · rintro ⟨x, hpos, hx⟩
    exact ⟨⟨x, hx⟩, by rwa [hx, Exact.real_lt]⟩

/-- A sum is only finite if both parts are. -/
theorem isFinite_of_add {a b : α} (h : isFinite (a + b) = true) :
    isFinite a = true ∧ isFinite b = true := by
  rw [isFinite_eq, value_add] at h
  rw [isFinite_eq a, isFinite_eq b]
  cases ha : value a <;> cases hb : value b <;> rw [ha, hb] at h <;>
    first | exact ⟨rfl, rfl⟩ | cases h

theorem isFinite_foldl_add {xs : List α} {start : α}
    (h : isFinite (xs.foldl (· + ·) start) = true) :
    isFinite start = true ∧ ∀ x ∈ xs, isFinite x = true := by
  induction xs generalizing start with
  | nil => exact ⟨h, fun _ hx => (List.not_mem_nil hx).elim⟩
  | cons x xs ih =>
      obtain ⟨hsum, hxs⟩ := ih h
      obtain ⟨hstart, hx⟩ := isFinite_of_add hsum
      refine ⟨hstart, fun y hy => ?_⟩
      rcases List.mem_cons.mp hy with rfl | hy
      · exact hx
      · exact hxs y hy

theorem isFinite_of_sum {xs : List α} (h : isFinite (sum xs) = true) :
    ∀ x ∈ xs, isFinite x = true :=
  (isFinite_foldl_add h).2

/-! ### Probabilities -/

/-- A number from zero to one. -/
def IsProbability (a : α) : Prop := ∃ x : ℝ, 0 ≤ x ∧ x ≤ 1 ∧ value a = .real x

theorem isProbability_zero : IsProbability (0 : α) := ⟨0, le_rfl, zero_le_one, value_zero⟩

theorem isProbability_one : IsProbability (1 : α) := ⟨1, zero_le_one, le_rfl, value_one⟩

theorem IsProbability.of_nearest {a : α} {x : ℝ} (h0 : 0 ≤ x) (h1 : x ≤ 1)
    (ha : value a = nearest α x) : IsProbability a := by
  obtain ⟨y, hy, hy0, hy1⟩ := nearest_between α (nearest_zero α) (nearest_one α) h0 h1
  exact ⟨y, hy0, hy1, ha.trans hy⟩

theorem IsProbability.one_sub {a : α} (h : IsProbability a) : IsProbability (1 - a) := by
  obtain ⟨x, h0, h1, hx⟩ := h
  refine .of_nearest (x := 1 - x) (sub_nonneg.mpr h1) (sub_le_self 1 h0) ?_
  rw [value_sub, value_one, hx, Exact.real_sub]
  rfl

theorem IsProbability.mul {a b : α} (ha : IsProbability a) (hb : IsProbability b) :
    IsProbability (a * b) := by
  obtain ⟨x, hx0, hx1, hx⟩ := ha
  obtain ⟨y, hy0, hy1, hy⟩ := hb
  refine .of_nearest (mul_nonneg hx0 hy0) (mul_le_one₀ hx1 hy0 hy1) ?_
  rw [value_mul, hx, hy, Exact.real_mul]
  rfl

theorem IsProbability.lt_infinity {a : α} (h : IsProbability a) : a < infinity := by
  obtain ⟨x, _, _, hx⟩ := h
  rw [lt_iff, hx, value_infinity]
  exact Exact.real_lt_posInf x

/-- A number cut off at zero and one is a probability. -/
theorem isProbability_clamp {a : α} (h : isNaN a = false) : IsProbability (clamp a 0 1) := by
  rw [isNaN_eq_false_iff] at h
  unfold clamp
  split
  · exact isProbability_zero
  · rename_i hlow
    split
    · exact isProbability_one
    · rename_i hhigh
      rw [lt_iff, value_zero] at hlow
      rw [lt_iff, value_one] at hhigh
      obtain ⟨x, hx, h0, h1⟩ := Exact.eq_real_of_between
        ((Exact.not_lt_iff h Exact.noConfusion).mp hlow)
        ((Exact.not_lt_iff Exact.noConfusion h).mp hhigh)
      exact ⟨x, h0, h1, hx⟩

end Rounded

/-!
## Rounded arithmetic is monotone

Operations on numbers that are not negative keep their order, infinities included: exactly
computed results do (`Exact.add_le_add`, `Exact.mul_le_mul_left`), and rounding does not turn
two numbers round (`Exact.rounded_mono`). Whole parts follow (`Exact.wholePart_mono`).
-/

namespace Exact

theorem le_posInf {a : Exact} (h : a ≠ nan) : a ≤ posInf := ⟨h, Exact.noConfusion, le_top⟩

protected theorem le_refl {a : Exact} (h : a ≠ nan) : a ≤ a := ⟨h, h, le_rfl⟩

theorem negInf_le {a : Exact} (h : a ≠ nan) : negInf ≤ a := ⟨Exact.noConfusion, h, bot_le⟩

theorem eq_posInf_of_le {a : Exact} (h : posInf ≤ a) : a = posInf := by
  cases a with
  | real x => exact absurd h.2.2 (by simp [toEReal])
  | posInf => rfl
  | negInf => exact absurd h.2.2 (by simp [toEReal])
  | nan => exact absurd rfl h.2.1

/-- What is not below a real number is one itself or infinite. -/
theorem eq_real_or_posInf {a : Exact} {x : ℝ} (h : real x ≤ a) :
    (∃ y, a = real y ∧ x ≤ y) ∨ a = posInf := by
  cases a with
  | real y => exact Or.inl ⟨y, rfl, (real_le _ _).mp h⟩
  | posInf => exact Or.inr rfl
  | negInf => exact absurd h (not_real_le_negInf x)
  | nan => exact absurd rfl h.2.1

theorem rounded_mono {α : Type} [Scalar α] [Rounded α] {a b : Exact} (h : a ≤ b) :
    a.rounded (Rounded.nearest α) ≤ b.rounded (Rounded.nearest α) := by
  cases a with
  | real x =>
      rcases eq_real_or_posInf h with ⟨y, rfl, hxy⟩ | rfl
      · exact Rounded.nearest_mono hxy
      · exact le_posInf (Rounded.nearest_ne_nan α x)
  | posInf =>
      rw [eq_posInf_of_le h]
      exact le_posInf Exact.noConfusion
  | negInf =>
      refine negInf_le ?_
      cases b with
      | real y => exact Rounded.nearest_ne_nan α y
      | posInf => exact Exact.noConfusion
      | negInf => exact Exact.noConfusion
      | nan => exact absurd rfl h.2.1
  | nan => exact absurd rfl h.1

theorem add_le_add {a b c d : Exact} (ha : real 0 ≤ a) (hc : real 0 ≤ c) (hab : a ≤ b)
    (hcd : c ≤ d) : a + c ≤ b + d := by
  have hinf : ∀ {x y : Exact}, real 0 ≤ x → real 0 ≤ y → x = posInf ∨ y = posInf →
      x + y = posInf := by
    rintro x y hx hy (rfl | rfl)
    · rcases eq_real_or_posInf hy with ⟨_, rfl, _⟩ | rfl <;> rfl
    · rcases eq_real_or_posInf hx with ⟨_, rfl, _⟩ | rfl <;> rfl
  have hne : a + c ≠ nan := by
    rcases eq_real_or_posInf ha with ⟨_, rfl, _⟩ | rfl <;>
      rcases eq_real_or_posInf hc with ⟨_, rfl, _⟩ | rfl <;> exact Exact.noConfusion
  have hb := Exact.le_trans ha hab
  have hd := Exact.le_trans hc hcd
  rcases eq_real_or_posInf hb with ⟨x, rfl, _⟩ | rfl
  · rcases eq_real_or_posInf hd with ⟨y, rfl, _⟩ | rfl
    · obtain ⟨u, rfl, _, hu⟩ := eq_real_of_between ha hab
      obtain ⟨v, rfl, _, hv⟩ := eq_real_of_between hc hcd
      rw [real_add, real_add, real_le]
      linarith
    · rw [hinf hb hd (Or.inr rfl)]
      exact le_posInf hne
  · rw [hinf hb hd (Or.inl rfl)]
    exact le_posInf hne

protected theorem mul_comm (a b : Exact) : a * b = b * a := by
  have hsigns : infinite (a.sign * b.sign) = infinite (b.sign * a.sign) := by
    rw [CommMonoid.mul_comm]
  -- Only two real numbers are not multiplied by their signs.
  cases a <;> cases b
  case real.real x y => rw [real_mul, real_mul, CommMonoid.mul_comm]
  all_goals exact hsigns

theorem mul_le_mul_left {t : ℝ} (ht : 0 < t) {a b : Exact} (ha : real 0 ≤ a) (hab : a ≤ b) :
    real t * a ≤ real t * b := by
  have hinf : real t * posInf = posInf := by
    show infinite (SignType.sign t * 1) = _
    rw [sign_pos ht]
    rfl
  rcases eq_real_or_posInf (Exact.le_trans ha hab) with ⟨y, rfl, _⟩ | rfl
  · obtain ⟨x, rfl, _, hxy⟩ := eq_real_of_between ha hab
    rw [real_mul, real_mul, real_le]
    exact mul_le_mul_of_nonneg_left hxy ht.le
  · rw [hinf]
    rcases eq_real_or_posInf ha with ⟨x, rfl, _⟩ | rfl
    · exact real_le_posInf _
    · rw [hinf]
      exact le_posInf Exact.noConfusion

theorem wholePart_mono {a b : Exact} (h : a ≤ b) :
    Scalar.wholePart a ≤ Scalar.wholePart b := by
  cases a with
  | real x =>
      rcases eq_real_or_posInf h with ⟨y, rfl, hxy⟩ | rfl
      · exact min_le_min_right _ (Nat.floor_mono hxy)
      · exact min_le_right _ _
  | posInf => rw [eq_posInf_of_le h]
  | negInf => exact Nat.zero_le _
  | nan => exact absurd rfl h.1

end Exact

namespace Rounded

open Scalar

variable {α : Type} [Scalar α] [Rounded α]

instance : IsStrictOrder α (· < ·) where
  irrefl a h := irrefl (value a) ((lt_iff a a).mp h)
  trans a b c h h' :=
    (lt_iff a c).mpr (IsTrans.trans _ _ _ ((lt_iff a b).mp h) ((lt_iff b c).mp h'))

protected theorem le_refl {a : α} (h : isNaN a = false) : a ≤ a :=
  (le_iff a a).mpr (Exact.le_refl (isNaN_eq_false_iff.mp h))

protected theorem le_of_lt {a b : α} (h : a < b) : a ≤ b := by
  rw [lt_iff] at h
  rw [le_iff]
  exact ⟨h.1, h.2.1, h.2.2.le⟩

protected theorem lt_of_le_of_lt {a b c : α} (h : a ≤ b) (h' : b < c) : a < c := by
  rw [le_iff] at h
  rw [lt_iff] at h' ⊢
  exact ⟨h.1, h'.2.1, h.2.2.trans_lt h'.2.2⟩

protected theorem le_of_not_lt {a b : α} (ha : isNaN a = false) (hb : isNaN b = false)
    (h : ¬a < b) : b ≤ a := by
  rw [lt_iff] at h
  rw [le_iff]
  exact (Exact.not_lt_iff (isNaN_eq_false_iff.mp ha) (isNaN_eq_false_iff.mp hb)).mp h

/-- The larger of two numbers is one of them and not below the other. -/
theorem max_cases {a b : α} (ha : isNaN a = false) (hb : isNaN b = false) :
    (Scalar.max a b = a ∧ b ≤ a) ∨ (Scalar.max a b = b ∧ a ≤ b) := by
  have hne := isNaN_eq_false_iff.mp ha
  have hne' := isNaN_eq_false_iff.mp hb
  rw [Scalar.max, if_neg (by rw [ha]; exact Bool.false_ne_true)]
  split
  · rename_i hlt
    refine Or.inr ⟨rfl, (le_iff a b).mpr ?_⟩
    exact (Exact.not_lt_iff hne' hne).mp fun h =>
      irrefl _ (IsTrans.trans _ _ _ ((lt_iff a b).mp hlt) h)
  · rename_i hlt
    rw [lt_iff] at hlt
    exact Or.inl ⟨rfl, (le_iff b a).mpr ((Exact.not_lt_iff hne hne').mp hlt)⟩

theorem IsProbability.mul_le {a b : α} (ha : IsProbability a) (hb : IsProbability b) :
    a * b ≤ b := by
  obtain ⟨x, hx0, hx1, hx⟩ := ha
  obtain ⟨y, hy0, hy1, hy⟩ := hb
  rw [le_iff, value_mul, hx, hy, Exact.real_mul, ← nearest_of_value hy]
  exact nearest_mono (mul_le_of_le_one_left hy0 hx1)

end Rounded

end SolverPortfolio
