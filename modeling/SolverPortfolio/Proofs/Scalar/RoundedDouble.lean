import SolverPortfolio.Proofs.Scalar.Binary.Comparison
import SolverPortfolio.Run
import SolverPortfolio.Scalar.Double

/-!
# Doubles and their equality

Doubles are rounded scalars, and equality of doubles and of actions is what the order says it is.
-/

namespace SolverPortfolio.Double

/-!
## Doubles are rounded scalars

The running instance satisfies the laws of rounded arithmetic, so what is proved of
rounded scalars holds of the program as it runs.
-/

open Exact Binary Float.Model Float.Model.UnpackedFloat

/-- The number a double stands for. -/
noncomputable def value (x : Float) : Exact := exactOf x.toModel.unpack

theorem inRange (x : Float) : InRange x.toModel.unpack := inRange_unpack _

/-! ### Conversions -/

/-- The unpacked double stands for this natural number. -/
def denotes : UnpackedFloat → ℕ → Bool
  | .finite .positive m e _, n => m * 2 ^ e.toNat == n * 2 ^ (-e).toNat
  | _, _ => false

theorem exactOf_of_denotes {u : UnpackedFloat} {n : ℕ} (h : denotes u n = true) :
    exactOf u = real n := by
  cases u with
  | notANumber => cases h
  | infinity s => cases h
  | zero s => cases h
  | finite s m e hm =>
      cases s with
      | negative => cases h
      | positive =>
          have heq : (m : ℝ) * 2 ^ e.toNat = n * 2 ^ (-e).toNat := by
            exact_mod_cast beq_iff_eq.mp h
          have hsplit : (2 : ℝ) ^ e = 2 ^ e.toNat / 2 ^ (-e).toNat := by
            rw [← zpow_natCast, ← zpow_natCast, ← zpow_sub₀ two_ne_zero]
            congr 1
            omega
          show real (m * 2 ^ e) = real n
          rw [hsplit, mul_div_assoc', heq, mul_div_cancel_right₀ _ (by positivity)]

theorem denotes_powerOfTen : ∀ e : Fin 23,
    denotes (Float.exactlyRepresentablePowersOfTen[e]).toModel.unpack (10 ^ e.val) = true := by
  decide +kernel

theorem value_powerOfTen {e : ℕ} (he : e < Float.exactlyRepresentablePowersOfTen.size) :
    value Float.exactlyRepresentablePowersOfTen[e] = real (10 ^ e) := by
  have h := exactOf_of_denotes (denotes_powerOfTen ⟨e, he⟩)
  rw [Nat.cast_pow, Nat.cast_ofNat] at h
  exact h

theorem value_toFloat (n : UInt64) : value n.toFloat = nearest n.toNat := by
  refine (stored_normalize n.toNat 0 .positive).trans ?_
  rw [zpow_zero, mul_one, Int.cast_natCast]

/-! ### The laws -/

theorem value_add (a b : Float) : value (a + b) = (value a + value b).rounded nearest :=
  stored_add (inRange a) (inRange b)

theorem value_sub (a b : Float) : value (a - b) = (value a - value b).rounded nearest :=
  stored_sub (inRange a) (inRange b)

theorem value_mul (a b : Float) : value (a * b) = (value a * value b).rounded nearest :=
  stored_mul (inRange a) (inRange b)

theorem value_div (a : Float) {b : Float} (hb : value b ≠ real 0) :
    value (a / b) = (value a / value b).rounded nearest :=
  stored_div hb

theorem value_neg (a : Float) : value (-a) = -value a :=
  (stored_of_inRange (inRange_neg (inRange a))).trans (exactOf_neg _)

/-- A natural that is too long for a double is scaled and rounded. -/
theorem ofScientific_eq {n : ℕ} (hn : n ≠ 0) :
    UnpackedFloat.ofScientific Format.binary64 n 0 =
      roundWithAccuracy Format.binary64 .positive (n <<< 53 * 1) (-53 + 0) .exact := by
  have hsmall : ¬(0 : ℤ) < -((2 ^ Format.binary64.exponentBits : ℤ) + n.log2) := by
    have : (0 : ℤ) ≤ 2 ^ Format.binary64.exponentBits := by positivity
    omega
  unfold UnpackedFloat.ofScientific
  rw [dif_neg hn, if_neg (by decide), if_neg hsmall, if_pos le_rfl]
  rfl

theorem value_ofNat (n : ℕ) : value (Float.ofNat n) = nearest n := by
  show value (Float.ofScientific n false 0) = _
  unfold Float.ofScientific
  split
  · rename_i h
    have hn : n.toUInt64.toNat = n := UInt64.toNat_ofNat_of_lt' (h.1.trans (by decide))
    have hself : nearest n = real n := nearest_natCast h.1.le
    rw [if_neg Bool.false_ne_true, value_mul, value_toFloat, hn, value_powerOfTen, hself,
      pow_zero, real_mul, mul_one]
    exact hself
  · rename_i h
    have hlow : 2 ^ 53 ≤ n := by omega
    have hlow' : 2 ^ 52 ≤ n <<< 53 := by
      rw [Nat.shiftLeft_eq]
      omega
    have hscaled : ((n <<< 53 : ℕ) : ℝ) * 2 ^ (-53 : ℤ) * ((1 : ℕ) * 2 ^ (0 : ℤ)) = n := by
      rw [Nat.shiftLeft_eq, zpow_neg, zpow_zero, Nat.cast_one, mul_one, mul_one, Nat.cast_mul,
        Nat.cast_pow, Nat.cast_ofNat]
      exact mul_inv_cancel_right₀ (by positivity) _
    show stored (UnpackedFloat.ofScientific Format.binary64 n 0) = _
    rw [ofScientific_eq (by omega),
      stored_mul_finite .positive (Nat.lt_of_lt_of_le (by decide) hlow') Nat.one_pos
        (Or.inl (Or.inl hlow')), hscaled, signed]

/-- Decimals of up to 53 bits are rounded once. -/
theorem value_decimal {m e : ℕ} (hm : m < 2 ^ 53) (he : e ≤ 22) :
    value (OfScientific.ofScientific m true e) = nearest (m / 10 ^ e) := by
  have hn : m.toUInt64.toNat = m := UInt64.toNat_ofNat_of_lt' (hm.trans (by decide))
  have hpow : (10 : ℝ) ^ e ≠ 0 := by positivity
  show value (Float.ofScientific m true e) = _
  unfold Float.ofScientific
  rw [dif_pos ⟨hm, he⟩, if_pos rfl, value_div _ (by
      rw [value_powerOfTen]
      exact fun h => hpow (real.inj h)),
    value_toFloat, hn, value_powerOfTen, nearest_natCast hm.le, real_div _ hpow]
  rfl

theorem value_infinity : value (1.0 / 0.0) = posInf := by
  have h : (1.0 / 0.0 : Float).toModel.unpack = .infinity .positive := rfl
  rw [value, h]
  rfl

theorem lt_iff (a b : Float) : a < b ↔ value a < value b := by
  refine Iff.trans ?_ (unpacked_lt_iff (inRange a) (inRange b))
  exact decide_eq_true_iff

theorem le_iff (a b : Float) : a ≤ b ↔ value a ≤ value b := by
  refine Iff.trans ?_ (unpacked_le_iff (inRange a) (inRange b))
  exact decide_eq_true_iff

theorem isNaN_eq (a : Float) : a.isNaN = (value a).isNaN := by
  show a.toModel.unpack.isNaN = (exactOf a.toModel.unpack).isNaN
  cases a.toModel.unpack with
  | notANumber => rfl
  | infinity s => cases s <;> rfl
  | zero s => rfl
  | finite s m e hm => cases s <;> rfl

theorem isFinite_eq (a : Float) : a.isFinite = (value a).isFinite := by
  show a.toModel.unpack.isFinite = (exactOf a.toModel.unpack).isFinite
  cases a.toModel.unpack with
  | notANumber => rfl
  | infinity s => cases s <;> rfl
  | zero s => rfl
  | finite s m e hm => cases s <;> rfl

noncomputable instance : Rounded Float where
  value := value
  nearest := nearest
  nearest_mono := nearest_mono
  nearest_of_value h := nearest_of_inRange (inRange _) h
  nearest_natCast := nearest_natCast
  nearest_near := nearest_near
  value_neg := value_neg
  value_add := value_add
  value_sub := value_sub
  value_mul := value_mul
  value_div := value_div
  value_ofNat := value_ofNat
  value_decimal := value_decimal
  value_infinity := value_infinity
  lt_iff := lt_iff
  le_iff := le_iff
  isNaN_eq := isNaN_eq
  isFinite_eq := isFinite_eq
  wholePart_eq a := toNat_toUInt64 a.toModel.unpack

end SolverPortfolio.Double

namespace SolverPortfolio

/-!
## Equality of scalars

Scalars are equal when they stand for the same number (`EqualByValue`), so what is not a
number equals nothing, itself included. An action therefore equals itself exactly when
its ceiling is a number (`Action.beq_self_iff`).
-/

open Rounded

theorem Exact.eq_of_toEReal_eq {a b : Exact} (ha : a ≠ nan) (hb : b ≠ nan)
    (h : a.toEReal = b.toEReal) : a = b := by
  cases a with
  | real x => cases b <;> simp_all [toEReal]
  | posInf => cases b <;> simp_all [toEReal]
  | negInf => cases b <;> simp_all [toEReal]
  | nan => exact absurd rfl ha

/-- The boolean equality compares the numbers that scalars stand for. -/
class EqualByValue (α : Type) [Scalar α] [Rounded α] : Prop where
  beq_iff : ∀ a b : α, (a == b) = true ↔ value a ≠ .nan ∧ value a = value b

instance : EqualByValue Exact where
  beq_iff _ _ := decide_eq_true_iff

theorem Binary.unpacked_beq_iff {a b : Float.Model.UnpackedFloat} (ha : InRange a)
    (hb : InRange b) : a.beq b = true ↔ exactOf a ≠ .nan ∧ exactOf a = exactOf b := by
  rw [Float.Model.UnpackedFloat.beq]
  by_cases hnan : exactOf a = .nan ∨ exactOf b = .nan
  · rw [compare_eq_none hnan]
    exact iff_of_false Bool.false_ne_true fun h => hnan.elim h.1 fun hb' => h.1 (h.2.trans hb')
  · obtain ⟨ha', hb'⟩ := not_or.mp hnan
    rw [compare_eq_cmp ha hb ha' hb', beq_iff_eq, Option.some_inj, cmp_eq_eq_iff]
    exact ⟨fun h => ⟨ha', Exact.eq_of_toEReal_eq ha' hb' h⟩, fun h => congrArg Exact.toEReal h.2⟩

instance : EqualByValue Float where
  beq_iff a b := Binary.unpacked_beq_iff (Double.inRange a) (Double.inRange b)

/-- In exact arithmetic nothing is equal but the same. -/
theorem Action.eq_of_beq {a b : Action Exact} (h : (a == b) = true) : a = b := by
  have hfields : (a.solver == b.solver && a.cost == b.cost && a.description == b.description) =
      true := h
  rw [Bool.and_eq_true, Bool.and_eq_true] at hfields
  obtain ⟨⟨hsolver, hcost⟩, hdescription⟩ := hfields
  have hvalue : a.cost = b.cost := ((EqualByValue.beq_iff a.cost b.cost).mp hcost).2
  cases a
  cases b
  rw [mk.injEq]
  exact ⟨LawfulBEq.eq_of_beq hsolver, hvalue, LawfulBEq.eq_of_beq hdescription⟩

variable {α : Type} [Scalar α] [Rounded α] [EqualByValue α]

theorem beq_self_iff (x : α) : (x == x) = true ↔ Scalar.isNaN x = false := by
  rw [EqualByValue.beq_iff, isNaN_eq_false_iff]
  exact and_iff_left rfl

theorem Action.beq_self_iff (a : Action α) : (a == a) = true ↔ Scalar.isNaN a.cost = false := by
  rw [← SolverPortfolio.beq_self_iff]
  show (a.solver == a.solver && a.cost == a.cost && a.description == a.description) = true ↔ _
  simp

end SolverPortfolio
