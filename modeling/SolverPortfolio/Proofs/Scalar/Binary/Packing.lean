import SolverPortfolio.Proofs.Scalar.Binary.Grid

/-!
# Packed and unpacked doubles

The arithmetic of doubles is defined on sign, mantissa and exponent; `exactOf` is the
number these stand for. What the format can hold survives packing (`stored_of_inRange`),
and what is too large for it turns into an infinity (`stored_ofParts`).
-/

namespace SolverPortfolio.Binary

open Exact Float.Model Float.Model.UnpackedFloat

/-! ## Values -/

def signed : Sign → Exact → Exact
  | .positive, a => a
  | .negative, a => -a

/-- The number an unpacked double stands for. -/
noncomputable def exactOf : UnpackedFloat → Exact
  | .notANumber => nan
  | .infinity s => signed s posInf
  | .zero _ => real 0
  | .finite s m e _ => signed s (real (scaled m e))

@[simp] theorem signed_real_zero (s : Sign) : signed s (real 0) = real 0 := by
  cases s with
  | positive => rfl
  | negative => rw [signed, real_neg, neg_zero]

/-! ## Bits -/

@[simp] theorem ofBitVec_toBitVec (s : Sign) : Sign.ofBitVec s.toBitVec = s := by
  cases s <;> rfl

@[simp] theorem unpackSign_packComponents {f : Format} (s : Sign) (E : BitVec f.exponentBits)
    (M : BitVec f.mantissaBitsWithoutImplicit) :
    unpackSign (packComponents f s E M) = s.toBitVec := by
  refine BitVec.eq_of_getLsbD_eq fun i hi => ?_
  obtain rfl : i = 0 := by omega
  simp [unpackSign, packComponents, BitVec.getLsbD_append, BitVec.getLsbD_eq_getElem,
    BitVec.getElem_append]

/-- The mantissa with its implicit bit. -/
theorem toNat_implicit (M : BitVec 52) : (1#1 ++ M).toNat = 2 ^ 52 + M.toNat := by
  rw [BitVec.toNat_append, ← Nat.shiftLeft_add_eq_or_of_lt M.isLt]
  rfl

/-! ## Unpacking -/

/-- Canonical, with an exponent that the format has. -/
def InRange : UnpackedFloat → Prop
  | .finite _ m e _ => m < 2 ^ 53 ∧ -1074 ≤ e ∧ e ≤ 971 ∧ (2 ^ 52 ≤ m ∨ e = -1074)
  | _ => True

theorem inRange_unpack (b : BitVec 64) : InRange (UnpackedFloat.unpack Format.binary64 b) := by
  have hM : (@unpackMantissa Format.binary64 b).toNat < 2 ^ 52 :=
    (@unpackMantissa Format.binary64 b).isLt
  have hE : (@unpackExponent Format.binary64 b).toNat < 2 ^ 11 :=
    (@unpackExponent Format.binary64 b).isLt
  have hbias : (Format.binary64.exponentBias : ℤ) = 1023 := rfl
  unfold UnpackedFloat.unpack
  dsimp only
  split
  · split <;> trivial
  · rename_i hones
    split
    · rename_i hzero
      split
      · trivial
      · have hexp : (@unpackExponent Format.binary64 b).toNat = 0 :=
          congrArg BitVec.toNat hzero
        simp only [InRange, hbias]
        omega
    · rename_i hzero
      have hones' : (@unpackExponent Format.binary64 b).toNat ≠ 2047 :=
        fun h => hones (BitVec.eq_of_toNat_eq h)
      have hzero' : (@unpackExponent Format.binary64 b).toNat ≠ 0 :=
        fun h => hzero (BitVec.eq_of_toNat_eq h)
      simp only [InRange, toNat_implicit, hbias]
      omega

/-! ## Packing -/

theorem unpack_packedInfinity (s : Sign) :
    UnpackedFloat.unpack Format.binary64 (packedInfinity Format.binary64 s) = .infinity s := by
  simp [UnpackedFloat.unpack, packedInfinity]

theorem unpack_packedNaN :
    UnpackedFloat.unpack Format.binary64 (packedNaN Format.binary64) = .notANumber := by
  simp [UnpackedFloat.unpack, packedNaN]

theorem unpack_packedZero (s : Sign) :
    UnpackedFloat.unpack Format.binary64 (packedZero Format.binary64 s) = .zero s := by
  simp [UnpackedFloat.unpack, packedZero]

theorem finite_congr {s : Sign} {m m' : ℕ} {e e' : ℤ} (hm : m = m') (he : e = e') {h : 0 < m}
    {h' : 0 < m'} : UnpackedFloat.finite s m e h = .finite s m' e' h' := by
  subst hm he
  rfl

theorem unpack_normal (s : Sign) {E : BitVec 11} (hones : E ≠ -1#11) (hzero : E ≠ 0#11)
    (M : BitVec 52) :
    UnpackedFloat.unpack Format.binary64 (packComponents Format.binary64 s E M) =
      .finite s (2 ^ 52 + M.toNat) ((E.toNat : ℤ) - 1075) (by positivity) := by
  unfold UnpackedFloat.unpack
  simp only [unpackMantissa_packComponents, unpackExponent_packComponents,
    unpackSign_packComponents, ofBitVec_toBitVec]
  rw [if_neg hones, if_neg hzero]
  exact finite_congr (toNat_implicit M) rfl

theorem unpack_subnormal (s : Sign) {M : BitVec 52} (hM : M ≠ 0#52) :
    UnpackedFloat.unpack Format.binary64 (packComponents Format.binary64 s 0#11 M) =
      .finite s M.toNat (-1074) (Nat.pos_of_ne_zero fun h => hM (BitVec.eq_of_toNat_eq h)) := by
  unfold UnpackedFloat.unpack
  simp only [unpackMantissa_packComponents, unpackExponent_packComponents,
    unpackSign_packComponents, ofBitVec_toBitVec]
  rw [if_neg (show ¬(0#11 : BitVec 11) = -1#11 by decide), if_pos trivial, dif_neg hM]
  exact finite_congr rfl rfl

/-- What a format can hold survives packing. -/
theorem unpack_pack_finite {s : Sign} {m : ℕ} {e : ℤ} {hm : 0 < m}
    (hr : InRange (.finite s m e hm)) :
    UnpackedFloat.unpack Format.binary64 (UnpackedFloat.pack Format.binary64 (.finite s m e hm)) =
      .finite s m e hm := by
  obtain ⟨hlt, hlow, hhigh, hnormal⟩ := hr
  obtain ⟨b, hb⟩ := Int.eq_ofNat_of_zero_le (show 0 ≤ e + 1075 by omega)
  have hbiased : (e + (Format.binary64.exponentBias : ℤ) +
      (Format.binary64.mantissaBitsWithoutImplicit : ℤ)).toNat = b := by
    show (e + 1023 + 52).toNat = b
    omega
  unfold UnpackedFloat.pack
  simp only [hbiased]
  rw [if_neg (show ¬2 ^ 11 ≤ b + 1 by omega)]
  by_cases hbits : m.log2 + 1 = 53
  · have hmlow : 2 ^ 52 ≤ m := (Nat.le_log2 hm.ne').mp (by omega)
    have hE : (BitVec.ofNat 11 b).toNat = b := Nat.mod_eq_of_lt (by omega)
    have hM : (BitVec.ofNat 52 m).toNat = m - 2 ^ 52 := by
      rw [BitVec.toNat_ofNat]
      omega
    have hones : BitVec.ofNat 11 b ≠ -1#11 := fun h => by
      have : b = 2047 := hE ▸ congrArg BitVec.toNat h
      omega
    have hzero : BitVec.ofNat 11 b ≠ 0#11 := fun h => by
      have : b = 0 := hE ▸ congrArg BitVec.toNat h
      omega
    rw [if_pos (show m.log2 + 1 = Format.binary64.mantissaBits from hbits)]
    exact (unpack_normal s hones hzero _).trans
      (finite_congr (by rw [hM]; omega) (by rw [hE]; omega))
  · have hmhigh : m < 2 ^ 52 := by
      by_contra hge
      have := (Nat.le_log2 hm.ne').mpr (not_lt.mp hge)
      have := (Nat.log2_lt hm.ne').mpr hlt
      omega
    have hM : (BitVec.ofNat 52 m).toNat = m := Nat.mod_eq_of_lt hmhigh
    have hne : BitVec.ofNat 52 m ≠ 0#52 := fun h => by
      have : m = 0 := hM ▸ congrArg BitVec.toNat h
      omega
    rw [if_neg (show ¬m.log2 + 1 = Format.binary64.mantissaBits from hbits)]
    exact (unpack_subnormal s hne).trans (finite_congr hM (by omega))

theorem pack_overflow {s : Sign} {m : ℕ} {e : ℤ} {hm : 0 < m} (he : 972 ≤ e) :
    UnpackedFloat.pack Format.binary64 (.finite s m e hm) = packedInfinity Format.binary64 s := by
  unfold UnpackedFloat.pack
  dsimp only
  refine if_pos ?_
  show 2 ^ 11 ≤ (e + 1023 + 52).toNat + 1
  omega

/-! ## Stored results -/

/-- A magnitude with its sign; rounding can lead to zero. -/
def ofParts (s : Sign) (m : ℕ) (e : ℤ) : UnpackedFloat :=
  if h : m = 0 then .zero s else .finite s m e (Nat.pos_of_ne_zero h)

/-- The number that is stored for an unpacked result. -/
noncomputable def stored (u : UnpackedFloat) : Exact :=
  exactOf (UnpackedFloat.unpack Format.binary64 (UnpackedFloat.pack Format.binary64 u))

theorem stored_of_inRange {u : UnpackedFloat} (h : InRange u) : stored u = exactOf u := by
  cases u with
  | infinity s => exact congrArg exactOf (unpack_packedInfinity s)
  | notANumber => exact congrArg exactOf unpack_packedNaN
  | zero s => exact congrArg exactOf (unpack_packedZero s)
  | finite s m e hm => exact congrArg exactOf (unpack_pack_finite h)

/-- A canonical result that is too large for the format overflows. -/
theorem stored_ofParts (s : Sign) {m : ℕ} {e : ℤ} (hm : m < 2 ^ 53) (he : -1074 ≤ e)
    (hnormal : 2 ^ 52 ≤ m ∨ e = -1074) :
    stored (ofParts s m e) = signed s (overflowed (m * 2 ^ e)) := by
  rcases Nat.lt_or_ge 0 m with hpos | hzero
  · have hfinite : ofParts s m e = .finite s m e hpos := dif_neg hpos.ne'
    rw [hfinite]
    by_cases hrange : e ≤ 971
    · have hlt : (m * 2 ^ e : ℝ) < 2 ^ (1024 : ℤ) := by
        calc (m * 2 ^ e : ℝ) < 2 ^ 53 * 2 ^ e :=
              mul_lt_mul_of_pos_right (by exact_mod_cast hm) (two_zpow_pos e)
          _ = 2 ^ (53 + e) := by rw [zpow_add₀ two_ne_zero]; rfl
          _ ≤ 2 ^ (1024 : ℤ) := zpow_le_zpow_right₀ one_le_two (by omega)
      have hr : InRange (.finite s m e hpos) := ⟨hm, he, hrange, hnormal⟩
      rw [stored_of_inRange hr, overflowed, if_pos hlt]
      rfl
    · have hge : (2 : ℝ) ^ (1024 : ℤ) ≤ m * 2 ^ e := by
        have hmlow : 2 ^ 52 ≤ m := hnormal.resolve_right (by omega)
        calc (2 : ℝ) ^ (1024 : ℤ) ≤ 2 ^ (52 + e) := zpow_le_zpow_right₀ one_le_two (by omega)
          _ = 2 ^ 52 * 2 ^ e := by rw [zpow_add₀ two_ne_zero]; rfl
          _ ≤ m * 2 ^ e := mul_le_mul_of_nonneg_right (by exact_mod_cast hmlow) (two_zpow_pos e).le
      rw [stored, pack_overflow (by omega), unpack_packedInfinity, overflowed,
        if_neg (not_lt.mpr hge)]
      rfl
  · obtain rfl : m = 0 := Nat.le_zero.mp hzero
    have hnone : ofParts s 0 e = .zero s := rfl
    have hr : InRange (.zero s) := trivial
    rw [hnone, stored_of_inRange hr, Nat.cast_zero, zero_mul, overflowed,
      if_pos (two_zpow_pos _), signed_real_zero]
    rfl

end SolverPortfolio.Binary
