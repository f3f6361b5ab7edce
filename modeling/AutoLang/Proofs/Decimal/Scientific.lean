import AutoLang.Decimal.Read
import AutoLang.Proofs.Decimal.Nearest
import Mathlib

/-! Decimal numerals as doubles. A few digits over a small power of ten are divided as doubles, which
both of them are; the rest is divided exactly, with enough binary digits to be rounded once. -/

namespace AutoLang.Decimal

open Float.Model (Format UnpackedFloat totalExponent)
open Float.Model.UnpackedFloat (Accuracy ExtendedMantissa accuracyOfFraction)

section Round

variable {r : ℚ} {m n : ℕ} {e t : ℤ} {acc : Accuracy}

/-- the exponent that a number of `m` times `2 ^ e` is rounded to -/
def target (m : ℕ) (e : ℤ) : ℤ := max (m.log2 + 1 + e - 53) (-1074)

theorem targetExponent_eq (m : ℕ) (e : ℤ) :
    Format.binary64.targetExponent (totalExponent m e) = target m e := rfl

theorem zpow_split (htarget : e ≤ t) : (2 : ℚ) ^ t = 2 ^ e * 2 ^ (t - e).toNat := by
  rw [← zpow_natCast, ← zpow_add₀ two_ne_zero, Int.toNat_of_nonneg (by omega)]
  congr 1
  omega

/-- the units that a significand is rounded to are those of a double -/
theorem inUnits_target (hle : m ≤ r / 2 ^ e) (hlt : r / 2 ^ e < m + 1) (he : e ≤ target m e) :
    InUnits r (target m e) := by
  generalize ht : target m e = t at *
  have hshift : r / 2 ^ t = r / 2 ^ e / 2 ^ (t - e).toNat := by rw [zpow_split he, div_div]
  have hpos : (0 : ℚ) < 2 ^ (t - e).toNat := by positivity
  unfold target at ht
  refine ⟨by omega, or_iff_not_imp_left.2 fun hne => ?_, ?_⟩
  · -- the mantissa has as many digits more as are shifted out
    have hm : m ≠ 0 := by
      rintro rfl
      rw [Nat.log2_zero] at ht
      omega
    have hdigits : m.log2 = 52 + (t - e).toNat := by omega
    have hlow : (2 : ℚ) ^ (52 + (t - e).toNat) ≤ m := by
      rw [← hdigits]
      exact_mod_cast Nat.log2_self_le hm
    rw [hshift, le_div_iff₀ hpos, ← pow_add]
    exact hlow.trans hle
  · have hdigits : m.log2 + 1 ≤ 53 + (t - e).toNat := by omega
    have hhigh : (m + 1 : ℚ) ≤ 2 ^ (m.log2 + 1) := by exact_mod_cast Nat.lt_log2_self
    rw [hshift, div_lt_iff₀ hpos, ← pow_add]
    exact (hlt.trans_le hhigh).trans_le (pow_le_pow_right₀ one_le_two hdigits)

/-- a mantissa that fits stays as it is, and one that does not is shifted once more -/
theorem shift_rounded (h : Canonical (settle n t).1 (settle n t).2) :
    (ExtendedMantissa.ofMantissaAndAccuracy n .exact >>> (target n t - t).toNat).mantissa =
        (settle n t).1 ∧ t + (target n t - t).toNat = (settle n t).2 := by
  have hleast := h.least
  have hlt := h.lt
  unfold settle at *
  split at hlt
  · rename_i hn
    have hlog : (2 ^ 53).log2 = 53 := Nat.log2_two_pow
    have htarget : (target n t - t).toNat = 1 := by
      rw [if_pos hn] at hleast
      rw [target, hn, hlog]
      omega
    rw [if_pos hn, htarget, hn]
    exact ⟨rfl, rfl⟩
  · rename_i hn
    have htarget : (target n t - t).toNat = 0 := by
      have hlog : n.log2 ≤ 52 := by
        by_cases h0 : n = 0
        · rw [h0, Nat.log2_zero]
          omega
        · exact Nat.lt_succ_iff.1 ((Nat.log2_lt h0).2 hlt)
      rw [if_neg hn] at hleast
      rw [target]
      omega
    rw [if_neg hn, htarget]
    exact ⟨rfl, add_zero t⟩

/-- rounding gives the nearest number of units -/
theorem round_eq (hcut : Cut (r / 2 ^ e) (.ofMantissaAndAccuracy m acc)) (he : e ≤ target m e) :
    InUnits r (target m e) ∧ ∃ n, NearestNat (r / 2 ^ target m e) n ∧
      UnpackedFloat.roundWithAccuracy .binary64 .positive m e acc =
        magnitude (settle n (target m e)).1 (settle n (target m e)).2 := by
  have hmantissa : (ExtendedMantissa.ofMantissaAndAccuracy m acc).mantissa = m := by
    cases acc with
    | exact => rfl
    | inexact half => cases half <;> rfl
  have hunits := inUnits_target (hmantissa ▸ hcut.le) (hmantissa ▸ hcut.lt) he
  have hnearest := (hcut.shiftRight (target m e - e).toNat).nearest
  rw [div_div, ← zpow_split he] at hnearest
  refine ⟨hunits, _, hnearest, ?_⟩
  have hexponent : e + (target m e - e).toNat = target m e := by omega
  unfold UnpackedFloat.roundWithAccuracy UnpackedFloat.shiftToTargetExponent
    UnpackedFloat.shiftToExponent
  simp only [targetExponent_eq, hexponent]
  obtain ⟨hm, hq⟩ := shift_rounded (hunits.canonical hnearest)
  rw [← hm, ← hq]
  rfl

/-- the double that a significand is rounded to is the nearest one -/
theorem isNearest_round (hcut : Cut (r / 2 ^ e) (.ofMantissaAndAccuracy m acc))
    (he : e ≤ target m e) :
    IsNearest r ⟨.pack (UnpackedFloat.roundWithAccuracy .binary64 .positive m e acc)⟩ := by
  obtain ⟨hunits, n, hn, heq⟩ := round_eq hcut he
  rw [heq]
  exact hunits.isNearest hn

/-- less than half of the least unit is no double but zero -/
theorem isNearest_zero (h : 0 ≤ r) (hlt : r / 2 ^ (-1074 : ℤ) < 1 / 2) :
    IsNearest r ⟨.pack (.zero .positive)⟩ := by
  have hunits : InUnits r (-1074) := ⟨le_rfl, .inl rfl, by linarith⟩
  have hnonneg : 0 ≤ r / 2 ^ (-1074 : ℤ) := div_nonneg h (zpow_pos two_pos _).le
  have hbehind : |((0 : ℕ) : ℚ) - r / 2 ^ (-1074 : ℤ)| < 1 / 2 := by
    rw [Nat.cast_zero, zero_sub, abs_neg, abs_of_nonneg hnonneg]
    exact hlt
  exact hunits.isNearest ⟨hbehind.le, fun he => absurd he hbehind.ne⟩

end Round

theorem log2_shiftLeft {a : ℕ} (ha : a ≠ 0) (k : ℕ) : (a <<< k).log2 = a.log2 + k := by
  have hpos : 0 < 2 ^ k := Nat.two_pow_pos k
  rw [Nat.shiftLeft_eq, Nat.log2_eq_iff (Nat.mul_pos (Nat.pos_of_ne_zero ha) hpos).ne',
    Nat.add_right_comm, pow_add, pow_add]
  exact ⟨Nat.mul_le_mul_right _ (Nat.log2_self_le ha),
    Nat.mul_lt_mul_of_pos_right Nat.lt_log2_self hpos⟩

/-- a number in units so small that it is a whole number of them -/
theorem shiftLeft_units (m k : ℕ) : (m / 2 ^ (-(k : ℤ)) : ℚ) = (m <<< k : ℕ) := by
  rw [zpow_neg, zpow_natCast, div_inv_eq_mul, Nat.shiftLeft_eq, Nat.cast_mul, Nat.cast_pow,
    Nat.cast_ofNat]

section Quotient

variable {a b : ℚ} {x y : Float}

/-- the double holds just this number -/
def Holds (x : Float) (a : ℚ) : Prop :=
  ∃ (m : ℕ) (q : ℤ), Parts.ofFloat x = .finite false m q ∧ m * 2 ^ q = a

theorem unpack_of_ofFloat {m : ℕ} {q : ℤ} (h : Parts.ofFloat x = .finite false m q) :
    x.toModel.unpack = magnitude m q := by
  rw [Parts.ofFloat_eq] at h
  cases hu : x.toModel.unpack with
  | notANumber | infinity => rw [hu] at h; cases h
  | zero s =>
    rw [hu] at h
    cases s with
    | negative => cases h
    | positive =>
      cases h
      rfl
  | finite s m' q' hm =>
    rw [hu] at h
    cases s with
    | negative => cases h
    | positive =>
      cases h
      rw [magnitude, dif_neg hm.ne']

/-- a quotient has digits enough to be rounded when the dividend is shifted as far as it is -/
theorem target_quotient {m n : ℕ} (hm : m ≠ 0) (hn : n ≠ 0) {e f t : ℤ}
    (ht : t = min (e - f) (max (totalExponent m e - totalExponent n f - 53) (-1074))) :
    t ≤ target ((m <<< (e - f - t).toNat) / n) t := by
  have htm : totalExponent m e = m.log2 + 1 + e := rfl
  have htn : totalExponent n f = n.log2 + 1 + f := rfl
  unfold target
  by_cases hleast : t ≤ -1074
  · exact hleast.trans (le_max_right _ _)
  have hdigits : n.log2 + 53 ≤ m.log2 + (e - f - t).toNat := by omega
  have hlarge : 2 ^ 52 ≤ (m <<< (e - f - t).toNat) / n := by
    rw [Nat.le_div_iff_mul_le (Nat.pos_of_ne_zero hn), Nat.shiftLeft_eq]
    calc 2 ^ 52 * n ≤ 2 ^ 52 * 2 ^ (n.log2 + 1) := Nat.mul_le_mul_left _ Nat.lt_log2_self.le
      _ = 2 ^ (n.log2 + 53) := by ring
      _ ≤ 2 ^ (m.log2 + (e - f - t).toNat) := Nat.pow_le_pow_right two_pos hdigits
      _ ≤ m * 2 ^ (e - f - t).toNat := by
        rw [pow_add]
        exact Nat.mul_le_mul_right _ (Nat.log2_self_le hm)
  have hlog := (Nat.le_log2 (by omega)).2 hlarge
  omega

theorem isNearest_div {m n : ℕ} (hm : 0 < m) (hn : 0 < n) (e f : ℤ) :
    IsNearest (m * 2 ^ e / (n * 2 ^ f))
      ⟨.pack (.div .binary64 (.finite .positive m e hm) (.finite .positive n f hn))⟩ := by
  obtain ⟨t, ht⟩ : ∃ t, t =
    min (e - f) (max (totalExponent m e - totalExponent n f - 53) (-1074)) := ⟨_, rfl⟩
  have hcore : UnpackedFloat.divCore .binary64 m e n f = ((m <<< (e - f - t).toNat) / n, t,
      accuracyOfFraction ((m <<< (e - f - t).toNat) % n) n) := by
    rw [ht]
    rfl
  have hquotient : (m * 2 ^ e / (n * 2 ^ f) / 2 ^ t : ℚ) =
      ((m <<< (e - f - t).toNat : ℕ) : ℚ) / n := by
    have hshift : (2 : ℚ) ^ e = 2 ^ f * 2 ^ t * 2 ^ (e - f - t).toNat := by
      rw [mul_assoc, ← zpow_split (show t ≤ e - f by omega), ← zpow_add₀ two_ne_zero]
      congr 1
      omega
    rw [hshift, Nat.shiftLeft_eq]
    push_cast
    field_simp
  change IsNearest _ ⟨.pack (match UnpackedFloat.divCore .binary64 m e n f with
    | (m, e, acc) => UnpackedFloat.roundWithAccuracy .binary64 .positive m e acc)⟩
  rw [hcore]
  exact isNearest_round (hquotient ▸ .quotient _ hn) (target_quotient hm.ne' hn.ne' ht)

theorem Holds.div (hx : Holds x a) (hy : Holds y b) (hb : 0 < b) : IsNearest (a / b) (x / y) := by
  obtain ⟨m, e, hx, rfl⟩ := hx
  obtain ⟨n, f, hy, rfl⟩ := hy
  have hn : n ≠ 0 := by
    rintro rfl
    simp at hb
  change IsNearest _ ⟨.pack (UnpackedFloat.div .binary64 x.toModel.unpack y.toModel.unpack)⟩
  rw [unpack_of_ofFloat hx, unpack_of_ofFloat hy, magnitude, magnitude, dif_neg hn]
  split
  · rename_i hm
    rw [hm, Nat.cast_zero, zero_mul, zero_div]
    exact isNearest_zero le_rfl (by norm_num)
  · exact isNearest_div _ _ e f

end Quotient

/-- a whole number that fits in a mantissa is a double -/
theorem holds_toFloat {m : ℕ} (h : m < 2 ^ 53) : Holds m.toUInt64.toFloat m := by
  have hword : m.toUInt64.toNat = m := Nat.mod_eq_of_lt (by omega)
  have hround : m.toUInt64.toFloat = ⟨.pack (.normalize .binary64 m 0 .positive)⟩ := by
    conv_rhs => rw [← hword]
    rfl
  rw [hround]
  by_cases hm : m = 0
  · subst hm
    exact ⟨0, -1074, by decide, by simp⟩
  have hlog : m.log2 ≤ 52 := Nat.lt_succ_iff.1 ((Nat.log2_lt hm).2 h)
  -- it is shifted to fill the mantissa, and nothing is cut off
  obtain ⟨k, hk⟩ : ∃ k, k = (0 - target m 0).toNat := ⟨_, rfl⟩
  have hshift : k = 52 - m.log2 := by
    rw [hk, target]
    omega
  have hfull : (m <<< k).log2 = 52 := by
    rw [log2_shiftLeft hm]
    omega
  have hlt : m <<< k < 2 ^ 53 := (Nat.log2_lt (by rw [Nat.shiftLeft_eq]; positivity)).1 (by omega)
  have htarget : target (m <<< k) (-(k : ℤ)) = -(k : ℤ) := by
    rw [target, hfull]
    omega
  have hunits := shiftLeft_units m k
  obtain ⟨hin, n, hn, heq⟩ := round_eq (hunits ▸ Cut.exact (m <<< k)) htarget.ge
  rw [htarget] at hin hn heq
  obtain rfl : n = m <<< k := (hunits ▸ hn).unique
  have hsettle : settle (m <<< k) (-(k : ℤ)) = (m <<< k, -(k : ℤ)) := if_neg hlt.ne
  have hnormal : UnpackedFloat.normalize .binary64 m 0 .positive =
      UnpackedFloat.roundWithAccuracy .binary64 .positive (m <<< k) (-(k : ℤ)) .exact := by
    have hgt : compare (m : ℤ) 0 = .gt := Int.compare_eq_gt.2 (by omega)
    rw [UnpackedFloat.normalize, hgt]
    simp only [UnpackedFloat.round, UnpackedFloat.decreaseExponent, Int.toNat_natCast,
      targetExponent_eq, hk, zero_sub]
  have hparts := (hin.canonical hn).ofFloat_pack
  rw [← heq, ← hnormal, hsettle, if_neg (by omega)] at hparts
  refine ⟨m <<< k, -(k : ℤ), hparts, ?_⟩
  rw [← hunits, div_mul_cancel₀ _ (zpow_pos two_pos _).ne']

/-- a double taken apart is the whole number `n` -/
def Parts.isNat (n : ℕ) : Parts → Bool
  | finite false m q => m * 2 ^ q.toNat == n * 2 ^ (-q).toNat
  | _ => false

theorem holds_of_isNat {x : Float} {n : ℕ} (h : (Parts.ofFloat x).isNat n) : Holds x n := by
  cases hx : Parts.ofFloat x with
  | nan | infinite => rw [hx] at h; cases h
  | finite negative m q =>
    rw [hx] at h
    cases negative with
    | true => cases h
    | false =>
      refine ⟨m, q, hx, ?_⟩
      have heq : (m * 2 ^ q.toNat : ℚ) = n * 2 ^ (-q).toNat := by exact_mod_cast beq_iff_eq.1 h
      have hsplit : (2 : ℚ) ^ q = 2 ^ q.toNat / 2 ^ (-q).toNat := by
        rw [← zpow_natCast, ← zpow_natCast, ← zpow_sub₀ two_ne_zero]
        congr 1
        omega
      rw [hsplit, ← mul_div_assoc, heq, mul_div_cancel_right₀ _ (by positivity)]

theorem isNat_powers : ∀ d : Fin Float.exactlyRepresentablePowersOfTen.size,
    (Parts.ofFloat Float.exactlyRepresentablePowersOfTen[d]).isNat (10 ^ d.val) := by
  decide

/-- the powers of ten that are divided by are held as such -/
theorem holds_powers {d : ℕ} (h : d < Float.exactlyRepresentablePowersOfTen.size) :
    Holds Float.exactlyRepresentablePowersOfTen[d] (10 ^ d : ℕ) :=
  holds_of_isNat (isNat_powers ⟨d, h⟩)

theorem mul_eq {m n : ℕ} (hm : 0 < m) (hn : 0 < n) (e f : ℤ) :
    UnpackedFloat.mul .binary64 (.finite .positive m e hm) (.finite .positive n f hn) =
      UnpackedFloat.roundWithAccuracy .binary64 .positive (m * n) (e + f) .exact := rfl

/-- a whole number is rounded with digits to spare -/
theorem isNearest_whole {m : ℕ} (hm : m ≠ 0) : IsNearest m ⟨.pack
    (UnpackedFloat.roundWithAccuracy .binary64 .positive (m <<< 53) (-(53 : ℕ)) .exact)⟩ := by
  have hcut : Cut (m / 2 ^ (-((53 : ℕ) : ℤ))) (.ofMantissaAndAccuracy (m <<< 53) .exact) := by
    rw [shiftLeft_units]
    exact .exact _
  refine isNearest_round hcut ?_
  rw [target, log2_shiftLeft hm]
  omega

/-- a fraction too small for any double -/
theorem isNearest_tiny {m d : ℕ} (hd : 2048 + m.log2 < d) :
    IsNearest (m / 10 ^ d) ⟨.pack (.zero .positive)⟩ := by
  refine isNearest_zero (by positivity) ?_
  have hm : (m : ℚ) < 2 ^ (m.log2 + 1) := by exact_mod_cast Nat.lt_log2_self
  have hden : (2 : ℚ) ^ (m.log2 + 1) * 2 ^ 1075 ≤ 10 ^ d :=
    calc (2 : ℚ) ^ (m.log2 + 1) * 2 ^ 1075 ≤ 2 ^ d := by
          rw [← pow_add]
          exact pow_le_pow_right₀ one_le_two (by omega)
      _ ≤ 10 ^ d := pow_le_pow_left₀ two_pos.le (by norm_num) d
  have hunit : (m / 10 ^ d / 2 ^ (-1074 : ℤ) : ℚ) = m * 2 ^ 1074 / 10 ^ d := by
    rw [show (-1074 : ℤ) = -((1074 : ℕ) : ℤ) from rfl, zpow_neg, zpow_natCast, div_inv_eq_mul,
      div_mul_eq_mul_div]
  rw [hunit, div_lt_div_iff₀ (by positivity) two_pos, one_mul, mul_assoc, ← pow_succ]
  exact (mul_lt_mul_of_pos_right hm (by positivity)).trans_le hden

/-- the double that a decimal numeral reads as is the nearest one -/
theorem isNearest_ofScientific (m d : ℕ) :
    IsNearest (m / 10 ^ d) (Float.ofScientific m true d) := by
  unfold Float.ofScientific
  split
  · rename_i h
    have hpow := holds_powers (Nat.lt_succ_iff.2 h.2)
    rw [Nat.cast_pow] at hpow
    exact (holds_toFloat h.1).div hpow (by positivity)
  · change IsNearest _ ⟨.pack (.ofScientific .binary64 m (Int.negOfNat d))⟩
    have hbits : (2 : ℤ) ^ Format.binary64.exponentBits = 2048 := rfl
    rw [Int.negOfNat_eq, UnpackedFloat.ofScientific]
    simp only [Int.ofNat_eq_natCast, hbits, neg_neg, Int.toNat_natCast]
    split
    · rename_i hm
      rw [hm, Nat.cast_zero, zero_div]
      exact isNearest_zero le_rfl (by norm_num)
    rename_i hm
    rw [if_neg (by omega)]
    split
    · rename_i hd
      exact isNearest_tiny (by omega)
    split
    · rename_i hd
      obtain rfl : d = 0 := by omega
      have hone : m <<< Format.binary64.mantissaBits * 10 ^ (-((0 : ℕ) : ℤ)).toNat = m <<< 53 :=
        mul_one _
      rw [mul_eq, hone, add_zero, pow_zero, div_one]
      exact isNearest_whole hm
    · have hpow : 0 < 10 ^ d := Nat.pow_pos (by decide)
      have hdiv := isNearest_div (Nat.pos_of_ne_zero hm) hpow 0 0
      push_cast at hdiv
      rwa [mul_one, mul_one] at hdiv

end AutoLang.Decimal
