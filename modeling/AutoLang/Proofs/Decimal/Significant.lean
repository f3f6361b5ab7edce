import AutoLang.Decimal.Significant
import AutoLang.Proofs.Decimal.Significands
import Mathlib

/-! Rounding to so many significant digits. The exponent of the first digit is found without rounding, so
the digits are those of the number itself, and only one rounding takes place. It may reach the next power
of ten, which is then written with the digits it takes. -/

namespace AutoLang.Decimal

section Nearest

/-- a number by its whole part and what is behind it -/
theorem nearestNat_of_behind {x : ℚ} {q : ℕ} {f : ℚ} (hx : x = q + f) (h1 : f < 1) (h0 : 0 ≤ f) :
    (f < 1 / 2 → NearestNat x q) ∧ (1 / 2 < f → NearestNat x (q + 1)) ∧
      (f = 1 / 2 → NearestNat x (q + q % 2)) := by
  have hbelow : |(q : ℚ) - x| = f := by rw [hx, sub_add_cancel_left, abs_neg, abs_of_nonneg h0]
  have habove : |((q + 1 : ℕ) : ℚ) - x| = 1 - f := by
    rw [hx, Nat.cast_add, Nat.cast_one, add_sub_add_left_eq_sub, abs_of_pos (by linarith)]
  refine ⟨fun hf => ⟨by linarith, fun he => by linarith⟩,
    fun hf => ⟨by linarith, fun he => by linarith⟩, fun hf => ?_⟩
  rcases Nat.mod_two_eq_zero_or_one q with heven | hodd
  · rw [heven, Nat.add_zero]
    exact ⟨by linarith, fun _ => Nat.even_iff.2 heven⟩
  · rw [hodd]
    exact ⟨by linarith, fun _ => Nat.even_iff.2 (by omega)⟩

theorem nearestNat_nearest (num : ℕ) {den : ℕ} (h : 0 < den) :
    NearestNat (num / den) (nearest num den) := by
  have hden : (0 : ℚ) < den := Nat.cast_pos.2 h
  have hlt : (num % den : ℕ) / (den : ℚ) < 1 :=
    (div_lt_one hden).2 (by exact_mod_cast Nat.mod_lt num h)
  obtain ⟨hsmall, hlarge, htie⟩ :=
    nearestNat_of_behind (div_eq_whole_add num h) hlt (by positivity)
  unfold nearest
  dsimp only
  split
  · rename_i hr
    refine hsmall ?_
    rw [div_lt_div_iff₀ hden two_pos]
    norm_cast
    omega
  · split
    · rename_i hr
      refine hlarge ?_
      rw [div_lt_div_iff₀ two_pos hden]
      norm_cast
      omega
    · refine htie ?_
      rw [div_eq_div_iff hden.ne' two_ne_zero]
      norm_cast
      omega

end Nearest

/-- `r` is `a` rounded to so many significant digits, a tie to an even last digit -/
def IsRounded (places : ℕ) (a r : ℚ) : Prop :=
  if a = 0 then r = 0
  else ∃ (u : ℤ) (n : ℕ), 10 ^ (places - 1) ≤ a / 10 ^ u ∧ a / 10 ^ u < 10 ^ places ∧
    NearestNat (a / 10 ^ u) n ∧ r = n * 10 ^ u

section Exponent

variable {num den : ℕ}

theorem digitCount_pos (n : ℕ) : 0 < digitCount n := Nat.length_toDigits_pos

theorem lt_pow_digitCount (n : ℕ) : n < 10 ^ digitCount n :=
  (Nat.length_toDigits_le_iff (by decide) (digitCount_pos n)).1 le_rfl

theorem pow_digitCount_le {n : ℕ} (h : 0 < n) : 10 ^ (digitCount n - 1) ≤ n := by
  rcases Nat.eq_zero_or_pos (digitCount n - 1) with hone | hmore
  · rw [hone]
    exact h
  · by_contra hlt
    have := (Nat.length_toDigits_le_iff (by decide) hmore).2 (not_le.1 hlt)
    have hcount : (Nat.toDigits 10 n).length = digitCount n := rfl
    omega

/-- the first digit of a quotient counts the power of ten that its exponent says -/
theorem leadingExponent_spec (hnum : 0 < num) (hden : 0 < den) :
    (10 : ℚ) ^ leadingExponent num den ≤ num / den ∧
      (num / den : ℚ) < 10 ^ (leadingExponent num den + 1) := by
  have hd : (0 : ℚ) < den := Nat.cast_pos.2 hden
  rw [le_div_iff₀ hd, div_lt_iff₀ hd]
  unfold leadingExponent
  split
  · rename_i hle
    -- the digits of the whole part
    have hpos := Nat.div_pos hle hden
    have hlow := (Nat.le_div_iff_mul_le hden).1 (pow_digitCount_le hpos)
    have hhigh := (Nat.div_lt_iff_lt_mul hden).1 (lt_pow_digitCount (num / den))
    have hcount : ((digitCount (num / den) : ℤ) - 1) = (digitCount (num / den) - 1 : ℕ) := by
      have := digitCount_pos (num / den)
      omega
    rw [sub_add_cancel, hcount, zpow_natCast, zpow_natCast]
    exact ⟨by exact_mod_cast hlow, by exact_mod_cast hhigh⟩
  · rename_i hlt
    have hpos : 0 < (den - 1) / num := Nat.div_pos (by omega) hnum
    have hlow := (Nat.le_div_iff_mul_le hnum).1 (pow_digitCount_le hpos)
    have hhigh := (Nat.div_lt_iff_lt_mul hnum).1 (lt_pow_digitCount ((den - 1) / num))
    generalize hk : digitCount ((den - 1) / num) = k at hlow hhigh
    have hone : 0 < k := hk ▸ digitCount_pos _
    have hneg : -(k : ℤ) + 1 = -((k - 1 : ℕ) : ℤ) := by omega
    rw [hneg, zpow_neg, zpow_neg, zpow_natCast, zpow_natCast, inv_mul_le_iff₀ (by positivity),
      lt_inv_mul_iff₀ (by positivity)]
    constructor
    · exact_mod_cast (by omega : den ≤ 10 ^ k * num)
    · exact_mod_cast (by omega : 10 ^ (k - 1) * num < den)

end Exponent

theorem NearestNat.le {x : ℚ} {n k : ℕ} (h : NearestNat x n) (hk : k ≤ x) : k ≤ n := by
  obtain ⟨hlow, -⟩ := abs_le.1 h.within
  have : (k : ℚ) < (n + 1 : ℕ) := by
    push_cast
    linarith
  exact Nat.lt_succ_iff.1 (by exact_mod_cast this)

theorem NearestNat.ge {x : ℚ} {n k : ℕ} (h : NearestNat x n) (hk : x ≤ k) : n ≤ k := by
  obtain ⟨-, hhigh⟩ := abs_le.1 h.within
  have : (n : ℚ) < (k + 1 : ℕ) := by
    push_cast
    linarith
  exact Nat.lt_succ_iff.1 (by exact_mod_cast this)

/-- a power whose exponent may be negative, as a quotient -/
theorem zpow_toNat {b : ℚ} (hb : b ≠ 0) (k : ℤ) : b ^ k = b ^ k.toNat / b ^ (-k).toNat := by
  rw [← zpow_natCast, ← zpow_natCast, ← zpow_sub₀ hb]
  congr 1
  omega

namespace Scientific

/-- the number that is written with so many digits -/
def value (places : ℕ) (s : Scientific) : ℚ := s.digits * 10 ^ (s.exponent + 1 - places)

variable {places num den : ℕ}

/-- a quotient in units of a power of ten, as a quotient of whole numbers again -/
theorem quotient_in_units (num den : ℕ) (k : ℤ) :
    ((num * 10 ^ k.toNat : ℕ) / (den * 10 ^ (-k).toNat : ℕ) : ℚ) = num / den / 10 ^ (-k) := by
  rw [zpow_neg, div_inv_eq_mul, zpow_toNat (by norm_num), div_mul_div_comm]
  push_cast
  rfl

/-- counted in units of its last digit, a number has all of its digits before the point -/
theorem bounds_in_units {r : ℚ} {e : ℤ} (hplaces : 0 < places) (hlow : 10 ^ e ≤ r)
    (hhigh : r < 10 ^ (e + 1)) : 10 ^ (places - 1) ≤ r / 10 ^ (e + 1 - places) ∧
      r / 10 ^ (e + 1 - places) < 10 ^ places := by
  have hunit : (0 : ℚ) < 10 ^ (e + 1 - places) := by positivity
  constructor
  · rw [le_div_iff₀ hunit, ← zpow_natCast, ← zpow_add₀ (by norm_num)]
    refine (zpow_le_zpow_right₀ (by norm_num) ?_).trans hlow
    omega
  · rw [div_lt_iff₀ hunit, ← zpow_natCast, ← zpow_add₀ (by norm_num)]
    refine hhigh.trans_le (zpow_le_zpow_right₀ (by norm_num) ?_)
    omega

/-- a quotient is rounded to numbers that have so many digits -/
theorem ofQuotient_spec (hplaces : 0 < places) (hnum : 0 < num) (hden : 0 < den) :
    (10 ^ (places - 1) ≤ (ofQuotient places num den).digits ∧
        (ofQuotient places num den).digits < 10 ^ places) ∧
      IsRounded places (num / den) ((ofQuotient places num den).value places) := by
  obtain ⟨hlow, hhigh⟩ := leadingExponent_spec hnum hden
  have hne : (num / den : ℚ) ≠ 0 := by positivity
  unfold ofQuotient IsRounded
  simp only [Nat.pow_eq]
  rw [if_neg hne]
  generalize leadingExponent num den = e at hlow hhigh
  obtain ⟨hmin, hmax⟩ := bounds_in_units hplaces hlow hhigh
  have hnearest := nearestNat_nearest (num * 10 ^ ((places : ℤ) - 1 - e).toNat)
    (Nat.mul_pos hden (Nat.pow_pos (by decide) : 0 < 10 ^ (-((places : ℤ) - 1 - e)).toNat))
  have hneg : -((places : ℤ) - 1 - e) = e + 1 - places := by ring
  rw [quotient_in_units, hneg] at hnearest
  rw [hneg]
  generalize nearest _ _ = n at hnearest
  have hleast : 10 ^ (places - 1) ≤ n := hnearest.le (by exact_mod_cast hmin)
  have hmost : n ≤ 10 ^ places := hnearest.ge (by exact_mod_cast hmax.le)
  split
  · rename_i hlt
    exact ⟨⟨hleast, hlt⟩, _, n, hmin, hmax, hnearest, rfl⟩
  · -- one digit more than there is room for, so the last one is a zero
    rename_i hge
    obtain rfl : n = 10 ^ places := le_antisymm hmost (not_lt.1 hge)
    have hstep : 10 ^ places / 10 = 10 ^ (places - 1) := by
      obtain ⟨p, rfl⟩ := Nat.exists_eq_add_of_lt hplaces
      rw [zero_add, pow_succ, Nat.mul_div_cancel _ (by decide), Nat.add_sub_cancel]
    rw [hstep]
    refine ⟨⟨le_rfl, Nat.pow_lt_pow_right (by decide) (by omega)⟩, _, _, hmin, hmax, hnearest, ?_⟩
    rw [value]
    push_cast
    rw [← zpow_natCast, ← zpow_natCast, ← zpow_add₀ (by norm_num), ← zpow_add₀ (by norm_num)]
    congr 1
    omega

end Scientific

end AutoLang.Decimal
