import Mathlib

/-! How a significand is rounded. Of a number that was cut off, the significand keeps the whole part, a
bit for the half behind it, and a bit that says whether anything else is behind it. This is kept when a
binary digit is shifted out, and it is enough to find the nearest whole number and the even one of two. -/

namespace AutoLang.Decimal

open Float.Model.UnpackedFloat (Accuracy ExtendedMantissa accuracyOfFraction)

/-- the whole number nearest to `x`, the even one of two -/
structure NearestNat (x : ℚ) (n : ℕ) : Prop where
  within : |(n : ℚ) - x| ≤ 1 / 2
  even : |(n : ℚ) - x| = 1 / 2 → Even n

namespace NearestNat

variable {x : ℚ} {n : ℕ}

/-- no whole number is closer, and one that is as close leaves an even number -/
theorem closest (h : NearestNat x n) (k : ℤ) :
    |(n : ℚ) - x| ≤ |k - x| ∧ (|(n : ℚ) - x| = |k - x| → k = n ∨ Even n) := by
  by_cases hk : k = n
  · rw [hk, Int.cast_natCast]
    exact ⟨le_rfl, fun _ => .inl rfl⟩
  -- another whole number is at least one away from `n`
  have hone : (1 : ℚ) ≤ |(k : ℚ) - n| := by
    have := Int.one_le_abs (sub_ne_zero.2 hk)
    exact_mod_cast this
  have hsum : |(k : ℚ) - n| ≤ |k - x| + |(n : ℚ) - x| := by
    rw [abs_sub_comm (n : ℚ) x]
    exact abs_sub_le _ _ _
  have hwithin := h.within
  refine ⟨by linarith, fun he => .inr (h.even ?_)⟩
  linarith

theorem unique {k : ℕ} (h : NearestNat k n) : n = k := by
  have hclose := (h.closest k).1
  rw [Int.cast_natCast, sub_self, abs_zero] at hclose
  have hzero := abs_nonpos_iff.1 hclose
  exact_mod_cast sub_eq_zero.1 hzero

end NearestNat

/-- a distance, measured in units -/
theorem abs_units {u : ℚ} (hu : 0 < u) (k r : ℚ) : |k * u - r| = |k - r / u| * u := by
  rw [← abs_of_pos hu, ← abs_mul, abs_of_pos hu, sub_mul, div_mul_cancel₀ _ hu.ne']

/-- a quotient is its whole part and what is behind it -/
theorem div_eq_whole_add (a : ℕ) {b : ℕ} (hb : 0 < b) :
    (a / b : ℚ) = (a / b : ℕ) + (a % b : ℕ) / b := by
  have hbq : (0 : ℚ) < b := Nat.cast_pos.2 hb
  rw [eq_comm, ← eq_sub_iff_add_eq', div_eq_iff hbq.ne', sub_mul, div_mul_cancel₀ _ hbq.ne',
    eq_sub_iff_add_eq]
  exact_mod_cast Nat.mod_add_div' a b

/-- `x` was cut to a significand: its whole part is the mantissa -/
structure Cut (x : ℚ) (em : ExtendedMantissa) : Prop where
  le : em.mantissa ≤ x
  lt : x < em.mantissa + 1
  round : em.roundBit ↔ em.mantissa + 1 / 2 ≤ x
  sticky : em.stickyBit ↔ x ≠ em.mantissa ∧ x ≠ em.mantissa + 1 / 2

namespace Cut

variable {x : ℚ} {em : ExtendedMantissa}

/-- a number between two whole numbers, by what is behind the lower one -/
theorem of_behind {m : ℕ} {f : ℚ} (hm : em.mantissa = m) (h0 : 0 ≤ f) (h1 : f < 1)
    (hround : em.roundBit ↔ 1 / 2 ≤ f) (hsticky : em.stickyBit ↔ f ≠ 0 ∧ f ≠ 1 / 2) :
    Cut (m + f) em where
  le := by rw [hm]; linarith
  lt := by rw [hm]; linarith
  round := by rw [hm, add_le_add_iff_left, hround]
  sticky := by rw [hm, ne_eq, add_eq_left, ne_eq, add_right_inj, hsticky]

theorem exact (m : ℕ) : Cut m (.ofMantissaAndAccuracy m .exact) := by
  have hcut : Cut (m + 0) (.ofMantissaAndAccuracy m .exact) :=
    of_behind rfl le_rfl one_pos ⟨nofun, fun h => absurd h (by norm_num)⟩
      ⟨nofun, fun h => absurd rfl h.1⟩
  rwa [add_zero] at hcut

/-- a quotient is cut to its whole part, by what the division leaves -/
theorem quotient (a : ℕ) {b : ℕ} (hb : 0 < b) :
    Cut (a / b) (.ofMantissaAndAccuracy (a / b) (accuracyOfFraction (a % b) b)) := by
  have hbq : (0 : ℚ) < b := Nat.cast_pos.2 hb
  have hsplit := div_eq_whole_add a hb
  have hlt : (a % b : ℕ) / (b : ℚ) < 1 := (div_lt_one hbq).2 (by exact_mod_cast Nat.mod_lt a hb)
  have hhalf : (1 : ℚ) / 2 ≤ (a % b : ℕ) / b ↔ b ≤ 2 * (a % b) := by
    rw [div_le_div_iff₀ two_pos hbq]
    norm_cast
    omega
  have heq : ((a % b : ℕ) : ℚ) / b = 1 / 2 ↔ 2 * (a % b) = b := by
    rw [div_eq_div_iff hbq.ne' two_ne_zero]
    norm_cast
    omega
  have hzero : ((a % b : ℕ) : ℚ) / b = 0 ↔ a % b = 0 := by
    rw [div_eq_zero_iff, or_iff_left hbq.ne', Nat.cast_eq_zero]
  rcases Nat.eq_zero_or_pos (a % b) with hr | hr
  · rw [accuracyOfFraction, if_pos hr, hsplit, hr, Nat.cast_zero, zero_div, add_zero]
    exact exact _
  rw [accuracyOfFraction, if_neg hr.ne', hsplit]
  -- the rest against a half
  cases hc : compare (2 * (a % b)) b with
  | lt =>
    have := Nat.compare_eq_lt.1 hc
    refine of_behind rfl (by positivity) hlt ⟨nofun, fun h => ?_⟩ ⟨fun _ => ?_, fun _ => rfl⟩
    · rw [hhalf] at h
      omega
    · rw [ne_eq, ne_eq, hzero, heq]
      omega
  | eq =>
    have := Nat.compare_eq_eq.1 hc
    refine of_behind rfl (by positivity) hlt ⟨fun _ => hhalf.2 (by omega), fun _ => rfl⟩
      ⟨nofun, fun h => absurd (heq.2 this) h.2⟩
  | gt =>
    have := Nat.compare_eq_gt.1 hc
    refine of_behind rfl (by positivity) hlt ⟨fun _ => hhalf.2 (by omega), fun _ => rfl⟩
      ⟨fun _ => ?_, fun _ => rfl⟩
    rw [ne_eq, ne_eq, hzero, heq]
    omega

/-- the two bits say together whether anything is behind the mantissa -/
theorem behind_iff (h : Cut x em) : em.roundBit || em.stickyBit ↔ x ≠ em.mantissa := by
  rw [Bool.or_eq_true, h.round, h.sticky]
  constructor
  · rintro (hhalf | hsome)
    · exact fun he => by linarith
    · exact hsome.1
  · intro hne
    by_cases he : x = em.mantissa + 1 / 2
    · exact .inl he.ge
    · exact .inr ⟨hne, he⟩

/-- one binary digit is shifted out: it becomes the half, and the half joins what is behind it -/
theorem shiftRightOne (h : Cut x em) : Cut (x / 2) em.shiftRightOne := by
  have hle := h.le
  have hlt := h.lt
  obtain ⟨k, hk | hk⟩ := Nat.even_or_odd' em.mantissa
  · have hx : x / 2 = k + (x - em.mantissa) / 2 := by
      rw [hk]
      push_cast
      ring
    have hbit : em.shiftRightOne.roundBit = false := by
      simp [ExtendedMantissa.shiftRightOne, hk]
    rw [hx]
    refine of_behind (show em.mantissa / 2 = k by omega) (by linarith) (by linarith)
      ⟨fun hhalf => ?_, fun hhalf => ?_⟩
      (h.behind_iff.trans ⟨fun hne => ⟨fun he => hne ?_, fun he => ?_⟩, ?_⟩)
    · rw [hbit] at hhalf
      cases hhalf
    · linarith
    · linarith
    · linarith
    · exact fun hne he => hne.1 (by rw [he, sub_self, zero_div])
  · have hx : x / 2 = k + (1 + (x - em.mantissa)) / 2 := by
      rw [hk]
      push_cast
      ring
    have hbit : em.shiftRightOne.roundBit = true := by
      simp [ExtendedMantissa.shiftRightOne, hk]
    rw [hx]
    refine of_behind (show em.mantissa / 2 = k by omega) (by linarith) (by linarith)
      ⟨fun _ => by linarith, fun _ => hbit⟩
      (h.behind_iff.trans ⟨fun hne => ⟨fun he => ?_, fun he => hne ?_⟩, ?_⟩)
    · linarith
    · linarith
    · exact fun hne he => hne.2 (by rw [he, sub_self, add_zero])

theorem shiftRight (h : Cut x em) (n : ℕ) : Cut (x / 2 ^ n) (em >>> n) := by
  change Cut _ (n.repeat ExtendedMantissa.shiftRightOne em)
  induction n with
  | zero => rwa [pow_zero, div_one]
  | succ n ih =>
    rw [Nat.repeat, pow_succ, ← div_div]
    exact ih.shiftRightOne

/-- the bits behind the mantissa say which way to round -/
theorem nearest (h : Cut x em) : NearestNat x em.roundedMantissa := by
  obtain ⟨m, round, sticky⟩ := em
  obtain ⟨hle, hlt, hround, hsticky⟩ := h
  dsimp only at hle hlt hround hsticky
  cases round with
  | false =>
    have hbelow : x < m + 1 / 2 := not_le.1 fun hhalf => nomatch hround.2 hhalf
    have hround : |(m : ℚ) - x| < 1 / 2 := abs_sub_lt_iff.2 ⟨by linarith, by linarith⟩
    have hnearest : NearestNat x m := ⟨hround.le, fun he => absurd he hround.ne⟩
    cases sticky <;> exact hnearest
  | true =>
    have habove : m + 1 / 2 ≤ x := hround.1 rfl
    cases sticky with
    | false =>
      have htie : x = m + 1 / 2 := by
        by_contra hne
        exact nomatch hsticky.2 ⟨by linarith, hne⟩
      have heven : Even (m + m % 2) := Nat.even_iff.2 (by omega)
      have hhalf : |((m + m % 2 : ℕ) : ℚ) - x| = 1 / 2 := by
        rcases Nat.mod_two_eq_zero_or_one m with hm | hm <;> rw [hm, htie] <;> push_cast <;> norm_num
      exact ⟨hhalf.le, fun _ => heven⟩
    | true =>
      have hne : x ≠ m + 1 / 2 := (hsticky.1 rfl).2
      have habove : (m : ℚ) + 1 / 2 < x := lt_of_le_of_ne habove hne.symm
      have hround : |((m + 1 : ℕ) : ℚ) - x| < 1 / 2 := by
        push_cast
        exact abs_sub_lt_iff.2 ⟨by linarith, by linarith⟩
      exact ⟨hround.le, fun he => absurd he hround.ne⟩

end Cut

end AutoLang.Decimal
