import AutoLang.Proofs.Decimal.Integers
import AutoLang.Proofs.Decimal.Significant
import Mathlib

/-! Rounded decimals that are read again. What reads as a double lies within half a unit of it, and so
does what lies between. Decimals with few digits are further apart than doubles are, except among the
smallest doubles; there the doubles are evenly spaced. So if any decimal with so many digits reads as a
double, the one it is rounded to does. -/

namespace AutoLang.Decimal

section Units

variable {r s a : ℚ} {x : Float} {m n : ℕ} {q t : ℤ}

theorem exists_nearestNat (h : 0 ≤ r) : ∃ n, NearestNat r n := by
  refine ⟨nearest r.num.toNat r.den, ?_⟩
  have hnum : (r.num.toNat : ℤ) = r.num := Int.toNat_of_nonneg (Rat.num_nonneg.2 h)
  have hr : (r.num.toNat / r.den : ℚ) = r := by
    conv_rhs => rw [← Rat.num_div_den r, ← hnum]
    rw [Int.cast_natCast]
  have hnearest := nearestNat_nearest r.num.toNat r.den_pos
  rwa [hr] at hnearest

theorem exists_inUnits (h : 0 ≤ r) : ∃ t, InUnits r t := by
  by_cases hsmall : r / 2 ^ (-1074 : ℤ) < 2 ^ 53
  · exact ⟨-1074, le_rfl, .inl rfl, hsmall⟩
  have hpos : 0 < r := by
    refine lt_of_le_of_ne h ?_
    rintro rfl
    exact hsmall (by norm_num)
  obtain ⟨k, hlow, hhigh⟩ := exists_mem_Ico_zpow hpos (one_lt_two (α := ℚ))
  have scaled (j : ℤ) : (2 : ℚ) ^ j / 2 ^ (k - 52) = 2 ^ (j - (k - 52)) := (zpow_sub₀ two_ne_zero _ _).symm
  have hunit : (0 : ℚ) < 2 ^ (k - 52) := zpow_pos two_pos _
  refine ⟨k - 52, ?_, .inr ?_, ?_⟩
  · -- otherwise the least unit would do
    by_contra hlt
    refine hsmall ((div_lt_iff₀ (zpow_pos two_pos _)).2 (hhigh.trans_le ?_))
    rw [← zpow_natCast, ← zpow_add₀ two_ne_zero]
    exact zpow_le_zpow_right₀ one_le_two (by push_cast; omega)
  · have hle := div_le_div_of_nonneg_right hlow hunit.le
    rw [scaled, sub_sub_cancel] at hle
    exact_mod_cast hle
  · have hlt := div_lt_div_of_pos_right hhigh hunit
    rw [scaled] at hlt
    refine hlt.trans_le (le_of_eq ?_)
    rw [← zpow_natCast]
    congr 1
    push_cast
    ring

/-- the mantissa of a nearest double is the number of units that its number is rounded to -/
theorem IsNearest.exists_units (h : IsNearest r x) (hr : 0 ≤ r) (hx : Parts.ofFloat x = .finite false m q) :
    ∃ t n, InUnits r t ∧ NearestNat (r / 2 ^ t) n ∧ settle n t = (m, q) := by
  obtain ⟨t, ht⟩ := exists_inUnits hr
  obtain ⟨n, hn⟩ := exists_nearestNat (div_nonneg hr (zpow_pos two_pos t).le)
  refine ⟨t, n, ht, hn, ?_⟩
  have hpack := (ht.canonical hn).ofFloat_pack
  rw [← h.unique (ht.isNearest hn), hx] at hpack
  split at hpack
  · cases hpack
  · cases hpack
    rfl

/-- what reads as a double is within half a unit of it -/
theorem IsNearest.within (h : IsNearest r x) (hr : 0 ≤ r) (hx : Parts.ofFloat x = .finite false m q) :
    |m * 2 ^ q - r| ≤ 2 ^ q / 2 := by
  obtain ⟨t, n, -, hn, hsettle⟩ := h.exists_units hr hx
  have hunit : (0 : ℚ) < 2 ^ t := zpow_pos two_pos t
  have hvalue := settle_value n t
  have htq : t ≤ q := by
    have hq : (settle n t).2 = q := congrArg Prod.snd hsettle
    unfold settle at hq
    split at hq
    · exact hq ▸ (Int.lt_succ t).le
    · exact hq.le
  rw [hsettle] at hvalue
  dsimp only at hvalue
  rw [hvalue]
  calc |n * 2 ^ t - r| = |n - r / 2 ^ t| * 2 ^ t := abs_units hunit n r
    _ ≤ 1 / 2 * 2 ^ t := mul_le_mul_of_nonneg_right hn.within hunit.le
    _ ≤ 2 ^ q / 2 := by
        have := zpow_le_zpow_right₀ (one_le_two (α := ℚ)) htq
        linarith

/-- a number that a double holds reads as it -/
theorem Holds.isNearest (h : Holds x a) : IsNearest a x := by
  have hlimit := h.lt_limit
  obtain ⟨m, q, hx, rfl⟩ := h
  unfold IsNearest
  rw [hx]
  refine ⟨rfl, hlimit, fun y v hv => ?_⟩
  rw [sub_self, abs_zero]
  exact ⟨abs_nonneg _, fun he => .inl (sub_eq_zero.1 (abs_eq_zero.1 he.symm))⟩

/-- what lies between a number that reads as a double and the double reads as it, too -/
theorem IsNearest.of_between (h : IsNearest s x) (ha : Holds x a) (hsr : s ≤ r) (hra : r ≤ a) :
    IsNearest r x := by
  have hlimit := ha.lt_limit
  obtain ⟨m, q, hx, rfl⟩ := ha
  unfold IsNearest at h ⊢
  rw [hx] at h ⊢
  obtain ⟨-, -, hclosest⟩ := h
  refine ⟨rfl, hra.trans_lt hlimit, fun y v hv => ?_⟩
  obtain ⟨hle, htie⟩ := hclosest y v hv
  have hnear : |m * 2 ^ q - s| = |m * 2 ^ q - r| + (r - s) := by
    rw [abs_of_nonneg (by linarith), abs_of_nonneg (by linarith)]
    ring
  have hfar : |v - s| ≤ |v - r| + (r - s) := by
    have := abs_sub_le v r s
    rwa [abs_of_nonneg (by linarith : 0 ≤ r - s)] at this
  exact ⟨by linarith, fun he => htie (by linarith)⟩

/-- among the smallest doubles it is enough to be as close as what reads as the double -/
theorem IsNearest.of_least (h : IsNearest s x) (hs : 0 ≤ s)
    (hx : Parts.ofFloat x = .finite false m (-1074))
    (hclose : |m * 2 ^ (-1074 : ℤ) - r| ≤ |m * 2 ^ (-1074 : ℤ) - s|) : IsNearest r x := by
  have hunit : (0 : ℚ) < 2 ^ (-1074 : ℤ) := zpow_pos two_pos _
  have hm := (Parts.canonical_of_ofBits hx).1.lt
  obtain ⟨t, n, ht, hn, hsettle⟩ := h.exists_units hs hx
  obtain ⟨rfl, rfl⟩ : n = m ∧ t = -1074 := by
    have hleast := ht.least
    unfold settle at hsettle
    split at hsettle
    · have := congrArg Prod.snd hsettle
      dsimp only at this
      omega
    · exact ⟨congrArg Prod.fst hsettle, congrArg Prod.snd hsettle⟩
  rw [abs_units hunit, abs_units hunit, mul_le_mul_iff_left₀ hunit] at hclose
  have hnearest : NearestNat (r / 2 ^ (-1074 : ℤ)) n :=
    ⟨hclose.trans hn.within, fun he => hn.even (le_antisymm hn.within (he ▸ hclose))⟩
  have hunits : InUnits r (-1074) := by
    refine ⟨le_rfl, .inl rfl, ?_⟩
    have hle : (n : ℚ) ≤ 2 ^ 53 - 1 := by
      have : ((n + 1 : ℕ) : ℚ) ≤ (2 ^ 53 : ℕ) := by exact_mod_cast hm
      push_cast at this
      linarith
    have := (abs_le.1 hnearest.within).1
    linarith
  have hpack := (ht.canonical hn).ofFloat_pack
  have hread := hunits.isNearest hnearest
  rw [hsettle] at hpack hread
  rw [if_neg (by norm_num), ← hx] at hpack
  rwa [Parts.ofFloat_injective hpack] at hread

end Units

section Digits

variable {places : ℕ} {a r : ℚ} {x : Float} {u : ℤ}

/-- a decimal with so many digits is one of the units that a number with so many digits is counted in,
or one of these units lies between it and the number -/
theorem exists_unit_between (hlow : 10 ^ (places - 1) ≤ a / 10 ^ u) (hhigh : a / 10 ^ u < 10 ^ places)
    {n : ℕ} (hn : n < 10 ^ places) (k : ℤ) : ∃ i : ℕ,
      (i * 10 ^ u : ℚ) = n * 10 ^ k ∨ (n * 10 ^ k : ℚ) ≤ i * 10 ^ u ∧ i * 10 ^ u ≤ a := by
  have hten : (10 : ℚ) ≠ 0 := by norm_num
  rcases le_or_gt u k with huk | hku
  · obtain ⟨j, rfl⟩ := Int.le.dest huk
    refine ⟨n * 10 ^ j, .inl ?_⟩
    rw [zpow_add₀ hten, zpow_natCast]
    push_cast
    ring
  · -- the first number with so many digits in these units
    have hplaces : places ≠ 0 := by
      rintro rfl
      exact absurd (hlow.trans_lt hhigh) (by norm_num)
    refine ⟨10 ^ (places - 1), .inr ⟨?_, ?_⟩⟩
    · have hn : (n : ℚ) ≤ 10 ^ places := by exact_mod_cast hn.le
      calc (n * 10 ^ k : ℚ) ≤ 10 ^ places * 10 ^ k := mul_le_mul_of_nonneg_right hn (by positivity)
        _ ≤ (10 ^ (places - 1) : ℕ) * 10 ^ u := by
          push_cast
          rw [← zpow_natCast, ← zpow_natCast, ← zpow_add₀ hten, ← zpow_add₀ hten]
          exact zpow_le_zpow_right₀ (by norm_num) (by omega)
    · push_cast
      exact (le_div_iff₀ (by positivity)).1 hlow

/-- a number that is less than half a unit away is the nearest one -/
theorem NearestNat.eq_of_lt {b : ℚ} {n i : ℕ} (h : NearestNat b n) (hi : |i - b| < 1 / 2) : n = i := by
  have hclose : |((n : ℤ) - i : ℚ)| < 1 := by
    have := abs_sub_le (n : ℚ) b i
    rw [abs_sub_comm b i] at this
    have := h.within
    push_cast
    linarith
  have hlt : |(n : ℤ) - i| < 1 := by exact_mod_cast hclose
  have := Int.abs_lt_one_iff.1 hlt
  omega

/-- the units of decimals with few digits are larger than those of doubles -/
theorem two_zpow_lt {m : ℕ} {q : ℤ} (hplaces : 10 ^ places ≤ 2 ^ 52) (hfull : 2 ^ 52 ≤ m)
    (hhigh : m * 2 ^ q / 10 ^ u < (10 : ℚ) ^ places) : (2 : ℚ) ^ q < 10 ^ u := by
  have hunit : (0 : ℚ) < 10 ^ u := by positivity
  have hfull : (2 : ℚ) ^ 52 ≤ m := by exact_mod_cast hfull
  have hplaces : (10 : ℚ) ^ places ≤ 2 ^ 52 := by exact_mod_cast hplaces
  refine lt_of_mul_lt_mul_left ?_ (by norm_num : (0 : ℚ) ≤ 2 ^ 52)
  calc (2 : ℚ) ^ 52 * 2 ^ q ≤ m * 2 ^ q := mul_le_mul_of_nonneg_right hfull (by positivity)
    _ < 10 ^ places * 10 ^ u := (div_lt_iff₀ hunit).1 hhigh
    _ ≤ 2 ^ 52 * 10 ^ u := mul_le_mul_of_nonneg_right hplaces hunit.le

/-- if any decimal with so many digits reads as a double, the one it is rounded to does -/
theorem IsRounded.isNearest (hplaces : 10 ^ places ≤ 2 ^ 52) (h : IsRounded places a r)
    (ha : Holds x a) {n : ℕ} {k : ℤ} (hn : n < 10 ^ places) (hs : IsNearest (n * 10 ^ k) x) :
    IsNearest r x := by
  unfold IsRounded at h
  split at h
  · rename_i hzero
    rw [h, ← hzero]
    exact ha.isNearest
  obtain ⟨u, w, hlow, hhigh, hw, rfl⟩ := h
  have hunit : (0 : ℚ) < 10 ^ u := by positivity
  obtain ⟨i, hi⟩ := exists_unit_between hlow hhigh hn k
  have hs0 : (0 : ℚ) ≤ n * 10 ^ k := by positivity
  generalize (n * 10 ^ k : ℚ) = s at hs hi hs0
  -- this unit is no further from the number than the decimal
  have hnear : |i * 10 ^ u - a| ≤ |s - a| := by
    rcases hi with hi | ⟨hsi, hia⟩
    · rw [hi]
    · rw [abs_of_nonpos (by linarith), abs_of_nonpos (by linarith)]
      linarith
  obtain ⟨m, q, hx, rfl⟩ := ha
  by_cases hq : q = -1074
  · subst hq
    have hclosest := (hw.closest i).1
    rw [Int.cast_natCast] at hclosest
    refine hs.of_least hs0 hx ?_
    rw [abs_sub_comm, abs_sub_comm _ s]
    refine le_trans ?_ hnear
    rw [abs_units hunit, abs_units hunit]
    exact mul_le_mul_of_nonneg_right hclosest hunit.le
  · have hlarge := two_zpow_lt hplaces ((Parts.canonical_of_ofBits hx).1.full.resolve_right hq) hhigh
    have hwithin := hs.within hs0 hx
    rw [abs_sub_comm] at hwithin
    have hhalf : |(i : ℚ) - m * 2 ^ q / 10 ^ u| < 1 / 2 := by
      have hlt := (hnear.trans hwithin).trans_lt (div_lt_div_of_pos_right hlarge two_pos)
      rw [abs_units hunit] at hlt
      refine lt_of_mul_lt_mul_right ?_ hunit.le
      linarith
    -- so it is the one that the number is rounded to
    obtain rfl := hw.eq_of_lt hhalf
    rcases hi with hi | ⟨hsi, hia⟩
    · rwa [hi]
    · exact hs.of_between ⟨m, q, hx, rfl⟩ hsi hia

end Digits

end AutoLang.Decimal
