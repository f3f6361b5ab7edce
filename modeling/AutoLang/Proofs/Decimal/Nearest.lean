import AutoLang.Proofs.Decimal.Doubles
import AutoLang.Proofs.Decimal.Significands
import Mathlib

/-! The double nearest to a number. A number is measured in units of the last digit that a double of its
size has; the nearest whole number of them gives the nearest double, since doubles with smaller units
are too small to be any closer. It is the only one, because between two doubles with even mantissas there
is another. -/

namespace AutoLang.Decimal

open Float.Model (UnpackedFloat)

/-- half a unit beyond the greatest double, which is `(2 ^ 53 - 1) * 2 ^ 971` -/
def limit : ℚ := (2 ^ 53 - 1 / 2) * 2 ^ (971 : ℤ)

/-- `x` is the double nearest to `r`, which is not negative: none is closer, an even mantissa decides
between two, and from the limit on it is infinite -/
def IsNearest (r : ℚ) (x : Float) : Prop :=
  match Parts.ofFloat x with
  | .nan => False
  | .infinite negative => negative = false ∧ limit ≤ r
  | .finite negative m q => negative = false ∧ r < limit ∧
    ∀ (y : Float) (v : ℚ), (Parts.ofFloat y).value? = some v →
      |m * 2 ^ q - r| ≤ |v - r| ∧ (|m * 2 ^ q - r| = |v - r| → v = m * 2 ^ q ∨ Even m)

/-- with smaller units a number is below any that fills larger ones -/
theorem Canonical.lt_of_lt {m : ℕ} {q t : ℤ} (h : Canonical m q) (hq : q < t) :
    (m * 2 ^ q : ℚ) < 2 ^ 52 * 2 ^ t := by
  have hm : (m : ℚ) < 2 ^ 53 := by exact_mod_cast h.lt
  calc (m * 2 ^ q : ℚ) < 2 ^ 53 * 2 ^ q := mul_lt_mul_of_pos_right hm (zpow_pos two_pos q)
    _ = 2 ^ 52 * 2 ^ (q + 1) := by
      rw [zpow_add₀ two_ne_zero, zpow_one]
      ring
    _ ≤ 2 ^ 52 * 2 ^ t :=
      mul_le_mul_of_nonneg_left (zpow_le_zpow_right₀ one_le_two (by omega)) (by positivity)

section Units

variable {r : ℚ} {n : ℕ} {t : ℤ}

/-- no double is closer than the nearest whole number of units, if the units are those of a double -/
theorem closest_units (hn : NearestNat (r / 2 ^ t) n) (hfull : t = -1074 ∨ 2 ^ 52 ≤ r / 2 ^ t)
    {s : ℤ} (hs : s ≤ 1) {m : ℕ} {q : ℤ} (hc : Canonical m q) :
    |n * 2 ^ t - r| ≤ |s * m * 2 ^ q - r| ∧
      (|n * 2 ^ t - r| = |s * m * 2 ^ q - r| → s * m * 2 ^ q = n * (2 : ℚ) ^ t ∨ Even n) := by
  have hunit : (0 : ℚ) < 2 ^ t := zpow_pos two_pos t
  have measure (k : ℚ) : |k * 2 ^ t - r| = |k - r / 2 ^ t| * 2 ^ t := abs_units hunit k r
  rw [measure]
  rcases le_or_gt t q with htq | hqt
  · -- a whole number of units
    obtain ⟨j, rfl⟩ := Int.le.dest htq
    have hk : (s * m * 2 ^ (t + j) : ℚ) = (s * m * 2 ^ j : ℤ) * 2 ^ t := by
      rw [zpow_add₀ two_ne_zero, zpow_natCast]
      push_cast
      ring
    obtain ⟨hle, heven⟩ := hn.closest (s * m * 2 ^ j)
    rw [hk, measure]
    refine ⟨mul_le_mul_of_nonneg_right hle hunit.le, fun he => ?_⟩
    refine (heven (mul_right_cancel₀ hunit.ne' he)).imp_left fun he => ?_
    rw [he, Int.cast_natCast]
  · -- smaller units, so less than any number with units of this size
    have hlarge := hfull.resolve_left (by have := hc.least; omega)
    have hsmall : (s * m * 2 ^ q : ℚ) < 2 ^ 52 * 2 ^ t := by
      refine lt_of_le_of_lt ?_ (hc.lt_of_lt hqt)
      have hs : (s : ℚ) ≤ 1 := by exact_mod_cast hs
      rw [mul_assoc]
      exact mul_le_of_le_one_left (by positivity) hs
    have hr : (2 : ℚ) ^ 52 * 2 ^ t ≤ r := (le_div_iff₀ hunit).1 hlarge
    have hclose : |n - r / 2 ^ t| * 2 ^ t ≤ |2 ^ 52 * 2 ^ t - r| := by
      have h52 := (hn.closest (2 ^ 52)).1
      push_cast at h52
      rw [measure]
      exact mul_le_mul_of_nonneg_right h52 hunit.le
    have hfar : |2 ^ 52 * 2 ^ t - r| < |s * m * 2 ^ q - r| := by
      rw [abs_of_nonpos (by linarith), abs_of_nonpos (by linarith)]
      linarith
    exact ⟨(hclose.trans_lt hfar).le, fun he => absurd he (hclose.trans_lt hfar).ne⟩

/-- the mantissa and the exponent of so many units; rounding may have reached the next power of two -/
def settle (n : ℕ) (t : ℤ) : ℕ × ℤ := if n = 2 ^ 53 then (2 ^ 52, t + 1) else (n, t)

theorem settle_value (n : ℕ) (t : ℤ) :
    ((settle n t).1 : ℚ) * 2 ^ (settle n t).2 = n * 2 ^ t := by
  unfold settle
  split
  · rename_i hn
    rw [hn, zpow_add₀ two_ne_zero, zpow_one]
    push_cast
    ring
  · rfl

theorem settle_even (h : Even n) : Even (settle n t).1 := by
  unfold settle
  split
  · exact (by decide : Even 2).pow_of_ne_zero (by decide)
  · exact h

/-- a number is given in units of the last digit that a double of its size has -/
structure InUnits (r : ℚ) (t : ℤ) : Prop where
  least : -1074 ≤ t
  full : t = -1074 ∨ 2 ^ 52 ≤ r / 2 ^ t
  lt : r / 2 ^ t < 2 ^ 53

theorem InUnits.canonical (h : InUnits r t) (hn : NearestNat (r / 2 ^ t) n) :
    Canonical (settle n t).1 (settle n t).2 := by
  have hleast := h.least
  obtain ⟨hlow, hhigh⟩ := abs_sub_le_iff.1 hn.within
  have hlt := h.lt
  have hle : n ≤ 2 ^ 53 := by
    have : (n : ℚ) < (2 ^ 53 + 1 : ℕ) := by
      push_cast
      linarith
    exact Nat.lt_succ_iff.1 (by exact_mod_cast this)
  unfold settle
  split
  · exact ⟨by norm_num, by omega, .inl le_rfl⟩
  · refine ⟨by omega, hleast, h.full.symm.imp_left fun hfull => ?_⟩
    have : ((2 ^ 52 : ℕ) : ℚ) < (n + 1 : ℕ) := by
      push_cast
      linarith
    exact Nat.lt_succ_iff.1 (by exact_mod_cast this)

/-- a number that is not rounded up to the next power of two is at least half a unit below it -/
theorem InUnits.lt_of_ne (h : InUnits r t) (hn : NearestNat (r / 2 ^ t) n) (hne : n ≠ 2 ^ 53) :
    r / 2 ^ t < 2 ^ 53 - 1 / 2 := by
  have hle := (h.canonical hn).lt
  rw [settle, if_neg hne] at hle
  have hle : (n : ℚ) ≤ 2 ^ 53 - 1 := by
    have : ((n + 1 : ℕ) : ℚ) ≤ (2 ^ 53 : ℕ) := by exact_mod_cast hle
    push_cast at this
    linarith
  obtain ⟨-, hhigh⟩ := abs_sub_le_iff.1 hn.within
  refine lt_of_le_of_ne (by linarith) fun he => ?_
  -- the number half way would have been rounded to the even number, which is the power
  have hn53 : (n : ℚ) = 2 ^ 53 - 1 := by linarith
  have heven : Even n := hn.even (by rw [hn53, he]; norm_num)
  have : n = 2 ^ 53 - 1 := by
    have : ((n + 1 : ℕ) : ℚ) = (2 ^ 53 : ℕ) := by
      push_cast
      linarith
    have : n + 1 = 2 ^ 53 := by exact_mod_cast this
    omega
  rw [this] at heven
  exact absurd heven (by decide)

/-- the limit is where the exponent gets too large -/
theorem InUnits.limit_le_iff (h : InUnits r t) (hn : NearestNat (r / 2 ^ t) n) :
    limit ≤ r ↔ 971 < (settle n t).2 := by
  have hunit : (0 : ℚ) < 2 ^ t := zpow_pos two_pos t
  have hr : r = r / 2 ^ t * 2 ^ t := (div_mul_cancel₀ _ hunit.ne').symm
  have hlt := h.lt
  unfold settle
  split
  · rename_i hn53
    obtain ⟨hlow, -⟩ := abs_sub_le_iff.1 hn.within
    rw [hn53] at hlow
    push_cast at hlow
    constructor
    · intro hlimit
      by_contra hle
      have hstep : (2 : ℚ) ^ (971 : ℤ) = 2 ^ (970 : ℤ) * 2 := zpow_add_one₀ two_ne_zero 970
      have hsmall : r ≤ 2 ^ 53 * 2 ^ (970 : ℤ) := by
        rw [hr]
        exact mul_le_mul hlt.le (zpow_le_zpow_right₀ one_le_two (by omega)) hunit.le (by norm_num)
      have hpos : (0 : ℚ) < 2 ^ (970 : ℤ) := zpow_pos two_pos _
      rw [limit, hstep] at hlimit
      generalize (2 : ℚ) ^ (970 : ℤ) = u at hlimit hsmall hpos
      linarith only [hlimit, hsmall, hpos]
    · intro hle
      rw [limit, hr]
      exact mul_le_mul (by linarith) (zpow_le_zpow_right₀ one_le_two (by omega)) (by positivity)
        (by linarith)
  · rename_i hne
    constructor
    · intro hlimit
      by_contra hle
      have hsmall : r < (2 ^ 53 - 1 / 2) * 2 ^ (971 : ℤ) := by
        rw [hr]
        exact mul_lt_mul (h.lt_of_ne hn hne) (zpow_le_zpow_right₀ one_le_two (by omega)) hunit
          (by norm_num)
      exact absurd hlimit (not_le.2 hsmall)
    · intro hle
      have hstep : (2 : ℚ) ^ (972 : ℤ) = 2 ^ (971 : ℤ) * 2 := zpow_add_one₀ two_ne_zero 971
      have hfull := h.full.resolve_left (by omega)
      have hlarge : 2 ^ 52 * 2 ^ (972 : ℤ) ≤ r := by
        rw [hr]
        exact mul_le_mul hfull (zpow_le_zpow_right₀ one_le_two (by omega)) (by positivity)
          (by linarith)
      have hpos : (0 : ℚ) < 2 ^ (971 : ℤ) := zpow_pos two_pos _
      rw [hstep] at hlarge
      rw [limit]
      generalize (2 : ℚ) ^ (971 : ℤ) = u at hlarge hpos ⊢
      linarith only [hlarge, hpos]

/-- so many units, the nearest whole number of them, are the double nearest to the number -/
theorem InUnits.isNearest (h : InUnits r t) (hn : NearestNat (r / 2 ^ t) n) :
    IsNearest r ⟨.pack (magnitude (settle n t).1 (settle n t).2)⟩ := by
  unfold IsNearest
  rw [(h.canonical hn).ofFloat_pack]
  by_cases hq : 971 < (settle n t).2
  · rw [if_pos hq]
    exact ⟨rfl, (h.limit_le_iff hn).2 hq⟩
  · rw [if_neg hq]
    refine ⟨rfl, not_le.1 fun hlimit => hq ((h.limit_le_iff hn).1 hlimit), fun y v hv => ?_⟩
    rw [settle_value]
    cases hy : Parts.ofFloat y with
    | nan | infinite => rw [hy] at hv; cases hv
    | finite negative m q =>
      rw [hy] at hv
      obtain rfl := Option.some.inj hv
      have hc : Canonical m q := (Parts.canonical_of_ofBits hy).1
      have hs : (if negative then -1 else 1 : ℤ) ≤ 1 := by split <;> decide
      obtain ⟨hle, heven⟩ := closest_units hn h.full hs hc
      push_cast at hle heven
      exact ⟨hle, fun he => (heven he).imp_right settle_even⟩

end Units

section Unique

variable {r : ℚ} {x y : Float} {m n : ℕ} {p q : ℤ}

theorem value?_of_finite (h : Parts.ofFloat x = .finite false m p) :
    (Parts.ofFloat x).value? = some (m * 2 ^ p : ℚ) := by
  rw [h, Parts.value?, if_neg Bool.false_ne_true, one_mul]

/-- a number fits in one way only -/
theorem Canonical.unique (hm : Canonical m p) (hn : Canonical n q)
    (h : (m * 2 ^ p : ℚ) = n * 2 ^ q) : m = n ∧ p = q := by
  -- the one with the larger units would be larger
  have apart {m n : ℕ} {p q : ℤ} (hm : Canonical m p) (hn : Canonical n q) (hpq : p < q) :
      (m * 2 ^ p : ℚ) < n * 2 ^ q := by
    have hfull : (2 : ℚ) ^ 52 ≤ n := by
      exact_mod_cast hn.full.resolve_right (by have := hm.least; omega)
    exact (hm.lt_of_lt hpq).trans_le (mul_le_mul_of_nonneg_right hfull (zpow_pos two_pos q).le)
  rcases lt_trichotomy p q with hpq | rfl | hqp
  · exact absurd h (apart hm hn hpq).ne
  · exact ⟨by exact_mod_cast mul_right_cancel₀ (zpow_pos two_pos p).ne' h, rfl⟩
  · exact absurd h (apart hn hm hqp).ne'

/-- a double above another is at least a unit above it -/
theorem Canonical.succ_le (hm : Canonical m p) (hn : Canonical n q)
    (h : (m * 2 ^ p : ℚ) < n * 2 ^ q) : ((m + 1 : ℕ) * 2 ^ p : ℚ) ≤ n * 2 ^ q := by
  have hunit : (0 : ℚ) < 2 ^ p := zpow_pos two_pos p
  rcases le_or_gt p q with hpq | hqp
  · obtain ⟨j, rfl⟩ := Int.le.dest hpq
    have hunits : (n * 2 ^ (p + j) : ℚ) = (n * 2 ^ j : ℕ) * 2 ^ p := by
      rw [zpow_add₀ two_ne_zero, zpow_natCast]
      push_cast
      ring
    rw [hunits] at h ⊢
    have hlt : m < n * 2 ^ j := by exact_mod_cast lt_of_mul_lt_mul_right h hunit.le
    exact mul_le_mul_of_nonneg_right (by exact_mod_cast hlt) hunit.le
  · have hfull : (2 : ℚ) ^ 52 ≤ m := by
      exact_mod_cast hm.full.resolve_right (by have := hn.least; omega)
    have hlt := (hn.lt_of_lt hqp).trans_le (mul_le_mul_of_nonneg_right hfull hunit.le)
    exact absurd h hlt.asymm

/-- between two doubles with even mantissas there is another -/
theorem exists_between_even (hm : Canonical m p) (hp : p ≤ 971) (hn : Canonical n q) (hme : Even m)
    (hne : Even n) (h : (m * 2 ^ p : ℚ) < n * 2 ^ q) : ∃ (y : Float) (c : ℚ),
      (Parts.ofFloat y).value? = some c ∧ m * 2 ^ p < c ∧ c < n * 2 ^ q := by
  have hnext : Canonical (m + 1) p := by
    have hlt := hm.lt
    have heven := Nat.even_iff.1 hme
    exact ⟨by omega, hm.least, hm.full.imp_left (by omega)⟩
  refine ⟨⟨.pack (magnitude (m + 1) p)⟩, (m + 1 : ℕ) * 2 ^ p, ?_, ?_, ?_⟩
  · exact value?_of_finite (hnext.ofFloat_pack.trans (if_neg (not_lt.2 hp)))
  · exact mul_lt_mul_of_pos_right (by exact_mod_cast m.lt_succ_self) (zpow_pos two_pos p)
  · refine lt_of_le_of_ne (hm.succ_le hn h) fun he => ?_
    -- the next mantissa is odd
    rw [← (hnext.unique hn he).1, Nat.even_add_one] at hne
    exact hne hme

theorem closer_between {a b c : ℚ} (h : |a - r| = |b - r|) (hac : a < c) (hcb : c < b) :
    |c - r| < |a - r| := by
  -- `r` is half way
  have hmid : a - r = -(b - r) := (abs_eq_abs.1 h).resolve_left fun he => by linarith
  rw [abs_of_neg (by linarith : a - r < 0), abs_lt]
  constructor <;> linarith

/-- two doubles as close as any are the same unless one of them is odd -/
theorem value_eq_of_closest (hm : Canonical m p) (hp : p ≤ 971) (hn : Canonical n q) (hq : q ≤ 971)
    (hdist : |m * 2 ^ p - r| = |n * 2 ^ q - r|) (hme : n * (2 : ℚ) ^ q = m * 2 ^ p ∨ Even m)
    (hne : m * (2 : ℚ) ^ p = n * 2 ^ q ∨ Even n)
    (hclosest : ∀ (y : Float) (v : ℚ), (Parts.ofFloat y).value? = some v →
      |m * 2 ^ p - r| ≤ |v - r|) : (m * 2 ^ p : ℚ) = n * 2 ^ q := by
  by_contra hapart
  have hme := hme.resolve_left (Ne.symm hapart)
  have hne := hne.resolve_left hapart
  -- one between them would be closer
  rcases lt_or_gt_of_ne hapart with h | h
  · obtain ⟨y, c, hc, hlow, hhigh⟩ := exists_between_even hm hp hn hme hne h
    exact absurd (hclosest y c hc) (not_le.2 (closer_between hdist hlow hhigh))
  · obtain ⟨y, c, hc, hlow, hhigh⟩ := exists_between_even hn hq hm hne hme h
    have hcloser := closer_between hdist.symm hlow hhigh
    rw [← hdist] at hcloser
    exact absurd (hclosest y c hc) (not_le.2 hcloser)

/-- there is only one nearest double -/
theorem IsNearest.unique (hx : IsNearest r x) (hy : IsNearest r y) : x = y := by
  refine Parts.ofFloat_injective ?_
  unfold IsNearest at hx hy
  cases hpx : Parts.ofFloat x with
  | nan => rw [hpx] at hx; exact hx.elim
  | infinite s =>
    rw [hpx] at hx
    cases hpy : Parts.ofFloat y with
    | nan => rw [hpy] at hy; exact hy.elim
    | infinite s' =>
      rw [hpy] at hy
      rw [hx.1, hy.1]
    | finite s' n q =>
      rw [hpy] at hy
      exact absurd hx.2 (not_le.2 hy.2.1)
  | finite s m p =>
    rw [hpx] at hx
    cases hpy : Parts.ofFloat y with
    | nan => rw [hpy] at hy; exact hy.elim
    | infinite s' =>
      rw [hpy] at hy
      exact absurd hy.2 (not_le.2 hx.2.1)
    | finite s' n q =>
      rw [hpy] at hy
      obtain ⟨rfl, -, hx⟩ := hx
      obtain ⟨rfl, -, hy⟩ := hy
      obtain ⟨hm, hp⟩ := Parts.canonical_of_ofBits hpx
      obtain ⟨hn, hq⟩ := Parts.canonical_of_ofBits hpy
      obtain ⟨hxy, hxe⟩ := hx y _ (value?_of_finite hpy)
      obtain ⟨hyx, hye⟩ := hy x _ (value?_of_finite hpx)
      have hdist := le_antisymm hxy hyx
      have hvalue := value_eq_of_closest hm hp hn hq hdist (hxe hdist) (hye hdist.symm)
        fun z v hz => (hx z v hz).1
      obtain ⟨rfl, rfl⟩ := hm.unique hn hvalue
      rfl

end Unique

end AutoLang.Decimal
