import AutoLang.Proofs.Decimal.Scientific
import AutoLang.Value.Operator
import Mathlib

/-! Integers as doubles. A number that some double is, is what it is rounded to; so a whole number that
fits in a mantissa, and its negative, are held exactly, and two integers never become one double. -/

namespace AutoLang.Decimal

open Float.Model (Format UnpackedFloat)
open Float.Model.UnpackedFloat (Sign)

section Exact

variable {x y : Float} {a b : ℚ}

theorem Holds.value? (h : Holds x a) : (Parts.ofFloat x).value? = some a := by
  obtain ⟨m, q, hx, rfl⟩ := h
  exact value?_of_finite hx

/-- the greatest double is below the limit -/
theorem Holds.lt_limit (h : Holds x a) : a < limit := by
  obtain ⟨m, q, hx, rfl⟩ := h
  obtain ⟨hm, hq⟩ := Parts.canonical_of_ofBits hx
  have hle : (m : ℚ) ≤ 2 ^ 53 - 1 := by
    have : (m + 1 : ℕ) ≤ 2 ^ 53 := hm.lt
    have : ((m + 1 : ℕ) : ℚ) ≤ (2 ^ 53 : ℕ) := by exact_mod_cast this
    push_cast at this
    linarith
  calc (m * 2 ^ q : ℚ) ≤ (2 ^ 53 - 1) * 2 ^ (971 : ℤ) :=
        mul_le_mul hle (zpow_le_zpow_right₀ one_le_two hq) (by positivity) (by norm_num)
    _ < limit := mul_lt_mul_of_pos_right (by norm_num) (zpow_pos two_pos _)

/-- what is rounded is a double already -/
theorem IsNearest.holds (hx : IsNearest a x) (hy : Holds y a) : Holds x a := by
  have hlimit := hy.lt_limit
  unfold IsNearest at hx
  cases hp : Parts.ofFloat x with
  | nan =>
    rw [hp] at hx
    exact hx.elim
  | infinite negative =>
    rw [hp] at hx
    exact absurd hx.2 (not_le.2 hlimit)
  | finite negative m q =>
    rw [hp] at hx
    obtain ⟨rfl, -, hx⟩ := hx
    have hzero := (hx y a hy.value?).1
    rw [sub_self, abs_zero] at hzero
    exact ⟨m, q, hp, sub_eq_zero.1 (abs_nonpos_iff.1 hzero)⟩

/-- a product has digits enough to be rounded, unless it is too small for them -/
theorem target_product {m n : ℕ} {e f : ℤ} (hm : Canonical m e) (hn : Canonical n f) (hm0 : m ≠ 0)
    (hn0 : n ≠ 0) : e + f ≤ target (m * n) (e + f) := by
  unfold target
  by_cases hleast : e = -1074 ∧ f = -1074
  · omega
  have hlarge : 2 ^ 52 ≤ m * n := by
    rcases not_and_or.1 hleast with he | hf
    · exact (hm.full.resolve_right he).trans (Nat.le_mul_of_pos_right m (Nat.pos_of_ne_zero hn0))
    · exact (hn.full.resolve_right hf).trans (Nat.le_mul_of_pos_left n (Nat.pos_of_ne_zero hm0))
  have hlog := (Nat.le_log2 (Nat.mul_ne_zero hm0 hn0)).2 hlarge
  omega

/-- a product of doubles is the double nearest to the product of what they hold -/
theorem Holds.mul (hx : Holds x a) (hy : Holds y b) : IsNearest (a * b) (x * y) := by
  obtain ⟨m, e, hx, rfl⟩ := hx
  obtain ⟨n, f, hy, rfl⟩ := hy
  change IsNearest _ ⟨.pack (UnpackedFloat.mul .binary64 x.toModel.unpack y.toModel.unpack)⟩
  rw [unpack_of_ofFloat hx, unpack_of_ofFloat hy, magnitude, magnitude]
  split
  · rename_i hm
    rw [hm, Nat.cast_zero, zero_mul, zero_mul]
    split <;> exact isNearest_zero le_rfl (by norm_num)
  rename_i hm
  split
  · rename_i hn
    rw [hn, Nat.cast_zero, zero_mul, mul_zero]
    exact isNearest_zero le_rfl (by norm_num)
  rename_i hn
  rw [mul_eq]
  have hproduct : (m * 2 ^ e * (n * 2 ^ f) / 2 ^ (e + f) : ℚ) = (m * n : ℕ) := by
    rw [zpow_add₀ two_ne_zero, Nat.cast_mul]
    field_simp
  exact isNearest_round (hproduct ▸ Cut.exact (m * n)) (target_product
    (Parts.canonical_of_ofBits hx).1 (Parts.canonical_of_ofBits hy).1 hm hn)

/-- a whole number that fits in a mantissa is read as itself -/
theorem holds_ofNat {n : ℕ} (h : n < 2 ^ 53) : Holds (Float.ofNat n) n := by
  have hread : Float.ofNat n =
      n.toUInt64.toFloat * Float.exactlyRepresentablePowersOfTen[0] := by
    change Float.ofScientific n false 0 = _
    rw [Float.ofScientific, dif_pos ⟨h, Nat.zero_le _⟩, if_neg Bool.false_ne_true]
  have hone := holds_powers (d := 0) (by decide)
  have hnearest := (holds_toFloat h).mul hone
  rw [pow_zero, Nat.cast_one, mul_one, ← hread] at hnearest
  exact hnearest.holds (holds_toFloat h)

end Exact

section Negative

/-- the same double with the other sign -/
def Parts.neg : Parts → Parts
  | nan => nan
  | infinite negative => infinite (!negative)
  | finite negative m q => finite (!negative) m q

theorem Parts.value?_neg (p : Parts) : p.neg.value? = p.value?.map (-·) := by
  cases p with
  | nan | infinite => rfl
  | finite negative m q => cases negative <;> simp [neg, value?]

theorem ofUnpacked_neg (u : UnpackedFloat) : Parts.ofUnpacked u.neg = (Parts.ofUnpacked u).neg := by
  have hsign (s : Sign) : (-s == .negative) = !(s == .negative) := by cases s <;> rfl
  cases u <;> simp only [UnpackedFloat.neg, Parts.ofUnpacked, Parts.neg, hsign]

/-- the sign has a field of its own -/
theorem exists_components {u : UnpackedFloat} (h : u ≠ .notANumber) :
    ∃ (s : Sign) (e : BitVec 11) (m : BitVec 52),
      UnpackedFloat.pack .binary64 u = UnpackedFloat.packComponents .binary64 s e m ∧
      UnpackedFloat.pack .binary64 u.neg = UnpackedFloat.packComponents .binary64 (-s) e m := by
  cases u with
  | notANumber => exact absurd rfl h
  | infinity s => exact ⟨s, _, _, rfl, rfl⟩
  | zero s => exact ⟨s, _, _, rfl, rfl⟩
  | finite s m q hm =>
    unfold UnpackedFloat.neg UnpackedFloat.pack
    dsimp only
    split_ifs
    · exact ⟨s, _, _, rfl, rfl⟩
    · exact ⟨s, _, _, rfl, rfl⟩
    · exact ⟨s, _, _, rfl, rfl⟩

theorem unpack_neg (s : Sign) (e : BitVec 11) (m : BitVec 52) :
    UnpackedFloat.unpack .binary64 (UnpackedFloat.packComponents .binary64 (-s) e m) =
      (UnpackedFloat.unpack .binary64 (UnpackedFloat.packComponents .binary64 s e m)).neg := by
  unfold UnpackedFloat.unpack
  simp only [UnpackedFloat.unpackExponent_packComponents,
    UnpackedFloat.unpackMantissa_packComponents, UnpackedFloat.unpackSign_packComponents,
    Sign.ofBitVec_toBitVec]
  split_ifs <;> rfl

theorem ofFloat_neg (x : Float) : Parts.ofFloat (-x) = (Parts.ofFloat x).neg := by
  rw [Parts.ofFloat_eq, Parts.ofFloat_eq, ← ofUnpacked_neg]
  congr 1
  change UnpackedFloat.unpack .binary64 (UnpackedFloat.pack .binary64 x.toModel.unpack.neg) = _
  by_cases hx : x.toModel.unpack = .notANumber
  · rw [hx]
    exact UnpackedFloat.unpack_packedNaN
  · obtain ⟨s, e, m, hpack, hneg⟩ := exists_components hx
    have hbits := UnpackedFloat.pack_unpack_of_valid x.toModel.valid
    change UnpackedFloat.pack .binary64 x.toModel.unpack = _ at hbits
    have hself : x.toModel.unpack =
        UnpackedFloat.unpack .binary64 (UnpackedFloat.packComponents .binary64 s e m) := by
      rw [← hpack, hbits]
      rfl
    rw [hneg, unpack_neg, ← hself]

end Negative

/-- an integer and the double it is widened to are the same number -/
theorem value?_toDouble (n : Int32) :
    (Parts.ofFloat (Value.toDouble n)).value? = some (n.toInt : ℚ) := by
  have hlow := n.le_toInt
  have hhigh := n.toInt_lt
  unfold Value.toDouble
  cases hn : n.toInt with
  | ofNat k =>
    have hk : k < 2 ^ 53 := by
      rw [hn, Int.ofNat_eq_natCast] at hhigh
      omega
    exact (holds_ofNat hk).value?
  | negSucc k =>
    have hk : k + 1 < 2 ^ 53 := by
      rw [hn, Int.negSucc_eq] at hlow
      omega
    change (Parts.ofFloat (-Float.ofNat (k + 1))).value? = _
    rw [ofFloat_neg, Parts.value?_neg, (holds_ofNat hk).value?, Int.cast_negSucc]
    rfl

/-- doubles that compare equal are the same number -/
theorem value?_eq_of_beq {x y : Float} (h : (x == y) = true) :
    (Parts.ofFloat x).value? = (Parts.ofFloat y).value? := by
  have hzeros : (Parts.ofFloat (-0)).value? = (Parts.ofFloat 0).value? := by
    have hzero : Parts.ofFloat 0 = .finite false 0 (-1074) := by decide
    rw [ofFloat_neg, hzero]
    simp [Parts.neg, Parts.value?]
  obtain ⟨-, -, rfl | ⟨rfl, rfl⟩ | ⟨rfl, rfl⟩⟩ := Float.beq_iff_ne_nan_and_eq.1 h
  · rfl
  · exact hzeros.symm
  · exact hzeros

theorem toDouble_ne_nan (n : Int32) : Value.toDouble n ≠ Float.nan := by
  intro hnan
  have hparts : Parts.ofFloat Float.nan = .nan := by decide
  have hvalue := value?_toDouble n
  rw [hnan, hparts] at hvalue
  cases hvalue

/-- integers compare as the doubles they are widened to -/
theorem beq_toDouble (n k : Int32) : (Value.toDouble n == Value.toDouble k) = (n == k) := by
  rw [Bool.eq_iff_iff, beq_iff_eq (a := n)]
  constructor
  · intro h
    have hvalue := value?_eq_of_beq h
    rw [value?_toDouble, value?_toDouble, Option.some_inj, Int.cast_inj] at hvalue
    exact Int32.toInt_inj.1 hvalue
  · rintro rfl
    exact Float.beq_self_iff.2 (toDouble_ne_nan n)

end AutoLang.Decimal
