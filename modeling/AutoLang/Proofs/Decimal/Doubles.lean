import AutoLang.Decimal.Significant
import Mathlib

/-! Doubles taken apart, against the way they are held in bits. The parts that the bits are read as are
those of the number that they are unpacked to, and a number with a mantissa and an exponent that fit is
unpacked as it was packed, unless its exponent is too large. -/

namespace AutoLang.Decimal

open Float.Model (Format UnpackedFloat)
open Float.Model.UnpackedFloat (Sign)

/-- `m * 2 ^ q` as a double holds it: 53 binary digits, all of them used unless `q` is the least
exponent -/
structure Canonical (m : ℕ) (q : ℤ) : Prop where
  lt : m < 2 ^ 53
  least : -1074 ≤ q
  full : 2 ^ 52 ≤ m ∨ q = -1074

namespace Parts

/-- the value of a finite double -/
def value? : Parts → Option ℚ
  | finite negative m q => some ((if negative then -1 else 1) * m * 2 ^ q)
  | _ => none

/-- what the bits of a double stand for -/
def ofUnpacked : UnpackedFloat → Parts
  | .notANumber => nan
  | .infinity s => infinite (s == .negative)
  | .zero s => finite (s == .negative) 0 (-1074)
  | .finite s m q _ => finite (s == .negative) m q

/-- the mantissas and exponents that finite doubles have -/
theorem canonical_of_ofBits {bits : ℕ} {negative : Bool} {m : ℕ} {q : ℤ}
    (h : ofBits bits = finite negative m q) : Canonical m q ∧ q ≤ 971 := by
  have hfraction : bits % Nat.pow 2 52 < 2 ^ 52 := Nat.mod_lt _ (by decide)
  unfold ofBits at h
  dsimp only at h
  split at h
  · split at h <;> cases h
  · split at h
    · cases h
      exact ⟨⟨by omega, le_rfl, .inr rfl⟩, by decide⟩
    · cases h
      have : Nat.pow 2 52 = 2 ^ 52 := rfl
      exact ⟨⟨by omega, by omega, .inl (by omega)⟩, by omega⟩

/-- the fields that the bits are divided into -/
theorem isNegative_ofBitVec (v : BitVec 1) :
    (Sign.ofBitVec v == .negative) = decide (v.toNat = 1) := by
  revert v
  decide

/-- the fields that the bits are divided into -/
theorem fields (b : BitVec Format.binary64.numBits) :
    (Sign.ofBitVec (UnpackedFloat.unpackSign b) == .negative) =
        decide (b.toNat / Nat.pow 2 63 % 2 = 1) ∧
      (UnpackedFloat.unpackExponent b).toNat = b.toNat / Nat.pow 2 52 % 2048 ∧
      (UnpackedFloat.unpackMantissa b).toNat = b.toNat % Nat.pow 2 52 := by
  rw [isNegative_ofBitVec, UnpackedFloat.unpackSign_def, UnpackedFloat.unpackExponent_def,
    UnpackedFloat.unpackMantissa_def]
  refine ⟨?_, ?_, ?_⟩ <;>
    simp only [BitVec.extractLsb'_toNat, Nat.shiftRight_eq_div_pow, pow_zero, Nat.div_one]

/-- the digit in front that is not held -/
theorem toNat_append_one (m : BitVec 52) : (1#1 ++ m).toNat = Nat.pow 2 52 + m.toNat := by
  rw [BitVec.toNat_append, ← Nat.shiftLeft_add_eq_or_of_lt m.isLt]
  rfl

theorem ofBits_eq (b : BitVec Format.binary64.numBits) :
    ofBits b.toNat = ofUnpacked (.unpack .binary64 b) := by
  obtain ⟨hs, he, hm⟩ := fields b
  have hfull : UnpackedFloat.unpackExponent b = -1#11 ↔ b.toNat / Nat.pow 2 52 % 2048 = 2047 := by
    rw [← he, ← BitVec.toNat_inj]
    rfl
  have hleast : UnpackedFloat.unpackExponent b = 0#11 ↔ b.toNat / Nat.pow 2 52 % 2048 = 0 := by
    rw [← he, ← BitVec.toNat_inj]
    rfl
  have hzero : UnpackedFloat.unpackMantissa b = 0#52 ↔ b.toNat % Nat.pow 2 52 = 0 := by
    rw [← hm, ← BitVec.toNat_inj]
    rfl
  have hbias : (Format.binary64.exponentBias : ℤ) = 1023 := rfl
  unfold ofBits UnpackedFloat.unpack
  simp only [hfull, hleast, hzero, he, hm, ← hs, hbias, toNat_append_one]
  split_ifs with hinf hm0 he0 hm0
  · rfl
  · rfl
  · rw [hm0]
    rfl
  · rw [he0]
    rfl
  · rw [ofUnpacked]
    congr 1

theorem ofFloat_eq (x : Float) : ofFloat x = ofUnpacked x.toModel.unpack :=
  ofBits_eq _

theorem ofUnpacked_injective : Function.Injective ofUnpacked := by
  have sign : ∀ s s' : Sign, (s == .negative) = (s' == .negative) → s = s' := by
    rintro ⟨⟩ ⟨⟩ h <;> first | rfl | cases h
  intro u v h
  cases u <;> cases v
  case notANumber.notANumber => rfl
  case infinity.infinity s s' => rw [sign s s' (infinite.inj h)]
  case zero.zero s s' => rw [sign s s' (finite.inj h).1]
  case finite.finite s m q hm s' m' q' hm' =>
    obtain ⟨hs, rfl, rfl⟩ := finite.inj h
    rw [sign s s' hs]
  case zero.finite s s' m q hm => exact absurd (finite.inj h).2.1 hm.ne
  case finite.zero s m q hm s' => exact absurd (finite.inj h).2.1 hm.ne'
  all_goals cases h

/-- a double is determined by its parts -/
theorem ofFloat_injective : Function.Injective ofFloat := by
  rintro ⟨⟨a, ha⟩⟩ ⟨⟨b, hb⟩⟩ h
  rw [ofFloat_eq, ofFloat_eq] at h
  have hbits := (UnpackedFloat.unpack_inj_of_valid ha hb).1 (ofUnpacked_injective h)
  obtain rfl : a = b := UInt64.toBitVec_inj.1 hbits
  rfl

end Parts

/-- the double of the value `m * 2 ^ q`, before it is put into bits -/
def magnitude (m : ℕ) (q : ℤ) : UnpackedFloat :=
  if h : m = 0 then .zero .positive else .finite .positive m q (Nat.pos_of_ne_zero h)

namespace Canonical

variable {m : ℕ} {q : ℤ}

/-- the fields of a positive double that are put together are found again -/
theorem unpack_packComponents (e : BitVec 11) (m : BitVec 52) (hfull : e ≠ -1#11) :
    UnpackedFloat.unpack .binary64 (UnpackedFloat.packComponents .binary64 .positive e m) =
      if e = 0#11 then magnitude m.toNat (-1074)
      else magnitude (Nat.pow 2 52 + m.toNat) (e.toNat - 1075) := by
  have hbias : (Format.binary64.exponentBias : ℤ) = 1023 := rfl
  have hzero : m.toNat = 0 ↔ m = 0#52 := by
    rw [← BitVec.toNat_inj]
    rfl
  unfold UnpackedFloat.unpack
  simp only [UnpackedFloat.unpackExponent_packComponents,
    UnpackedFloat.unpackMantissa_packComponents, UnpackedFloat.unpackSign_packComponents,
    Sign.ofBitVec_toBitVec, hbias, Parts.toNat_append_one, if_neg hfull, magnitude, hzero]
  split_ifs with he hm hsum
  · rfl
  · rw [he]
    rfl
  · exact absurd hsum (Nat.add_pos_left (by decide) _).ne'
  · rfl

theorem log2_eq (hm : 2 ^ 52 ≤ m) (h : Canonical m q) : m.log2 = 52 := by
  have hpos : m ≠ 0 := by omega
  exact le_antisymm (Nat.lt_succ_iff.1 ((Nat.log2_lt hpos).2 h.lt)) ((Nat.le_log2 hpos).2 hm)

theorem pack_eq (h : Canonical m q) : UnpackedFloat.pack .binary64 (magnitude m q) =
    if 971 < q then UnpackedFloat.packedInfinity .binary64 .positive
    else UnpackedFloat.packComponents .binary64 .positive
      (if 2 ^ 52 ≤ m then BitVec.ofNat 11 (q + 1075).toNat else 0#11) (BitVec.ofNat 52 m) := by
  have hleast := h.least
  have hlt := h.lt
  have hfull := h.full
  unfold magnitude
  split
  · rename_i hm
    rw [if_neg (by omega), if_neg (by omega), hm]
    rfl
  · rename_i hm
    have hbiased :
        (q + (Format.binary64.exponentBias : ℤ) + (52 : ℕ)).toNat = (q + 1075).toNat := by
      have : (Format.binary64.exponentBias : ℤ) = 1023 := rfl
      omega
    unfold UnpackedFloat.pack
    dsimp only
    rw [hbiased]
    by_cases hq : 971 < q
    · rw [if_pos hq, if_pos (show 2 ^ 11 ≤ (q + 1075).toNat + 1 by omega)]
    rw [if_neg hq, if_neg (show ¬ 2 ^ 11 ≤ (q + 1075).toNat + 1 by omega)]
    by_cases hm : 2 ^ 52 ≤ m
    · have hlog : m.log2 + 1 = Format.binary64.mantissaBits := congrArg (· + 1) (log2_eq hm h)
      rw [if_pos hm, if_pos hlog]
    · have hlog : m.log2 < 52 := (Nat.log2_lt ‹_›).2 (not_le.1 hm)
      have hshort : m.log2 + 1 ≠ Format.binary64.mantissaBits := (show m.log2 + 1 < 53 by omega).ne
      rw [if_neg hm, if_neg hshort]

/-- what fits comes out of the bits as it went in -/
theorem unpack_pack (h : Canonical m q) (hq : q ≤ 971) :
    (Float.Model.pack (magnitude m q)).unpack = magnitude m q := by
  change UnpackedFloat.unpack .binary64 (UnpackedFloat.pack .binary64 (magnitude m q)) = _
  rw [pack_eq h, if_neg (not_lt.2 hq)]
  have hleast := h.least
  have hlt := h.lt
  split
  · -- the first digit is not held, and the exponent tells that it is there
    rename_i hm
    have hbiased : (BitVec.ofNat 11 (q + 1075).toNat).toNat = (q + 1075).toNat := by
      rw [BitVec.toNat_ofNat]
      omega
    have hmantissa : Nat.pow 2 52 + (BitVec.ofNat 52 m).toNat = m := by
      rw [BitVec.toNat_ofNat, show Nat.pow 2 52 = 2 ^ 52 from rfl]
      omega
    have hne (k : BitVec 11) (hk : (q + 1075).toNat ≠ k.toNat) :
        BitVec.ofNat 11 (q + 1075).toNat ≠ k := by
      rintro rfl
      exact hk hbiased.symm
    rw [unpack_packComponents _ _ (hne _ ?_), if_neg (hne _ ?_), hmantissa, hbiased]
    · congr 1
      omega
    · change _ ≠ 0
      omega
    · change _ ≠ 2047
      omega
  · -- with the least exponent all digits are held
    rename_i hm
    rw [unpack_packComponents _ _ (by decide), if_pos rfl, BitVec.toNat_ofNat,
      Nat.mod_eq_of_lt (not_le.1 hm), h.full.resolve_left hm]

theorem unpack_pack_overflow (h : Canonical m q) (hq : 971 < q) :
    (Float.Model.pack (magnitude m q)).unpack = .infinity .positive := by
  change UnpackedFloat.unpack .binary64 (UnpackedFloat.pack .binary64 (magnitude m q)) = _
  rw [pack_eq h, if_pos hq]
  unfold UnpackedFloat.unpack UnpackedFloat.packedInfinity
  simp only [UnpackedFloat.unpackExponent_packComponents,
    UnpackedFloat.unpackMantissa_packComponents, UnpackedFloat.unpackSign_packComponents,
    Sign.ofBitVec_toBitVec]
  rfl

/-- what a packed double is taken apart into -/
theorem ofFloat_pack (h : Canonical m q) :
    Parts.ofFloat ⟨.pack (magnitude m q)⟩ =
      if 971 < q then .infinite false else .finite false m q := by
  rw [Parts.ofFloat_eq]
  split
  · rename_i hq
    rw [h.unpack_pack_overflow hq]
    rfl
  · rename_i hq
    rw [h.unpack_pack (not_lt.1 hq), magnitude]
    split
    · rename_i hm
      rw [hm, h.full.resolve_left (by omega)]
      rfl
    · rfl

end Canonical

end AutoLang.Decimal
