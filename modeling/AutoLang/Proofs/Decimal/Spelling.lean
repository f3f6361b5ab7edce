import AutoLang.Decimal.Read
import AutoLang.Proofs.Decimal.Scientific
import AutoLang.Proofs.Decimal.Significant
import Mathlib

/-! Numbers as they are written out: digits, perhaps a point and more digits, perhaps an exponent with
its sign. What is written stands for the significant digits it was made from; the zeros that are dropped
at the end of a fraction are those that do not count. -/

namespace AutoLang.Decimal

open List (rdropWhile rtakeWhile)

/-- the parts of a number that is written out -/
structure Spelling where
  whole : List Char
  fraction : Option (List Char)
  /-- whether it is negative, and its digits -/
  exponent : Option (Bool × List Char)

namespace Spelling

/-- the fraction, with the point before it -/
def behindPoint (s : Spelling) : List Char := (s.fraction.map ('.' :: ·)).getD []

/-- the exponent with its sign, behind the letter -/
def tail (s : Spelling) : List Char :=
  (s.exponent.map fun (negative, ds) => 'e' :: (if negative then '-' else '+') :: ds).getD []

def chars (s : Spelling) : List Char := s.whole ++ s.behindPoint ++ s.tail

/-- the power of ten that the exponent stands for -/
def scale (s : Spelling) : ℤ :=
  (s.exponent.map fun (negative, ds) => if negative then -(ofDigits ds : ℤ) else ofDigits ds).getD 0

def value (s : Spelling) : ℚ :=
  ofDigits (s.whole ++ s.fraction.getD []) / 10 ^ (s.fraction.getD []).length * 10 ^ s.scale

/-- digits in all the parts there are -/
structure IsProper (s : Spelling) : Prop where
  whole : s.whole ≠ [] ∧ ∀ c ∈ s.whole, c.isDigit
  fraction : ∀ f ∈ s.fraction, f ≠ [] ∧ ∀ c ∈ f, c.isDigit
  exponent : ∀ e ∈ s.exponent, e.2 ≠ [] ∧ ∀ c ∈ e.2, c.isDigit

/-- no zero stands at the end of a fraction -/
structure IsTidy (s : Spelling) : Prop extends IsProper s where
  tidy : ∀ f ∈ s.fraction, f.getLast? ≠ some '0'

end Spelling

section Digits

variable {n w : ℕ} {cs ds : List Char}

theorem ofDigits_toDigits (n : ℕ) : ofDigits (Nat.toDigits 10 n) = n := Nat.ofDigitChars_ten_toDigits

theorem ofDigits_append (cs ds : List Char) :
    ofDigits (cs ++ ds) = ofDigits cs * 10 ^ ds.length + ofDigits ds := by
  have happend : ofDigits (cs ++ ds) = Nat.ofDigitChars 10 ds (ofDigits cs) := Nat.ofDigitChars_append 0
  rw [happend, Nat.ofDigitChars_eq_ofDigitChars_zero, Nat.mul_comm]
  rfl

theorem ofDigits_zeros (h : ∀ c ∈ cs, c = '0') : ofDigits cs = 0 := by
  rw [List.eq_replicate_of_mem h]
  exact (Nat.ofDigitChars_replicate_zero).trans (Nat.mul_zero _)

theorem isDigit_toDigits (n : ℕ) : ∀ c ∈ Nat.toDigits 10 n, c.isDigit :=
  fun _ hc => Nat.isDigit_of_mem_toDigits (by decide) (by decide) hc

theorem ofDigits_leftPad (w : ℕ) (cs : List Char) : ofDigits (leftPad w cs) = ofDigits cs := by
  have hzeros : ofDigits (List.replicate (w - cs.length) '0') = 0 :=
    ofDigits_zeros fun _ => List.eq_of_mem_replicate
  rw [leftPad, ofDigits_append, hzeros, Nat.zero_mul, Nat.zero_add]

theorem isDigit_leftPad (h : ∀ c ∈ cs, c.isDigit) : ∀ c ∈ leftPad w cs, c.isDigit :=
  List.forall_mem_append.2 ⟨fun _ hc => List.eq_of_mem_replicate hc ▸ rfl, h⟩

/-- a number that fits is padded to the width -/
theorem length_leftPad (hw : 0 < w) (h : n < 10 ^ w) : (leftPad w (Nat.toDigits 10 n)).length = w := by
  have hle := (Nat.length_toDigits_le_iff (by decide) hw).2 h
  rw [leftPad, List.length_append, List.length_replicate]
  omega

/-- zeros at the end of a fraction do not count -/
theorem ofDigits_rdropWhile (cs : List Char) :
    (ofDigits (cs.rdropWhile (· == '0')) / 10 ^ (cs.rdropWhile (· == '0')).length : ℚ) =
      ofDigits cs / 10 ^ cs.length := by
  have hsplit : cs = cs.rdropWhile (· == '0') ++ cs.rtakeWhile (· == '0') := by
    rw [rdropWhile, rtakeWhile, ← List.reverse_append, List.takeWhile_append_dropWhile,
      List.reverse_reverse]
  have hzeros : ofDigits (cs.rtakeWhile (· == '0')) = 0 :=
    ofDigits_zeros fun c hc => by simpa using List.mem_rtakeWhile_imp hc
  generalize cs.rdropWhile (· == '0') = kept at hsplit
  generalize cs.rtakeWhile (· == '0') = zeros at hsplit hzeros
  rw [hsplit, ofDigits_append, hzeros, Nat.add_zero, List.length_append, pow_add]
  push_cast
  rw [mul_div_mul_right _ _ (by positivity)]

/-- digits up to something else -/
theorem span_digits (hds : ∀ c ∈ ds, c.isDigit) (hcs : ∀ c ∈ cs.head?, c.isDigit = false) :
    (ds ++ cs).takeWhile Char.isDigit = ds ∧ (ds ++ cs).dropWhile Char.isDigit = cs := by
  rw [List.takeWhile_append_of_pos hds, List.dropWhile_append_of_pos hds]
  cases cs with
  | nil => exact ⟨List.append_nil ds, rfl⟩
  | cons c cs =>
    have hc : ¬ c.isDigit = true := by rw [hcs c rfl]; exact Bool.false_ne_true
    rw [List.takeWhile_cons_of_neg hc, List.dropWhile_cons_of_neg hc, List.append_nil]
    exact ⟨rfl, rfl⟩

end Digits

namespace Spelling

variable {s : Spelling}

/-- no digits are mistaken for those of the exponent -/
theorem isDigit_head_tail (s : Spelling) : ∀ c ∈ s.tail.head?, c.isDigit = false := by
  rw [tail]
  cases s.exponent with
  | none => exact fun c hc => absurd hc (Option.not_mem_none c)
  | some e => exact fun c hc => Option.some.inj hc ▸ rfl

/-- a number without an exponent: its whole part, and what counts behind the point -/
def fixed (digits decimals : ℕ) : Spelling :=
  let kept := (leftPad decimals (Nat.toDigits 10 (digits % 10 ^ decimals))).rdropWhile (· == '0')
  ⟨Nat.toDigits 10 (digits / 10 ^ decimals), if kept.isEmpty then none else some kept, none⟩

theorem chars_fixed (digits decimals : ℕ) : (fixed digits decimals).chars = fixedPoint digits decimals := by
  unfold chars behindPoint tail fixed fixedPoint
  simp only [Nat.pow_eq, Option.map_none, Option.getD_none, List.append_nil]
  have hnone (h : decimals = 0) :
      ((leftPad decimals (Nat.toDigits 10 (digits % 10 ^ decimals))).rdropWhile (· == '0')).isEmpty =
        true := by
    subst h
    rw [pow_zero, Nat.mod_one]
    rfl
  change Nat.toDigits 10 (digits / 10 ^ decimals) ++ _ =
    if (_ || ((leftPad decimals _).rdropWhile (· == '0')).isEmpty) = true then _ else _
  cases hkept : ((leftPad decimals (Nat.toDigits 10 (digits % 10 ^ decimals))).rdropWhile
      (· == '0')).isEmpty with
  | true =>
    rw [Bool.or_true, if_pos rfl, if_pos rfl]
    exact List.append_nil _
  | false =>
    have hsome : decimals ≠ 0 := fun h => by
      rw [hnone h] at hkept
      cases hkept
    rw [Bool.or_false, decide_eq_false hsome, if_neg Bool.false_ne_true, if_neg Bool.false_ne_true]
    rfl

theorem isTidy_fixed (digits decimals : ℕ) : (fixed digits decimals).IsTidy := by
  have hdigits := isDigit_leftPad (w := decimals) (isDigit_toDigits (digits % 10 ^ decimals))
  have hfraction : ∀ f ∈ (fixed digits decimals).fraction,
      (f ≠ [] ∧ ∀ c ∈ f, c.isDigit) ∧ f.getLast? ≠ some '0' := by
    intro f hf
    unfold fixed at hf
    dsimp only at hf
    generalize leftPad decimals (Nat.toDigits 10 (digits % 10 ^ decimals)) = fraction at hf hdigits
    split at hf
    · cases hf
    · rename_i hkept
      obtain rfl := Option.some.inj hf
      have hne : fraction.rdropWhile (· == '0') ≠ [] := fun h => hkept (List.isEmpty_iff.2 h)
      refine ⟨⟨hne, fun c hc => hdigits c ((List.rdropWhile_prefix _ _).subset hc)⟩, fun hlast => ?_⟩
      -- the last of what is kept is no zero
      rw [List.getLast?_eq_some_getLast hne] at hlast
      refine List.rdropWhile_last_not _ _ hne ?_
      rw [Option.some.inj hlast]
      rfl
  exact ⟨⟨⟨Nat.toDigits_ne_nil, isDigit_toDigits _⟩, fun f hf => (hfraction f hf).1, nofun⟩,
    fun f hf => (hfraction f hf).2⟩

theorem value_fixed (digits decimals : ℕ) : (fixed digits decimals).value = digits / 10 ^ decimals := by
  have hfraction := ofDigits_rdropWhile (leftPad decimals (Nat.toDigits 10 (digits % 10 ^ decimals)))
  rw [ofDigits_leftPad, ofDigits_toDigits] at hfraction
  have hrest : ((digits % 10 ^ decimals : ℕ) /
      10 ^ (leftPad decimals (Nat.toDigits 10 (digits % 10 ^ decimals))).length : ℚ) =
        (digits % 10 ^ decimals : ℕ) / (10 ^ decimals : ℕ) := by
    rcases Nat.eq_zero_or_pos decimals with rfl | hpos
    · rw [pow_zero, Nat.mod_one, Nat.cast_zero, zero_div, zero_div]
    · rw [length_leftPad hpos (Nat.mod_lt _ (Nat.pow_pos (by decide))), Nat.cast_pow]
      rfl
  have hwhole := div_eq_whole_add digits (Nat.pow_pos (by decide) : 0 < 10 ^ decimals)
  rw [← hrest, ← hfraction, Nat.cast_pow] at hwhole
  unfold value fixed scale
  dsimp only
  generalize (leftPad decimals (Nat.toDigits 10 (digits % 10 ^ decimals))).rdropWhile (· == '0') = kept
    at hwhole ⊢
  have hkept : (if kept.isEmpty then none else some kept).getD [] = kept := by
    cases kept <;> rfl
  rw [hkept, Option.map_none, Option.getD_none, zpow_zero, mul_one, ofDigits_append, ofDigits_toDigits]
  push_cast at hwhole ⊢
  rw [add_div, mul_div_cancel_right₀ _ (by positivity)]
  exact hwhole.symm

/-- an exponent behind a number -/
def withExponent (s : Spelling) (negative : Bool) (ds : List Char) : Spelling :=
  { s with exponent := some (negative, ds) }

variable {negative : Bool} {ds : List Char}

theorem chars_withExponent (h : s.exponent = none) : (s.withExponent negative ds).chars =
    s.chars ++ 'e' :: (if negative then '-' else '+') :: ds := by
  have htail : s.tail = [] := by rw [tail, h]; rfl
  rw [chars, chars, htail, List.append_nil]
  rfl

theorem IsTidy.withExponent (h : s.IsTidy) (hne : ds ≠ []) (hds : ∀ c ∈ ds, c.isDigit) :
    (s.withExponent negative ds).IsTidy :=
  ⟨⟨h.whole, h.fraction, fun _ he => Option.some.inj he ▸ ⟨hne, hds⟩⟩, h.tidy⟩

theorem value_withExponent (h : s.exponent = none) : (s.withExponent negative ds).value =
    s.value * 10 ^ (if negative then -(ofDigits ds : ℤ) else ofDigits ds) := by
  have hscale : s.scale = 0 := by rw [scale, h]; rfl
  rw [value, value, hscale, zpow_zero, mul_one]
  rfl

end Spelling

namespace NumberFormat

variable (f : NumberFormat) (s : Scientific)

/-- how a number is spelled in a format -/
def spelling : Spelling :=
  if s.exponent < f.leastPlain || f.leastLarge ≤ s.exponent then
    (Spelling.fixed s.digits (f.places - 1)).withExponent (decide (s.exponent < 0))
      (leftPad f.exponentWidth (Nat.toDigits 10 s.exponent.natAbs))
  else .fixed s.digits ((f.places : Int) - 1 - s.exponent).toNat

theorem chars_spelling : (f.spelling s).chars = f.write s := by
  unfold spelling write
  split
  · rw [Spelling.chars_withExponent rfl, Spelling.chars_fixed]
    simp only [decide_eq_true_eq]
  · exact Spelling.chars_fixed _ _

theorem isTidy_spelling : (f.spelling s).IsTidy := by
  unfold spelling
  split
  · exact (Spelling.isTidy_fixed _ _).withExponent
      (List.append_ne_nil_of_right_ne_nil _ Nat.toDigits_ne_nil)
      (isDigit_leftPad (isDigit_toDigits _))
  · exact Spelling.isTidy_fixed _ _

/-- the spelling stands for the digits and the exponent -/
theorem value_spelling (hplaces : 0 < f.places) (hlarge : f.leastLarge ≤ f.places) :
    (f.spelling s).value = s.value f.places := by
  have hten : (10 : ℚ) ≠ 0 := by norm_num
  unfold spelling Scientific.value
  split
  · have hsigned : (if decide (s.exponent < 0) = true then -(s.exponent.natAbs : ℤ)
        else s.exponent.natAbs) = s.exponent := by
      split
      · rename_i hneg
        have := of_decide_eq_true hneg
        omega
      · rename_i hpos
        have := of_decide_eq_false (Bool.eq_false_iff.2 hpos)
        omega
    rw [Spelling.value_withExponent rfl, Spelling.value_fixed, ofDigits_leftPad, ofDigits_toDigits,
      hsigned, div_mul_eq_mul_div, mul_div_assoc, ← zpow_natCast, ← zpow_sub₀ hten]
    congr 2
    omega
  · rename_i hplain
    have hle : 0 ≤ (f.places : ℤ) - 1 - s.exponent := by
      simp only [Bool.or_eq_true, decide_eq_true_eq, not_or, not_le] at hplain
      omega
    rw [Spelling.value_fixed, ← zpow_natCast, Int.toNat_of_nonneg hle, div_eq_mul_inv, ← zpow_neg]
    congr 2
    omega

end NumberFormat

/-- a number taken apart in binary, rounded to so many significant digits -/
theorem Scientific.ofQuotient_binary {places m : ℕ} (hplaces : 0 < places) (hm : m ≠ 0) (q : ℤ) :
    let s := ofQuotient places (m * 2 ^ q.toNat) (2 ^ (-q).toNat)
    (10 ^ (places - 1) ≤ s.digits ∧ s.digits < 10 ^ places) ∧
      IsRounded places (m * 2 ^ q) (s.value places) := by
  have hquotient : ((m * 2 ^ q.toNat : ℕ) / (2 ^ (-q).toNat : ℕ) : ℚ) = m * 2 ^ q := by
    rw [zpow_toNat two_ne_zero q, ← mul_div_assoc]
    push_cast
    rfl
  have hspec := ofQuotient_spec hplaces
    (Nat.mul_pos (Nat.pos_of_ne_zero hm) (Nat.pow_pos two_pos : 0 < 2 ^ q.toNat))
    (Nat.pow_pos two_pos : 0 < 2 ^ (-q).toNat)
  rwa [hquotient] at hspec

section Text

variable {x : Float} {a : ℚ}

/-- what a double is written as: its value, rounded to six significant digits -/
theorem exists_spelling (h : Holds x a) : ∃ s : Spelling, (text x).toList = s.chars ∧ s.IsTidy ∧
    IsRounded 6 a s.value ∧ ∃ (n : ℕ) (k : ℤ), n < 10 ^ 6 ∧ s.value = n * 10 ^ k := by
  obtain ⟨m, q, hx, rfl⟩ := h
  unfold text NumberFormat.writeParts
  rw [hx]
  dsimp only
  rw [if_neg Bool.false_ne_true, String.toList_ofList]
  by_cases hm : m = 0
  · have hzero : (⟨['0'], none, none⟩ : Spelling).value = 0 := by
      unfold Spelling.value
      have : ofDigits (['0'] ++ []) = 0 := rfl
      dsimp only [Option.getD_none]
      rw [this, Nat.cast_zero, zero_div, zero_mul]
    rw [if_pos hm, hm, Nat.cast_zero, zero_mul]
    refine ⟨⟨['0'], none, none⟩, rfl,
      ⟨⟨⟨List.cons_ne_nil _ _, List.forall_mem_singleton.2 rfl⟩, nofun, nofun⟩, nofun⟩, ?_, 0, 0,
      by norm_num, ?_⟩
    · rw [IsRounded, if_pos rfl, hzero]
    · rw [hzero, Nat.cast_zero, zero_mul]
  · rw [if_neg hm]
    obtain ⟨⟨-, hdigits⟩, hrounded⟩ := Scientific.ofQuotient_binary (by decide : 0 < 6) hm q
    simp only [Nat.pow_eq]
    have hvalue := general.value_spelling
      (.ofQuotient general.places (m * 2 ^ q.toNat) (2 ^ (-q).toNat)) (by decide) (by decide)
    refine ⟨_, (general.chars_spelling _).symm, general.isTidy_spelling _, ?_, _, _, hdigits, hvalue⟩
    rw [hvalue]
    exact hrounded

end Text

end AutoLang.Decimal
