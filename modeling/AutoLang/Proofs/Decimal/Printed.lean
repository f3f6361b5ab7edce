import AutoLang.Proofs.Decimal.Spelling
import Mathlib

/-! Doubles as they are printed, read as decimal numbers. A finite double is rounded to six significant
digits. The exponent of the first of them decides how many stand behind the point, and rounding to so many
decimals at once comes to the same number, also where rounding up reaches the next power of ten. -/

namespace AutoLang.Decimal

namespace Spelling

variable {s : Spelling}

/-- nothing, or an exponent with its sign -/
def exponent? : List Char → Option (Option (Bool × List Char))
  | [] => some none
  | 'e' :: '+' :: ds => digits? false ds
  | 'e' :: '-' :: ds => digits? true ds
  | _ => none
where
  digits? (negative : Bool) (ds : List Char) : Option (Option (Bool × List Char)) :=
    if ds.isEmpty || !ds.all Char.isDigit then none else some (some (negative, ds))

/-- digits, perhaps a point and digits, perhaps an exponent -/
def ofChars? (cs : List Char) : Option Spelling :=
  let whole := cs.takeWhile Char.isDigit
  if whole.isEmpty then none
  else match cs.dropWhile Char.isDigit with
    | '.' :: after =>
      let fraction := after.takeWhile Char.isDigit
      if fraction.isEmpty then none
      else (exponent? (after.dropWhile Char.isDigit)).map (⟨whole, some fraction, ·⟩)
    | tail => (exponent? tail).map (⟨whole, none, ·⟩)

theorem exponent?_tail (h : s.IsProper) : exponent? s.tail = some s.exponent := by
  rw [tail]
  cases he : s.exponent with
  | none => rfl
  | some e =>
    obtain ⟨negative, ds⟩ := e
    obtain ⟨hne, hds⟩ := h.exponent _ he
    have hread : exponent?.digits? negative ds = some (some (negative, ds)) := by
      rw [exponent?.digits?, List.isEmpty_eq_false_iff.2 hne, List.all_eq_true.2 hds]
      rfl
    cases negative <;> exact hread

/-- what is written is read back -/
theorem ofChars?_chars (h : s.IsProper) : ofChars? s.chars = some s := by
  have hwhole := List.isEmpty_eq_false_iff.2 h.whole.1
  unfold ofChars? chars behindPoint
  cases hf : s.fraction with
  | none =>
    have hspan := span_digits h.whole.2 s.isDigit_head_tail
    rw [Option.map_none, Option.getD_none, List.append_nil, hspan.1, hspan.2]
    dsimp only
    rw [hwhole, if_neg Bool.false_ne_true]
    split
    · -- no exponent begins with a point
      rename_i hpoint
      rw [tail] at hpoint
      cases he : s.exponent with
      | none => rw [he] at hpoint; cases hpoint
      | some e => rw [he] at hpoint; cases hpoint
    · rw [exponent?_tail h, Option.map_some, ← hf]
  | some f =>
    obtain ⟨hne, hdigits⟩ := h.fraction f hf
    have hhead : ∀ c ∈ ('.' :: (f ++ s.tail)).head?, c.isDigit = false :=
      fun c hc => Option.some.inj hc ▸ rfl
    have hspan := span_digits h.whole.2 hhead
    have hbehind := span_digits hdigits s.isDigit_head_tail
    rw [Option.map_some, Option.getD_some, List.append_assoc, List.cons_append, hspan.1, hspan.2]
    dsimp only
    rw [hwhole, if_neg Bool.false_ne_true]
    change (if (List.takeWhile Char.isDigit (f ++ s.tail)).isEmpty then _ else _) = _
    rw [hbehind.1, hbehind.2, List.isEmpty_eq_false_iff.2 hne, if_neg Bool.false_ne_true,
      exponent?_tail h, Option.map_some, ← hf]

end Spelling

/-- the decimal number that characters are read as -/
def number? : List Char → Option ℚ
  | '-' :: cs => (Spelling.ofChars? cs).map (-·.value)
  | cs => (Spelling.ofChars? cs).map (·.value)

/-- a spelling with a sign before it if it has one -/
def signed (negative : Bool) (s : Spelling) : List Char := if negative then '-' :: s.chars else s.chars

theorem number?_signed {s : Spelling} (h : s.IsProper) (negative : Bool) :
    number? (signed negative s) = some (if negative then -s.value else s.value) := by
  have hread := Spelling.ofChars?_chars h
  cases negative with
  | true => exact congrArg (Option.map (-·.value)) hread
  | false =>
    change number? s.chars = some s.value
    unfold number?
    split
    · -- a sign is no digit
      rename_i cs hsign
      rw [hsign] at hread
      cases hread
    · exact congrArg (Option.map (·.value)) hread

section Rounding

variable {places : ℕ} {a r : ℚ} {e : ℤ}

/-- the first of so many digits counts the power of ten that the exponent says -/
theorem Scientific.bounds {s : Scientific} (hplaces : 0 < places) (hlow : 10 ^ (places - 1) ≤ s.digits)
    (hhigh : s.digits < 10 ^ places) :
    10 ^ s.exponent ≤ s.value places ∧ s.value places < 10 ^ (s.exponent + 1) := by
  have hunit : (0 : ℚ) < 10 ^ (s.exponent + 1 - places) := by positivity
  have hlow' : (10 ^ (places - 1) : ℚ) ≤ s.digits := by exact_mod_cast hlow
  have hhigh' : (s.digits : ℚ) < 10 ^ places := by exact_mod_cast hhigh
  constructor
  · calc (10 ^ s.exponent : ℚ) = 10 ^ (places - 1) * 10 ^ (s.exponent + 1 - places) := by
          rw [← zpow_natCast, ← zpow_add₀ (by norm_num)]
          congr 1
          omega
      _ ≤ s.value places := by rw [value]; gcongr
  · calc s.value places < 10 ^ places * 10 ^ (s.exponent + 1 - places) := by rw [value]; gcongr
      _ = 10 ^ (s.exponent + 1) := by
          rw [← zpow_natCast, ← zpow_add₀ (by norm_num)]
          congr 1
          omega

/-- the exponent of the first digit is unique -/
theorem exponent_unique {e' : ℤ} (hlow : 10 ^ e ≤ r) (hhigh : r < 10 ^ (e + 1)) (hlow' : 10 ^ e' ≤ r)
    (hhigh' : r < 10 ^ (e' + 1)) : e = e' := by
  have hlt := (zpow_lt_zpow_iff_right₀ (by norm_num)).1 (hlow.trans_lt hhigh')
  have hlt' := (zpow_lt_zpow_iff_right₀ (by norm_num)).1 (hlow'.trans_lt hhigh)
  omega

/-- a zero at the end is not needed to be nearest -/
theorem NearestNat.of_tenfold {x : ℚ} {n : ℕ} (h : NearestNat x (10 * n)) : NearestNat (x / 10) n := by
  have hwithin := h.within
  have htenth : |(n : ℚ) - x / 10| = |((10 * n : ℕ) : ℚ) - x| / 10 := by
    rw [← abs_of_pos (by norm_num : (0 : ℚ) < 10), ← abs_div, abs_of_pos (by norm_num : (0 : ℚ) < 10)]
    congr 1
    push_cast
    ring
  exact ⟨by linarith, fun he => by linarith⟩

/-- A number that was rounded to significant digits is also rounded at the last of the places that it has
then. This is another place than before if rounding up has reached the next power of ten. -/
theorem IsRounded.at_last_place (hplaces : 0 < places) (ha : a ≠ 0) (h : IsRounded places a r)
    (hlow : 10 ^ e ≤ r) (hhigh : r < 10 ^ (e + 1)) :
    ∃ n : ℕ, NearestNat (a / 10 ^ (e + 1 - places)) n ∧ r = n * 10 ^ (e + 1 - places) := by
  rw [IsRounded, if_neg ha] at h
  obtain ⟨u, n, hmin, hmax, hnearest, rfl⟩ := h
  have hleast : 10 ^ (places - 1) ≤ n := hnearest.le (by exact_mod_cast hmin)
  have hmost : n ≤ 10 ^ places := hnearest.ge (by exact_mod_cast hmax.le)
  obtain hlt | rfl := hmost.lt_or_eq
  · have hbounds := Scientific.bounds (s := ⟨n, u + places - 1⟩) hplaces hleast hlt
    have hplace : u + places - 1 + 1 - places = u := by ring
    rw [Scientific.value, hplace] at hbounds
    obtain rfl := exponent_unique hlow hhigh hbounds.1 hbounds.2
    rw [hplace]
    exact ⟨n, hnearest, rfl⟩
  · -- the last digit of the power of ten is not written
    obtain ⟨p, rfl⟩ := Nat.exists_eq_add_one.mpr hplaces
    have hten : 10 ^ (p + 1) = 10 * 10 ^ p := Nat.pow_succ'
    have hnext : (10 : ℚ) ^ (u + 1) = 10 ^ u * 10 := zpow_add_one₀ (by norm_num) u
    have hvalue : ((10 ^ (p + 1) : ℕ) * 10 ^ u : ℚ) = (10 ^ p : ℕ) * 10 ^ (u + 1) := by
      rw [hten, hnext]
      push_cast
      ring
    have hbounds := Scientific.bounds (s := ⟨10 ^ p, u + (p + 1 : ℕ)⟩) hplaces le_rfl
      (Nat.pow_lt_pow_right (by decide) p.lt_succ_self)
    have hplace : u + (p + 1 : ℕ) + 1 - (p + 1 : ℕ) = u + 1 := by ring
    rw [Scientific.value, hplace, ← hvalue] at hbounds
    obtain rfl := exponent_unique hlow hhigh hbounds.1 hbounds.2
    rw [hplace, hvalue, hnext, ← div_div]
    rw [hten] at hnearest
    exact ⟨10 ^ p, hnearest.of_tenfold, rfl⟩

end Rounding

/-- how a positive number is written in a format; the first digit counts `10 ^ e` -/
structure NumberFormat.Writes (f : NumberFormat) (a : ℚ) (s : Spelling) (e : ℤ) : Prop where
  tidy : s.IsTidy
  rounded : IsRounded f.places a s.value
  leading : 10 ^ e ≤ s.value ∧ s.value < 10 ^ (e + 1)
  /-- rounding at once at the last place comes to the same -/
  lastPlace : ∃ n : ℕ, NearestNat (a / 10 ^ (e + 1 - f.places)) n ∧ s.value = n * 10 ^ (e + 1 - f.places)
  exponent_iff : s.exponent.isSome ↔ e < f.leastPlain ∨ f.leastLarge ≤ e
  exponent : ∀ p ∈ s.exponent,
    p.1 = decide (e < 0) ∧ ofDigits p.2 = e.natAbs ∧ f.exponentWidth ≤ p.2.length

namespace NumberFormat

variable (f : NumberFormat)

/-- an exponent is written exactly if it is not a plain one, with digits to fill its width -/
theorem spelling_exponent (s : Scientific) :
    ((f.spelling s).exponent.isSome ↔ s.exponent < f.leastPlain ∨ f.leastLarge ≤ s.exponent) ∧
      ∀ p ∈ (f.spelling s).exponent, p.1 = decide (s.exponent < 0) ∧ ofDigits p.2 = s.exponent.natAbs ∧
        f.exponentWidth ≤ p.2.length := by
  unfold spelling
  split
  · rename_i hwritten
    rw [Bool.or_eq_true, decide_eq_true_eq, decide_eq_true_eq] at hwritten
    refine ⟨iff_of_true rfl hwritten, fun p hp => ?_⟩
    obtain rfl := Option.some.inj hp
    refine ⟨rfl, (ofDigits_leftPad _ _).trans (ofDigits_toDigits _), ?_⟩
    rw [leftPad, List.length_append, List.length_replicate]
    omega
  · rename_i hplain
    rw [Bool.or_eq_true, decide_eq_true_eq, decide_eq_true_eq] at hplain
    exact ⟨iff_of_false Bool.false_ne_true hplain, fun p hp => absurd hp (Option.not_mem_none p)⟩

theorem writes_ofQuotient (hplaces : 0 < f.places) (hlarge : f.leastLarge ≤ f.places) {m : ℕ} (hm : m ≠ 0)
    (q : ℤ) : ∃ s e, f.Writes (m * 2 ^ q) s e ∧
      f.write (.ofQuotient f.places (m * Nat.pow 2 q.toNat) (Nat.pow 2 (-q).toNat)) = s.chars := by
  obtain ⟨⟨hleast, hmost⟩, hrounded⟩ := Scientific.ofQuotient_binary hplaces hm q
  simp only [Nat.pow_eq]
  generalize Scientific.ofQuotient f.places (m * 2 ^ q.toNat) (2 ^ (-q).toNat) = s at *
  have hvalue := f.value_spelling s hplaces hlarge
  have hleading := s.bounds hplaces hleast hmost
  have hne : (m * 2 ^ q : ℚ) ≠ 0 := by positivity
  have hlast := hrounded.at_last_place hplaces hne hleading.1 hleading.2
  obtain ⟨hiff, hexponent⟩ := f.spelling_exponent s
  rw [← hvalue] at hrounded hleading hlast
  exact ⟨f.spelling s, s.exponent, ⟨f.isTidy_spelling s, hrounded, hleading, hlast, hiff, hexponent⟩,
    (f.chars_spelling s).symm⟩

end NumberFormat

/-- A finite double other than zero is printed as a decimal number: its sign, and its exact value rounded to
six significant digits, a tie to an even last digit. Rounding at the last place that is printed comes to the
same number. An exponent is printed exactly if that of the first digit is below -4 or at least 6, with a sign
and at least two digits; no fraction ends in a zero, and none is empty. -/
theorem finite_double_printed {x : Float} {v : ℚ} (hx : (Parts.ofFloat x).value? = some v) (hv : v ≠ 0) :
    ∃ s e, NumberFormat.Writes ⟨6, -4, 6, 2⟩ |v| s e ∧
      (text x).toList = signed (decide (v < 0)) s ∧
      number? (text x).toList = some (if v < 0 then -s.value else s.value) := by
  cases hparts : Parts.ofFloat x with
  | nan | infinite => rw [hparts] at hx; cases hx
  | finite negative m q =>
    rw [hparts] at hx
    obtain rfl := Option.some.inj hx
    have hm : m ≠ 0 := by
      rintro rfl
      simp at hv
    have hpos : (0 : ℚ) < m * 2 ^ q := by positivity
    have hsign : (((if negative then -1 else 1) * m * 2 ^ q : ℚ) < 0) ↔ negative = true := by
      cases negative <;> simp <;> linarith
    have habs : |((if negative then -1 else 1) * m * 2 ^ q : ℚ)| = m * 2 ^ q := by
      cases negative <;> simp [abs_of_pos hpos]
    obtain ⟨s, e, hwrites, hchars⟩ := general.writes_ofQuotient (by decide) (by decide) hm q
    have htext : (text x).toList = signed negative s := by
      rw [text, hparts, NumberFormat.writeParts, if_neg hm, hchars, String.toList_ofList]
      rfl
    simp only [htext, hsign, habs, Bool.decide_eq_true]
    exact ⟨s, e, hwrites, rfl, number?_signed hwrites.tidy.toIsProper negative⟩

/-- rounding up reaches a power of ten that is written with an exponent -/
theorem finite_double_printed_carry :
    (Parts.ofFloat (.ofScientific 9999995 true 1)).value? = some (9999995 / 10) ∧ (9999995 / 10 : ℚ) ≠ 0 ∧
      text (.ofScientific 9999995 true 1) = "1e+06" ∧ number? "1e+06".toList = some (10 ^ 6) ∧
      IsRounded 6 (9999995 / 10) (10 ^ 6) := by
  have hvalue : (Parts.ofFloat (.ofScientific 9999995 true 1)).value? = some (9999995 / 10) := by
    have hparts : Parts.ofFloat (.ofScientific 9999995 true 1) = .finite false (1999999 * 2 ^ 32) (-33) := by
      decide
    rw [hparts, Parts.value?]
    norm_num
  have hne : (9999995 / 10 : ℚ) ≠ 0 := by norm_num
  have htext : text (.ofScientific 9999995 true 1) = "1e+06" := by decide
  have hnumber : number? "1e+06".toList = some (10 ^ 6) := by decide +kernel
  obtain ⟨s, e, hwrites, -, hread⟩ := finite_double_printed hvalue hne
  rw [htext, hnumber, if_neg (by norm_num), Option.some.injEq] at hread
  have hrounded := hwrites.rounded
  rw [← hread, abs_of_pos (by norm_num)] at hrounded
  exact ⟨hvalue, hne, htext, hnumber, hrounded⟩

end AutoLang.Decimal
