import AutoLang.C.Print
import AutoLang.Proofs.Decimal.Reread
import AutoLang.Proofs.Decimal.Spelling
import AutoLang.Proofs.Parse.Decimals
import Mathlib

/-! Doubles as C reads them. The compiler writes a double as it is printed, with six significant digits,
and adds a fraction where the text would be an integer. So C reads a finite double as the number that it
is rounded to. That is the double again exactly if some number with six digits is; and an infinite double
has no constant at all. -/

namespace AutoLang

namespace C

/-- the exponent of a constant, behind its letter; the sign may be missing -/
def signed? : List Char → Option ℤ
  | '-' :: ds => (signless? ds).map (-·)
  | '+' :: ds => signless? ds
  | ds => signless? ds
where
  signless? (ds : List Char) : Option ℤ :=
    if ds.isEmpty || !ds.all Char.isDigit then none else some (Decimal.ofDigits ds)

def exponent? : List Char → Option ℤ
  | 'e' :: cs | 'E' :: cs => signed? cs
  | _ => none

/-- the number that is written with digits before a point -/
def fractional? (whole after : List Char) : Option ℚ :=
  let fraction := after.takeWhile Char.isDigit
  let tail := after.dropWhile Char.isDigit
  if whole.isEmpty && fraction.isEmpty then none
  else (if tail.isEmpty then some 0 else exponent? tail).map fun e =>
    Decimal.ofDigits (whole ++ fraction) / 10 ^ fraction.length * 10 ^ e

/-- the number that a floating constant of type `double` stands for: digits with a point among them or an
exponent behind them -/
def floating? (cs : List Char) : Option ℚ :=
  let whole := cs.takeWhile Char.isDigit
  match cs.dropWhile Char.isDigit with
  | '.' :: after => fractional? whole after
  | tail => if whole.isEmpty then none else (exponent? tail).map fun e => Decimal.ofDigits whole * 10 ^ e

section Reading

open Decimal (Spelling span_digits)

variable {s : Spelling}

theorem exponent?_tail {e : Bool × List Char} (he : s.exponent = some e) (hne : e.2 ≠ [])
    (hds : ∀ c ∈ e.2, c.isDigit) : exponent? s.tail = some s.scale := by
  obtain ⟨negative, ds⟩ := e
  have hread : signed?.signless? ds = some (Decimal.ofDigits ds : ℤ) := by
    rw [signed?.signless?, List.isEmpty_eq_false_iff.2 hne, List.all_eq_true.2 hds]
    rfl
  rw [Spelling.tail, Spelling.scale, he]
  cases negative with
  | false => exact hread
  | true =>
    change (signed?.signless? ds).map (-·) = _
    rw [hread]
    rfl

theorem fractional?_tail {whole f : List Char} (hne : whole ≠ []) (hf : ∀ c ∈ f, c.isDigit)
    (he : ∀ e ∈ s.exponent, e.2 ≠ [] ∧ ∀ c ∈ e.2, c.isDigit) :
    fractional? whole (f ++ s.tail) =
      some (Decimal.ofDigits (whole ++ f) / 10 ^ f.length * 10 ^ s.scale : ℚ) := by
  have htail : (if s.tail.isEmpty then some 0 else exponent? s.tail) = some s.scale := by
    cases hs : s.exponent with
    | none =>
      rw [Spelling.tail, Spelling.scale, hs]
      rfl
    | some e =>
      have hsome : s.tail.isEmpty = false := by rw [Spelling.tail, hs]; rfl
      rw [hsome, if_neg Bool.false_ne_true, exponent?_tail hs (he e hs).1 (he e hs).2]
  have hspan := span_digits hf s.isDigit_head_tail
  unfold fractional?
  rw [hspan.1, hspan.2]
  dsimp only
  rw [List.isEmpty_eq_false_iff.2 hne, Bool.false_and, if_neg Bool.false_ne_true, htail]
  rfl

/-- C reads what is written with a point or an exponent as the number it stands for -/
theorem floating?_chars (h : s.IsProper) (hpoint : s.fraction.isSome ∨ s.exponent.isSome) :
    floating? s.chars = some s.value := by
  obtain ⟨⟨hne, hwhole⟩, hfraction, hexponent⟩ := h
  unfold floating? Spelling.chars Spelling.behindPoint Spelling.value
  cases hf : s.fraction with
  | none =>
    have hsome := hpoint.resolve_left (by rw [hf]; exact Bool.false_ne_true)
    obtain ⟨e, he⟩ := Option.isSome_iff_exists.1 hsome
    have hread := exponent?_tail he (hexponent e he).1 (hexponent e he).2
    have hcons : s.tail = 'e' :: (if e.1 then '-' else '+') :: e.2 := by rw [Spelling.tail, he]; rfl
    have hspan := span_digits hwhole s.isDigit_head_tail
    rw [Option.map_none, Option.getD_none, List.append_nil, hspan.1, hspan.2]
    dsimp only
    split
    · -- the letter is no point
      rename_i hother
      rw [hcons] at hother
      cases hother
    rw [hread, List.isEmpty_eq_false_iff.2 hne, if_neg Bool.false_ne_true, Option.map_some,
      List.length_nil, pow_zero, div_one]
  | some f =>
    have hhead : ∀ c ∈ ('.' :: (f ++ s.tail)).head?, c.isDigit = false :=
      fun c hc => Option.some.inj hc ▸ rfl
    have hspan := span_digits hwhole hhead
    rw [Option.map_some, Option.getD_some, Option.getD_some, List.append_assoc, List.cons_append,
      hspan.1, hspan.2]
    exact fractional?_tail hne (hfraction f hf).2 hexponent

/-- a zero behind the point makes a constant of a whole number -/
theorem floating?_whole (h : s.IsProper) (hf : s.fraction = none) (he : s.exponent = none) :
    floating? (s.whole ++ ['.', '0']) = some s.value := by
  have hzero : Spelling.IsProper ⟨s.whole, some ['0'], none⟩ :=
    ⟨h.whole, fun f hf => Option.some.inj hf ▸ ⟨List.cons_ne_nil _ _, List.forall_mem_singleton.2 rfl⟩,
      fun e he => absurd he (Option.not_mem_none e)⟩
  have hvalue : Spelling.value ⟨s.whole, some ['0'], none⟩ = s.value := by
    have hdigits : Decimal.ofDigits (s.whole ++ ['0']) = Decimal.ofDigits s.whole * 10 :=
      Decimal.ofDigits_append _ _
    unfold Spelling.value Spelling.scale
    rw [hf, he, Option.getD_some, Option.getD_none, List.append_nil, hdigits]
    push_cast
    rw [List.length_singleton, pow_one, mul_div_cancel_right₀ _ (by norm_num), List.length_nil,
      pow_zero, div_one]
  have hread := floating?_chars hzero (.inl rfl)
  rwa [hvalue, Spelling.chars, Spelling.tail, Option.map_none, Option.getD_none,
    List.append_nil] at hread

/-- a point or an exponent is not taken for digits -/
theorem not_all_chars (hpoint : s.fraction.isSome ∨ s.exponent.isSome) :
    s.chars.all (fun c => c.isDigit || c == '-') = false := by
  rw [List.all_eq_false]
  rcases hpoint with hf | he
  · obtain ⟨f, hf⟩ := Option.isSome_iff_exists.1 hf
    refine ⟨'.', List.mem_append_left _ (List.mem_append_right _ ?_), by decide⟩
    rw [Spelling.behindPoint, hf]
    exact List.mem_cons_self
  · obtain ⟨e, he⟩ := Option.isSome_iff_exists.1 he
    refine ⟨'e', List.mem_append_right _ ?_, by decide⟩
    rw [Spelling.tail, he]
    exact List.mem_cons_self

/-- the text of a double in C has a point or an exponent, and the value that the double is printed with -/
theorem doubleText_spelling {d : Float} (h : s.IsProper) (hd : (Decimal.text d).toList = s.chars) :
    floating? (doubleText d).toList = some s.value := by
  unfold doubleText
  dsimp only
  by_cases hpoint : s.fraction.isSome ∨ s.exponent.isSome
  · rw [hd, not_all_chars hpoint, if_neg Bool.false_ne_true, hd]
    exact floating?_chars h hpoint
  · obtain ⟨hf, he⟩ := not_or.1 hpoint
    rw [Option.not_isSome_iff_eq_none] at hf he
    have hwhole : s.chars = s.whole := by
      rw [Spelling.chars, Spelling.behindPoint, Spelling.tail, hf, he]
      simp
    have hdigits : ∀ c ∈ s.whole, (c.isDigit || c == '-') = true := fun c hc => by
      rw [h.whole.2 c hc, Bool.true_or]
    rw [hd, hwhole, List.all_eq_true.2 hdigits, if_pos rfl, String.toList_append, hd, hwhole]
    exact floating?_whole h hf he

end Reading

end C

/-- the double that a token reads as is nearest to some number -/
theorem Parse.exists_isNearest (text : String) : ∃ r, Decimal.IsNearest r (floatOfText text) := by
  unfold floatOfText
  dsimp only
  generalize (if ['f'].isSuffixOf (text.toList.filter (· != '_')) then _ else _) = body
  cases hread : Decimal.read? body with
  | none =>
    have hzero : Decimal.Parts.ofFloat 0.0 = .finite false 0 (-1074) := by decide
    exact ⟨_, Decimal.Holds.isNearest ⟨0, -1074, hzero, rfl⟩⟩
  | some x =>
    unfold Decimal.read? at hread
    dsimp only at hread
    split at hread
    · cases hread
    split at hread
    · cases hread
    obtain rfl := Option.some.inj hread
    exact ⟨_, Decimal.isNearest_ofScientific _ _⟩

theorem Decimal.IsNearest.holds_or_infinite {r : ℚ} {x : Float} (h : IsNearest r x) :
    (∃ a, Holds x a) ∨ Parts.ofFloat x = .infinite false := by
  unfold IsNearest at h
  cases hx : Parts.ofFloat x with
  | nan =>
    rw [hx] at h
    exact h.elim
  | infinite negative =>
    rw [hx] at h
    exact .inr (by rw [h.1])
  | finite negative m q =>
    rw [hx] at h
    obtain ⟨rfl, -, -⟩ := h
    exact .inl ⟨_, m, q, hx, rfl⟩

/-- A number with a fraction or a float suffix reads as a double. A finite one is written for C with the
six significant digits that it is rounded to, and C reads it as the same double exactly if it is the
double nearest to some number with so few digits. An infinite one is written as no constant. -/
theorem doubles_rounded_in_C (t : Token) (hk : t.kind = .float ∨ t.kind = .double) :
    ∃ d, t.ReadsAs (.double d) ∧
      ((∃ a r, Decimal.Holds d a ∧ C.floating? (C.doubleText d).toList = some r ∧
          Decimal.IsRounded 6 a r ∧
          (Decimal.IsNearest r d ↔ ∃ (n : ℕ) (k : ℤ), n < 10 ^ 6 ∧ Decimal.IsNearest (n * 10 ^ k) d)) ∨
        Decimal.Parts.ofFloat d = .infinite false ∧ C.doubleText d = "inf" ∧
          C.floating? (C.doubleText d).toList = none) := by
  have hread : Parse.literal? t = some (.double (Parse.floatOfText t.text)) := by
    rcases hk with hk | hk <;> rw [Parse.literal?, hk]
  refine ⟨_, Token.readsAs_of_literal? hread, ?_⟩
  obtain ⟨_, hnearest⟩ := Parse.exists_isNearest t.text
  rcases hnearest.holds_or_infinite with ⟨a, ha⟩ | hinfinite
  · obtain ⟨s, hs, htidy, hrounded, n, k, hn, hvalue⟩ := Decimal.exists_spelling ha
    refine .inl ⟨a, s.value, ha, C.doubleText_spelling htidy.toIsProper hs, hrounded, fun h => ?_, ?_⟩
    · exact ⟨n, k, hn, hvalue ▸ h⟩
    · rintro ⟨n, k, hn, h⟩
      exact hrounded.isNearest (by norm_num) ha hn h
  · have htext : C.doubleText (Parse.floatOfText t.text) = "inf" := by
      have htext : Decimal.text (Parse.floatOfText t.text) = "inf" := by
        rw [Decimal.text, hinfinite]
        rfl
      rw [C.doubleText, htext]
      decide
    refine .inr ⟨hinfinite, htext, ?_⟩
    rw [htext]
    decide

/-- five digits, with a separator and the suffix of a double, are kept -/
theorem doubles_rounded_in_C_five_digits :
    (TokenKind.float = .float ∨ TokenKind.float = .double) ∧
      ∃ d r, Token.ReadsAs ⟨.float, ⟨1, 0, 0, 8⟩, "1_234.5d"⟩ (.double d) ∧
        C.floating? (C.doubleText d).toList = some r ∧ Decimal.IsNearest r d := by
  refine ⟨.inl rfl, ?_⟩
  obtain ⟨d, hread, hcases⟩ :=
    doubles_rounded_in_C ⟨.float, ⟨1, 0, 0, 8⟩, "1_234.5d"⟩ (.inl rfl)
  have hd : d = .ofScientific 12345 true 1 := by
    have hliteral : Parse.literal? ⟨.float, ⟨1, 0, 0, 8⟩, "1_234.5d"⟩ =
        some (.double (.ofScientific 12345 true 1)) :=
      congrArg (some ∘ Literal.double) (Decimal.Parts.ofFloat_injective (by decide))
    exact Literal.double.inj (hread.unique (Token.readsAs_of_literal? hliteral))
  have hnearest : Decimal.IsNearest ((12345 : ℕ) * 10 ^ (-1 : ℤ)) d := by
    have h := Decimal.isNearest_ofScientific 12345 1
    rwa [← hd, div_eq_mul_inv, pow_one, ← zpow_neg_one] at h
  rcases hcases with ⟨a, r, -, hr, -, hiff⟩ | ⟨hinfinite, -, -⟩
  · exact ⟨d, r, hread, hr, hiff.2 ⟨12345, -1, by norm_num, hnearest⟩⟩
  · rw [hd] at hinfinite
    exact absurd hinfinite (by decide)

/-- the seventh digit is lost -/
theorem seventh_digit_not_in_C :
    ¬ ∀ t : Token, t.kind = .float ∨ t.kind = .double → ∀ d, t.ReadsAs (.double d) →
      ∃ r, C.floating? (C.doubleText d).toList = some r ∧ Decimal.IsNearest r d := by
  intro kept
  have hliteral : Parse.literal? ⟨.float, ⟨1, 0, 0, 9⟩, "0.1234567"⟩ =
      some (.double (.ofScientific 1234567 true 7)) :=
    congrArg (some ∘ Literal.double) (Decimal.Parts.ofFloat_injective (by decide))
  obtain ⟨r, hr, hnearest⟩ := kept _ (.inl rfl) _ (Token.readsAs_of_literal? hliteral)
  have htext : C.floating? (C.doubleText (.ofScientific 1234567 true 7)).toList =
      some (123457 / 10 ^ 6) := by decide +kernel
  obtain rfl := Option.some.inj (hr.symm.trans htext)
  -- another double is nearest to the six digits
  have hsame := hnearest.unique (Decimal.isNearest_ofScientific 123457 6)
  exact absurd (congrArg Decimal.Parts.ofFloat hsame) (by decide)

end AutoLang
