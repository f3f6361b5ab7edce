import AutoLang.Proofs.Parse.Evaluation
import AutoLang.Proofs.Parse.Runs
import AutoLang.Proofs.Token.Numbers
import Mathlib

/-! What integers read as. The parser takes the mark, the separators and the suffix off again and reads
the digits; what is left is the number that the spelling denotes, reduced to the width of its type, as
long as it is below `2 ^ 63`. A larger one reads as zero. -/

namespace AutoLang

/-- the kinds of integers -/
def TokenKind.isInteger : TokenKind → Bool
  | int | uint | u8 | i8 => true
  | _ => false

theorem TokenKind.isNumber_of_isInteger {k : TokenKind} (h : k.isInteger) : k.isNumber := by
  cases k <;> first | rfl | cases h

/-- an integer of some type, as the remainder of a number on the width of the type -/
inductive Wraps (n : Nat) : TokenKind → Literal → Prop where
  | int {v : Int32} : v.toInt = (n : Int).bmod (2 ^ 32) → Wraps n .int (.int v)
  | uint {v : UInt32} : v.toNat = n % 2 ^ 32 → Wraps n .uint (.uint v)
  | u8 {v : UInt8} : v.toNat = n % 2 ^ 8 → Wraps n .u8 (.u8 v)
  | i8 {v : Int8} : v.toInt = (n : Int).bmod (2 ^ 8) → Wraps n .i8 (.i8 v)

/-- the token stands for this literal in a tree, whatever the grammar around it -/
def Token.ReadsAs (t : Token) (v : Literal) : Prop :=
  ∀ (g : Grammar) (s : ParseState), s.current = t →
    (Parse.operand g).run s = (.literal t.span v, s.advance)

theorem Token.readsAs_of_literal? {t : Token} {v : Literal} (h : Parse.literal? t = some v) :
    t.ReadsAs v := by
  rintro g s rfl
  exact Parse.operand_literal h

theorem Token.ReadsAs.unique {t : Token} {v w : Literal} (hv : t.ReadsAs v) (hw : t.ReadsAs w) :
    v = w := by
  have hread := (hv (.ofDepth 0) ⟨t, [], .nowhere, .empty 0⟩ rfl).symm.trans (hw _ _ rfl)
  rw [Prod.mk.injEq, Expr.literal.injEq] at hread
  exact hread.1.2

namespace Numeral

/-- digits, each at the place of its value -/
def digitChars : List Char :=
  ['0', '1', '2', '3', '4', '5', '6', '7', '8', '9', 'a', 'b', 'c', 'd', 'e', 'f']

/-- the number that digits denote in a radix, whatever separators are among them -/
def natOf (radix : Nat) (cs : List Char) : Nat :=
  Nat.ofDigits radix ((cs.filter (· != '_')).reverse.map fun c => digitChars.idxOf c.toLower)

/-- the number that the digits before the point denote -/
def value (n : Numeral) : Nat := natOf (if n.hex then 16 else 10) n.whole

variable {n : Numeral} {hex : Bool} {k : TokenKind} {c : Char} {cs : List Char}

theorem mem_of_isDigit (h : isDigit hex c) :
    c ∈ digitChars ++ ['A', 'B', 'C', 'D', 'E', 'F'] := by
  have hrange : c.toNat ∈ Finset.Icc 48 57 ∪ Finset.Icc 97 102 ∪ Finset.Icc 65 70 := by
    simp only [isDigit, Lexeme.isHexDigit, Char.isDigit, Bool.or_eq_true, Bool.and_eq_true,
      decide_eq_true_eq, Char.le_def, ge_iff_le, UInt32.le_iff_toNat_le, UInt32.reduceToNat,
      Char.reduceVal] at h
    simp only [Finset.mem_union, Finset.mem_Icc, Char.toNat]
    omega
  have each : ∀ k ∈ Finset.Icc 48 57 ∪ Finset.Icc 97 102 ∪ Finset.Icc 65 70,
      Char.ofNat k ∈ digitChars ++ ['A', 'B', 'C', 'D', 'E', 'F'] := by decide
  have hmem := each _ hrange
  rwa [Char.ofNat_toNat] at hmem

theorem digitValue_eq (h : isDigit hex c) : Parse.digitValue c = digitChars.idxOf c.toLower := by
  have hmem := mem_of_isDigit h
  fin_cases hmem <;> rfl

theorem ofRadix_eq (radix : Nat) (h : IsRun hex cs) :
    Parse.ofRadix radix (cs.filter (· != '_')) = natOf radix cs := by
  rw [natOf, Nat.ofDigits_eq_foldr, List.foldr_map, List.foldr_reverse, Parse.ofRadix]
  refine List.foldl_ext _ _ _ fun m c hc => ?_
  obtain ⟨hmem, hne⟩ := List.mem_filter.1 hc
  rw [digitValue_eq ((h c hmem).resolve_left (bne_iff_ne.1 hne)), Nat.cast_id, Nat.add_comm]

/-- the letters of the mark and of the integer suffixes are no digits -/
theorem notMem_run (h : IsRun hex cs) (hc : c ∈ ['i', 'u', 'x']) : c ∉ cs := by
  intro hmem
  rcases h c hmem with rfl | hdigit
  · exact absurd hc (by decide)
  · fin_cases hc <;> cases hex <;> exact absurd hdigit (by decide)

/-- the suffix of a number goes with its kind, unless a fraction decides -/
theorem IsKind.suffix_mem (h : n.IsKind k) (hf : n.fraction = none) : (n.suffix, k) ∈ suffixes := by
  obtain ⟨k', hmem, hk⟩ := h.suffix
  rw [hf] at hk
  exact hk ▸ hmem

theorem IsKind.fraction_eq_none (h : n.IsKind k) (hk : k.isInteger) : n.fraction = none := by
  obtain ⟨k', -, rfl⟩ := h.suffix
  cases hf : n.fraction with
  | none => rfl
  | some f =>
    rw [hf] at hk
    cases hk

/-- only a hexadecimal number begins with the mark -/
theorem isPrefixOf_chars (h : n.IsKind k) : ['0', 'x'].isPrefixOf n.chars = n.hex := by
  cases hhex : n.hex with
  | true =>
    rw [chars, mark, hhex, if_pos rfl]
    rfl
  | false =>
    rw [Bool.eq_false_iff, ne_eq, List.isPrefixOf_iff_prefix]
    intro hfront
    have hx : 'x' ∈ n.chars := hfront.subset (by simp)
    obtain ⟨k', hsuffix, -⟩ := h.suffix
    rw [chars, mark, hhex, if_neg Bool.false_ne_true, behindPoint, List.nil_append,
      List.append_assoc, List.mem_append, List.mem_append] at hx
    rcases hx with hx | hx | hx
    · exact notMem_run h.whole (by simp) hx
    · cases hf : n.fraction with
      | none =>
        rw [hf] at hx
        cases hx
      | some f =>
        rw [hf] at hx
        exact notMem_run (h.fraction f hf).1 (by simp)
          ((List.mem_cons.1 hx).resolve_left (by decide))
    · have each : ∀ p ∈ suffixes, 'x' ∉ p.1 := by decide
      exact each _ hsuffix hx

/-- an integer of decimal digits has no mark and no suffix -/
theorem value_of_digits (hcs : cs = n.chars) (h : n.IsKind k) (hk : k.isInteger)
    (hdigits : ∀ c ∈ cs, c.isDigit) : n.value = natOf 10 cs := by
  subst hcs
  have hhex : n.hex = false := by
    rw [← isPrefixOf_chars h, Bool.eq_false_iff, ne_eq, List.isPrefixOf_iff_prefix]
    exact fun hfront => absurd (hdigits 'x' (hfront.subset (by simp))) (by decide)
  have hf := h.fraction_eq_none hk
  have hsuffix : n.suffix = [] := by
    have each : ∀ p ∈ suffixes, p.1.all Char.isDigit → p.1 = [] := by decide
    refine each _ (h.suffix_mem hf) (List.all_eq_true.2 fun c hc => hdigits c ?_)
    exact List.mem_append_right _ hc
  have hchars : n.chars = n.whole := by
    rw [chars, mark, behindPoint, hhex, hf, hsuffix]
    simp
  rw [hchars, value, hhex, if_neg Bool.false_ne_true]

/-- the number that is read when the suffix of its kind is taken off -/
theorem natOfText_eq {t : Token} {suffix : String} (ht : t.text.toList = n.chars)
    (h : n.IsKind k) (hf : n.fraction = none)
    (hdrop : Parse.dropSuffix suffix.toList (n.whole ++ n.suffix) = n.whole) :
    Parse.natOfText suffix t.text = if n.value < 2 ^ 63 then n.value else 0 := by
  have hbody : (if n.hex then n.chars.drop 2 else n.chars) = n.whole ++ n.suffix := by
    rw [chars, mark, behindPoint, hf]
    cases n.hex <;> simp
  unfold Parse.natOfText
  dsimp only
  rw [ht, isPrefixOf_chars h, hbody, hdrop, ofRadix_eq _ h.whole]
  rfl

/-- what an integer of this spelling reads as -/
theorem wraps_literal? {t : Token} (ht : t.text.toList = n.chars) (h : n.IsKind t.kind)
    (hk : t.kind.isInteger) :
    ∃ v, Parse.literal? t = some v ∧ Wraps (if n.value < 2 ^ 63 then n.value else 0) t.kind v := by
  have hf := h.fraction_eq_none hk
  have hsuffix := h.suffix_mem hf
  generalize hkind : t.kind = k at hk hsuffix ⊢
  rw [hkind] at h
  unfold Parse.literal?
  rw [hkind]
  cases k
  case int =>
    have hdrop : Parse.dropSuffix "i".toList (n.whole ++ n.suffix) = n.whole := by
      rcases (show n.suffix = [] ∨ n.suffix = ['i'] by simpa [suffixes] using hsuffix) with hs | hs
      · rw [hs, List.append_nil]
        exact Parse.dropSuffix_of_notMem (c := 'i') List.mem_cons_self (notMem_run h.whole (by simp))
      · rw [hs]
        exact Parse.dropSuffix_append _ _
    refine ⟨_, rfl, .int ?_⟩
    rw [natOfText_eq ht h hf hdrop]
    exact Int32.toInt_ofNat
  case uint =>
    have hs : n.suffix = ['u'] := by simpa [suffixes] using hsuffix
    refine ⟨_, rfl, .uint ?_⟩
    rw [natOfText_eq ht h hf (hs ▸ Parse.dropSuffix_append _ _)]
    exact UInt32.toNat_ofNat
  case u8 =>
    have hs : n.suffix = ['u', '8'] := by simpa [suffixes] using hsuffix
    refine ⟨_, rfl, .u8 ?_⟩
    rw [natOfText_eq ht h hf (hs ▸ Parse.dropSuffix_append _ _)]
    exact UInt8.toNat_ofNat
  case i8 =>
    have hs : n.suffix = ['i', '8'] := by simpa [suffixes] using hsuffix
    refine ⟨_, rfl, .i8 ?_⟩
    rw [natOfText_eq ht h hf (hs ▸ Parse.dropSuffix_append _ _)]
    exact Int8.toInt_ofNat
  all_goals cases hk

end Numeral

/-- wherever a text has an integer, it spells a number, and the tree gets that number reduced to the
width of its type if it is below `2 ^ 63`, and zero if it is not -/
theorem integers_wrap_below (source : String) (marker : Char) (t : Token)
    (ht : t ∈ { Lexer.ofSource source with marker := marker }.tokens) (hk : t.kind.isInteger) :
    ∃ n : Numeral, t.text.toList = n.chars ∧ n.IsKind t.kind ∧ n.fraction = none ∧
      ∃ v, t.ReadsAs v ∧ Wraps (if n.value < 2 ^ 63 then n.value else 0) t.kind v := by
  obtain ⟨n, hchars, hkind⟩ := Lexer.numeral_of_token ht (TokenKind.isNumber_of_isInteger hk)
  obtain ⟨v, hv, hwraps⟩ := Numeral.wraps_literal? hchars hkind hk
  exact ⟨n, hchars, hkind, hkind.fraction_eq_none hk, v, Token.readsAs_of_literal? hv, hwraps⟩

/-- a byte in hexadecimal digits that is too large for its type -/
theorem integers_wrap_below_byte :
    (⟨.u8, ⟨1, 6, 6, 8⟩, "0x1_ffu8"⟩ ∈
        { Lexer.ofSource "print(0x1_ffu8)" with marker := '$' }.tokens ∧ TokenKind.u8.isInteger) ∧
      ∃ n : Numeral, "0x1_ffu8".toList = n.chars ∧ n.IsKind .u8 ∧ n.fraction = none ∧
        ∃ v, Token.ReadsAs ⟨.u8, ⟨1, 6, 6, 8⟩, "0x1_ffu8"⟩ v ∧
          Wraps (if n.value < 2 ^ 63 then n.value else 0) .u8 v := by
  have hmem : ⟨.u8, ⟨1, 6, 6, 8⟩, "0x1_ffu8"⟩ ∈
      { Lexer.ofSource "print(0x1_ffu8)" with marker := '$' }.tokens := by
    have lexed : (Lexer.runTokens? 30 "print(0x1_ffu8)" '$').isSome = true := by decide
    rw [Lexer.tokens_of_runTokens lexed]
    decide
  exact ⟨⟨hmem, rfl⟩, integers_wrap_below _ _ _ hmem rfl⟩

/-- a number past `2 ^ 63` does not wrap around -/
theorem large_integer_not_wrapped :
    ¬ ∀ (source : String) (marker : Char),
      ∀ t ∈ { Lexer.ofSource source with marker := marker }.tokens, t.kind.isInteger →
        ∀ n : Numeral, t.text.toList = n.chars → n.IsKind t.kind →
          ∃ v, t.ReadsAs v ∧ Wraps n.value t.kind v := by
  intro wraps
  have hmem : ⟨.int, ⟨1, 6, 6, 19⟩, "9223372036854775809"⟩ ∈
      { Lexer.ofSource "print(9223372036854775809)" with marker := '$' }.tokens := by
    have lexed : (Lexer.runTokens? 30 "print(9223372036854775809)" '$').isSome = true := by
      decide
    rw [Lexer.tokens_of_runTokens lexed]
    decide
  have hdigits : "9223372036854775809".toList.all (Numeral.isDigit false) = true := by decide
  have hrun : Numeral.IsRun false "9223372036854775809".toList :=
    fun c hc => .inr (List.all_eq_true.1 hdigits c hc)
  have hkind : Numeral.IsKind ⟨false, "9223372036854775809".toList, none, []⟩ .int :=
    ⟨hrun, fun _ => ⟨'9', rfl, rfl⟩, nofun, .int, by decide, rfl⟩
  obtain ⟨v, hv, hwraps⟩ := wraps _ _ _ hmem rfl _ (by decide) hkind
  have hread : Int32.ofNat (Parse.natOfText "i" "9223372036854775809") = 0 := by decide
  have hzero : Token.ReadsAs ⟨.int, ⟨1, 6, 6, 19⟩, "9223372036854775809"⟩ (.int 0) :=
    Token.readsAs_of_literal? (congrArg (some ∘ Literal.int) hread)
  obtain rfl := hv.unique hzero
  obtain ⟨hvalue⟩ := hwraps
  exact absurd hvalue (by decide)

end AutoLang
