import AutoLang.Proofs.Decimal.Scientific
import AutoLang.Proofs.Parse.Integers
import Mathlib

/-! What decimal numbers with a fraction or a float suffix read as. With the separators and the suffix
taken off, what is left is read as the nearest double. Only the suffixes of floats are taken off: behind
a fraction any other is left in the text, which is then no decimal numeral and reads as zero. -/

namespace AutoLang

/-- digits, and perhaps a point and what is behind it -/
theorem Decimal.read?_eq {w : List Char} (hw : ∀ c ∈ w, c.isDigit) (hne : w ≠ [])
    (behind : Option (List Char)) : read? (w ++ (behind.map ('.' :: ·)).getD []) =
      if (behind.getD []).all Char.isDigit then
        some (.ofScientific (ofDigits (w ++ behind.getD [])) true (behind.getD []).length)
      else none := by
  have hwhole : (w ++ (behind.map ('.' :: ·)).getD []).takeWhile Char.isDigit = w := by
    rw [List.takeWhile_append_of_pos hw]
    cases behind <;> exact List.append_nil w
  have hsome : w.isEmpty = false := List.isEmpty_eq_false_iff.2 hne
  unfold read?
  dsimp only
  rw [hwhole, List.drop_left, hsome]
  cases behind with
  | none => rfl
  | some ds => cases hds : ds.all Char.isDigit <;> simp [hds]

namespace Numeral

variable {n : Numeral} {k : TokenKind}

/-- the digits behind the point, separators included -/
def behind (n : Numeral) : List Char := n.fraction.getD []

/-- the number that a decimal numeral writes -/
def quantity (n : Numeral) : ℚ :=
  natOf 10 n.whole + natOf 10 n.behind / 10 ^ (n.behind.filter (· != '_')).length

theorem natOf_append (cs ds : List Char) : natOf 10 (cs ++ ds) =
    natOf 10 cs * 10 ^ (ds.filter (· != '_')).length + natOf 10 ds := by
  rw [natOf, List.filter_append, List.reverse_append, List.map_append, Nat.ofDigits_append,
    List.length_map, List.length_reverse, Nat.add_comm, Nat.mul_comm]
  rfl

/-- without the separators there are digits only -/
theorem isDigit_of_run {cs : List Char} (h : IsRun false cs) :
    ∀ c ∈ cs.filter (· != '_'), c.isDigit := by
  intro c hc
  obtain ⟨hmem, hne⟩ := List.mem_filter.1 hc
  have hdigit := (h c hmem).resolve_left (bne_iff_ne.1 hne)
  rwa [isDigit, Bool.false_and, Bool.or_false] at hdigit

theorem ofDigits_eq {cs : List Char} (h : IsRun false cs) :
    Decimal.ofDigits (cs.filter (· != '_')) = natOf 10 cs := by
  rw [← ofRadix_eq 10 h, Decimal.ofDigits, Parse.ofRadix]
  refine List.foldl_ext _ _ _ fun m c hc => ?_
  rw [Parse.digitValue, if_pos (isDigit_of_run h c hc)]

/-- the digits before and behind the point, read as one number, against the places behind it -/
theorem quantity_eq (h : n.IsKind k) (hhex : n.hex = false) :
    (Decimal.ofDigits ((n.whole ++ n.behind).filter (· != '_')) : ℚ) /
      10 ^ (n.behind.filter (· != '_')).length = n.quantity := by
  have hbehind : IsRun false n.behind := by
    rw [behind]
    cases hf : n.fraction with
    | none => exact List.forall_mem_nil _
    | some f => exact hhex ▸ (h.fraction f hf).1
  have hall : IsRun false (n.whole ++ n.behind) :=
    List.forall_mem_append.2 ⟨hhex ▸ h.whole, hbehind⟩
  rw [ofDigits_eq hall, natOf_append, quantity, Nat.cast_add, Nat.cast_mul, Nat.cast_pow, add_div,
    Nat.cast_ofNat, mul_div_cancel_right₀ _ (by positivity)]

/-- what is left of a number when a float suffix is taken off -/
theorem withoutSuffix_eq {num suffix : List Char} (hs : suffix ∈ suffixes.map (·.1)) (hf : 'f' ∉ num)
    (hd : 'd' ∉ num) :
    (if ['f'].isSuffixOf (num ++ suffix) then Parse.dropSuffix ['f'] (num ++ suffix)
      else Parse.dropSuffix ['d'] (num ++ suffix)) =
      if suffix ∈ [[], ['f'], ['d']] then num else num ++ suffix := by
  have kept {cs : List Char} (hf : 'f' ∉ cs) (hd : 'd' ∉ cs) :
      (if ['f'].isSuffixOf cs then Parse.dropSuffix ['f'] cs
        else Parse.dropSuffix ['d'] cs) = cs := by
    rw [Parse.dropSuffix_of_notMem List.mem_cons_self hf, Parse.dropSuffix_of_notMem List.mem_cons_self hd,
      ite_self]
  have hmem : suffix ∈ [[], ['f'], ['d'], ['i'], ['u'], ['u', '8'], ['i', '8']] := by
    revert hs
    simp [suffixes]
    tauto
  fin_cases hmem
  · change (if ['f'].isSuffixOf (num ++ []) then _ else _) = _
    rw [List.append_nil, kept hf hd, ite_self]
  · have hends : ['f'].isSuffixOf (num ++ ['f']) = true :=
      List.isSuffixOf_iff_suffix.2 (List.suffix_append _ _)
    rw [if_pos hends, Parse.dropSuffix_append]
    rfl
  · have hends : ¬ ['f'].isSuffixOf (num ++ ['d']) = true := fun hends =>
      absurd ((List.isSuffixOf_iff_suffix.1 hends).subset List.mem_cons_self) (by simp [hf])
    rw [if_neg hends, Parse.dropSuffix_append]
    rfl
  all_goals
    rw [kept (by simp [hf]) (by simp [hd])]
    rfl

/-- the digits and the point, without separators and without a suffix -/
def bare (n : Numeral) : List Char :=
  n.whole.filter (· != '_') ++ ((n.fraction.map (·.filter (· != '_'))).map ('.' :: ·)).getD []

/-- the characters of a decimal number without the separators -/
theorem filter_chars (h : n.IsKind k) (hhex : n.hex = false) :
    n.chars.filter (· != '_') = n.bare ++ n.suffix := by
  have hsuffix : n.suffix.filter (· != '_') = n.suffix := by
    obtain ⟨k', hmem, -⟩ := h.suffix
    have each : ∀ p ∈ suffixes, p.1.filter (· != '_') = p.1 := by decide
    exact each _ hmem
  rw [chars, mark, hhex, if_neg Bool.false_ne_true, List.nil_append, List.filter_append,
    List.filter_append, hsuffix, behindPoint, bare]
  cases n.fraction <;> rfl

theorem isDigit_whole (h : n.IsKind k) (hhex : n.hex = false) :
    (∀ c ∈ n.whole.filter (· != '_'), c.isDigit) ∧ n.whole.filter (· != '_') ≠ [] := by
  obtain ⟨c, hc, hdigit⟩ := h.starts hhex
  have hsep : c != '_' := bne_iff_ne.2 fun he => absurd (he ▸ hdigit) (by decide)
  exact ⟨isDigit_of_run (hhex ▸ h.whole),
    List.ne_nil_of_mem (List.mem_filter.2 ⟨List.mem_of_mem_head? hc, hsep⟩)⟩

theorem isDigit_fraction (h : n.IsKind k) (hhex : n.hex = false) :
    ∀ c ∈ (n.fraction.map (·.filter (· != '_'))).getD [], c.isDigit := by
  cases hf : n.fraction with
  | none => exact List.forall_mem_nil _
  | some f => exact isDigit_of_run (hhex ▸ (h.fraction f hf).1)

/-- the letters of the float suffixes are among neither the digits nor the point -/
theorem notMem_bare (h : n.IsKind k) (hhex : n.hex = false) {c : Char} (hc : c.isDigit = false)
    (hpoint : c ≠ '.') : c ∉ n.bare := by
  intro hmem
  have hfraction := isDigit_fraction h hhex
  have hdigit : c.isDigit = true := by
    rcases List.mem_append.1 hmem with hmem | hmem
    · exact (isDigit_whole h hhex).1 c hmem
    · cases hf : n.fraction.map (·.filter (· != '_')) with
      | none =>
        rw [hf] at hmem
        cases hmem
      | some ds =>
        rw [hf] at hfraction hmem
        exact hfraction c ((List.mem_cons.1 hmem).resolve_left hpoint)
  rw [hc] at hdigit
  cases hdigit

/-- the digits and the point are read as the nearest double -/
theorem read?_bare (h : n.IsKind k) (hhex : n.hex = false) :
    ∃ x, Decimal.read? n.bare = some x ∧ Decimal.IsNearest n.quantity x := by
  obtain ⟨hwhole, hne⟩ := isDigit_whole h hhex
  have hread := Decimal.read?_eq hwhole hne (n.fraction.map (·.filter (· != '_')))
  have hsame : (n.fraction.map (·.filter (· != '_'))).getD [] = n.behind.filter (· != '_') := by
    rw [behind]
    cases n.fraction <;> rfl
  rw [if_pos (List.all_eq_true.2 (isDigit_fraction h hhex)), hsame, ← List.filter_append] at hread
  refine ⟨_, hread, ?_⟩
  rw [← quantity_eq h hhex]
  exact Decimal.isNearest_ofScientific _ _

/-- what a decimal number that is no integer reads as -/
theorem floatOfText_eq {text : String} (ht : text.toList = n.chars) (h : n.IsKind k)
    (hk : k = .float ∨ k = .double) (hhex : n.hex = false) :
    if n.suffix ∈ [[], ['f'], ['d']] then Decimal.IsNearest n.quantity (Parse.floatOfText text)
    else Parse.floatOfText text = 0.0 := by
  obtain ⟨k', hsuffix, hkind⟩ := h.suffix
  unfold Parse.floatOfText
  dsimp only
  rw [ht, filter_chars h hhex, withoutSuffix_eq (List.mem_map_of_mem hsuffix)
    (notMem_bare h hhex (by decide) (by decide)) (notMem_bare h hhex (by decide) (by decide))]
  by_cases hs : n.suffix ∈ [[], ['f'], ['d']]
  · obtain ⟨x, hread, hnearest⟩ := read?_bare h hhex
    rwa [if_pos hs, if_pos hs, hread]
  rw [if_neg hs, if_neg hs]
  cases hf : n.fraction with
  | none =>
    -- the suffix decides the kind
    have each : ∀ p ∈ suffixes, p.2 = .float ∨ p.2 = .double → p.1 ∈ [[], ['f'], ['d']] := by
      decide
    rw [hf] at hkind
    obtain rfl : k = k' := hkind
    exact absurd (each _ hsuffix hk) hs
  | some f =>
    -- the suffix stays behind the fraction
    have each : ∀ p ∈ suffixes, p.1 ∈ [[], ['f'], ['d']] ∨ p.1.all Char.isDigit = false := by
      decide
    have hrest : (f.filter (· != '_') ++ n.suffix).all Char.isDigit = false := by
      rw [List.all_append, (each _ hsuffix).resolve_left hs, Bool.and_false]
    obtain ⟨hwhole, hne⟩ := isDigit_whole h hhex
    have hread := Decimal.read?_eq hwhole hne (some (f.filter (· != '_') ++ n.suffix))
    rw [Option.getD_some, hrest, if_neg Bool.false_ne_true] at hread
    rw [bare, hf, List.append_assoc]
    exact congrArg (·.getD 0.0) hread

end Numeral

/-- wherever a text has a decimal number with a fraction or a float suffix, it spells a number, and the
tree gets the double nearest to it if it has a float suffix or none, and zero if it has another -/
theorem decimals_read_nearest (source : String) (marker : Char) (t : Token)
    (ht : t ∈ { Lexer.ofSource source with marker := marker }.tokens)
    (hk : t.kind = .float ∨ t.kind = .double) (hhex : ['0', 'x'].isPrefixOf t.text.toList = false) :
    ∃ n : Numeral, t.text.toList = n.chars ∧ n.IsKind t.kind ∧ n.hex = false ∧
      ∃ x, t.ReadsAs (.double x) ∧
        if n.suffix ∈ [[], ['f'], ['d']] then Decimal.IsNearest n.quantity x else x = 0.0 := by
  have hnumber : t.kind.isNumber := by rcases hk with hk | hk <;> rw [hk] <;> rfl
  obtain ⟨n, hchars, hkind⟩ := Lexer.numeral_of_token ht hnumber
  rw [hchars, Numeral.isPrefixOf_chars hkind] at hhex
  have hread : Parse.literal? t = some (.double (Parse.floatOfText t.text)) := by
    rcases hk with hk | hk <;> rw [Parse.literal?, hk]
  exact ⟨n, hchars, hkind, hhex, _, Token.readsAs_of_literal? hread,
    Numeral.floatOfText_eq hchars hkind hk hhex⟩

/-- separators before the point and the suffix of a double -/
theorem decimals_read_nearest_double :
    (⟨.float, ⟨1, 6, 6, 6⟩, "1_0.1d"⟩ ∈
        { Lexer.ofSource "print(1_0.1d)" with marker := '$' }.tokens ∧
      (TokenKind.float = .float ∨ TokenKind.float = .double) ∧
      ['0', 'x'].isPrefixOf "1_0.1d".toList = false) ∧
      ∃ n : Numeral, "1_0.1d".toList = n.chars ∧ n.IsKind .float ∧ n.hex = false ∧
        ∃ x, Token.ReadsAs ⟨.float, ⟨1, 6, 6, 6⟩, "1_0.1d"⟩ (.double x) ∧
          if n.suffix ∈ [[], ['f'], ['d']] then Decimal.IsNearest n.quantity x else x = 0.0 := by
  have hmem : ⟨.float, ⟨1, 6, 6, 6⟩, "1_0.1d"⟩ ∈
      { Lexer.ofSource "print(1_0.1d)" with marker := '$' }.tokens := by
    have lexed : (Lexer.runTokens? 30 "print(1_0.1d)" '$').isSome = true := by decide
    rw [Lexer.tokens_of_runTokens lexed]
    decide
  have hhex : ['0', 'x'].isPrefixOf "1_0.1d".toList = false := by decide
  exact ⟨⟨hmem, .inl rfl, hhex⟩, decimals_read_nearest _ _ _ hmem (.inl rfl) hhex⟩

/-- one and a half with the suffix of a byte is not read as the nearest double -/
theorem fraction_with_byte_suffix_lost :
    ¬ ∀ (source : String) (marker : Char),
      ∀ t ∈ { Lexer.ofSource source with marker := marker }.tokens,
        t.kind = .float ∨ t.kind = .double → ['0', 'x'].isPrefixOf t.text.toList = false →
          ∀ n : Numeral, t.text.toList = n.chars → n.IsKind t.kind →
            ∃ x, t.ReadsAs (.double x) ∧ Decimal.IsNearest n.quantity x := by
  intro nearest
  have hmem : ⟨.float, ⟨1, 6, 6, 5⟩, "1.5u8"⟩ ∈
      { Lexer.ofSource "print(1.5u8)" with marker := '$' }.tokens := by
    have lexed : (Lexer.runTokens? 30 "print(1.5u8)" '$').isSome = true := by decide
    rw [Lexer.tokens_of_runTokens lexed]
    decide
  have hrun (c : Char) (hc : c.isDigit) : Numeral.IsRun false [c] :=
    List.forall_mem_singleton.2 (.inr (by rwa [Numeral.isDigit, Bool.false_and, Bool.or_false]))
  have hkind : Numeral.IsKind ⟨false, ['1'], some ['5'], ['u', '8']⟩ .float :=
    ⟨hrun '1' rfl, fun _ => ⟨'1', rfl, rfl⟩,
      fun _ hf => Option.some.inj hf ▸ ⟨hrun '5' rfl, '5', rfl, rfl⟩, .u8, by decide, rfl⟩
  have hchars : "1.5u8".toList = Numeral.chars ⟨false, ['1'], some ['5'], ['u', '8']⟩ := by
    decide
  obtain ⟨x, hx, hnearest⟩ := nearest _ _ _ hmem (.inl rfl) (by decide) _ hchars hkind
  -- it is read as zero
  have hzero := Numeral.floatOfText_eq hchars hkind (.inl rfl) rfl
  rw [if_neg (by decide)] at hzero
  have hread : Token.ReadsAs ⟨.float, ⟨1, 6, 6, 5⟩, "1.5u8"⟩ (.double 0.0) :=
    Token.readsAs_of_literal? (congrArg (some ∘ Literal.double) hzero)
  obtain rfl : x = 0.0 := Literal.double.inj (hx.unique hread)
  -- and one and a half is closer
  have hparts : Decimal.Parts.ofFloat 0.0 = .finite false 0 (-1074) := by decide
  have hcloser : Decimal.Parts.ofFloat 1.5 = .finite false (3 * 2 ^ 51) (-52) := by decide
  unfold Decimal.IsNearest at hnearest
  rw [hparts] at hnearest
  have hdistance := (hnearest.2.2 1.5 _ (congrArg Decimal.Parts.value? hcloser)).1
  have hquantity : Numeral.quantity ⟨false, ['1'], some ['5'], ['u', '8']⟩ = 3 / 2 := by
    have hone : Numeral.natOf 10 ['1'] = 1 := by decide
    have hfive : Numeral.natOf 10 ['5'] = 5 := by decide
    change (Numeral.natOf 10 ['1'] + Numeral.natOf 10 ['5'] / 10 ^ 1 : ℚ) = 3 / 2
    rw [hone, hfive]
    norm_num
  rw [hquantity] at hdistance
  norm_num at hdistance

end AutoLang
