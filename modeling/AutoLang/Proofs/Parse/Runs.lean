import AutoLang.Proofs.Parse.Progress
import AutoLang.Proofs.Parse.Rendering
import Mathlib

/-! What the productions of expressions do on tokens that are in order: one equation for each way a
production goes on, so that a run over a rendering can be followed token by token. -/

namespace AutoLang

open AutoLang.Parser

/-- how tightly a token binds to the operand before it -/
def binding (k : TokenKind) : Nat :=
  if k = .openParen ∨ k = .openSquare then Parse.callLevel
  else ((Link.ofToken? k).map Link.level).getD 0

theorem binding_token (l : Link) : binding l.token = l.level := by
  rcases l with op | inclusive
  · cases op <;> rfl
  · cases inclusive <;> rfl

namespace Parse

section Climb

variable {g : Grammar} {s : ParseState} {e : Expr} {floor r : Nat}

/-- the loop stops at a token that binds no tighter than its floor -/
theorem climb_stop (h : binding s.kind ≤ floor) : (climb g floor r e).run s = (e, s) := by
  cases r with
  | zero => rfl
  | succ r =>
    rw [climb, kind_bind_run]
    unfold binding at h
    split at h
    · rename_i hk
      have : ¬ floor < callLevel := by omega
      rcases hk with hk | hk <;> simp [hk, this, Link.ofToken?, BinaryOp.ofToken?] <;> rfl
    · rename_i hk
      rw [not_or] at hk
      simp only [beq_eq_false_iff_ne.2 hk.1, beq_eq_false_iff_ne.2 hk.2, Bool.false_and,
        Bool.false_eq_true, if_false]
      cases hl : Link.ofToken? s.kind with
      | none => rfl
      | some l =>
        rw [hl] at h
        simp only [Option.map_some, Option.getD_some] at h
        simp only [if_pos h]
        rfl

/-- the loop takes an operator that binds tighter than its floor -/
theorem climb_link {l : Link} (hk : s.kind = l.token) (hf : floor < l.level)
    (hn : s.advance.kind ≠ .newline) : (climb g floor (r + 1) e).run s =
      (g.expr l.rightLevel >>= fun right => climb g floor r (l.join e right)).run s.advance := by
  have hparen : (l.token == .openParen) = false ∧ (l.token == .openSquare) = false := by
    rcases l with op | inclusive
    · cases op <;> decide
    · cases inclusive <;> decide
  obtain ⟨-, -, hl⟩ := l.token_spec
  rw [climb, kind_bind_run, hk, hparen.1, hparen.2, hl]
  simp only [Bool.false_and, Bool.false_eq_true, if_false, if_neg (Nat.not_le.2 hf)]
  rw [bind_run_of (advance_run s), bind_run_of (skipNewlines_run hn)]

theorem climb_call (hk : s.kind = .openParen) (hf : floor < callLevel) :
    (climb g floor (r + 1) e).run s = (call g e >>= climb g floor r).run s := by
  rw [climb, kind_bind_run, hk]
  simp only [beq_self_eq_true, hf, decide_true, Bool.and_self, if_true]

theorem climb_index (hk : s.kind = .openSquare) (hf : floor < callLevel) :
    (climb g floor (r + 1) e).run s = (index g e >>= climb g floor r).run s := by
  have hother : (TokenKind.openSquare == .openParen) = false := by decide
  rw [climb, kind_bind_run, hk]
  simp only [hother, beq_self_eq_true, hf, decide_true, Bool.and_self, Bool.false_and,
    Bool.false_eq_true, if_false, if_true]

end Climb

section Numeral

theorem ofRadix_digits {cs : List Char} (h : ∀ c ∈ cs, c.isDigit) :
    ofRadix 10 cs = Nat.ofDigitChars 10 cs 0 := by
  rw [ofRadix, Nat.ofDigitChars_eq_foldl]
  refine List.foldl_ext _ _ _ fun n c hc => ?_
  rw [digitValue, if_pos (h c hc)]

theorem dropSuffix_append (suffix cs : List Char) : dropSuffix suffix (cs ++ suffix) = cs := by
  rw [dropSuffix, if_pos (List.isSuffixOf_iff_suffix.2 (List.suffix_append _ _)),
    List.length_append, Nat.add_sub_cancel, List.take_left]

theorem dropSuffix_of_notMem {c : Char} {suffix cs : List Char} (hc : c ∈ suffix) (h : c ∉ cs) :
    dropSuffix suffix cs = cs :=
  if_neg fun hs => h ((List.isSuffixOf_iff_suffix.1 hs).subset hc)

theorem natOfText_digits {w : String} (h : ∀ c ∈ w.toList, c.isDigit) :
    natOfText "i" w =
      if Nat.ofDigitChars 10 w.toList 0 < Nat.pow 2 63 then Nat.ofDigitChars 10 w.toList 0
      else 0 := by
  have hhex : ['0', 'x'].isPrefixOf w.toList = false := by
    by_contra hx
    rw [Bool.not_eq_false, List.isPrefixOf_iff_prefix] at hx
    exact absurd (h 'x' (hx.subset (by simp))) (by decide)
  have hdrop : dropSuffix "i".toList w.toList = w.toList :=
    dropSuffix_of_notMem (c := 'i') List.mem_cons_self fun hi => absurd (h 'i' hi) (by decide)
  have hfilter : w.toList.filter (· != '_') = w.toList := by
    refine List.filter_eq_self.2 fun c hc => ?_
    rw [bne_iff_ne]
    rintro rfl
    exact absurd (h '_' hc) (by decide)
  unfold natOfText
  simp only [hhex, hdrop, Bool.false_eq_true, if_false, hfilter, ofRadix_digits h]

/-- a numeral reads as its value -/
theorem int_of_numeral {v : Int32} {w : String} (h : IsNumeral v w) :
    Int32.ofNat (natOfText "i" w) = v := by
  have hv := h.value
  have hlt := v.toInt_lt
  have hpow : Nat.pow 2 63 = 9223372036854775808 := by decide
  rw [natOfText_digits h.digits, if_pos (by omega), ← Int32.ofInt_eq_ofNat, hv, Int32.ofInt_toInt]

end Numeral

section Operand

variable {g : Grammar} {s s' : ParseState} {e : Expr}

theorem operand_ident (hk : s.kind = .ident) :
    (operand g).run s = (.ident s.current.span s.current.text, s.advance) := by
  rw [operand, kind_bind_run, hk]
  change (primary g).run s = _
  rw [primary, get_bind_run, hk]
  rfl

theorem operand_literal {v : Literal} (hv : literal? s.current = some v) :
    (operand g).run s = (.literal s.current.span v, s.advance) := by
  have hsign : UnaryOp.ofToken? s.kind = none := by
    unfold literal? at hv
    split at hv
    case h_14 => cases hv
    all_goals
      rename_i hk
      rw [show s.kind = _ from hk]
      rfl
  rw [operand, kind_bind_run, hsign]
  change (primary g).run s = _
  rw [primary, get_bind_run]
  split
  case h_7 =>
    rw [hv]
    rfl
  all_goals
    rename_i hk
    rw [literal?, show s.current.kind = _ from hk] at hv
    cases hv

theorem operand_int (hk : s.kind = .int) : (operand g).run s =
    (.literal s.current.span (.int (Int32.ofNat (natOfText "i" s.current.text))), s.advance) :=
  operand_literal (by rw [literal?, show s.current.kind = .int from hk])

theorem operand_openParen (hk : s.kind = .openParen) : (operand g).run s = (group g).run s := by
  rw [operand, kind_bind_run, hk]
  change (primary g).run s = _
  rw [primary, get_bind_run, hk]

theorem operand_openSquare (hk : s.kind = .openSquare) : (operand g).run s = (array g).run s := by
  rw [operand, kind_bind_run, hk]
  change (primary g).run s = _
  rw [primary, get_bind_run, hk]

theorem operand_sign {op : UnaryOp} (hk : s.kind = op.token)
    (he : (g.expr signLevel).run s.advance = (e, s')) :
    (operand g).run s = (.unary (s.current.span.merge e.span) op e, s') := by
  rw [operand, kind_bind_run, hk, op.token_spec.2.2]
  dsimp only
  rw [bind_run_of (advance_run s), bind_run_of he]
  rfl

theorem group_run (hn : s.advance.kind ≠ .newline) (he : (g.expr 0).run s.advance = (e, s'))
    (hk : s'.kind = .closeParen) : ∃ span, (group g).run s = (e.withSpan span, s'.advance) := by
  have hn' : s'.kind ≠ .newline := by
    rw [hk]
    decide
  rw [group, bind_run_of (advance_run s), bind_run_of (skipNewlines_run hn), bind_run_of he,
    bind_run_of (skipNewlines_run hn'), bind_run_of (eat_run_of_eq hk)]
  exact ⟨_, rfl⟩

theorem array_run {items : List Expr}
    (h : (series g s.current.span .closeSquare '[' (g.expr 0)).run s.advance = (items, s')) :
    ∃ span, (array g).run s = (.array span items, s') := by
  rw [array, bind_run_of (advance_run s), bind_run_of h]
  exact ⟨_, rfl⟩

theorem call_run {args : List Expr}
    (h : (series g s.current.span .closeParen '(' (g.expr 0)).run s.advance = (args, s')) :
    ∃ span, (call g e).run s = (.call span e args, s') := by
  rw [call, bind_run_of (advance_run s), bind_run_of h]
  exact ⟨_, rfl⟩

theorem index_run {i : Expr}
    (h : (series g s.current.span .closeSquare '[' (g.expr 0)).run s.advance = ([i], s')) :
    ∃ span, (index g e).run s = (.index span e i, s') := by
  rw [index, bind_run_of (advance_run s), bind_run_of h]
  exact ⟨_, rfl⟩

end Operand

section Series

variable {α : Type} {opened : Span} {close : TokenKind} {delimiter : Char} {item : Parser α}
  {r : Nat} {x : α} {read : List α} {s s' : ParseState}

theorem seriesFrom_close (hk : s.kind = close) (hn : close ≠ .newline) :
    (seriesFrom opened close delimiter item (r + 1) read).run s = (read.reverse, s.advance) := by
  rw [seriesFrom_succ, bind_run_of (skipNewlines_run (hk ▸ hn)), bind_run_of (eat_run_of_eq hk)]
  rfl

theorem seriesFrom_item (hn : s.kind ≠ .newline) (hc : s.kind ≠ close) (he : s.kind ≠ .eof)
    (hitem : item.run s = (x, s')) (hk : s'.kind = .comma ∨ s'.kind = close) :
    (seriesFrom opened close delimiter item (r + 1) read).run s =
      (seriesRest opened close delimiter item r x read).run s' := by
  have hend : atEnd.run s = (false, s) := by
    change (s.kind == .eof, s) = _
    rw [beq_eq_false_iff_ne.2 he]
  have hstuck : (s'.current.span == s.current.span && s'.kind != .comma && s'.kind != close) =
      false := by
    rcases hk with hk | hk <;> simp [hk]
  rw [seriesFrom_succ, bind_run_of (skipNewlines_run hn), bind_run_of (eat_run_of_ne hc)]
  simp only [Bool.false_eq_true, if_false]
  rw [bind_run_of hend]
  simp only [Bool.false_eq_true, if_false]
  have hspan : currentSpan.run s = (s.current.span, s) := rfl
  rw [seriesItem, bind_run_of hspan, bind_run_of hitem, get_bind_run]
  dsimp only
  rw [hstuck]
  rfl

theorem seriesRest_comma (hk : s.kind = .comma) :
    (seriesRest opened close delimiter item r x read).run s =
      (seriesFrom opened close delimiter item r (x :: read)).run s.advance := by
  have hn : s.kind ≠ .newline := by
    rw [hk]
    decide
  rw [seriesRest, bind_run_of (skipNewlines_run hn), bind_run_of (eat_run_of_eq hk)]
  rfl

theorem seriesRest_close (hk : s.kind = close) (hn : close ≠ .newline) (hc : close ≠ .comma) :
    (seriesRest opened close delimiter item r x read).run s = ((x :: read).reverse, s.advance) := by
  rw [seriesRest, bind_run_of (skipNewlines_run (hk ▸ hn)), bind_run_of (eat_run_of_ne (hk ▸ hc))]
  simp only [Bool.false_eq_true, if_false]
  rw [bind_run_of (eat_run_of_eq hk)]
  rfl

end Series

end Parse

end AutoLang
