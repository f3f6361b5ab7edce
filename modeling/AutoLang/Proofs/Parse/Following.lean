import AutoLang.Proofs.Parse.Follow
import Mathlib

/-! The productions side by side. Each one, read without problems in a text, is read the same further
down in a longer one, whatever comes after the seam: where the text ends no production goes on. -/

namespace AutoLang

open AutoLang.ParseState (Ready Moved Beside Tied)
open AutoLang.Parser (Gives Takes Steady Follows)

/-- where at most `n` tokens are left, the phrases of the grammar are read soundly, and the same further
down; where a statement is missing the runs part -/
structure Grammar.Tracks (σ : Shift) (rest : List Token) (n : Nat) (g : Grammar) : Prop where
  sound : g.Sound n
  expr : ∀ floor d s t, Beside σ rest n d s t →
    Follows σ rest n d (Expr.shift σ) s t (g.expr floor) (g.expr floor)
  cond : ∀ d s t, Beside σ rest n d s t → s.kind = .ifKw →
    Follows σ rest n d (Expr.shift σ) s t g.cond g.cond
  stmt : ∀ d s t, Beside σ rest n d s t → Gives s g.stmt fun found s' =>
    ∀ x, found = some x → (g.stmt.run t).1 = some (x.shift σ) ∧ Tied σ rest n d s' (g.stmt.run t).2

namespace Parse

variable {g : Grammar} {σ : Shift} {rest : List Token} {n d : Nat} {s t : ParseState}

section Series

variable {α : Type} {opened : Span} {close : TokenKind} {delimiter : Char} {item : Parser α}
  {r : α → Reading} {f : α → α} [Steady item]

theorem follows_seriesRest {x : α} {read : List α} {rounds : Nat} (hc : close.isCloser = true)
    (ht : Tied σ rest n d s t) (hrec : ∀ s t, Tied σ rest n d s t →
      Follows σ rest n d (List.map f) s t (seriesFrom opened close delimiter item rounds (x :: read))
        (seriesFrom (opened.shift σ) close delimiter item rounds ((x :: read).map f))) :
    Follows σ rest n d (List.map f) s t (seriesRest opened close delimiter item rounds x read)
      (seriesRest (opened.shift σ) close delimiter item rounds (f x) (read.map f)) := by
  have hi := TokenKind.isInner_of_isCloser hc
  refine .skipNewlines ht (fun s _ hk => ?_) fun s t ht hk => ?_
  · exact .eat_at_end hk rfl (.eat_at_end hk hi (.check (fun _ => .reportHere) fun _ => .reportHere))
  · refine .eat ht.toBeside rfl (fun _ ht => hrec _ _ ht) fun _ => ?_
    refine .eat ht.toBeside hi (fun _ ht => .pure ht (by simp)) fun _ => ?_
    exact .atEnd ht.toBeside hk .reportHere

theorem follows_seriesFrom (hc : close.isCloser = true) (hr : ∀ a, (r a).IsItem)
    (htakes : ∀ s : ParseState, s.Ready n → Takes s item fun a ts => Derives (r a) ts)
    (hitem : ∀ s t, Beside σ rest n d s t → Follows σ rest n d f s t item item) (rounds : Nat) :
    ∀ (read : List α) (s t : ParseState), Tied σ rest n d s t →
      Follows σ rest n d (List.map f) s t (seriesFrom opened close delimiter item rounds read)
        (seriesFrom (opened.shift σ) close delimiter item rounds (read.map f)) := by
  induction rounds with
  | zero => exact fun read s t ht => .pure ht (by simp)
  | succ rounds ih =>
    intro read s t ht
    rw [seriesFrom_succ, seriesFrom_succ]
    refine .skipNewlines ht (fun s _ hk => ?_) fun s t ht hk => ?_
    · exact .eat_at_end hk (TokenKind.isInner_of_isCloser hc)
        (.check (fun _ => .reportHere) fun h => absurd hk h)
    refine .eat ht.toBeside (TokenKind.isInner_of_isCloser hc) (fun _ ht => .pure ht (by simp))
      fun _ => ?_
    refine .atEnd ht.toBeside hk (.currentSpan ht.toBeside hk ?_)
    refine .seqGiven (hitem s t ht.toBeside) (htakes s ht.ready) ?_
    rintro x s' t' ⟨ts, m, hx⟩ ht'
    -- the item took a token, so neither run stays where it was
    have hne := hx.ne_nil (hr x).isProper
    have hleft : ¬ (s'.current.span == s.current.span) = true := by
      simpa using ht.ready.span_ne m hne
    have hright : ¬ (t'.current.span == s.current.span.shift σ) = true := by
      rw [show s.current.span.shift σ = t.current.span by rw [(ht.current hk).1]; rfl]
      simpa using ht.span_ne ht'.toBeside m hne
    refine .get ?_
    rw [if_neg (by simp only [Bool.and_eq_true]; tauto),
      if_neg (by simp only [Bool.and_eq_true]; tauto)]
    exact follows_seriesRest hc ht' (ih (x :: read))

theorem follows_series (r : α → Reading) (hc : close.isCloser = true) (hr : ∀ a, (r a).IsItem)
    (ht : Tied σ rest n d s t)
    (htakes : ∀ s : ParseState, s.Ready n → Takes s item fun a ts => Derives (r a) ts)
    (hitem : ∀ s t, Beside σ rest n d s t → Follows σ rest n d f s t item item) :
    Follows σ rest n d (List.map f) s t (series g opened close delimiter item)
      (series g (opened.shift σ) close delimiter item) :=
  follows_seriesFrom hc hr htakes hitem _ [] s t ht

end Series

section Block

variable [g.Steady]

theorem follows_blockFrom (hg : g.Tracks σ rest n) (opened : Span) (rounds : Nat) :
    ∀ (read : List Stmt) (s t : ParseState), Tied σ rest n d s t →
      Follows σ rest n d (List.map (Stmt.shift σ)) s t (blockFrom g.stmt opened rounds read)
        (blockFrom g.stmt (opened.shift σ) rounds (read.map (Stmt.shift σ))) := by
  induction rounds with
  | zero => exact fun read s t ht => .pure ht (by simp)
  | succ rounds ih =>
    intro read s t ht
    refine .skipSeparators ht (fun s _ hk => ?_) fun s t ht hk hsep => ?_
    · exact .eat_at_end hk rfl (.check (fun _ => .reportHere) fun h => absurd hk h)
    refine .eat ht.toBeside rfl (fun _ ht => .pure ht (by simp)) fun _ => .atEnd ht.toBeside hk ?_
    refine .seqFound (hg.stmt d s t ht.toBeside) (hg.sound.stmt s ht.ready) ?_ fun x s t _ ht =>
      ih (x :: read) s t ht
    rintro s' ⟨ts, m, hfound⟩
    obtain ⟨x, hx⟩ := hfound.exists_some hk hsep m
    cases hx

theorem follows_blockBody (hg : g.Tracks σ rest n) (hb : Beside σ rest (n + 1) d s t) :
    Follows σ rest n d (List.map (Stmt.shift σ)) s t (blockBody g) (blockBody g) := by
  by_cases he : s.kind = .eof
  · exact .at_end (takes_blockBody hg.sound hb.ready) hb.ready he fun _ _ h => h.ne_nil trivial
  refine .currentSpan hb he (.expect hb rfl fun hk _ => ?_)
  exact follows_blockFrom hg _ _ [] _ _ (hb.pass (.inl (hk ▸ rfl)))

/-- whether `else` comes next or behind a newline is the same in both texts -/
theorem follows_eatElse (ht : Tied σ rest n d s t) : Follows σ rest n d id s t eatElse eatElse := by
  have hb := ht.toBeside
  have hsame : (t.kind == .newline && t.nextKind == .elseKw) =
      (s.kind == .newline && s.nextKind == .elseKw) := by
    rw [Bool.eq_iff_iff]
    simp only [Bool.and_eq_true, beq_iff_eq]
    by_cases hn : s.kind = .newline
    · have hnext := (ht.advance (.inr hn)).toBeside.kind_iff (k := .elseKw) rfl
      rw [ParseState.kind_advance, ParseState.kind_advance] at hnext
      rw [hnext, hb.kind_eq (by rw [hn]; decide)]
    · rcases hb.kind_cases with heq | ⟨hs, hn'⟩
      · simp only [heq, hn, false_and]
      · simp only [hn, hb.nextKind_of_eof hs hn', and_false, false_and]
  refine .get ?_
  rw [hsame]
  split
  · rename_i h
    simp only [Bool.and_eq_true, beq_iff_eq] at h
    exact .set (.eatLast (ht.advance (.inr h.1)) rfl)
  · exact .eatLast ht rfl

end Block

section Expr

theorem isInner_of_sign {k : TokenKind} {op : UnaryOp} (h : UnaryOp.ofToken? k = some op) :
    k.isInner = true := by
  cases k <;> first | rfl | cases h

theorem isInner_of_link {k : TokenKind} {l : Link} (h : Link.ofToken? k = some l) :
    k.isInner = true := by
  cases k <;> first | rfl | cases h

theorem isInner_of_literal {u : Token} {v : Literal} (h : literal? u = some v) :
    u.kind.isInner = true := by
  unfold literal? at h
  generalize u.kind = k at h
  cases k <;> first | rfl | cases h

variable [g.Steady]

omit [g.Steady] in
/-- at the end an expression is missing -/
theorem expr_at_end (hg : g.Tracks σ rest n) (floor : Nat) (hs : s.Ready n) (hk : s.kind = .eof) :
    Gives s (g.expr floor) fun _ _ => False :=
  .at_end (hg.sound.expr floor s hs) hs hk fun _ _ h => h.ne_nil trivial

omit [g.Steady] in
theorem follows_group (hg : g.Tracks σ rest n) (hb : Beside σ rest (n + 1) d s t)
    (hk : s.kind = .openParen) :
    Follows σ rest n d (Expr.shift σ) s t (group g) (group g) := by
  refine .pass hb hk rfl fun ht => .skipNewlines ht (fun s hs he => ?_) fun s t ht _ => ?_
  · exact .stuck (expr_at_end hg 0 hs he)
  refine .seq (hg.expr 0 d s t ht.toBeside) fun e s t ht => ?_
  refine .skipNewlines ht (fun s _ he => .eat_at_end he rfl .reportHere) fun s t ht _ => ?_
  refine .eat ht.toBeside rfl (fun _ ht => .previousSpan ht (.pure ht ?_)) fun _ => .reportHere
  rw [Expr.shift_withSpan, Span.shift_merge]
  rfl

/-- expressions with commas between them -/
theorem follows_exprs {opened : Span} {close : TokenKind} {delimiter : Char}
    (hg : g.Tracks σ rest n) (hc : close.isCloser = true) (ht : Tied σ rest n d s t) :
    Follows σ rest n d (List.map (Expr.shift σ)) s t (series g opened close delimiter (g.expr 0))
      (series g (opened.shift σ) close delimiter (g.expr 0)) :=
  follows_series .expr hc (fun _ => trivial) ht (hg.sound.expr 0) (hg.expr 0 d)

theorem follows_array (hg : g.Tracks σ rest n) (hb : Beside σ rest (n + 1) d s t)
    (hk : s.kind = .openSquare) :
    Follows σ rest n d (Expr.shift σ) s t (array g) (array g) := by
  refine .pass hb hk rfl fun ht => ?_
  refine .seq (follows_exprs hg (by decide) ht) fun es s t ht => .previousSpan ht (.pure ht ?_)
  rw [Expr.shift, Span.shift_merge, shiftExprs_eq]
  rfl

theorem follows_fieldKey (hb : Beside σ rest n d s t) :
    Follows σ rest n d id s t fieldKey fieldKey := by
  refine .get ?_
  split
  · rename_i h
    simp only [Bool.or_eq_true, beq_iff_eq] at h
    have hi : s.kind.isInner = true := by
      rcases h with h | h <;> rw [h] <;> rfl
    have h' : t.kind = .ident ∨ t.kind = .str :=
      h.imp (hb.kind_iff rfl).2 (hb.kind_iff rfl).2
    rw [if_pos (by simpa using h')]
    exact .pass (hb.mono (Nat.le_succ n)) rfl hi fun ht => .pure ht rfl
  · exact .report

theorem follows_field (hg : g.Tracks σ rest n) (hb : Beside σ rest n d s t) :
    Follows σ rest n d (Field.shift σ) s t (field g) (field g) := by
  refine .seq (follows_fieldKey hb) fun key s t ht => .expect ht.toBeside rfl fun _ ht => ?_
  refine .skipNewlines ht (fun s hs he => .stuck (expr_at_end hg 0 hs he)) fun s t ht _ => ?_
  exact .seq (hg.expr 0 d s t ht.toBeside) fun e s t ht => .pure ht (by rw [Field.shift]; rfl)

theorem follows_object (hg : g.Tracks σ rest n) (hb : Beside σ rest (n + 1) d s t)
    (hk : s.kind = .openBrace) :
    Follows σ rest n d (Expr.shift σ) s t (object g) (object g) := by
  refine .pass hb hk rfl fun ht => ?_
  refine .seq (follows_series .field (by decide) (fun _ => trivial) ht
    (fun _ => takes_field hg.sound) fun _ _ => follows_field hg) fun fs s t ht => ?_
  refine .previousSpan ht (.pure ht ?_)
  rw [Expr.shift, Span.shift_merge, shiftFields_eq]
  rfl

theorem follows_blockExpr (hg : g.Tracks σ rest n) (hb : Beside σ rest (n + 1) d s t) :
    Follows σ rest n d (Expr.shift σ) s t (blockExpr g) (blockExpr g) := by
  by_cases he : s.kind = .eof
  · refine .at_end (takes_blockExpr hg.sound hb.ready) hb.ready he ?_
    rintro e ts ⟨place, xs, -, h⟩
    exact h.ne_nil trivial
  refine .currentSpan hb he (.seq (follows_blockBody hg hb) fun xs s t ht => ?_)
  refine .previousSpan ht (.pure ht ?_)
  rw [Expr.shift, Span.shift_merge, shiftStmts_eq]

set_option synthInstance.maxSize 256 in
theorem follows_condExpr (hg : g.Tracks σ rest n) (hb : Beside σ rest (n + 1) d s t)
    (hk : s.kind = .ifKw) : Follows σ rest n d (Expr.shift σ) s t (condExpr g) (condExpr g) := by
  refine .pass hb hk rfl fun ht => .seq (hg.expr 0 d _ _ ht.toBeside) fun test s₁ t₁ ht => ?_
  refine .seq (follows_blockExpr hg (ht.mono (Nat.le_succ n)).toBeside) fun yes s₂ t₂ ht => ?_
  -- whatever the other branch is, the phrase ends where it does
  have hdone (no : Option Expr) (u v : ParseState) (ht : Tied σ rest n d u v) :
      Follows σ rest n d (Expr.shift σ) u v
        (Parser.previousSpan >>= fun last =>
          pure (Expr.cond (s.current.span.merge last) test yes no))
        (Parser.previousSpan >>= fun last =>
          pure (Expr.cond ((s.current.span.shift σ).merge last) (test.shift σ) (yes.shift σ)
            (no.map (Expr.shift σ)))) := by
    refine .previousSpan ht (.pure ht ?_)
    rw [Expr.shift, Span.shift_merge, shiftExpr?_eq]
  refine .seq (follows_eatElse ht) fun found u v ht => ?_
  cases found with
  | false => exact .given (hdone none u v ht)
  | true =>
    refine .check ht.toBeside rfl (fun hif => ?_) fun _ => ?_
    · have hno := hg.cond d u v ht.toBeside hif
      exact .seq (.map (g := Option.map (Expr.shift σ)) hno fun _ => rfl) hdone
    · have hno := follows_blockExpr hg (ht.mono (Nat.le_succ n)).toBeside
      exact .seq (.map (g := Option.map (Expr.shift σ)) hno fun _ => rfl) hdone

omit [g.Steady] in
theorem follows_interpolation (hg : g.Tracks σ rest n) (hb : Beside σ rest (n + 1) d s t)
    (hk : s.kind = .openBrace ∨ s.kind = .ident) :
    Follows σ rest n d (Expr.shift σ) s t (interpolation g) (interpolation g) := by
  refine .get ?_
  rcases hk with hk | hk
  · rw [if_pos (beq_iff_eq.2 hk), if_pos (beq_iff_eq.2 ((hb.kind_iff rfl).2 hk))]
    refine .pass hb hk rfl fun ht => .seq (hg.expr 0 d _ _ ht.toBeside) fun e s t ht => ?_
    exact .eat ht.toBeside rfl (fun _ ht => .pure ht rfl) fun _ => .reportHere
  · have hk' := (hb.kind_iff rfl).2 hk
    rw [if_neg (by simp [hk]), if_pos (beq_iff_eq.2 hk), if_neg (by simp [hk']),
      if_pos (beq_iff_eq.2 hk')]
    refine .pass hb hk rfl fun ht => .pure ht ?_
    rw [(hb.current (by rw [hk]; decide)).1, Expr.shift]
    rfl

theorem follows_formatFrom (hg : g.Tracks σ rest n) (rounds : Nat) :
    ∀ (read : List Expr) (s t : ParseState), Tied σ rest n (d + 1) s t →
      Follows σ rest n d (List.map (Expr.shift σ)) s t (formatFrom g rounds read)
        (formatFrom g rounds (read.map (Expr.shift σ))) := by
  induction rounds with
  | zero => exact fun read s t ht => .pure ht.outer (by simp)
  | succ rounds ih =>
    intro read s t ht
    have hb := ht.toBeside.mono (Nat.le_succ n)
    have hsame : t.kind = s.kind := by
      by_cases he : s.kind = .eof
      · rw [hb.kind_of_eof_inside he, he]
      · exact hb.kind_eq he
    refine .get ?_
    rw [hsame]
    split
    case h_1 hk =>
      refine .pass hb hk rfl fun ht => ?_
      have hnext := ih (.literal s.current.span (.str s.current.text) :: read) _ _ ht
      rwa [List.map_cons, Expr.shift] at hnext
    case h_2 hk =>
      refine .pass hb hk rfl fun ht => ?_
      have hopens : s.advance.kind = .openBrace ∨ s.advance.kind = .ident := by
        have m := moved_first hb.ready hk (by decide)
        obtain ⟨u, hu, hopens⟩ := (m.tokens ▸ hb.ready.orderly.marked).1 hk
        obtain rfl := Option.some.inj hu
        exact hopens
      have hpart := follows_interpolation hg (ht.mono (Nat.le_succ n)).toBeside hopens
      exact .seq hpart fun e s t ht => ih (e :: read) s t ht
    case h_3 hk =>
      have hne : s.kind ≠ .eof := by
        rw [hk]
        decide
      exact .advance hb hne (.pure (hb.closeFormat hk) (by simp))
    case h_4 => exact .pure ht.outer (by simp)
    case h_5 => exact .report

theorem follows_format (hg : g.Tracks σ rest n) (hb : Beside σ rest (n + 1) d s t)
    (hk : s.kind = .formatOpen) :
    Follows σ rest n d (Expr.shift σ) s t (format g) (format g) := by
  have hne : s.kind ≠ .eof := by
    rw [hk]
    decide
  refine .advance hb hne ?_
  refine .seq (follows_formatFrom hg _ [] _ _ (hb.openFormat hk)) fun ps s t ht => ?_
  refine .previousSpan ht (.pure ht ?_)
  rw [Expr.shift, Span.shift_merge, shiftExprs_eq]
  rfl

theorem follows_primary (hg : g.Tracks σ rest n) (hb : Beside σ rest (n + 1) d s t) :
    Follows σ rest n d (Expr.shift σ) s t (primary g) (primary g) := by
  by_cases he : s.kind = .eof
  · exact .at_end (takes_primary hg.sound hb.ready) hb.ready he fun _ _ h => h.ne_nil trivial
  refine .get ?_
  rw [hb.kind_eq he, (hb.current he).1]
  split
  case h_1 hk => exact follows_group hg hb hk
  case h_2 hk => exact follows_array hg hb hk
  case h_3 hk => exact follows_object hg hb hk
  case h_4 hk => exact follows_condExpr hg hb hk
  case h_5 hk => exact follows_format hg hb hk
  case h_6 hk => exact .pass hb hk rfl fun ht => .pure ht (by rw [Expr.shift]; rfl)
  case h_7 =>
    rw [show literal? (s.current.shift σ) = literal? s.current from rfl]
    split
    · rename_i v hv
      exact .pass hb rfl (isInner_of_literal hv) fun ht => .pure ht (by rw [Expr.shift]; rfl)
    · exact .report

theorem follows_call (hg : g.Tracks σ rest n) (hb : Beside σ rest (n + 1) d s t)
    (hk : s.kind = .openParen) (f : Expr) :
    Follows σ rest n d (Expr.shift σ) s t (call g f) (call g (f.shift σ)) := by
  refine .pass hb hk rfl fun ht => ?_
  refine .seq (follows_exprs hg (by decide) ht) fun es s t ht => .previousSpan ht (.pure ht ?_)
  rw [Expr.shift, Span.shift_merge, shiftExprs_eq, Expr.span_shift]

theorem follows_index (hg : g.Tracks σ rest n) (hb : Beside σ rest (n + 1) d s t)
    (hk : s.kind = .openSquare) (a : Expr) :
    Follows σ rest n d (Expr.shift σ) s t (index g a) (index g (a.shift σ)) := by
  refine .pass hb hk rfl fun ht => ?_
  refine .seq (follows_exprs hg (by decide) ht) fun es s t ht => .previousSpan ht ?_
  split
  · exact .report
  · rename_i hone
    obtain ⟨i, rfl⟩ := List.length_eq_one_iff.1 (not_not.1 hone)
    refine .pure ht ?_
    rw [Expr.shift, Span.shift_merge, Expr.span_shift]
    rfl

theorem follows_operand (hg : g.Tracks σ rest n) (hb : Beside σ rest (n + 1) d s t) :
    Follows σ rest n d (Expr.shift σ) s t (operand g) (operand g) := by
  by_cases he : s.kind = .eof
  · exact .at_end (takes_operand hg.sound hb.ready) hb.ready he fun _ _ h => h.ne_nil trivial
  refine .kind ?_
  rw [hb.kind_eq he]
  split
  · rename_i op hop
    refine .pass hb rfl (isInner_of_sign hop) fun ht => ?_
    refine .seq (hg.expr signLevel d _ _ ht.toBeside) fun e s t ht => .pure ht ?_
    rw [Expr.shift, Span.shift_merge, Expr.span_shift]
    rfl
  · exact follows_primary hg hb

/-- the operators are the same ones, and none goes on at the seam -/
theorem follows_climb (hg : g.Tracks σ rest n) (floor rounds : Nat) :
    ∀ (left : Expr) (s t : ParseState), Tied σ rest n d s t →
      Follows σ rest n d (Expr.shift σ) s t (climb g floor rounds left)
        (climb g floor rounds (left.shift σ)) := by
  induction rounds with
  | zero => exact fun left s t ht => .pure ht rfl
  | succ rounds ih =>
    intro left s t ht
    have hb := ht.toBeside.mono (Nat.le_succ n)
    refine .kind ?_
    rcases hb.kind_cases with hsame | ⟨he, hn⟩
    · rw [hsame]
      split
      · rename_i h
        simp only [Bool.and_eq_true, beq_iff_eq] at h
        exact .seq (follows_call hg hb h.1 left) ih
      split
      · rename_i h
        simp only [Bool.and_eq_true, beq_iff_eq] at h
        exact .seq (follows_index hg hb h.1 left) ih
      split
      · exact .pure ht rfl
      rename_i l hl
      split
      · exact .pure ht rfl
      refine .pass hb rfl (isInner_of_link hl) fun ht => ?_
      refine .skipNewlines ht (fun s hs he => .stuck (expr_at_end hg _ hs he)) fun s t ht _ => ?_
      refine .seq (hg.expr _ d s t ht.toBeside) fun right s t ht => ?_
      rw [← Link.shift_join]
      exact ih _ s t ht
    · rw [he, hn]
      exact .pure ht rfl

theorem follows_expr (hg : g.Tracks σ rest n) (hb : Beside σ rest (n + 1) d s t) (floor : Nat) :
    Follows σ rest n d (Expr.shift σ) s t (expr g floor) (expr g floor) :=
  .seq (follows_operand hg hb) fun e s t ht => follows_climb hg floor _ e s t ht

end Expr

section Stmt

theorem follows_tyWithin (n : Nat) : ∀ (depth depth' : Nat) (s t : ParseState), n ≤ depth →
    n ≤ depth' → Tied σ rest n d s t →
      Follows σ rest n d id s t (tyWithin depth) (tyWithin depth') := by
  induction n with
  | zero => exact fun _ _ s _ _ _ ht => absurd ht.ready s.not_ready_zero
  | succ n ih =>
    intro depth depth' s t hd hd' ht
    obtain ⟨depth, rfl⟩ := Nat.exists_eq_add_of_le' (Nat.one_le_of_lt hd)
    obtain ⟨depth', rfl⟩ := Nat.exists_eq_add_of_le' (Nat.one_le_of_lt hd')
    have hb := ht.toBeside
    have inner (s t : ParseState) (ht : Tied σ rest n d s t) :
        Follows σ rest (n + 1) d id s t (tyWithin depth) (tyWithin depth') :=
      .mono (ih depth depth' s t (by omega) (by omega) ht) (Nat.le_succ n)
    refine .kind ?_
    rcases hb.kind_cases with hsame | ⟨he, hn⟩
    · rw [hsame]
      split
      case h_1 hk => exact .pass hb hk rfl fun ht => .pure (ht.mono (Nat.le_succ n)) rfl
      case h_2 hk =>
        refine .pass hb hk rfl fun ht => .expect ht.toBeside rfl fun _ ht => ?_
        exact .seq (inner _ _ ht) fun y s t ht => .pure ht rfl
      case h_3 hk =>
        refine .pass hb hk rfl fun ht => ?_
        exact .seq (inner _ _ ht) fun y s t ht => .pure ht rfl
      case h_4 => exact .pure ht rfl
    · rw [he, hn]
      exact .pure ht rfl

theorem follows_ty (ht : Tied σ rest n d s t) : Follows σ rest n d id s t ty ty :=
  .get (.mono (follows_tyWithin _ _ _ s t le_rfl ht.remaining_le ht.sharpen) ht.ready.bound)

theorem follows_name (hb : Beside σ rest n d s t) (what : String) :
    Follows σ rest n d id s t (name what) (name what) := by
  refine .get ?_
  split
  · rename_i h
    have hk : s.kind = .ident := beq_iff_eq.1 h
    rw [if_pos (beq_iff_eq.2 ((hb.kind_iff rfl).2 hk))]
    exact .pass (hb.mono (Nat.le_succ n)) hk rfl fun ht => .pure ht rfl
  · exact .report

theorem follows_param (hb : Beside σ rest n d s t) : Follows σ rest n d id s t param param := by
  refine .seq (follows_name hb _) fun x s t ht => .kind ?_
  have hsame : (t.kind == .comma || t.kind == .closeParen) =
      (s.kind == .comma || s.kind == .closeParen) := by
    rw [Bool.eq_iff_iff]
    simp only [Bool.or_eq_true, beq_iff_eq, ht.toBeside.kind_iff (k := .comma) rfl,
      ht.toBeside.kind_iff (k := .closeParen) rfl]
  rw [hsame]
  split
  · exact .pure ht rfl
  · exact .seq (follows_ty ht) fun y s t ht => .pure ht rfl

/-- at the end a statement is missing -/
theorem stmt_at_end (hg : g.Tracks σ rest n) (hs : s.Ready n) (hk : s.kind = .eof) :
    Gives s g.stmt fun found _ => found = none := by
  refine (hg.sound.stmt s hs).mono ?_
  rintro (_ | x) t ⟨ts, m, hfound⟩
  · rfl
  · exact absurd (m.eq_nil hs hk) (Derives.ne_nil hfound trivial)

theorem follows_body (hg : g.Tracks σ rest n) (ht : Tied σ rest n d s t) (construct : String) :
    Follows σ rest n d (Stmt.shift σ) s t (body g construct) (body g construct) := by
  refine .skipNewlines ht (fun s hs he => ?_) fun s t ht _ => ?_
  · refine .check (fun _ => .given .reportHere) fun _ => (stmt_at_end hg hs he).seqOption ?_
    rintro found t rfl
    exact .reportHere
  · refine .check ht.toBeside rfl (fun _ => .given .reportHere) fun _ => ?_
    exact .seqFound (P := fun _ _ => True) (hg.stmt d s t ht.toBeside) (fun _ => trivial)
      (fun _ _ => .reportHere) fun x s t _ ht => .pure ht rfl

variable [g.Steady]

set_option synthInstance.maxSize 1024 in
theorem follows_store (hg : g.Tracks σ rest n) (hb : Beside σ rest (n + 1) d s t)
    (hk : s.kind = .varKw ∨ s.kind = .letKw ∨ s.kind = .mutKw) :
    Follows σ rest n d (Stmt.shift σ) s t (store g) (store g) := by
  have hi : s.kind.isInner = true := by
    rcases hk with hk | hk | hk <;> rw [hk] <;> rfl
  refine .pass hb rfl hi fun ht => .seq (follows_name ht.toBeside _) fun x s₁ t₁ ht => ?_
  refine .branch ht.toBeside rfl (.pure ht rfl) (follows_ty ht) fun y s₂ t₂ ht => ?_
  refine .expect ht.toBeside rfl fun _ ht => .kind ?_
  refine .skipNewlines ht (fun s hs he => .stuck (expr_at_end hg 0 hs he)) fun s₃ t₃ ht _ => ?_
  refine .seq (hg.expr 0 d s₃ t₃ ht.toBeside) fun e s₄ t₄ ht => .pure ht ?_
  rw [Stmt.shift, Span.shift_merge, Expr.span_shift]
  rfl

theorem follows_condStmt (hg : g.Tracks σ rest n) (hb : Beside σ rest (n + 1) d s t)
    (hk : s.kind = .ifKw) : Follows σ rest n d (Stmt.shift σ) s t (condStmt g) (condStmt g) := by
  refine .pass hb hk rfl fun ht => .seq (hg.expr 0 d _ _ ht.toBeside) fun test s₁ t₁ ht => ?_
  refine .seq (follows_body hg ht _) fun yes s₂ t₂ ht => ?_
  have hdone (no : Option Stmt) (u v : ParseState) (ht : Tied σ rest n d u v) :
      Follows σ rest n d (Stmt.shift σ) u v
        (Parser.previousSpan >>= fun last =>
          pure (Stmt.cond (s.current.span.merge last) test yes no))
        (Parser.previousSpan >>= fun last =>
          pure (Stmt.cond ((s.current.span.shift σ).merge last) (test.shift σ) (yes.shift σ)
            (no.map (Stmt.shift σ)))) := by
    refine .previousSpan ht (.pure ht ?_)
    rw [Stmt.shift, Span.shift_merge, shiftStmt?_eq]
  refine .seq (follows_eatElse ht) fun found u v ht => ?_
  cases found with
  | false => exact .given (hdone none u v ht)
  | true =>
    have hno := follows_body hg ht "else"
    exact .seq (.map (g := Option.map (Stmt.shift σ)) hno fun _ => rfl) hdone

theorem follows_loop (hg : g.Tracks σ rest n) (hb : Beside σ rest (n + 1) d s t)
    (hk : s.kind = .forKw) : Follows σ rest n d (Stmt.shift σ) s t (loop g) (loop g) := by
  refine .pass hb hk rfl fun ht => .seq (follows_name ht.toBeside _) fun x s₁ t₁ ht => ?_
  refine .expect ht.toBeside rfl fun _ ht => .seq (hg.expr 0 d _ _ ht.toBeside) fun e s₂ t₂ ht => ?_
  refine .seq (follows_body hg ht _) fun b s₃ t₃ ht => .previousSpan ht (.pure ht ?_)
  rw [Stmt.shift, Span.shift_merge]
  rfl

theorem follows_blockStmt (hg : g.Tracks σ rest n) (hb : Beside σ rest (n + 1) d s t)
    (hk : s.kind ≠ .eof) :
    Follows σ rest n d (Stmt.shift σ) s t (blockStmt g) (blockStmt g) := by
  refine .currentSpan hb hk (.seq (follows_blockBody hg hb) fun xs s t ht => ?_)
  refine .previousSpan ht (.pure ht ?_)
  rw [Stmt.shift, Span.shift_merge, shiftStmts_eq]

set_option synthInstance.maxSize 1024 in
theorem follows_function (hg : g.Tracks σ rest n) (hb : Beside σ rest (n + 1) d s t)
    (hk : s.kind = .fnKw) : Follows σ rest n d (Stmt.shift σ) s t (function g) (function g) := by
  refine .pass hb hk rfl fun ht => .seq (follows_name ht.toBeside _) fun x s₁ t₁ ht => ?_
  refine .check ht.toBeside rfl (fun ho => ?_) fun ho => .expect ht.toBeside rfl fun h => absurd h ho
  refine .pass (ht.mono (Nat.le_succ n)).toBeside ho rfl fun ht => ?_
  refine .seq (follows_series .param (by decide) (fun _ => trivial) ht (fun _ => takes_param)
    fun _ _ => follows_param) fun ps s₂ t₂ ht => ?_
  refine .branch ht.toBeside rfl (.pure ht rfl) (follows_ty ht) fun y s₃ t₃ ht => ?_
  refine .seq (follows_blockBody hg (ht.mono (Nat.le_succ n)).toBeside) fun xs s₄ t₄ ht => ?_
  refine .previousSpan ht (.pure ht ?_)
  rw [Stmt.shift, Span.shift_merge, shiftStmts_eq, List.map_id]
  rfl

theorem follows_phrase {whole : Parser Expr} (hg : g.Tracks σ rest n)
    (hb : Beside σ rest (n + 1) d s t) (hk : s.kind ≠ .eof)
    (hw : Follows σ rest n d (Expr.shift σ) s t whole whole) :
    Follows σ rest n d (Option.map (Stmt.shift σ)) s t (phrase g whole) (phrase g whole) := by
  refine .kind ?_
  rw [hb.kind_eq hk]
  split
  case h_1 he => exact absurd he hk
  case h_2 hk => exact .map (follows_store hg hb (.inl hk)) fun _ => rfl
  case h_3 hk => exact .map (follows_store hg hb (.inr (.inl hk))) fun _ => rfl
  case h_4 hk => exact .map (follows_store hg hb (.inr (.inr hk))) fun _ => rfl
  case h_5 hk => exact .map (follows_condStmt hg hb hk) fun _ => rfl
  case h_6 hk => exact .map (follows_loop hg hb hk) fun _ => rfl
  case h_7 => exact .map (follows_blockStmt hg hb hk) fun _ => rfl
  case h_8 hk => exact .map (follows_function hg hb hk) fun _ => rfl
  case h_9 hk =>
    exact .pass hb hk rfl fun ht => .pure ht (by rw [Option.map_some, Stmt.shift]; rfl)
  case h_10 =>
    refine .seq hw fun e s t ht => .pure ht ?_
    rw [Option.map_some, Stmt.shift, Expr.span_shift]

theorem follows_stmt {whole : Parser Expr} (hg : g.Tracks σ rest n)
    (hb : Beside σ rest (n + 1) d s t) (hw : ∀ s t, Beside σ rest (n + 1) d s t →
      Follows σ rest n d (Expr.shift σ) s t whole whole) :
    Gives s (stmt g whole) fun found s' => ∀ x, found = some x →
      ((stmt g whole).run t).1 = some (x.shift σ) ∧
        Tied σ rest (n + 1) d s' ((stmt g whole).run t).2 := by
  rw [stmt_eq]
  by_cases he : (s.skip fun k => k == .newline || k == .semicolon).kind = .eof
  · refine .skipSeparators fun _ _ _ => .kind ?_
    rw [he]
    exact .pure nofun
  · obtain ⟨hb, -⟩ := hb.skip (fun k hk => by simpa using hk) he
    refine .skipSeparators fun _ _ _ => Gives.mono (follows_phrase hg hb he (hw _ _ hb)) ?_
    rintro found s' ⟨hfound, ht⟩ x rfl
    exact ⟨hfound, ht.mono (Nat.le_succ n)⟩

end Stmt

end Parse

/-- a grammar with a level for each token reads the same further down -/
theorem Grammar.tracks_ofDepth (σ : Shift) (rest : List Token) (n : Nat) :
    (ofDepth n).Tracks σ rest n := by
  induction n with
  | zero =>
    constructor
    case sound => exact Grammar.sound_ofDepth 0
    case expr => exact fun _ _ s _ hb => absurd hb.ready s.not_ready_zero
    case cond => exact fun _ s _ hb => absurd hb.ready s.not_ready_zero
    case stmt => exact fun _ s _ hb => absurd hb.ready s.not_ready_zero
  | succ n ih =>
    have hexpr (floor d : Nat) (s t : ParseState) (hb : Beside σ rest (n + 1) d s t) :=
      Parse.follows_expr ih hb floor
    constructor
    case sound => exact Grammar.sound_ofDepth (n + 1)
    case expr => exact fun floor d s t hb => (hexpr floor d s t hb).mono (Nat.le_succ n)
    case cond => exact fun d s t hb hk => (Parse.follows_condExpr ih hb hk).mono (Nat.le_succ n)
    case stmt => exact fun d s t hb => Parse.follows_stmt ih hb (hexpr 0 d)

end AutoLang
