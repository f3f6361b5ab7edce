import AutoLang.Proofs.Parse.Alike
import Mathlib

/-! The productions side by side on texts that say the same. Each one gives the same phrase in both
runs, places aside, and leaves the two alike: nothing that it decides depends on a place. -/

namespace AutoLang

open AutoLang.ParseState (Alike)
open AutoLang.Parser (Steady Agrees)

/-- the phrases of the grammar are the same in both runs -/
structure Grammar.Blind (blank : Prop) (g : Grammar) : Prop where
  expr : ∀ floor s t, Alike blank s t →
    Agrees blank Expr.placeless s t (g.expr floor) (g.expr floor)
  cond : ∀ s t, Alike blank s t → s.kind = .ifKw →
    Agrees blank Expr.placeless s t g.cond g.cond
  stmt : ∀ s t, Alike blank s t →
    Agrees blank (Option.map Stmt.placeless) s t g.stmt g.stmt

theorem map_reverse_congr {α β : Type} {f : α → β} {xs ys : List α} (h : xs.map f = ys.map f) :
    xs.reverse.map f = ys.reverse.map f := by
  rw [List.map_reverse, List.map_reverse, h]

namespace Parse

variable {g : Grammar} {blank : Prop} {s t : ParseState}

section Series

variable {α γ : Type} {opened opened' : Span} {close : TokenKind} {delimiter : Char} {item : Parser α}
  {f : α → γ} [Steady item]

theorem agrees_seriesRest {x y : α} {read read' : List α} {rounds : Nat} (hc : close ≠ .newline)
    (h : Alike blank s t) (hread : (x :: read).map f = (y :: read').map f)
    (hrec : ∀ s t, Alike blank s t → Agrees blank (List.map f) s t
      (seriesFrom opened close delimiter item rounds (x :: read))
      (seriesFrom opened' close delimiter item rounds (y :: read'))) :
    Agrees blank (List.map f) s t (seriesRest opened close delimiter item rounds x read)
      (seriesRest opened' close delimiter item rounds y read') := by
  have hdone : (x :: read).reverse.map f = (y :: read').reverse.map f :=
    map_reverse_congr hread
  refine .skipNewlines h fun s t h _ => ?_
  refine .eat h (by decide) (fun h => hrec _ _ h) fun _ => ?_
  refine .eat h hc (fun h => .pure h hdone) fun _ => ?_
  refine .check h (fun _ => ?_) fun _ => ?_
  · exact .reportHere h fun _ _ _ h => .pure h hdone
  · exact .reportHere h fun _ _ _ h => hrec _ _ h

theorem agrees_seriesFrom (hc : close ≠ .newline)
    (hitem : ∀ s t, Alike blank s t → Agrees blank f s t item item) (rounds : Nat) :
    ∀ (read read' : List α) (s t : ParseState), read.map f = read'.map f → Alike blank s t →
      Agrees blank (List.map f) s t (seriesFrom opened close delimiter item rounds read)
        (seriesFrom opened' close delimiter item rounds read') := by
  induction rounds with
  | zero =>
    intro read read' s t hread h
    exact .pure h (map_reverse_congr hread)
  | succ rounds ih =>
    intro read read' s t hread h
    have hdone : read.reverse.map f = read'.reverse.map f :=
      map_reverse_congr hread
    rw [seriesFrom_succ, seriesFrom_succ]
    refine .skipNewlines h fun s t h hn => ?_
    refine .eat h hc (fun h => .pure h hdone) fun _ => ?_
    refine .check h (fun _ => ?_) fun _ => ?_
    · exact .reportHere h fun _ _ _ h => .pure h hdone
    refine .currentSpan (.seqMoved (hitem s t h) fun x y s' t' hxy h' hs ht => ?_)
    have hread' : (x :: read).map f = (y :: read').map f := by
      rw [List.map_cons, List.map_cons, hxy, hread]
    -- whether the item took a token is seen from the place, and is the same in both
    have hmoved := h.moved_iff h' hs ht hn
    have hsame : (s'.current.span == s.current.span && s'.kind != .comma && s'.kind != close) =
        (t'.current.span == t.current.span && t'.kind != .comma && t'.kind != close) := by
      rw [h'.kind_eq, Bool.eq_iff_iff]
      simp only [Bool.and_eq_true, beq_iff_eq, hmoved]
    refine .get ?_
    rw [hsame]
    split
    · rename_i hstay
      simp only [Bool.and_eq_true, beq_iff_eq] at hstay
      have hn' : s'.kind ≠ .newline := by
        have htokens := (h.left.span_eq_iff hs).1 (hmoved.2 hstay.1.1)
        rwa [ParseState.kind, (List.cons.inj htokens).1]
      exact .set (agrees_seriesRest hc (h'.advance fun _ => hn') hread' fun s t =>
        ih (x :: read) (y :: read') s t hread')
    · exact agrees_seriesRest hc h' hread' fun s t => ih (x :: read) (y :: read') s t hread'

theorem agrees_series (hc : close ≠ .newline)
    (hitem : ∀ s t, Alike blank s t → Agrees blank f s t item item) (h : Alike blank s t) :
    Agrees blank (List.map f) s t (series g opened close delimiter item)
      (series g opened' close delimiter item) :=
  agrees_seriesFrom hc hitem _ [] [] s t rfl h

end Series

section Block

variable [g.Steady]

theorem agrees_blockFrom (hg : g.Blind blank) (opened opened' : Span) (rounds : Nat) :
    ∀ (read read' : List Stmt) (s t : ParseState),
      read.map Stmt.placeless = read'.map Stmt.placeless → Alike blank s t →
      Agrees blank (List.map Stmt.placeless) s t (blockFrom g.stmt opened rounds read)
        (blockFrom g.stmt opened' rounds read') := by
  induction rounds with
  | zero =>
    intro read read' s t hread h
    exact .pure h (map_reverse_congr hread)
  | succ rounds ih =>
    intro read read' s t hread h
    have hdone : read.reverse.map Stmt.placeless = read'.reverse.map Stmt.placeless :=
      map_reverse_congr hread
    refine .skipSeparators h fun s t h _ => ?_
    refine .eat h (by decide) (fun h => .pure h hdone) fun _ => ?_
    refine .check h (fun _ => ?_) fun _ => ?_
    · exact .reportHere h fun _ _ _ h => .pure h hdone
    refine .seqOption (hg.stmt s t h) (fun s t h => ih read read' s t hread h)
      fun x y s t hxy h => ih (x :: read) (y :: read') s t ?_ h
    rw [List.map_cons, List.map_cons, hxy, hread]

theorem agrees_blockBody (hg : g.Blind blank) (h : Alike blank s t) :
    Agrees blank (List.map Stmt.placeless) s t (blockBody g) (blockBody g) := by
  refine .currentSpan (.seq (.expect h (by decide)) fun found found' s t hfound h => ?_)
  obtain rfl : found = found' := hfound
  cases found with
  | false => exact .pure h rfl
  | true => exact agrees_blockFrom hg _ _ _ [] [] s t rfl h

theorem agrees_eatElse (h : Alike blank s t) : Agrees blank id s t eatElse eatElse := by
  have hsame : (s.kind == .newline && s.nextKind == .elseKw) =
      (t.kind == .newline && t.nextKind == .elseKw) := by
    rw [Bool.eq_iff_iff]
    simp only [Bool.and_eq_true, beq_iff_eq]
    exact h.before_else
  refine .get ?_
  rw [← hsame]
  split
  · rename_i hnext
    simp only [Bool.and_eq_true, beq_iff_eq] at hnext
    exact .set (.eatLast (h.advance_else hnext.1 hnext.2) (by decide))
  · exact .eatLast h (by decide)

end Block

section Expr

variable [g.Steady]

omit [g.Steady] in
theorem agrees_group (hg : g.Blind blank) (h : Alike blank s t) (hk : s.kind = .openParen) :
    Agrees blank Expr.placeless s t (group g) (group g) := by
  refine .pass h hk (by decide) fun h => .skipNewlines h fun s t h _ => ?_
  refine .seq (hg.expr 0 s t h) fun e e' s t he h => .skipNewlines h fun s t h _ => ?_
  have hdone (u v : ParseState) (h : Alike blank u v) (a b : Span) :
      Agrees blank Expr.placeless u v
        (Parser.previousSpan >>= fun last => pure (e.withSpan (a.merge last)))
        (Parser.previousSpan >>= fun last => pure (e'.withSpan (b.merge last))) :=
    .previousSpan (.pure h (by rw [Expr.placeless_withSpan, Expr.placeless_withSpan, he]))
  exact .eat h (by decide) (fun h => hdone _ _ h _ _) fun _ =>
    .reportHere h fun _ _ _ h => hdone _ _ h _ _

theorem agrees_array (hg : g.Blind blank) (h : Alike blank s t) (hk : s.kind = .openSquare) :
    Agrees blank Expr.placeless s t (array g) (array g) := by
  refine .pass h hk (by decide) fun h => ?_
  refine .seq (agrees_series (by decide) (hg.expr 0) h) fun es es' s t hes h => ?_
  refine .previousSpan (.pure h ?_)
  rw [Expr.placeless, Expr.placeless, placelessExprs_eq, placelessExprs_eq, hes]

theorem agrees_fieldKey (h : Alike blank s t) : Agrees blank id s t fieldKey fieldKey := by
  refine .get ?_
  rw [h.kind_eq]
  split
  · rename_i hk
    simp only [Bool.or_eq_true, beq_iff_eq] at hk
    have hn : s.kind ≠ .newline := by
      rcases hk with hk | hk <;> rw [hk] <;> decide
    exact .advance h (fun _ => hn) fun h' => .pure h' h.text_eq
  · refine .report h fun hb h => ?_
    split
    · exact .advance h (fun hblank => absurd hblank hb) fun h => .pure h rfl
    · exact .pure h rfl

theorem agrees_field (hg : g.Blind blank) (h : Alike blank s t) :
    Agrees blank Field.placeless s t (field g) (field g) := by
  refine .seq (agrees_fieldKey h) fun key key' s t hkey h => ?_
  obtain rfl : key = key' := hkey
  refine .seq (.expect h (by decide)) fun _ _ s t _ h => .skipNewlines h fun s t h _ => ?_
  refine .seq (hg.expr 0 s t h) fun e e' s t he h => .pure h ?_
  rw [Field.placeless_mk, Field.placeless_mk, he]

theorem agrees_object (hg : g.Blind blank) (h : Alike blank s t) (hk : s.kind = .openBrace) :
    Agrees blank Expr.placeless s t (object g) (object g) := by
  refine .pass h hk (by decide) fun h => ?_
  refine .seq (agrees_series (by decide) (fun _ _ => agrees_field hg) h) fun fs fs' s t hfs h => ?_
  refine .previousSpan (.pure h ?_)
  rw [Expr.placeless, Expr.placeless, placelessFields_eq, placelessFields_eq, hfs]

theorem agrees_blockExpr (hg : g.Blind blank) (h : Alike blank s t) :
    Agrees blank Expr.placeless s t (blockExpr g) (blockExpr g) := by
  refine .currentSpan (.seq (agrees_blockBody hg h) fun xs xs' s t hxs h => ?_)
  refine .previousSpan (.pure h ?_)
  rw [Expr.placeless, Expr.placeless, placelessStmts_eq, placelessStmts_eq, hxs]

set_option synthInstance.maxSize 256 in
theorem agrees_condExpr (hg : g.Blind blank) (h : Alike blank s t) (hk : s.kind = .ifKw) :
    Agrees blank Expr.placeless s t (condExpr g) (condExpr g) := by
  refine .pass h hk (by decide) fun h => .seq (hg.expr 0 _ _ h) fun test test' _ _ htest h => ?_
  refine .seq (agrees_blockExpr hg h) fun yes yes' _ _ hyes h => ?_
  -- whatever the other branch is, the phrase is put together in the same way
  have hdone (a b : Span) (no no' : Option Expr) (u v : ParseState)
      (hno : no.map Expr.placeless = no'.map Expr.placeless) (h : Alike blank u v) :
      Agrees blank Expr.placeless u v
        (Parser.previousSpan >>= fun last => pure (Expr.cond (a.merge last) test yes no))
        (Parser.previousSpan >>= fun last => pure (Expr.cond (b.merge last) test' yes' no')) := by
    refine .previousSpan (.pure h ?_)
    rw [Expr.placeless, Expr.placeless, placelessExpr?_eq, placelessExpr?_eq, htest, hyes, hno]
  refine .seq (agrees_eatElse h) fun found found' u v hfound h => ?_
  obtain rfl : found = found' := hfound
  cases found with
  | false => exact .given (hdone _ _ none none u v rfl h)
  | true =>
    refine .check h (fun hif => ?_) fun _ => ?_
    · have hno := Agrees.map (g := Option.map Expr.placeless) (i := some) (hg.cond u v h hif)
        fun _ _ => congrArg some
      exact .seq hno fun no no' u v => hdone _ _ no no' u v
    · have hno := Agrees.map (g := Option.map Expr.placeless) (i := some) (agrees_blockExpr hg h)
        fun _ _ => congrArg some
      exact .seq hno fun no no' u v => hdone _ _ no no' u v

omit [g.Steady] in
theorem agrees_interpolation (hg : g.Blind blank) (h : Alike blank s t) :
    Agrees blank Expr.placeless s t (interpolation g) (interpolation g) := by
  refine .get ?_
  rw [h.kind_eq]
  split
  · rename_i hk
    refine .pass h (beq_iff_eq.1 hk) (by decide) fun h => ?_
    refine .seq (hg.expr 0 _ _ h) fun e e' s t he h => ?_
    exact .eat h (by decide) (fun h => .pure h he) fun _ => .reportHere h fun _ _ _ h => .pure h he
  · split
    · rename_i hk
      refine .pass h (beq_iff_eq.1 hk) (by decide) fun h' => .pure h' ?_
      rw [Expr.placeless, Expr.placeless, h.text_eq]
    · exact .pure h rfl

theorem agrees_formatFrom (hg : g.Blind blank) (rounds : Nat) :
    ∀ (read read' : List Expr) (s t : ParseState),
      read.map Expr.placeless = read'.map Expr.placeless → Alike blank s t →
      Agrees blank (List.map Expr.placeless) s t (formatFrom g rounds read)
        (formatFrom g rounds read') := by
  induction rounds with
  | zero =>
    intro read read' s t hread h
    exact .pure h (map_reverse_congr hread)
  | succ rounds ih =>
    intro read read' s t hread h
    have hdone : read.reverse.map Expr.placeless = read'.reverse.map Expr.placeless :=
      map_reverse_congr hread
    refine .get ?_
    rw [h.kind_eq]
    split
    case h_1 hk =>
      refine .pass h hk (by decide) fun h' => ih _ _ _ _ ?_ h'
      rw [List.map_cons, List.map_cons, Expr.placeless, Expr.placeless, hread, h.text_eq]
    case h_2 hk =>
      refine .pass h hk (by decide) fun h => ?_
      refine .seq (agrees_interpolation hg h) fun e e' s t he h => ih _ _ s t ?_ h
      rw [List.map_cons, List.map_cons, he, hread]
    case h_3 hk => exact .pass h hk (by decide) fun h => .pure h hdone
    case h_4 => exact .pure h hdone
    case h_5 =>
      refine .report h fun hb h => ?_
      exact .advance h (fun hblank => absurd hblank hb) fun h => ih read read' _ _ hread h

theorem agrees_format (hg : g.Blind blank) (h : Alike blank s t) (hk : s.kind = .formatOpen) :
    Agrees blank Expr.placeless s t (format g) (format g) := by
  refine .pass h hk (by decide) fun h => ?_
  refine .seq (agrees_formatFrom hg _ [] [] _ _ rfl h) fun ps ps' s t hps h => ?_
  refine .previousSpan (.pure h ?_)
  rw [Expr.placeless, Expr.placeless, placelessExprs_eq, placelessExprs_eq, hps]

theorem literal?_congr {a b : Token} (hk : a.kind = b.kind) (ht : a.text = b.text) :
    literal? a = literal? b := by
  unfold literal?
  rw [hk, ht]

theorem agrees_primary (hg : g.Blind blank) (h : Alike blank s t) :
    Agrees blank Expr.placeless s t (primary g) (primary g) := by
  refine .get ?_
  rw [h.kind_eq]
  split
  case h_1 hk => exact agrees_group hg h hk
  case h_2 hk => exact agrees_array hg h hk
  case h_3 hk => exact agrees_object hg h hk
  case h_4 hk => exact agrees_condExpr hg h hk
  case h_5 hk => exact agrees_format hg h hk
  case h_6 hk =>
    refine .pass h hk (by decide) fun h' => .pure h' ?_
    rw [Expr.placeless, Expr.placeless, h.text_eq]
  case h_7 =>
    rw [literal?_congr (b := s.current) h.kind_eq h.text_eq.symm]
    split
    · rename_i v hv
      have hn : s.kind ≠ .newline := by
        intro hk
        rw [literal?, show s.current.kind = _ from hk] at hv
        cases hv
      exact .advance h (fun _ => hn) fun h => .pure h rfl
    · refine .report h fun hb h => ?_
      split
      · exact .advance h (fun hblank => absurd hblank hb) fun h => .pure h rfl
      · exact .pure h rfl

theorem agrees_call (hg : g.Blind blank) (h : Alike blank s t) (hk : s.kind = .openParen)
    {callee callee' : Expr} (hc : callee.placeless = callee'.placeless) :
    Agrees blank Expr.placeless s t (call g callee) (call g callee') := by
  refine .pass h hk (by decide) fun h => ?_
  refine .seq (agrees_series (by decide) (hg.expr 0) h) fun es es' s t hes h => ?_
  refine .previousSpan (.pure h ?_)
  rw [Expr.placeless, Expr.placeless, placelessExprs_eq, placelessExprs_eq, hc, hes]

theorem agrees_index (hg : g.Blind blank) (h : Alike blank s t) (hk : s.kind = .openSquare)
    {array array' : Expr} (ha : array.placeless = array'.placeless) :
    Agrees blank Expr.placeless s t (index g array) (index g array') := by
  refine .pass h hk (by decide) fun h => ?_
  refine .seq (agrees_series (by decide) (hg.expr 0) h) fun es es' s t hes h => .previousSpan ?_
  have hlength : es.length = es'.length := by
    simpa using congrArg List.length hes
  have hdone (u v : ParseState) (h : Alike blank u v) (a b c d : Span) :
      Agrees blank Expr.placeless u v (pure (Expr.index a array (es.head?.getD (.nil b))))
        (pure (Expr.index c array' (es'.head?.getD (.nil d)))) := by
    refine .pure h ?_
    rw [Expr.placeless, Expr.placeless, ha]
    cases es with
    | nil =>
      cases es' with
      | nil => rfl
      | cons e' es' => cases hlength
    | cons e es =>
      cases es' with
      | nil => cases hlength
      | cons e' es' => exact congrArg _ (List.cons.inj hes).1
  rw [hlength]
  split
  · exact .report h fun _ h => hdone _ _ h _ _ _ _
  · exact hdone _ _ h _ _ _ _

theorem agrees_operand (hg : g.Blind blank) (h : Alike blank s t) :
    Agrees blank Expr.placeless s t (operand g) (operand g) := by
  refine .kind h ?_
  split
  · rename_i op hop
    have hn : s.kind ≠ .newline := by
      intro hk
      rw [hk] at hop
      cases hop
    refine .advance h (fun _ => hn) fun h => .seq (hg.expr _ _ _ h) fun e e' s t he h => .pure h ?_
    rw [Expr.placeless_unary, Expr.placeless_unary, he]
  · exact agrees_primary hg h

omit [g.Steady] in
theorem placeless_join_congr (l : Link) {a a' b b' : Expr} (ha : a.placeless = a'.placeless)
    (hb : b.placeless = b'.placeless) : (l.join a b).placeless = (l.join a' b').placeless := by
  cases l <;> simp only [Link.join, Expr.placeless, ha, hb]

theorem agrees_climb (hg : g.Blind blank) (floor rounds : Nat) :
    ∀ (left left' : Expr) (s t : ParseState), left.placeless = left'.placeless →
      Alike blank s t →
      Agrees blank Expr.placeless s t (climb g floor rounds left) (climb g floor rounds left') := by
  induction rounds with
  | zero => exact fun left left' s t hleft h => .pure h hleft
  | succ rounds ih =>
    intro left left' s t hleft h
    refine .kind h ?_
    split
    · rename_i hk
      simp only [Bool.and_eq_true, beq_iff_eq, decide_eq_true_eq] at hk
      exact .seq (agrees_call hg h hk.1 hleft) fun e e' s t he h => ih e e' s t he h
    split
    · rename_i hk
      simp only [Bool.and_eq_true, beq_iff_eq, decide_eq_true_eq] at hk
      exact .seq (agrees_index hg h hk.1 hleft) fun e e' s t he h => ih e e' s t he h
    split
    · exact .pure h hleft
    · rename_i link hlink
      split
      · exact .pure h hleft
      have hn : s.kind ≠ .newline := by
        intro hk
        rw [hk] at hlink
        cases hlink
      refine .advance h (fun _ => hn) fun h => .skipNewlines h fun s t h _ => ?_
      refine .seq (hg.expr _ s t h) fun e e' s t he h => ?_
      exact ih _ _ s t (placeless_join_congr link hleft he) h

theorem agrees_expr (hg : g.Blind blank) (h : Alike blank s t) (floor : Nat) :
    Agrees blank Expr.placeless s t (expr g floor) (expr g floor) :=
  .seq (agrees_operand hg h) fun e e' s t he h => agrees_climb hg floor _ e e' s t he h

end Expr

section Stmt

theorem agrees_tyWithin (depth : Nat) : ∀ s t : ParseState, Alike blank s t →
    Agrees blank id s t (tyWithin depth) (tyWithin depth) := by
  induction depth with
  | zero => exact fun s t h => .pure h rfl
  | succ depth ih =>
    intro s t h
    refine .kind h ?_
    split
    case h_1 hk => exact .pass h hk (by decide) fun h' => .pure h' (by rw [h.text_eq])
    case h_2 hk =>
      refine .pass h hk (by decide) fun h => .seq (.expect h (by decide)) fun _ _ s t _ h => ?_
      refine .seq (ih s t h) fun y y' s t hy h => .pure h ?_
      rw [show y = y' from hy]
    case h_3 hk =>
      refine .pass h hk (by decide) fun h => .seq (ih _ _ h) fun y y' s t hy h => .pure h ?_
      rw [show y = y' from hy]
    case h_4 => exact .pure h rfl

/-- a type is read to any depth that is enough for both texts -/
theorem agrees_ty (h : Alike blank s t) : Agrees blank id s t ty ty := by
  have hs := (unhindered h.left.within).ty s (max s.remaining t.remaining) List.suffix_rfl
    (le_max_left _ _)
  have ht := (unhindered h.right.within).ty t (max s.remaining t.remaining) List.suffix_rfl
    (le_max_right _ _)
  have hty := agrees_tyWithin (max s.remaining t.remaining) s t h
  rwa [Agrees, hs, ht] at hty

theorem agrees_name (h : Alike blank s t) (what : String) :
    Agrees blank id s t (name what) (name what) := by
  refine .get ?_
  rw [h.kind_eq]
  split
  · rename_i hk
    exact .pass h (beq_iff_eq.1 hk) (by decide) fun h' => .pure h' h.text_eq
  · refine .report h fun hb h => ?_
    split
    · exact .advance h (fun hblank => absurd hblank hb) fun h => .pure h rfl
    · exact .pure h rfl

theorem agrees_param (h : Alike blank s t) : Agrees blank id s t param param := by
  refine .seq (agrees_name h _) fun n n' s t hn h => .kind h ?_
  obtain rfl : n = n' := hn
  split
  · exact .pure h rfl
  · refine .seq (agrees_ty h) fun y y' s t hy h => .pure h ?_
    rw [show y = y' from hy]

theorem agrees_body (hg : g.Blind blank) (h : Alike blank s t) (construct : String) :
    Agrees blank Stmt.placeless s t (body g construct) (body g construct) := by
  have hmissing (u v : ParseState) (h : Alike blank u v) : Agrees blank Stmt.placeless u v
      (Parser.reportHere (fun s => .missingBody s.previous construct) >>= fun _ =>
        Parser.currentSpan >>= fun place => pure (Stmt.blank place))
      (Parser.reportHere (fun s => .missingBody s.previous construct) >>= fun _ =>
        Parser.currentSpan >>= fun place => pure (Stmt.blank place)) :=
    .reportHere h fun _ _ _ h => .currentSpan (.pure h rfl)
  refine .skipNewlines h fun s t h _ => .check h (fun _ => .given (hmissing s t h)) fun _ => ?_
  exact .seqOption (hg.stmt s t h) hmissing fun x y s t hxy h => .pure h hxy

variable [g.Steady]

set_option synthInstance.maxSize 1024 in
theorem agrees_store (hg : g.Blind blank) (h : Alike blank s t)
    (hk : s.kind = .varKw ∨ s.kind = .letKw ∨ s.kind = .mutKw) :
    Agrees blank Stmt.placeless s t (store g) (store g) := by
  have hn : s.kind ≠ .newline := by
    rcases hk with hk | hk | hk <;> rw [hk] <;> decide
  refine .advance h (fun _ => hn) fun h => .seq (agrees_name h _) fun x x' _ _ hx h => ?_
  obtain rfl : x = x' := hx
  refine .branch (f := id) h (fun _ => .pure h rfl) (fun _ => agrees_ty h) fun y y' _ _ hy h => ?_
  obtain rfl : y = y' := hy
  refine .seq (.expect h (by decide)) fun found found' _ _ hfound h => .kind h ?_
  obtain rfl : found = found' := hfound
  split
  · refine .skipNewlines h fun s t h _ => .seq (hg.expr 0 s t h) fun e e' s t he h => .pure h ?_
    rw [Stmt.placeless, Stmt.placeless, he]
  · exact .currentSpan (.pure h rfl)

theorem agrees_condStmt (hg : g.Blind blank) (h : Alike blank s t) (hk : s.kind = .ifKw) :
    Agrees blank Stmt.placeless s t (condStmt g) (condStmt g) := by
  refine .pass h hk (by decide) fun h => .seq (hg.expr 0 _ _ h) fun test test' _ _ htest h => ?_
  refine .seq (agrees_body hg h _) fun yes yes' _ _ hyes h => ?_
  have hdone (a b : Span) (no no' : Option Stmt) (u v : ParseState)
      (hno : no.map Stmt.placeless = no'.map Stmt.placeless) (h : Alike blank u v) :
      Agrees blank Stmt.placeless u v
        (Parser.previousSpan >>= fun last => pure (Stmt.cond (a.merge last) test yes no))
        (Parser.previousSpan >>= fun last => pure (Stmt.cond (b.merge last) test' yes' no')) := by
    refine .previousSpan (.pure h ?_)
    rw [Stmt.placeless, Stmt.placeless, placelessStmt?_eq, placelessStmt?_eq, htest, hyes, hno]
  refine .seq (agrees_eatElse h) fun found found' u v hfound h => ?_
  obtain rfl : found = found' := hfound
  cases found with
  | false => exact .given (hdone _ _ none none u v rfl h)
  | true =>
    have hno := Agrees.map (g := Option.map Stmt.placeless) (i := some) (agrees_body hg h "else")
      fun _ _ => congrArg some
    exact .seq hno fun no no' u v => hdone _ _ no no' u v

theorem agrees_loop (hg : g.Blind blank) (h : Alike blank s t) (hk : s.kind = .forKw) :
    Agrees blank Stmt.placeless s t (loop g) (loop g) := by
  refine .pass h hk (by decide) fun h => .seq (agrees_name h _) fun x x' _ _ hx h => ?_
  obtain rfl : x = x' := hx
  refine .seq (.expect h (by decide)) fun _ _ _ _ _ h => ?_
  refine .seq (hg.expr 0 _ _ h) fun e e' _ _ he h => ?_
  refine .seq (agrees_body hg h _) fun b b' _ _ hb h => .previousSpan (.pure h ?_)
  rw [Stmt.placeless, Stmt.placeless, he, hb]

theorem agrees_blockStmt (hg : g.Blind blank) (h : Alike blank s t) :
    Agrees blank Stmt.placeless s t (blockStmt g) (blockStmt g) := by
  refine .currentSpan (.seq (agrees_blockBody hg h) fun xs xs' s t hxs h => ?_)
  refine .previousSpan (.pure h ?_)
  rw [Stmt.placeless, Stmt.placeless, placelessStmts_eq, placelessStmts_eq, hxs]

set_option synthInstance.maxSize 1024 in
theorem agrees_function (hg : g.Blind blank) (h : Alike blank s t) (hk : s.kind = .fnKw) :
    Agrees blank Stmt.placeless s t (function g) (function g) := by
  refine .pass h hk (by decide) fun h => .seq (agrees_name h _) fun x x' _ _ hx h => ?_
  obtain rfl : x = x' := hx
  -- the rest of the phrase, whatever was found between the parentheses
  have hrest (a b : Span) (ps ps' : List Param) (u v : ParseState) (hps : ps = ps')
      (h : Alike blank u v) : Agrees blank Stmt.placeless u v
        (Parser.check .openBrace >>= fun found =>
          if found = true then pure none >>= fun y => blockBody g >>= fun xs =>
            Parser.previousSpan >>= fun last => pure (Stmt.function (a.merge last) x ps y xs)
          else ty >>= fun y => blockBody g >>= fun xs =>
            Parser.previousSpan >>= fun last => pure (Stmt.function (a.merge last) x ps y xs))
        (Parser.check .openBrace >>= fun found =>
          if found = true then pure none >>= fun y => blockBody g >>= fun xs =>
            Parser.previousSpan >>= fun last => pure (Stmt.function (b.merge last) x ps' y xs)
          else ty >>= fun y => blockBody g >>= fun xs =>
            Parser.previousSpan >>= fun last => pure (Stmt.function (b.merge last) x ps' y xs)) := by
    subst hps
    refine .branch (f := id) h (fun _ => .pure h rfl) (fun _ => agrees_ty h) fun y y' _ _ hy h => ?_
    obtain rfl : y = y' := hy
    refine .seq (agrees_blockBody hg h) fun xs xs' s t hxs h => .previousSpan (.pure h ?_)
    rw [Stmt.placeless, Stmt.placeless, placelessStmts_eq, placelessStmts_eq, hxs]
  refine .check h (fun ho => ?_) fun _ => ?_
  · refine .pass h ho (by decide) fun h => ?_
    refine .seq (agrees_series (by decide) (fun _ _ => agrees_param) h) fun ps ps' u v hps h => ?_
    exact hrest _ _ ps ps' u v (by simpa using hps) h
  · refine .seq (.expect h (by decide)) fun _ _ u v _ h => ?_
    exact .given (hrest _ _ [] [] u v rfl h)

theorem agrees_phrase {whole : Parser Expr} (hg : g.Blind blank) (h : Alike blank s t)
    (hw : Agrees blank Expr.placeless s t whole whole) :
    Agrees blank (Option.map Stmt.placeless) s t (phrase g whole) (phrase g whole) := by
  have hsome (x y : Stmt) (hxy : x.placeless = y.placeless) :
      (some x).map Stmt.placeless = (some y).map Stmt.placeless := congrArg some hxy
  refine .kind h ?_
  split
  case h_1 => exact .pure h rfl
  case h_2 hk => exact .map (agrees_store hg h (.inl hk)) hsome
  case h_3 hk => exact .map (agrees_store hg h (.inr (.inl hk))) hsome
  case h_4 hk => exact .map (agrees_store hg h (.inr (.inr hk))) hsome
  case h_5 hk => exact .map (agrees_condStmt hg h hk) hsome
  case h_6 hk => exact .map (agrees_loop hg h hk) hsome
  case h_7 => exact .map (agrees_blockStmt hg h) hsome
  case h_8 hk => exact .map (agrees_function hg h hk) hsome
  case h_9 hk => exact .pass h hk (by decide) fun h => .pure h rfl
  case h_10 =>
    refine .seq hw fun e e' s t he h => .pure h ?_
    rw [Option.map_some, Option.map_some, Stmt.placeless_expr, Stmt.placeless_expr, he]

theorem agrees_stmt {whole : Parser Expr} (hg : g.Blind blank) (h : Alike blank s t)
    (hw : ∀ s t, Alike blank s t → Agrees blank Expr.placeless s t whole whole) :
    Agrees blank (Option.map Stmt.placeless) s t (stmt g whole) (stmt g whole) := by
  rw [stmt_eq]
  exact .skipSeparators h fun s t h _ => agrees_phrase hg h (hw s t h)

end Stmt

end Parse

/-- no phrase depends on a place, to whatever depth -/
theorem Grammar.blind_ofDepth (blank : Prop) (depth : Nat) : (ofDepth depth).Blind blank := by
  induction depth with
  | zero =>
    constructor
    case expr => exact fun _ s t h => .currentSpan (.pure h rfl)
    case cond => exact fun s t h _ => .currentSpan (.pure h rfl)
    case stmt => exact fun s t h => .pure h rfl
  | succ depth ih =>
    constructor
    case expr => exact fun floor s t h => Parse.agrees_expr ih h floor
    case cond => exact fun s t h hk => Parse.agrees_condExpr ih h hk
    case stmt => exact fun s t h => Parse.agrees_stmt ih h fun s t h => Parse.agrees_expr ih h 0

namespace Parse

variable {blank : Prop} {s t : ParseState}

theorem agrees_codeFrom {g : Grammar} [g.Steady] (hg : g.Blind blank) (rounds : Nat) :
    ∀ (read read' : Code) (s t : ParseState),
      read.map Stmt.placeless = read'.map Stmt.placeless → Alike blank s t →
      Agrees blank (List.map Stmt.placeless) s t (codeFrom g.stmt rounds read)
        (codeFrom g.stmt rounds read') := by
  induction rounds with
  | zero =>
    intro read read' s t hread h
    exact .pure h (map_reverse_congr hread)
  | succ rounds ih =>
    intro read read' s t hread h
    refine .seqOption (hg.stmt s t h) (fun s t h => .pure h ?_) fun x y s t hxy h =>
      ih (x :: read) (y :: read') s t ?_ h
    · exact map_reverse_congr hread
    · rw [List.map_cons, List.map_cons, hxy, hread]

/-- whole programs are the same, as deep a grammar as is enough for both texts being taken for each -/
theorem agrees_code (h : Alike blank s t) :
    Agrees blank (List.map Stmt.placeless) s t code code := by
  have hs := (unhindered h.left.within).code (max s.remaining t.remaining)
    (max s.remaining t.remaining) (le_max_left _ _) (le_max_left _ _)
  have ht := (unhindered h.right.within).code (max s.remaining t.remaining)
    (max s.remaining t.remaining) (le_max_right _ _) (le_max_right _ _)
  have hcode := agrees_codeFrom (Grammar.blind_ofDepth blank (max s.remaining t.remaining))
    (max s.remaining t.remaining) [] [] s t rfl h
  rwa [Agrees, hs, ht] at hcode

end Parse

end AutoLang
