import AutoLang.Parse.Program
import AutoLang.Proofs.Parse.Cursor
import Mathlib

/-! Every production passes the token it begins with. The productions over two grammars that agree on
shorter texts therefore agree again, and by induction on the number of tokens left every grammar that
is deep enough reads the same. -/

namespace AutoLang

open AutoLang.ParseState (Within)
open AutoLang.Parser

/-- two grammars that read alike where at most `n` tokens are left, and have rounds enough for them;
each of their productions passes a token unless it stands at the end -/
structure Grammar.Agree (all : List Token) (n : Nat) (g g' : Grammar) : Prop where
  rounds : n < g.rounds
  rounds' : n < g'.rounds
  expr : ∀ m ≤ n, ∀ floor, Keeps all m (g.expr floor) (g'.expr floor)
  expr_passes : ∀ m < n, ∀ floor, Passes all m (g.expr floor) (g'.expr floor)
  cond_passes : ∀ m < n, Passes all m g.cond g'.cond
  stmt : ∀ m ≤ n, Keeps all m g.stmt g'.stmt
  stmt_passes : ∀ m < n, Passes all m g.stmt g'.stmt

namespace Parse

variable {all : List Token} {n m : Nat} {g g' : Grammar} {s : ParseState}

section Series

variable {α : Type} {opened : Span} {close : TokenKind} {delimiter : Char} {item item' : Parser α}
  {rounds rounds' : Nat} {x : α} {read : List α}

/-- what a series does after the item `x` -/
def seriesRest (opened : Span) (close : TokenKind) (delimiter : Char) (item : Parser α)
    (rounds : Nat) (x : α) (read : List α) : Parser (List α) := do
  Parser.skipNewlines
  if ← Parser.eat .comma then
    return ← seriesFrom opened close delimiter item rounds (x :: read)
  if ← Parser.eat close then return (x :: read).reverse
  if ← Parser.atEnd then
    Parser.reportHere fun s => .unclosedDelimiter opened s.current.span delimiter
    return (x :: read).reverse
  Parser.reportHere fun s =>
    .expectedToken s.current.span s!"`,` or `{close.name}`" s.current.lexeme
  seriesFrom opened close delimiter item rounds (x :: read)

/-- what a series does where an item begins -/
def seriesItem (opened : Span) (close : TokenKind) (delimiter : Char) (item : Parser α)
    (rounds : Nat) (read : List α) : Parser (List α) := do
  let before ← Parser.currentSpan
  let x ← item
  let s ← get
  if s.current.span == before && s.kind != .comma && s.kind != close then set s.advance
  seriesRest opened close delimiter item rounds x read

theorem seriesFrom_succ : seriesFrom opened close delimiter item (rounds + 1) read = (do
    Parser.skipNewlines
    if ← Parser.eat close then return read.reverse
    if ← Parser.atEnd then
      Parser.reportHere fun s => .unclosedDelimiter opened s.current.span delimiter
      return read.reverse
    seriesItem opened close delimiter item rounds read) := rfl

theorem keeps_seriesRest
    (hrec : Keeps all m (seriesFrom opened close delimiter item rounds (x :: read))
      (seriesFrom opened close delimiter item' rounds' (x :: read))) :
    Keeps all m (seriesRest opened close delimiter item rounds x read)
      (seriesRest opened close delimiter item' rounds' x read) := by
  refine keeps_skipNewlines.bind fun _ => (keeps_eat _).bind fun comma => ?_
  refine Keeps.ite hrec ((keeps_eat _).bind fun closed => ?_)
  refine Keeps.ite (keeps_pure _) ((keeps_check _).bind fun ended => ?_)
  refine Keeps.ite ((keeps_reportHere _).bind fun _ => keeps_pure _) ?_
  exact (keeps_reportHere _).bind fun _ => hrec

/-- at a comma or at the end of the series the token is passed -/
theorem meets_seriesRest (hs : s.Within all (m + 1)) (hc : close ≠ .newline) (he : close ≠ .eof)
    (hk : s.kind = .comma ∨ s.kind = close)
    (hrec : Keeps all m (seriesFrom opened close delimiter item rounds (x :: read))
      (seriesFrom opened close delimiter item' rounds' (x :: read))) :
    Meets all (m + 1) s (seriesRest opened close delimiter item rounds x read)
      (seriesRest opened close delimiter item' rounds' x read) := by
  have hne : s.kind ≠ .eof := by
    rcases hk with h | h <;> rw [h]
    · decide
    · exact he
  have hstay : s.skip (· == .newline) = s := by
    refine ParseState.skip_of_not ?_
    rcases hk with h | h <;> rw [h]
    · decide
    · simpa using hc
  have hpass := hs.pass hne
  unfold seriesRest
  refine Meets.skipNewlines (hstay.symm ▸ Meets.eat (fun _ => ?_) fun hcomma => ?_)
  · exact (hrec _ hpass).mono (Nat.le_succ m)
  · have hclose := hk.resolve_left hcomma
    exact Meets.eat (fun _ => ⟨rfl, hs.advance⟩) fun hopen => absurd hclose hopen

/-- a parser that leaves as many tokens as before stays where it was -/
theorem within_or_tokens_eq {p q : Parser α} (hs : s.Within all (m + 1))
    (hp : ∀ k ≤ m + 1, Keeps all k p q) :
    (p.run s).2.Within all m ∨ (p.run s).2.tokens = s.tokens := by
  have hafter := (hp (m + 1) le_rfl s hs).2
  by_cases hm : s.remaining ≤ m
  · exact .inl (hp m (Nat.le_succ m) s ⟨hs.ends, hs.suffix, hm⟩).2
  · by_cases hm' : (p.run s).2.remaining ≤ m
    · exact .inl ⟨hs.ends, hafter.suffix, hm'⟩
    · refine .inr (hafter.tokens_eq hs ?_)
      have := hs.bound
      have := hafter.bound
      omega

/-- an item that reads nothing stands before a comma or the end of the series, or is passed over -/
theorem meets_seriesItem (hs : s.Within all (m + 1)) (hc : close ≠ .newline) (he : close ≠ .eof)
    (hk : s.kind ≠ .eof) (hitem : ∀ k ≤ m + 1, Keeps all k item item')
    (hrec : ∀ x, Keeps all m (seriesFrom opened close delimiter item rounds (x :: read))
      (seriesFrom opened close delimiter item' rounds' (x :: read))) :
    Meets all (m + 1) s (seriesItem opened close delimiter item rounds read)
      (seriesItem opened close delimiter item' rounds' read) := by
  obtain ⟨hsame, hafter⟩ := hitem (m + 1) le_rfl s hs
  have hplace := within_or_tokens_eq hs hitem
  refine Meets.currentSpan (Meets.seq hsame (Meets.get ?_))
  generalize (item.run s).2 = t at hafter hplace
  generalize (item.run s).1 = x
  have hshort : t.Within all m → ∀ s', s'.tokens <:+ t.tokens →
      Meets all (m + 1) s' (seriesRest opened close delimiter item rounds x read)
        (seriesRest opened close delimiter item' rounds' x read) := by
    intro ht s' hsuf
    exact (keeps_seriesRest (hrec x) s' (ht.of_suffix hsuf)).mono (Nat.le_succ m)
  split
  · refine Meets.set ?_
    rcases hplace with ht | ht
    · exact hshort ht t.advance (ParseState.tokens_advance t)
    · have hkt : t.kind ≠ .eof := by
        rw [ParseState.kind, (List.cons.inj ht).1]
        exact hk
      exact (keeps_seriesRest (hrec x) _ (hafter.pass hkt)).mono (Nat.le_succ m)
  · rename_i hcond
    rcases hplace with ht | ht
    · exact hshort ht t List.suffix_rfl
    · refine meets_seriesRest hafter hc he ?_ (hrec x)
      rw [(List.cons.inj ht).1] at hcond
      by_contra hneither
      simp_all

theorem keeps_seriesFrom (hc : close ≠ .newline) (he : close ≠ .eof) (m : Nat) :
    ∀ rounds rounds' read, m ≤ rounds → m ≤ rounds' → (∀ k ≤ m, Keeps all k item item') →
      Keeps all m (seriesFrom opened close delimiter item rounds read)
        (seriesFrom opened close delimiter item' rounds' read) := by
  induction m with
  | zero => exact fun _ _ _ _ _ _ s hs => absurd hs s.not_within_zero
  | succ m ih =>
    intro rounds rounds' read hr hr' hitem
    obtain ⟨rounds, rfl⟩ := Nat.exists_eq_add_of_le' (Nat.one_le_of_lt hr)
    obtain ⟨rounds', rfl⟩ := Nat.exists_eq_add_of_le' (Nat.one_le_of_lt hr')
    rw [seriesFrom_succ, seriesFrom_succ]
    refine keeps_skipNewlines.bind fun _ => (keeps_eat _).bind fun closed => ?_
    refine Keeps.ite (keeps_pure _) fun s hs => ?_
    refine Meets.check (fun _ => ?_) fun hk => ?_
    · exact ((keeps_reportHere _).bind fun _ => keeps_pure _) s hs
    · refine meets_seriesItem hs hc he hk hitem fun x => ?_
      exact ih rounds rounds' (x :: read) (by omega) (by omega) fun k hkm => hitem k (by omega)

end Series

/-- a closing token of a series -/
theorem keeps_series {α : Type} {item item' : Parser α} {opened : Span} {close : TokenKind}
    {delimiter : Char} (hg : g.Agree all n g') (hm : m ≤ n) (hc : close ≠ .newline)
    (he : close ≠ .eof) (hitem : ∀ k ≤ m, Keeps all k item item') :
    Keeps all m (series g opened close delimiter item) (series g' opened close delimiter item') :=
  keeps_seriesFrom hc he m _ _ _ (by have := hg.rounds; omega) (by have := hg.rounds'; omega) hitem

section Block

theorem keeps_blockFrom {opened : Span} {stmt stmt' : Parser (Option Stmt)} (m : Nat) :
    ∀ rounds rounds' read, m ≤ rounds → m ≤ rounds' → (∀ k < m, Passes all k stmt stmt') →
      Keeps all m (blockFrom stmt opened rounds read) (blockFrom stmt' opened rounds' read) := by
  induction m with
  | zero => exact fun _ _ _ _ _ _ s hs => absurd hs s.not_within_zero
  | succ m ih =>
    intro rounds rounds' read hr hr' hstmt
    obtain ⟨rounds, rfl⟩ := Nat.exists_eq_add_of_le' (Nat.one_le_of_lt hr)
    obtain ⟨rounds', rfl⟩ := Nat.exists_eq_add_of_le' (Nat.one_le_of_lt hr')
    have hrec (read : List Stmt) := ih rounds rounds' read (by omega) (by omega)
      fun k hk => hstmt k (by omega)
    refine keeps_skipSeparators.bind fun _ => (keeps_eat _).bind fun closed => ?_
    refine Keeps.ite (keeps_pure _) fun s hs => Meets.check (fun _ => ?_) fun hk => ?_
    · exact ((keeps_reportHere _).bind fun _ => keeps_pure _) s hs
    · refine (((hstmt m (Nat.lt_succ_self m)).bind fun read? => ?_) s hs hk).mono (Nat.le_succ m)
      cases read? with
      | some s => exact hrec (s :: read)
      | none => exact hrec read

theorem keeps_blockBody (hg : g.Agree all n g') (hm : m ≤ n) :
    Keeps all m (blockBody g) (blockBody g') := by
  refine keeps_currentSpan.bind fun opened => (keeps_expect _).bind fun found => ?_
  refine Keeps.ite ?_ (keeps_pure _)
  exact keeps_blockFrom m _ _ _ (by have := hg.rounds; omega) (by have := hg.rounds'; omega)
    fun k hk => hg.stmt_passes k (by omega)

theorem keeps_eatElse : Keeps all m eatElse eatElse := by
  intro s hs
  refine Meets.get ?_
  split
  · exact Meets.set (keeps_eat _ _ hs.advance)
  · exact keeps_eat _ _ hs

end Block

section Expr

theorem passes_group (hg : g.Agree all n g') (hm : m ≤ n) :
    Passes all m (group g) (group g') := by
  refine passes_advance.bind fun opened => keeps_skipNewlines.bind fun _ => ?_
  refine (hg.expr m hm 0).bind fun e => keeps_skipNewlines.bind fun _ => ?_
  refine (keeps_eat _).bind fun closed => Keeps.reportUnless ?_
  exact keeps_previousSpan.bind fun _ => keeps_pure _

theorem passes_array (hg : g.Agree all n g') (hm : m ≤ n) :
    Passes all m (array g) (array g') := by
  refine passes_advance.bind fun opened => ?_
  refine (keeps_series hg hm (by decide) (by decide) fun k hk => ?_).bind fun items => ?_
  · exact hg.expr k (hk.trans hm) 0
  · exact keeps_previousSpan.bind fun _ => keeps_pure _

theorem keeps_fieldKey : Keeps all m fieldKey fieldKey := by
  intro s hs
  refine Meets.get ?_
  split
  · exact (keeps_advance.bind fun _ => keeps_pure _) s hs
  · refine ((keeps_report _).bind fun _ => ?_) s hs
    exact Keeps.ite (keeps_advance.bind fun _ => keeps_pure _) (keeps_pure _)

theorem keeps_field (hg : g.Agree all n g') (hm : m ≤ n) : Keeps all m (field g) (field g') := by
  refine keeps_fieldKey.bind fun key => (keeps_expect _).bind fun _ => ?_
  exact keeps_skipNewlines.bind fun _ => (hg.expr m hm 0).bind fun e => keeps_pure _

theorem passes_object (hg : g.Agree all n g') (hm : m ≤ n) :
    Passes all m (object g) (object g') := by
  refine passes_advance.bind fun opened => ?_
  refine (keeps_series hg hm (by decide) (by decide) fun k hk => ?_).bind fun items => ?_
  · exact keeps_field hg (hk.trans hm)
  · exact keeps_previousSpan.bind fun _ => keeps_pure _

theorem keeps_blockExpr (hg : g.Agree all n g') (hm : m ≤ n) :
    Keeps all m (blockExpr g) (blockExpr g') := by
  refine keeps_currentSpan.bind fun start => (keeps_blockBody hg hm).bind fun body => ?_
  exact keeps_previousSpan.bind fun _ => keeps_pure _

theorem passes_condExpr (hg : g.Agree all n g') (hm : m ≤ n) :
    Passes all m (condExpr g) (condExpr g') := by
  have hdone (start : Token) (test yes : Expr) (no : Option Expr) : Keeps all m
      (do return Expr.cond (start.span.merge (← Parser.previousSpan)) test yes no)
      (do return Expr.cond (start.span.merge (← Parser.previousSpan)) test yes no) :=
    keeps_previousSpan.bind fun _ => keeps_pure _
  refine passes_advance.bind fun start => (hg.expr m hm 0).bind fun test => ?_
  refine (keeps_blockExpr hg hm).bind fun yes => keeps_eatElse.bind fun again => ?_
  refine Keeps.ite (fun s hs => ?_) ((keeps_pure _).bind (hdone start test yes))
  -- only at its keyword is a conditional expression known to pass a token
  refine Meets.check (fun hk => ?_) fun _ => ?_
  · refine Meets.bind (Meets.of_passes (fun k hkm => ?_) hs (by rw [hk]; decide)) fun no => ?_
    · exact (hg.cond_passes k (by omega)).map
    · exact hdone start test yes no
  · exact ((keeps_blockExpr hg hm).map.bind (hdone start test yes)) s hs

theorem keeps_interpolation (hg : g.Agree all n g') (hm : m ≤ n) :
    Keeps all m (interpolation g) (interpolation g') := by
  intro s hs
  refine Meets.get ?_
  split
  · refine (keeps_advance.bind fun opened => (hg.expr m hm 0).bind fun e => ?_) s hs
    exact (keeps_eat _).bind fun closed => Keeps.reportUnless (keeps_pure e)
  · exact (Keeps.ite (keeps_advance.bind fun _ => keeps_pure _) (keeps_pure _)) s hs

theorem keeps_formatFrom (hg : g.Agree all n g') (m : Nat) :
    ∀ rounds rounds' read, m ≤ rounds → m ≤ rounds' → m ≤ n →
      Keeps all m (formatFrom g rounds read) (formatFrom g' rounds' read) := by
  induction m with
  | zero => exact fun _ _ _ _ _ _ s hs => absurd hs s.not_within_zero
  | succ m ih =>
    intro rounds rounds' read hr hr' hm s hs
    obtain ⟨rounds, rfl⟩ := Nat.exists_eq_add_of_le' (Nat.one_le_of_lt hr)
    obtain ⟨rounds', rfl⟩ := Nat.exists_eq_add_of_le' (Nat.one_le_of_lt hr')
    have hrec (read : List Expr) := ih rounds rounds' read (by omega) (by omega) (by omega)
    refine Meets.get ?_
    split
    case h_1 hk =>
      exact ((passes_advance.bind fun t => hrec _) s hs (by rw [hk]; decide)).mono (Nat.le_succ m)
    case h_2 hk =>
      refine ((passes_advance.bind fun _ => ?_) s hs (by rw [hk]; decide)).mono (Nat.le_succ m)
      exact (keeps_interpolation hg (by omega)).bind fun e => hrec (e :: read)
    case h_3 => exact (keeps_advance.bind fun _ => keeps_pure _) s hs
    case h_4 => exact keeps_pure _ s hs
    case h_5 hk =>
      refine Meets.report ?_
      exact ((passes_advance.bind fun _ => hrec read) _ (hs.report _) hk).mono (Nat.le_succ m)

theorem passes_format (hg : g.Agree all n g') (hm : m ≤ n) :
    Passes all m (format g) (format g') := by
  refine passes_advance.bind fun start => ?_
  refine (keeps_formatFrom hg m _ _ _ ?_ ?_ hm).bind fun parts => ?_
  · exact (hm.trans_lt hg.rounds).le
  · exact (hm.trans_lt hg.rounds').le
  · exact keeps_previousSpan.bind fun _ => keeps_pure _

theorem passes_primary (hg : g.Agree all n g') (hm : m ≤ n) :
    Passes all m (primary g) (primary g') := by
  intro s hs hk
  refine Meets.get ?_
  split
  case h_1 => exact passes_group hg hm s hs hk
  case h_2 => exact passes_array hg hm s hs hk
  case h_3 => exact passes_object hg hm s hs hk
  case h_4 => exact passes_condExpr hg hm s hs hk
  case h_5 => exact passes_format hg hm s hs hk
  case h_6 => exact (passes_advance.bind fun _ => keeps_pure _) s hs hk
  case h_7 =>
    split
    · exact (passes_advance.bind fun _ => keeps_pure _) s hs hk
    · refine Meets.report ?_
      rw [if_pos (by simpa using hk)]
      exact (passes_advance.bind fun _ => keeps_pure _) _ (hs.report _) hk

theorem keeps_primary (hg : g.Agree all n g') (hm : m ≤ n + 1) :
    Keeps all m (primary g) (primary g') := by
  intro s hs
  by_cases hk : s.kind = .eof
  · refine Meets.get ?_
    rw [hk]
    dsimp only
    split
    · exact (keeps_advance.bind fun _ => keeps_pure _) s hs
    · exact ((keeps_report _).bind fun _ => keeps_pure _) s hs
  · exact Meets.of_passes (fun k hkm => passes_primary hg (by omega)) hs hk

theorem passes_call (hg : g.Agree all n g') (hm : m ≤ n) (callee : Expr) :
    Passes all m (call g callee) (call g' callee) := by
  refine passes_advance.bind fun opened => ?_
  refine (keeps_series hg hm (by decide) (by decide) fun k hk => ?_).bind fun args => ?_
  · exact hg.expr k (hk.trans hm) 0
  · exact keeps_previousSpan.bind fun _ => keeps_pure _

theorem passes_index (hg : g.Agree all n g') (hm : m ≤ n) (array : Expr) :
    Passes all m (index g array) (index g' array) := by
  refine passes_advance.bind fun opened => ?_
  refine (keeps_series hg hm (by decide) (by decide) fun k hk => ?_).bind fun items => ?_
  · exact hg.expr k (hk.trans hm) 0
  · refine keeps_previousSpan.bind fun closed => ?_
    exact Keeps.ite ((keeps_report _).bind fun _ => keeps_pure _) (keeps_pure _)

theorem passes_operand (hg : g.Agree all n g') (hm : m ≤ n) :
    Passes all m (operand g) (operand g') := by
  intro s hs hk
  refine Meets.kind ?_
  split
  · refine (passes_advance.bind fun start => ?_) s hs hk
    exact (hg.expr m hm signLevel).bind fun e => keeps_pure _
  · exact passes_primary hg hm s hs hk

theorem keeps_operand (hg : g.Agree all n g') (hm : m ≤ n + 1) :
    Keeps all m (operand g) (operand g') := by
  intro s hs
  by_cases hk : s.kind = .eof
  · refine Meets.kind ?_
    rw [hk]
    exact keeps_primary hg hm s hs
  · exact Meets.of_passes (fun k hkm => passes_operand hg (by omega)) hs hk

theorem keeps_climb (hg : g.Agree all n g') (floor : Nat) (m : Nat) :
    ∀ rounds rounds' left, m ≤ rounds → m ≤ rounds' → m ≤ n + 1 →
      Keeps all m (climb g floor rounds left) (climb g' floor rounds' left) := by
  induction m with
  | zero => exact fun _ _ _ _ _ _ s hs => absurd hs s.not_within_zero
  | succ m ih =>
    intro rounds rounds' left hr hr' hm s hs
    obtain ⟨rounds, rfl⟩ := Nat.exists_eq_add_of_le' (Nat.one_le_of_lt hr)
    obtain ⟨rounds', rfl⟩ := Nat.exists_eq_add_of_le' (Nat.one_le_of_lt hr')
    have hrec (left : Expr) := ih rounds rounds' left (by omega) (by omega) (by omega)
    refine Meets.kind ?_
    split
    case isTrue hc =>
      have hk : s.kind ≠ .eof := by
        intro h
        simp [h] at hc
      exact (((passes_call hg (by omega) left).bind fun e => hrec e) s hs hk).mono (Nat.le_succ m)
    case isFalse =>
      split
      case isTrue hc =>
        have hk : s.kind ≠ .eof := by
          intro h
          simp [h] at hc
        exact (((passes_index hg (by omega) left).bind fun e => hrec e) s hs hk).mono
          (Nat.le_succ m)
      case isFalse =>
        split
        · exact keeps_pure _ s hs
        · rename_i link hl
          have hk : s.kind ≠ .eof := by
            intro h
            rw [h] at hl
            cases hl
          split
          · exact keeps_pure _ s hs
          · refine ((passes_advance.bind fun _ => ?_) s hs hk).mono (Nat.le_succ m)
            refine keeps_skipNewlines.bind fun _ => ?_
            exact (hg.expr m (by omega) _).bind fun right => hrec _

theorem keeps_expr (hg : g.Agree all n g') (hm : m ≤ n + 1) (floor : Nat) :
    Keeps all m (expr g floor) (expr g' floor) :=
  (keeps_operand hg hm).bind fun left => keeps_climb hg floor m _ _ left
    (hm.trans hg.rounds) (hm.trans hg.rounds') hm

theorem passes_expr (hg : g.Agree all n g') (hm : m ≤ n) (floor : Nat) :
    Passes all m (expr g floor) (expr g' floor) :=
  (passes_operand hg hm).bind fun left => keeps_climb hg floor m _ _ left
    (hm.trans hg.rounds.le) (hm.trans hg.rounds'.le) (hm.trans (Nat.le_succ n))

end Expr

section Stmt

theorem keeps_tyWithin (m : Nat) :
    ∀ depth depth', m ≤ depth → m ≤ depth' → Keeps all m (tyWithin depth) (tyWithin depth') := by
  induction m with
  | zero => exact fun _ _ _ _ s hs => absurd hs s.not_within_zero
  | succ m ih =>
    intro depth depth' hd hd' s hs
    obtain ⟨depth, rfl⟩ := Nat.exists_eq_add_of_le' (Nat.one_le_of_lt hd)
    obtain ⟨depth', rfl⟩ := Nat.exists_eq_add_of_le' (Nat.one_le_of_lt hd')
    have hrec := ih depth depth' (by omega) (by omega)
    refine Meets.kind ?_
    split
    case h_1 => exact (keeps_advance.bind fun _ => keeps_pure _) s hs
    case h_2 hk =>
      refine ((passes_advance.bind fun _ => ?_) s hs (by rw [hk]; decide)).mono (Nat.le_succ m)
      exact (keeps_expect _).bind fun _ => hrec.bind fun _ => keeps_pure _
    case h_3 hk =>
      refine ((passes_advance.bind fun _ => ?_) s hs (by rw [hk]; decide)).mono (Nat.le_succ m)
      exact hrec.bind fun _ => keeps_pure _
    case h_4 => exact keeps_pure _ s hs

theorem keeps_ty : Keeps all m ty ty := by
  intro s hs
  refine Meets.get ((keeps_tyWithin s.remaining _ _ le_rfl le_rfl s ?_).mono hs.bound)
  exact ⟨hs.ends, hs.suffix, le_rfl⟩

theorem keeps_name (what : String) : Keeps all m (name what) (name what) := by
  intro s hs
  refine Meets.get ?_
  split
  · exact (keeps_advance.bind fun _ => keeps_pure _) s hs
  · refine ((keeps_report _).bind fun _ => ?_) s hs
    exact Keeps.ite (keeps_advance.bind fun _ => keeps_pure _) (keeps_pure _)

theorem keeps_body (hg : g.Agree all n g') (hm : m ≤ n) (construct : String) :
    Keeps all m (body g construct) (body g' construct) := by
  refine keeps_skipNewlines.bind fun _ => (keeps_check _).bind fun closed => ?_
  refine Keeps.branch (keeps_pure none) (hg.stmt m hm) fun found => ?_
  cases found with
  | some s => exact keeps_pure s
  | none => exact (keeps_reportHere _).bind fun _ => keeps_currentSpan.bind fun _ => keeps_pure _

theorem passes_store (hg : g.Agree all n g') (hm : m ≤ n) :
    Passes all m (store g) (store g') := by
  refine passes_advance.bind fun start => (keeps_name _).bind fun n => ?_
  refine (keeps_check _).bind fun plain => Keeps.branch (keeps_pure none) keeps_ty fun t => ?_
  refine (keeps_expect _).bind fun assigned => keeps_kind.bind fun k => Keeps.ite ?_ ?_
  · exact keeps_skipNewlines.bind fun _ => (hg.expr m hm 0).bind fun e => keeps_pure _
  · exact keeps_currentSpan.bind fun _ => (keeps_pure _).bind fun e => keeps_pure _

theorem passes_condStmt (hg : g.Agree all n g') (hm : m ≤ n) :
    Passes all m (condStmt g) (condStmt g') := by
  refine passes_advance.bind fun start => (hg.expr m hm 0).bind fun test => ?_
  refine (keeps_body hg hm _).bind fun yes => keeps_eatElse.bind fun again => ?_
  refine Keeps.branch (keeps_body hg hm _).map (keeps_pure none) fun no => ?_
  exact keeps_previousSpan.bind fun _ => keeps_pure _

theorem passes_loop (hg : g.Agree all n g') (hm : m ≤ n) :
    Passes all m (loop g) (loop g') := by
  refine passes_advance.bind fun start => (keeps_name _).bind fun n => ?_
  refine (keeps_expect _).bind fun _ => (hg.expr m hm 0).bind fun source => ?_
  exact (keeps_body hg hm _).bind fun b => keeps_previousSpan.bind fun _ => keeps_pure _

/-- a block passes the brace it begins with -/
theorem meets_blockStmt (hg : g.Agree all n g') (hm : m ≤ n) (hs : s.Within all (m + 1))
    (hk : s.kind = .openBrace) : Meets all m s (blockStmt g) (blockStmt g') := by
  refine Meets.currentSpan (Meets.bind (k := m) ?_ ?_)
  · refine Meets.currentSpan ((Meets.expect hs hk (by decide)).bind fun found => Keeps.ite ?_ ?_)
    · exact keeps_blockFrom m _ _ _ (hm.trans hg.rounds.le) (hm.trans hg.rounds'.le)
        fun k hk => hg.stmt_passes k (hk.trans_le hm)
    · exact keeps_pure _
  · exact fun b => keeps_previousSpan.bind fun _ => keeps_pure _

theorem keeps_param : Keeps all m param param := by
  refine (keeps_name _).bind fun n => keeps_kind.bind fun k => ?_
  exact Keeps.ite (keeps_pure _) (keeps_ty.bind fun _ => keeps_pure _)

theorem passes_function (hg : g.Agree all n g') (hm : m ≤ n) :
    Passes all m (function g) (function g') := by
  have hrest (start : Token) (n : String) (params : List Param) : Keeps all m
      (do
        let result ← if ← Parser.check .openBrace then pure none else ty
        let b ← blockBody g
        return Stmt.function (start.span.merge (← Parser.previousSpan)) n params result b)
      (do
        let result ← if ← Parser.check .openBrace then pure none else ty
        let b ← blockBody g'
        return Stmt.function (start.span.merge (← Parser.previousSpan)) n params result b) := by
    refine (keeps_check _).bind fun plain => Keeps.branch (keeps_pure none) keeps_ty fun t => ?_
    exact (keeps_blockBody hg hm).bind fun b => keeps_previousSpan.bind fun _ => keeps_pure _
  refine passes_advance.bind fun start => (keeps_name _).bind fun n => ?_
  refine (keeps_check _).bind fun opens => Keeps.ite (keeps_advance.bind fun opened => ?_) ?_
  · refine (keeps_series hg hm (by decide) (by decide) fun k _ => keeps_param).bind fun params => ?_
    exact hrest start n params
  · exact (keeps_expect _).bind fun _ => (keeps_pure _).bind fun params => hrest start n params

/-- what a statement is after the separators before it -/
def phrase (g : Grammar) (whole : Parser Expr) : Parser (Option Stmt) := do
  match ← Parser.kind with
  | .eof => return none
  | .varKw | .letKw | .mutKw => some <$> store g
  | .ifKw => some <$> condStmt g
  | .forKw => some <$> loop g
  | .openBrace => some <$> blockStmt g
  | .fnKw => some <$> function g
  | .breakKw => return some (.leave (← Parser.advance).span)
  | _ =>
    let e ← whole
    return some (.expr e.span e)

theorem stmt_eq (g : Grammar) (whole : Parser Expr) :
    stmt g whole = (do Parser.skipSeparators; phrase g whole) := rfl

theorem passes_phrase {whole whole' : Parser Expr} (hg : g.Agree all n g') (hm : m ≤ n)
    (hw : Passes all m whole whole') : Passes all m (phrase g whole) (phrase g' whole') := by
  intro s hs hk
  refine Meets.kind ?_
  split
  case h_1 he => exact absurd he hk
  case h_2 => exact (passes_store hg hm).map s hs hk
  case h_3 => exact (passes_store hg hm).map s hs hk
  case h_4 => exact (passes_store hg hm).map s hs hk
  case h_5 => exact (passes_condStmt hg hm).map s hs hk
  case h_6 => exact (passes_loop hg hm).map s hs hk
  case h_7 ho => exact (meets_blockStmt hg hm hs ho).bind fun b => keeps_pure _
  case h_8 => exact (passes_function hg hm).map s hs hk
  case h_9 => exact (passes_advance.bind fun _ => keeps_pure _) s hs hk
  case h_10 => exact (hw.bind fun e => keeps_pure _) s hs hk

theorem keeps_phrase {whole whole' : Parser Expr} (hg : g.Agree all n g') (hm : m ≤ n + 1)
    (hw : ∀ k < m, Passes all k whole whole') :
    Keeps all m (phrase g whole) (phrase g' whole') := by
  intro s hs
  by_cases hk : s.kind = .eof
  · refine Meets.kind ?_
    rw [hk]
    exact keeps_pure none s hs
  · exact Meets.of_passes (fun k hkm => passes_phrase hg (by omega) (hw k hkm)) hs hk

theorem keeps_stmt {whole whole' : Parser Expr} (hg : g.Agree all n g') (hm : m ≤ n + 1)
    (hw : ∀ k < m, Passes all k whole whole') : Keeps all m (stmt g whole) (stmt g' whole') :=
  keeps_skipSeparators.bind fun _ => keeps_phrase hg hm hw

theorem passes_stmt {whole whole' : Parser Expr} (hg : g.Agree all n g') (hm : m ≤ n)
    (hw : ∀ k ≤ m, Passes all k whole whole') : Passes all m (stmt g whole) (stmt g' whole') := by
  intro s hs hk
  rw [stmt_eq, stmt_eq]
  refine Meets.skipSeparators ?_
  cases hsep : s.kind == .newline || s.kind == .semicolon with
  | true =>
    exact keeps_phrase hg (by omega) (fun k hkm => hw k hkm.le) _ (hs.skip_pass hk hsep)
  | false =>
    rw [ParseState.skip_of_not hsep]
    exact passes_phrase hg hm (hw m le_rfl) s hs hk

end Stmt

end Parse

namespace Grammar

/-- grammars with a level for each token agree: the bounds of neither are reached -/
theorem agree_ofDepth (all : List Token) (n : Nat) :
    ∀ d d', n ≤ d → n ≤ d' → (ofDepth d).Agree all n (ofDepth d') := by
  induction n with
  | zero =>
    intro d d' _ _
    refine ⟨?_, ?_, ?_, by omega, by omega, ?_, by omega⟩
    · cases d <;> simp [ofDepth]
    · cases d' <;> simp [ofDepth]
    · intro m hm floor s hs
      exact absurd (hs.mono hm) s.not_within_zero
    · intro m hm s hs
      exact absurd (hs.mono hm) s.not_within_zero
  | succ n ih =>
    intro d d' hd hd'
    obtain ⟨d, rfl⟩ := Nat.exists_eq_add_of_le' (Nat.one_le_of_lt hd)
    obtain ⟨d', rfl⟩ := Nat.exists_eq_add_of_le' (Nat.one_le_of_lt hd')
    have hg := ih d d' (by omega) (by omega)
    constructor
    case rounds => simp only [ofDepth]; omega
    case rounds' => simp only [ofDepth]; omega
    case expr => exact fun m hm floor => Parse.keeps_expr hg hm floor
    case expr_passes => exact fun m hm floor => Parse.passes_expr hg (by omega) floor
    case cond_passes => exact fun m hm => Parse.passes_condExpr hg (by omega)
    case stmt => exact fun m hm => Parse.keeps_stmt hg hm fun k hk =>
        Parse.passes_expr hg (by omega) 0
    case stmt_passes => exact fun m hm => Parse.passes_stmt hg (by omega) fun k hk =>
        Parse.passes_expr hg (by omega) 0

end Grammar

end AutoLang
