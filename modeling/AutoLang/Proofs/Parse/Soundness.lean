import AutoLang.Proofs.Parse.Silence
import Mathlib

/-! What the productions read. If nothing was reported the tokens that a production passed derive what
it returns: none was left out, none was passed twice, and nothing was made up. The branches that make
up for a mistake are gone, as each of them reports it. A grammar as deep as the text is long reads all
of it this way. -/

namespace AutoLang

open AutoLang.ParseState (Moved Ready)
open AutoLang.Parser (Gives Takes Steady)

/-- a statement that was found with the separators before it, or only separators up to the end -/
def Found (t : ParseState) : Option Stmt → List Token → Prop
  | some x, ts => Derives (.body x) ts
  | none, ts => Separators ts ∧ t.kind = .eof

/-- behind the separators a statement is missing only at the end -/
theorem Found.exists_some {s t : ParseState} {found : Option Stmt} {ts : List Token}
    (hk : s.kind ≠ .eof) (hsep : (s.kind == .newline || s.kind == .semicolon) = false)
    (m : s.Moved ts t) (h : Found t found ts) : ∃ x, found = some x := by
  cases found with
  | some x => exact ⟨x, rfl⟩
  | none =>
    obtain ⟨hts, heof⟩ := h
    cases ts with
    | nil => exact absurd ((congrArg Token.kind (List.cons.inj m.tokens).1).trans heof) hk
    | cons u us =>
      have hu := hts u List.mem_cons_self
      rw [← (List.cons.inj m.tokens).1] at hu
      simp only [Bool.or_eq_false_iff, beq_eq_false_iff_ne] at hsep
      exact absurd hu (not_or.2 hsep)

/-- where at most `n` tokens are left, the tokens that a phrase of the grammar passes derive it -/
structure Grammar.Sound (n : Nat) (g : Grammar) : Prop where
  rounds : n < g.rounds
  expr : ∀ floor s, s.Ready n → Takes s (g.expr floor) fun e ts => Derives (.expr e) ts
  cond : ∀ s, s.Ready n → s.kind = .ifKw → Takes s g.cond fun e ts => Derives (.choice e) ts
  stmt : ∀ s, s.Ready n → Gives s g.stmt fun x t => ∃ ts, s.Moved ts t ∧ Found t x ts

namespace Parse

variable {g : Grammar} {n : Nat} {s : ParseState}

/-- the first token is passed -/
theorem moved_first {k : TokenKind} (hs : s.Ready n) (hk : s.kind = k) (he : k ≠ .eof) :
    s.Moved [s.current] s.advance :=
  hs.advance (hk ▸ he)

theorem ready_first {k : TokenKind} (hs : s.Ready (n + 1)) (hk : s.kind = k) (he : k ≠ .eof) :
    s.advance.Ready n :=
  hs.passed (moved_first hs hk he) (List.cons_ne_nil _ _)

section Series

variable {α : Type} {opened : Span} {close : TokenKind} {delimiter : Char} {item : Parser α}
  {r : α → Reading} [Steady item]

/-- a comma or the closing token comes after an item -/
theorem takes_seriesRest {x : α} {read : List α} {rounds : Nat} {ns ts : List Token}
    (hc : close.isCloser = true) (hr : (r x).IsItem) (hns : Newlines ns) (hx : Derives (r x) ts)
    (hs : s.Ready n) (hrec : ∀ t : ParseState, t.Ready n →
      Takes t (seriesFrom opened close delimiter item rounds (x :: read)) fun xs us =>
        ∃ ys, xs = (x :: read).reverse ++ ys ∧ Derives (.items close (ys.map r)) us) :
    Takes s (seriesRest opened close delimiter item rounds x read) fun xs us =>
      ∃ ys, xs = read.reverse ++ x :: ys ∧
        Derives (.items close (r x :: ys.map r)) (ns ++ (ts ++ us)) := by
  refine .skipNewlines fun ms hms m => .eat (fun hk => ?_) fun _ => .eat (fun hk => ?_) fun _ => ?_
  · have hcomma := moved_first (hs.moved m) hk (by decide)
    refine (hrec _ ((hs.moved m).moved hcomma)).mono ?_
    rintro xs t ⟨us, m', ys, hxs, hys⟩
    refine ⟨_, m.trans (hcomma.trans m'), ys, by simp [hxs], ?_⟩
    exact .itemsMore hr hns hx hms hk hys
  · have hclose := moved_first (hs.moved m) hk (TokenKind.ne_eof_of_isCloser hc)
    refine .pure ⟨_, m.trans hclose, [], by simp, ?_⟩
    exact .itemsLast hc hr hns hx hms hk
  · exact .check (fun _ => .reportHere) fun _ => .reportHere

theorem takes_seriesFrom {m : Nat} (hc : close.isCloser = true) (hr : ∀ a, (r a).IsItem)
    (hitem : ∀ s : ParseState, s.Ready m → Takes s item fun a ts => Derives (r a) ts) (n : Nat) :
    ∀ (rounds : Nat) (read : List α) (s : ParseState), n ≤ m → n ≤ rounds → s.Ready n →
      Takes s (seriesFrom opened close delimiter item rounds read) fun xs ts =>
        ∃ ys, xs = read.reverse ++ ys ∧ Derives (.items close (ys.map r)) ts := by
  induction n with
  | zero => exact fun _ _ s _ _ hs => absurd hs s.not_ready_zero
  | succ n ih =>
    intro rounds read s hm hround hs
    obtain ⟨rounds, rfl⟩ := Nat.exists_eq_add_of_le' (Nat.one_le_of_lt hround)
    rw [seriesFrom_succ]
    refine .skipNewlines fun ns hns m₁ => .eat (fun hk => ?_) fun _ => ?_
    · have hclose := moved_first (hs.moved m₁) hk (TokenKind.ne_eof_of_isCloser hc)
      refine .pure ⟨_, m₁.trans hclose, [], by simp, ?_⟩
      exact .itemsNone hc hns hk
    refine .check (fun _ => .reportHere) fun _ => ?_
    have hs₁ := hs.moved m₁
    refine .currentSpan ((hitem _ (hs₁.mono hm)).seq ?_)
    rintro x t ⟨ts, m₂, hx⟩
    refine .get ?_
    have hne := hx.ne_nil (hr x).isProper
    -- the item took a token, so the cursor stands in another place
    have hspan : ¬ (t.current.span == (s.skip (· == .newline)).current.span) = true := by
      simpa using hs₁.span_ne m₂ hne
    rw [if_neg (by simp only [Bool.and_eq_true]; tauto)]
    have hrest := takes_seriesRest hc (hr x) hns hx (hs₁.passed m₂ hne) fun t' ht' =>
      ih rounds (x :: read) t' (by omega) (by omega) ht'
    refine hrest.mono ?_
    rintro xs u ⟨us, m₃, ys, hxs, hys⟩
    exact ⟨_, m₁.trans (m₂.trans m₃), x :: ys, hxs, hys⟩

theorem takes_series (r : α → Reading) (hg : g.Sound n) (hc : close.isCloser = true)
    (hr : ∀ a, (r a).IsItem) (hs : s.Ready n)
    (hitem : ∀ s : ParseState, s.Ready n → Takes s item fun a ts => Derives (r a) ts) :
    Takes s (series g opened close delimiter item) fun xs ts =>
      Derives (.items close (xs.map r)) ts := by
  refine (takes_seriesFrom hc hr hitem n _ [] s le_rfl hg.rounds.le hs).mono ?_
  rintro xs t ⟨ts, m, ys, rfl, hys⟩
  exact ⟨ts, m, hys⟩

end Series

section Block

variable {opened : Span}

theorem takes_blockFrom {m : Nat} [g.Steady] (hg : g.Sound m) (n : Nat) :
    ∀ (rounds : Nat) (read : List Stmt) (s : ParseState), n ≤ m → n ≤ rounds → s.Ready n →
      Takes s (blockFrom g.stmt opened rounds read) fun xs ts =>
        ∃ ys us c, xs = read.reverse ++ ys ∧ ts = us ++ [c] ∧ Derives (.stmts ys) us ∧
          c.kind = .closeBrace := by
  induction n with
  | zero => exact fun _ _ s _ _ hs => absurd hs s.not_ready_zero
  | succ n ih =>
    intro rounds read s hm hround hs
    obtain ⟨rounds, rfl⟩ := Nat.exists_eq_add_of_le' (Nat.one_le_of_lt hround)
    refine .skipSeparators fun ns hns m₁ => .eat (fun hk => ?_) fun _ => ?_
    · refine .pure ⟨_, m₁.trans (moved_first (hs.moved m₁) hk (by decide)), ?_⟩
      exact ⟨[], ns, _, by simp, rfl, .stmtsNone hns, hk⟩
    refine .check (fun _ => .reportHere) fun hend => ?_
    have hs₁ := hs.moved m₁
    refine .seqOption (hg.stmt _ (hs₁.mono hm)) ?_
    rintro found t ⟨ts, m₂, hfound⟩
    cases found with
    | none =>
      -- the separators were passed already, so the end would have been seen before
      obtain ⟨x, hx⟩ := hfound.exists_some hend (hs₁.skip_stops hend) m₂
      cases hx
    | some x =>
      have hx := hfound.separate hns
      refine (ih rounds (x :: read) t (by omega) (by omega)
        (hs₁.passed m₂ (hfound.ne_nil trivial))).mono ?_
      rintro xs u ⟨us, m₃, ys, vs, c, rfl, rfl, hys, hc⟩
      refine ⟨_, m₁.trans (m₂.trans m₃), x :: ys, _, c, by simp, ?_, .stmtsMore hx hys, hc⟩
      simp only [List.append_assoc]

/-- the span of a block reaches from its first brace to its last -/
theorem takes_blockBody [g.Steady] (hg : g.Sound n) (hs : s.Ready (n + 1)) :
    Takes s (blockBody g) fun xs ts =>
      Derives (.braces (s.current.span.merge (lastSpan s.previous ts)) xs) ts := by
  refine .currentSpan (.expect fun hk => ?_)
  have hs₁ := ready_first hs hk (by decide)
  refine (takes_blockFrom hg n _ [] _ le_rfl hg.rounds.le hs₁).mono ?_
  rintro xs t ⟨ts, m, ys, us, c, rfl, rfl, hys, hc⟩
  refine ⟨_, (moved_first hs hk (by decide)).cons m, ?_⟩
  simpa only [lastSpan_cons, lastSpan_append, lastSpan_nil] using Derives.braces hk hys hc

/-- `else`, and the newline before it, or nothing -/
theorem takes_eatElse (hs : s.Ready n) : Takes s eatElse fun found ts =>
    if found then ∃ ns c, ts = ns ++ [c] ∧ Newlines ns ∧ c.kind = .elseKw else ts = [] := by
  refine .get ?_
  split
  · rename_i h
    simp only [Bool.and_eq_true, beq_iff_eq] at h
    have m := moved_first hs h.1 (by decide)
    refine .set (.eatLast (fun hk => ?_) fun hk => absurd (s.kind_advance.trans h.2) hk)
    refine ⟨_, m.trans (moved_first (hs.moved m) hk (by decide)), [s.current], _, rfl, ?_, hk⟩
    exact List.forall_mem_singleton.2 h.1
  · refine .eatLast (fun hk => ?_) fun _ => ⟨[], .refl s, rfl⟩
    exact ⟨_, moved_first hs hk (by decide), [], _, rfl, by simp [Newlines], hk⟩

end Block

section Expr

variable [g.Steady]

omit [g.Steady] in
theorem takes_group (hg : g.Sound n) (hs : s.Ready (n + 1)) (hk : s.kind = .openParen) :
    Takes s (group g) fun e ts => Derives (.expr e) ts := by
  have m := moved_first hs hk (by decide)
  refine .advance (.skipNewlines fun ns hns m₁ => ?_)
  have hs₁ := (ready_first hs hk (by decide)).moved m₁
  refine (hg.expr 0 _ hs₁).seq ?_
  rintro e t ⟨ts, m₂, he⟩
  refine .skipNewlines fun ms hms m₃ => ?_
  refine .eat (fun hc => .previousSpan (.pure ?_)) fun _ => .reportHere
  have m₄ := moved_first ((hs₁.moved m₂).moved m₃) hc (by decide)
  rw [ParseState.previous_advance]
  exact ⟨_, m.cons (m₁.trans (m₂.trans (m₃.trans m₄))), .group hk hns he hms hc⟩

theorem takes_array (hg : g.Sound n) (hs : s.Ready (n + 1)) (hk : s.kind = .openSquare) :
    Takes s (array g) fun e ts => Derives (.expr e) ts := by
  have hs₁ := ready_first hs hk (by decide)
  refine .advance ((takes_series .expr hg (by decide) (fun _ => trivial) hs₁ (hg.expr 0)).seq ?_)
  rintro es t ⟨ts, m, hes⟩
  refine .previousSpan (.pure ?_)
  rw [m.previous, ParseState.previous_advance]
  exact ⟨_, (moved_first hs hk (by decide)).cons m, .array hk hes⟩

theorem takes_fieldKey (hs : s.Ready n) : Takes s fieldKey fun key ts =>
    ∃ k, ts = [k] ∧ key = k.text ∧ (k.kind = .ident ∨ k.kind = .str) := by
  refine .get ?_
  split
  · rename_i h
    simp only [Bool.or_eq_true, beq_iff_eq] at h
    refine .advance (.pure ⟨_, hs.advance ?_, _, rfl, rfl, h⟩)
    rcases h with h | h <;> rw [h] <;> decide
  · exact .report

theorem takes_field (hg : g.Sound n) (hs : s.Ready n) :
    Takes s (field g) fun f ts => Derives (.field f) ts := by
  refine (takes_fieldKey hs).seq ?_
  rintro key t ⟨ts, m, k, rfl, rfl, hk⟩
  refine .expect fun hc => .skipNewlines fun ns hns m₂ => ?_
  have m₁ := moved_first (hs.moved m) hc (by decide)
  refine (hg.expr 0 _ (((hs.moved m).moved m₁).moved m₂)).seq ?_
  rintro e u ⟨us, m₃, he⟩
  refine .pure ?_
  exact ⟨_, m.cons (m₁.cons (m₂.trans m₃)), .field hk hc hns he⟩

theorem takes_object (hg : g.Sound n) (hs : s.Ready (n + 1)) (hk : s.kind = .openBrace) :
    Takes s (object g) fun e ts => Derives (.expr e) ts := by
  have hs₁ := ready_first hs hk (by decide)
  refine .advance ((takes_series .field hg (by decide) (fun _ => trivial) hs₁
    fun _ => takes_field hg).seq ?_)
  rintro fs t ⟨ts, m, hfs⟩
  refine .previousSpan (.pure ?_)
  rw [m.previous, ParseState.previous_advance]
  exact ⟨_, (moved_first hs hk (by decide)).cons m, .object hk hfs⟩

/-- the braces of a branch, and where they stand -/
theorem takes_blockExpr (hg : g.Sound n) (hs : s.Ready (n + 1)) :
    Takes s (blockExpr g) fun e ts =>
      ∃ place xs, e = .block place xs ∧ Derives (.braces place xs) ts := by
  refine .currentSpan ((takes_blockBody hg hs).seq ?_)
  rintro xs t ⟨ts, m, hxs⟩
  refine .previousSpan (.pure ?_)
  exact ⟨ts, m, _, xs, by rw [m.previous], hxs⟩

set_option synthInstance.maxSize 256 in
theorem takes_condExpr (hg : g.Sound n) (hs : s.Ready (n + 1)) (hk : s.kind = .ifKw) :
    Takes s (condExpr g) fun e ts => Derives (.choice e) ts := by
  have m := moved_first hs hk (by decide)
  have hs₁ := ready_first hs hk (by decide)
  refine .advance ((hg.expr 0 _ hs₁).seq ?_)
  rintro test t ⟨ts, m₁, htest⟩
  have hs₂ := hs₁.moved m₁
  refine (takes_blockExpr hg (hs₂.mono (Nat.le_succ n))).seq fun yes u hyes => ?_
  obtain ⟨us, m₂, place, xs, rfl, hxs⟩ := hyes
  have hs₃ := hs₂.moved m₂
  -- whatever the other branch is, the phrase ends where it does
  have hdone (no : Option Expr) (v : ParseState) (vs : List Token) (m₃ : u.Moved vs v)
      (hno : Derives (.otherwise no) vs) :
      Gives v (Parser.previousSpan >>= fun last =>
          pure (Expr.cond (s.current.span.merge last) test (.block place xs) no))
        fun e w => ∃ ts, s.Moved ts w ∧ Derives (.choice e) ts := by
    have hall := m.cons (m₁.trans (m₂.trans m₃))
    refine .previousSpan (.pure ⟨_, hall, ?_⟩)
    rw [hall.previous]
    exact .cond hk htest hxs hno
  refine (takes_eatElse hs₃).seq ?_
  rintro found v ⟨vs, m₃, hfound⟩
  have hs₄ := hs₃.moved m₃
  cases found with
  | false =>
    obtain rfl : vs = [] := hfound
    exact .given (hdone none v [] m₃ .otherwiseNone)
  | true =>
    obtain ⟨ns, c, rfl, hns, hc⟩ := hfound
    refine .check (fun hif => ?_) fun _ => ?_
    · refine .seqMap (hg.cond v hs₄ hif) ?_
      rintro no w ⟨ws, m₄, hno⟩
      refine hdone (some no) w _ (m₃.trans m₄) ?_
      rw [List.append_assoc]
      exact .otherwiseCond hns hc hno
    · refine .seqMap (takes_blockExpr hg (hs₄.mono (Nat.le_succ n))) fun no w hno => ?_
      obtain ⟨ws, m₄, place', xs', rfl, hxs'⟩ := hno
      refine hdone _ w _ (m₃.trans m₄) ?_
      rw [List.append_assoc]
      exact .otherwiseBlock hns hc hxs'

omit [g.Steady] in
/-- a marker is followed by what it announces -/
theorem takes_interpolation (hg : g.Sound n) (hs : s.Ready n)
    (hk : s.kind = .openBrace ∨ s.kind = .ident) :
    Takes s (interpolation g) fun e ts => Derives (.hole e) ts := by
  refine .get ?_
  rcases hk with hk | hk
  · rw [if_pos (beq_iff_eq.2 hk)]
    have m := moved_first hs hk (by decide)
    refine .advance ((hg.expr 0 _ (hs.moved m)).seq ?_)
    rintro e t ⟨ts, m₁, he⟩
    refine .eat (fun hc => .pure ?_) fun _ => .reportHere
    have m₂ := moved_first ((hs.moved m).moved m₁) hc (by decide)
    exact ⟨_, m.cons (m₁.trans m₂), .holeCode hk he hc⟩
  · rw [if_neg (by simp [hk]), if_pos (beq_iff_eq.2 hk)]
    exact .advance (.pure ⟨_, moved_first hs hk (by decide), .holeName hk⟩)

theorem takes_formatFrom (hg : g.Sound n) (rounds : Nat) :
    ∀ (read : List Expr) (s : ParseState), s.Ready n →
      Takes s (formatFrom g rounds read) fun ps ts =>
        ∃ qs, ps = read.reverse ++ qs ∧ Derives (.parts qs) ts := by
  induction rounds with
  | zero => exact fun read s hs => .pure ⟨[], .refl s, [], by simp, .partsOpen⟩
  | succ rounds ih =>
    intro read s hs
    refine .get ?_
    split
    case h_1 hk =>
      have m := moved_first hs hk (by decide)
      refine .advance ((ih _ _ (hs.moved m)).mono ?_)
      rintro ps t ⟨ts, m₁, qs, rfl, hqs⟩
      exact ⟨_, m.cons m₁, _ :: qs, by simp, .partsText hk hqs⟩
    case h_2 hk =>
      have m := moved_first hs hk (by decide)
      have hopens : s.advance.kind = .openBrace ∨ s.advance.kind = .ident := by
        obtain ⟨u, hu, hopens⟩ := (m.tokens ▸ hs.orderly.marked).1 hk
        obtain rfl := Option.some.inj hu
        exact hopens
      refine .advance ((takes_interpolation hg (hs.moved m) hopens).seq ?_)
      rintro e t ⟨ts, m₁, he⟩
      refine (ih _ t ((hs.moved m).moved m₁)).mono ?_
      rintro ps u ⟨us, m₂, qs, rfl, hqs⟩
      exact ⟨_, m.cons (m₁.trans m₂), e :: qs, by simp, .partsHole hk he hqs⟩
    case h_3 hk =>
      exact .advance (.pure ⟨_, moved_first hs hk (by decide), [], by simp, .partsClose hk⟩)
    case h_4 => exact .pure ⟨[], .refl s, [], by simp, .partsOpen⟩
    case h_5 => exact .report

theorem takes_format (hg : g.Sound n) (hs : s.Ready (n + 1)) (hk : s.kind = .formatOpen) :
    Takes s (format g) fun e ts => Derives (.expr e) ts := by
  have m := moved_first hs hk (by decide)
  refine .advance ((takes_formatFrom hg _ [] _ (ready_first hs hk (by decide))).seq
    fun ps t hps => ?_)
  obtain ⟨ts, m₁, qs, rfl, hqs⟩ := hps
  refine .previousSpan (.pure ⟨_, m.cons m₁, ?_⟩)
  rw [m₁.previous, ParseState.previous_advance]
  exact .format hk hqs

theorem takes_primary (hg : g.Sound n) (hs : s.Ready (n + 1)) :
    Takes s (primary g) fun e ts => Derives (.expr e) ts := by
  refine .get ?_
  split
  case h_1 hk => exact takes_group hg hs hk
  case h_2 hk => exact takes_array hg hs hk
  case h_3 hk => exact takes_object hg hs hk
  case h_4 hk =>
    refine (takes_condExpr hg hs hk).mono ?_
    rintro e t ⟨ts, m, he⟩
    exact ⟨ts, m, .choice he⟩
  case h_5 hk => exact takes_format hg hs hk
  case h_6 hk => exact .advance (.pure ⟨_, moved_first hs hk (by decide), .ident hk⟩)
  case h_7 =>
    split
    · rename_i v hv
      refine .advance (.pure ⟨_, hs.advance fun hk => ?_, .literal hv⟩)
      rw [literal?, show s.current.kind = .eof from hk] at hv
      cases hv
    · exact .report

theorem takes_call (hg : g.Sound n) (hs : s.Ready n) (hk : s.kind = .openParen) {f : Expr}
    {fs : List Token} (hf : Derives (.expr f) fs) :
    Takes s (call g f) fun e ts => Derives (.expr e) (fs ++ ts) := by
  have m := moved_first hs hk (by decide)
  refine .advance ((takes_series .expr hg (by decide) (fun _ => trivial) (hs.moved m)
    (hg.expr 0)).seq ?_)
  rintro es t ⟨ts, m₁, hes⟩
  refine .previousSpan (.pure ⟨_, m.cons m₁, ?_⟩)
  rw [m₁.previous, ParseState.previous_advance]
  exact .call hf hk hes

theorem takes_index (hg : g.Sound n) (hs : s.Ready n) (hk : s.kind = .openSquare) {a : Expr}
    {as : List Token} (ha : Derives (.expr a) as) :
    Takes s (index g a) fun e ts => Derives (.expr e) (as ++ ts) := by
  have m := moved_first hs hk (by decide)
  refine .advance ((takes_series .expr hg (by decide) (fun _ => trivial) (hs.moved m)
    (hg.expr 0)).seq ?_)
  rintro is t ⟨ts, m₁, his⟩
  refine .previousSpan ?_
  split
  · exact .report
  · rename_i hone
    obtain ⟨i, rfl⟩ := List.length_eq_one_iff.1 (not_not.1 hone)
    refine .pure ⟨_, m.cons m₁, ?_⟩
    rw [m₁.previous, ParseState.previous_advance]
    exact .index ha hk his

theorem takes_operand (hg : g.Sound n) (hs : s.Ready (n + 1)) :
    Takes s (operand g) fun e ts => Derives (.expr e) ts := by
  refine .kind ?_
  split
  · rename_i op hop
    have hk : s.kind ≠ .eof := by
      intro hk
      rw [hk] at hop
      cases hop
    have m := hs.advance hk
    refine .advance ((hg.expr signLevel _ (hs.passed m (List.cons_ne_nil _ _))).seq ?_)
    rintro e t ⟨ts, m₁, he⟩
    exact .pure ⟨_, m.cons m₁, .sign hop he⟩
  · exact takes_primary hg hs

theorem takes_climb (hg : g.Sound n) (floor rounds : Nat) :
    ∀ (left : Expr) (s : ParseState) (ls : List Token), s.Ready n → Derives (.expr left) ls →
      Takes s (climb g floor rounds left) fun e ts => Derives (.expr e) (ls ++ ts) := by
  have hstay {left : Expr} {ls : List Token} (s : ParseState) (hl : Derives (.expr left) ls) :
      ∃ ts, s.Moved ts s ∧ Derives (.expr left) (ls ++ ts) :=
    ⟨[], .refl s, by rwa [List.append_nil]⟩
  induction rounds with
  | zero => exact fun left s ls _ hl => .pure (hstay s hl)
  | succ rounds ih =>
    intro left s ls hs hl
    -- what is joined to the operand on its left is an operand again
    have hgo {p : Parser Expr} [Steady p]
        (hp : Takes s p fun e ts => Derives (.expr e) (ls ++ ts)) :
        Takes s (p >>= climb g floor rounds) fun e ts => Derives (.expr e) (ls ++ ts) := by
      refine hp.seq ?_
      rintro e t ⟨ts, m, he⟩
      refine (ih e t _ (hs.moved m) he).mono ?_
      rintro e' u ⟨us, m', he'⟩
      refine ⟨_, m.trans m', ?_⟩
      rwa [List.append_assoc] at he'
    refine .kind ?_
    split
    · rename_i h
      simp only [Bool.and_eq_true, beq_iff_eq] at h
      exact hgo (takes_call hg hs h.1 hl)
    · split
      · rename_i h
        simp only [Bool.and_eq_true, beq_iff_eq] at h
        exact hgo (takes_index hg hs h.1 hl)
      · split
        · exact .pure (hstay s hl)
        · rename_i l hlink
          split
          · exact .pure (hstay s hl)
          · have hk : s.kind ≠ .eof := by
              intro hk
              rw [hk] at hlink
              cases hlink
            have m := hs.advance hk
            refine .advance (.skipNewlines fun ns hns m₁ => ?_)
            have hs₁ := (hs.moved m).moved m₁
            refine (hg.expr _ _ hs₁).seq ?_
            rintro right t ⟨ts, m₂, hr⟩
            refine (ih _ t _ (hs₁.moved m₂) (.link hl hlink hns hr)).mono ?_
            rintro e u ⟨us, m₃, he⟩
            refine ⟨_, m.cons (m₁.trans (m₂.trans m₃)), ?_⟩
            simpa only [List.append_assoc, List.cons_append] using he

theorem takes_expr (hg : g.Sound n) (hs : s.Ready (n + 1)) (floor : Nat) :
    Takes s (expr g floor) fun e ts => Derives (.expr e) ts := by
  refine (takes_operand hg hs).seq ?_
  rintro e t ⟨ts, m, he⟩
  have hs₁ := hs.passed m (he.ne_nil trivial)
  refine (takes_climb hg floor _ e t ts hs₁ he).mono ?_
  rintro e' u ⟨us, m', he'⟩
  exact ⟨_, m.trans m', he'⟩

end Expr

section Stmt

theorem takes_tyWithin (depth : Nat) : ∀ s : ParseState, s.Ready n →
    Takes s (tyWithin depth) fun y ts => Derives (.ty y) ts := by
  induction depth with
  | zero => exact fun s _ => .pure ⟨[], .refl s, .tyNone⟩
  | succ depth ih =>
    intro s hs
    refine .kind ?_
    split
    case h_1 hk => exact .advance (.pure ⟨_, moved_first hs hk (by decide), .tyName hk⟩)
    case h_2 hk =>
      have m := moved_first hs hk (by decide)
      refine .advance (.expect fun hc => ?_)
      have m₁ := moved_first (hs.moved m) hc (by decide)
      refine (ih _ ((hs.moved m).moved m₁)).seq ?_
      rintro y t ⟨ts, m₂, hy⟩
      exact .pure ⟨_, m.cons (m₁.cons m₂), .tyArray hk hc hy⟩
    case h_3 hk =>
      have m := moved_first hs hk (by decide)
      refine .advance ((ih _ (hs.moved m)).seq ?_)
      rintro y t ⟨ts, m₁, hy⟩
      exact .pure ⟨_, m.cons m₁, .tyPtr hk hy⟩
    case h_4 => exact .pure ⟨[], .refl s, .tyNone⟩

theorem takes_ty (hs : s.Ready n) : Takes s ty fun y ts => Derives (.ty y) ts :=
  .get (takes_tyWithin _ s hs)

theorem takes_name (hs : s.Ready n) (what : String) :
    Takes s (name what) fun x ts => ∃ t, ts = [t] ∧ x = t.text ∧ t.kind = .ident := by
  refine .get ?_
  split
  · rename_i h
    have hk : s.kind = .ident := beq_iff_eq.1 h
    exact .advance (.pure ⟨_, moved_first hs hk (by decide), _, rfl, rfl, hk⟩)
  · exact .report

theorem takes_param (hs : s.Ready n) : Takes s param fun p ts => Derives (.param p) ts := by
  refine (takes_name hs _).seq ?_
  rintro x t ⟨ts, m, u, rfl, rfl, hu⟩
  refine .kind ?_
  split
  · exact .pure ⟨_, m, .param hu .tyNone⟩
  · refine (takes_ty (hs.moved m)).seq ?_
    rintro y v ⟨vs, m₁, hy⟩
    exact .pure ⟨_, m.cons m₁, .param hu hy⟩

theorem takes_body (hg : g.Sound n) (hs : s.Ready n) (construct : String) :
    Takes s (body g construct) fun x ts => Derives (.body x) ts := by
  refine .skipNewlines fun ns hns m => .check (fun _ => .given ?_) fun _ => ?_
  · exact .reportHere
  · refine .seqOption (hg.stmt _ (hs.moved m)) ?_
    rintro found t ⟨ts, m₁, hfound⟩
    cases found with
    | none => exact .reportHere
    | some x => exact .pure ⟨_, m.trans m₁, hfound.separate hns.separators⟩

variable [g.Steady]

set_option synthInstance.maxSize 1024 in
theorem takes_store (hg : g.Sound n) (hs : s.Ready (n + 1))
    (hk : s.kind = .varKw ∨ s.kind = .letKw ∨ s.kind = .mutKw) :
    Takes s (store g) fun x ts => Derives (.stmt x) ts := by
  have m := hs.advance (by rcases hk with hk | hk | hk <;> rw [hk] <;> decide)
  have hs₁ := hs.passed m (List.cons_ne_nil _ _)
  refine .advance ((takes_name hs₁ _).seq ?_)
  rintro x t ⟨ts, m₁, u, rfl, rfl, hu⟩
  have hs₂ := hs₁.moved m₁
  refine .test (.branch (fun _ => .pure ⟨[], .refl t, .tyNone⟩) (fun _ => takes_ty hs₂) ?_)
  rintro y v ⟨vs, m₂, hy⟩
  refine .expect fun ha => .kind (.skipNewlines fun ns hns m₄ => ?_)
  have m₃ := moved_first (hs₂.moved m₂) ha (by decide)
  refine (hg.expr 0 _ (((hs₂.moved m₂).moved m₃).moved m₄)).seq ?_
  rintro e w ⟨ws, m₅, he⟩
  exact .pure ⟨_, m.cons (m₁.cons (m₂.trans (m₃.cons (m₄.trans m₅)))), .store hk hu hy ha hns he⟩

theorem takes_condStmt (hg : g.Sound n) (hs : s.Ready (n + 1)) (hk : s.kind = .ifKw) :
    Takes s (condStmt g) fun x ts => Derives (.stmt x) ts := by
  have m := moved_first hs hk (by decide)
  have hs₁ := ready_first hs hk (by decide)
  refine .advance ((hg.expr 0 _ hs₁).seq ?_)
  rintro test t ⟨ts, m₁, htest⟩
  have hs₂ := hs₁.moved m₁
  refine (takes_body hg hs₂ _).seq ?_
  rintro yes u ⟨us, m₂, hyes⟩
  have hs₃ := hs₂.moved m₂
  have hdone (no : Option Stmt) (v : ParseState) (vs : List Token) (m₃ : u.Moved vs v)
      (hno : Derives (.alternative no) vs) :
      Gives v (Parser.previousSpan >>= fun last =>
          pure (Stmt.cond (s.current.span.merge last) test yes no))
        fun x w => ∃ ts, s.Moved ts w ∧ Derives (.stmt x) ts := by
    have hall := m.cons (m₁.trans (m₂.trans m₃))
    refine .previousSpan (.pure ⟨_, hall, ?_⟩)
    rw [hall.previous]
    exact .condStmt hk htest hyes hno
  refine (takes_eatElse hs₃).seq ?_
  rintro found v ⟨vs, m₃, hfound⟩
  cases found with
  | false =>
    obtain rfl : vs = [] := hfound
    exact .given (hdone none v [] m₃ .alternativeNone)
  | true =>
    obtain ⟨ns, c, rfl, hns, hc⟩ := hfound
    refine .seqMap (takes_body hg (hs₃.moved m₃) _) ?_
    rintro no w ⟨ws, m₄, hno⟩
    refine hdone _ w _ (m₃.trans m₄) ?_
    rw [List.append_assoc]
    exact .alternativeSome hns hc hno

theorem takes_loop (hg : g.Sound n) (hs : s.Ready (n + 1)) (hk : s.kind = .forKw) :
    Takes s (loop g) fun x ts => Derives (.stmt x) ts := by
  have m := moved_first hs hk (by decide)
  have hs₁ := ready_first hs hk (by decide)
  refine .advance ((takes_name hs₁ _).seq ?_)
  rintro x t ⟨ts, m₁, u, rfl, rfl, hu⟩
  refine .expect fun hi => ?_
  have m₂ := moved_first (hs₁.moved m₁) hi (by decide)
  have hs₂ := (hs₁.moved m₁).moved m₂
  refine (hg.expr 0 _ hs₂).seq ?_
  rintro source v ⟨vs, m₃, hsource⟩
  refine (takes_body hg (hs₂.moved m₃) _).seq ?_
  rintro b w ⟨ws, m₄, hb⟩
  refine .previousSpan (.pure ?_)
  have hall := m.cons (m₁.cons (m₂.cons (m₃.trans m₄)))
  rw [hall.previous]
  exact ⟨_, hall, .loop hk hu hi hsource hb⟩

theorem takes_blockStmt (hg : g.Sound n) (hs : s.Ready (n + 1)) :
    Takes s (blockStmt g) fun x ts => Derives (.stmt x) ts := by
  refine .currentSpan ((takes_blockBody hg hs).seq ?_)
  rintro xs t ⟨ts, m, hxs⟩
  refine .previousSpan (.pure ?_)
  rw [m.previous]
  exact ⟨ts, m, .block hxs⟩

set_option synthInstance.maxSize 1024 in
theorem takes_function (hg : g.Sound n) (hs : s.Ready (n + 1)) (hk : s.kind = .fnKw) :
    Takes s (function g) fun x ts => Derives (.stmt x) ts := by
  have m := moved_first hs hk (by decide)
  have hs₁ := ready_first hs hk (by decide)
  refine .advance ((takes_name hs₁ _).seq ?_)
  rintro x t ⟨ts, m₁, u, rfl, rfl, hu⟩
  refine .check (fun ho => .advance ?_) fun ho => .expect fun hk => absurd hk ho
  have m₂ := moved_first (hs₁.moved m₁) ho (by decide)
  have hs₂ := (hs₁.moved m₁).moved m₂
  refine (takes_series .param hg (by decide) (fun _ => trivial) hs₂ fun _ => takes_param).seq ?_
  rintro ps v ⟨vs, m₃, hps⟩
  have hs₃ := hs₂.moved m₃
  refine .test (.branch (fun _ => .pure ⟨[], .refl v, .tyNone⟩) (fun _ => takes_ty hs₃) ?_)
  rintro y w ⟨ws, m₄, hy⟩
  refine (takes_blockBody hg ((hs₃.moved m₄).mono (Nat.le_succ n))).seq ?_
  rintro xs z ⟨zs, m₅, hxs⟩
  refine .previousSpan (.pure ?_)
  have hall := m.cons (m₁.cons (m₂.cons (m₃.trans (m₄.trans m₅))))
  rw [hall.previous]
  exact ⟨_, hall, .function hk hu ho hps hy hxs⟩

/-- a phrase, or nothing at the end -/
theorem gives_phrase {whole : Parser Expr} (hg : g.Sound n) (hs : s.Ready (n + 1))
    (hw : Takes s whole fun e ts => Derives (.expr e) ts) :
    Gives s (phrase g whole) fun found t =>
      (found = none ∧ t = s ∧ s.kind = .eof) ∨
        ∃ x ts, found = some x ∧ s.Moved ts t ∧ Derives (.stmt x) ts := by
  have hsome {p : Parser Stmt} (hp : Takes s p fun x ts => Derives (.stmt x) ts) :
      Gives s (some <$> p) fun found t => (found = none ∧ t = s ∧ s.kind = .eof) ∨
        ∃ x ts, found = some x ∧ s.Moved ts t ∧ Derives (.stmt x) ts := by
    refine .map (hp.mono ?_)
    rintro x t ⟨ts, m, hx⟩
    exact .inr ⟨x, ts, rfl, m, hx⟩
  refine .kind ?_
  split
  case h_1 hk => exact .pure (.inl ⟨rfl, rfl, hk⟩)
  case h_2 hk => exact hsome (takes_store hg hs (.inl hk))
  case h_3 hk => exact hsome (takes_store hg hs (.inr (.inl hk)))
  case h_4 hk => exact hsome (takes_store hg hs (.inr (.inr hk)))
  case h_5 hk => exact hsome (takes_condStmt hg hs hk)
  case h_6 hk => exact hsome (takes_loop hg hs hk)
  case h_7 hk => exact hsome (takes_blockStmt hg hs)
  case h_8 hk => exact hsome (takes_function hg hs hk)
  case h_9 hk =>
    exact .advance (.pure (.inr ⟨_, _, rfl, moved_first hs hk (by decide), .leave hk⟩))
  case h_10 =>
    refine hw.seq ?_
    rintro e t ⟨ts, m, he⟩
    exact .pure (.inr ⟨_, ts, rfl, m, .exprStmt he⟩)

theorem gives_stmt {whole : Parser Expr} (hg : g.Sound n) (hs : s.Ready (n + 1))
    (hw : ∀ s : ParseState, s.Ready (n + 1) → Takes s whole fun e ts => Derives (.expr e) ts) :
    Gives s (stmt g whole) fun found t => ∃ ts, s.Moved ts t ∧ Found t found ts := by
  rw [stmt_eq]
  refine .skipSeparators fun ns hns m => ?_
  have hs₁ := hs.moved m
  refine (gives_phrase hg hs₁ (hw _ hs₁)).mono ?_
  rintro found t (⟨rfl, rfl, hend⟩ | ⟨x, ts, rfl, m₁, hx⟩)
  · exact ⟨ns, m, hns, hend⟩
  · exact ⟨_, m.trans m₁, .body hns hx⟩

end Stmt

end Parse

/-- a grammar with a level for each token reads them soundly -/
theorem Grammar.sound_ofDepth (n : Nat) : (ofDepth n).Sound n := by
  induction n with
  | zero =>
    constructor
    case rounds => exact Nat.one_pos
    case expr => exact fun floor s hs => absurd hs s.not_ready_zero
    case cond => exact fun s hs => absurd hs s.not_ready_zero
    case stmt => exact fun s hs => absurd hs s.not_ready_zero
  | succ n ih =>
    constructor
    case rounds => exact Nat.lt_succ_self _
    case expr => exact fun floor s hs => Parse.takes_expr ih hs floor
    case cond => exact fun s hs hk => Parse.takes_condExpr ih hs hk
    case stmt => exact fun s hs => Parse.gives_stmt ih hs fun s hs => Parse.takes_expr ih hs 0

namespace Parse

variable {s : ParseState}

theorem gives_codeFrom {g : Grammar} {m : Nat} [g.Steady] (hg : g.Sound m) (n : Nat) :
    ∀ (rounds : Nat) (read : Code) (s : ParseState), n ≤ m → n ≤ rounds → s.Ready n →
      Gives s (codeFrom g.stmt rounds read) fun code t =>
        ∃ xs ts, code = read.reverse ++ xs ∧ s.Moved ts t ∧ t.kind = .eof ∧
          Derives (.stmts xs) ts := by
  induction n with
  | zero => exact fun _ _ s _ _ hs => absurd hs s.not_ready_zero
  | succ n ih =>
    intro rounds read s hm hround hs
    obtain ⟨rounds, rfl⟩ := Nat.exists_eq_add_of_le' (Nat.one_le_of_lt hround)
    refine .seqOption (hg.stmt s (hs.mono hm)) ?_
    rintro found t ⟨ts, m₁, hfound⟩
    cases found with
    | none => exact .pure ⟨[], ts, by simp, m₁, hfound.2, .stmtsNone hfound.1⟩
    | some x =>
      have hs₁ := hs.passed m₁ (Derives.ne_nil hfound trivial)
      refine (ih rounds (x :: read) t (by omega) (by omega) hs₁).mono ?_
      rintro code u ⟨xs, us, rfl, m₂, hend, hxs⟩
      exact ⟨x :: xs, _, by simp, m₁.trans m₂, hend, .stmtsMore hfound hxs⟩

/-- reading without problems passes every token but the end token, and they derive the program -/
theorem gives_code (hs : s.Ready s.remaining) :
    Gives s code fun code _ =>
      ∃ ts last, s.tokens = ts ++ [last] ∧ last.kind = .eof ∧ Derives (.stmts code) ts := by
  refine .get ?_
  refine (gives_codeFrom (Grammar.sound_ofDepth s.remaining) _ _ [] s le_rfl le_rfl hs).mono ?_
  rintro code t ⟨xs, ts, rfl, m, hend, hxs⟩
  refine ⟨ts, t.current, ?_, hend, hxs⟩
  rw [m.tokens, ParseState.tokens, (hs.moved m).within.upcoming_eq_nil hend]

end Parse

section Source

variable {source : String} {marker : Char}

theorem Lexer.orderly_significant
    (h : { Lexer.ofSource source with marker := marker }.allErrors = []) :
    Orderly { Lexer.ofSource source with marker := marker }.significant where
  ends := (Lexer.terminated_drain _ #[] (by simp)).filter
  apart := significant_apart source marker
  marked := marked_significant h

theorem ParseState.clean_ofTokens (tokens : List Token) : (ofTokens tokens).Clean := by
  unfold ofTokens
  split <;> rfl

theorem ParseState.tokens_ofLexer (l : Lexer) : (ofTokens l.tokens).tokens = l.significant :=
  tokens_ofTokens (l.terminated_drain #[] (by simp))

theorem Parse.ofLexer_errors (l : Lexer) :
    (ofLexer l).errors = (code.run (.ofTokens l.tokens)).2.problems.flush.1 := rfl

/-- nothing is handed out just where nothing was reported on the way -/
theorem Parse.errors_eq_nil_iff {l : Lexer} :
    (ofLexer l).errors = [] ↔ (code.run (.ofTokens l.tokens)).2.Clean := by
  rw [ofLexer_errors]
  constructor
  · intro h
    have hkept : (code.run (.ofTokens l.tokens)).2.problems.kept = [] := by
      refine List.length_eq_zero_iff.1 ?_
      rw [← List.length_mergeSort]
      exact List.length_eq_zero_iff.2 h
    exact ParseState.Steps.clean_of_kept (Parser.Along.steps _) (ParseState.clean_ofTokens _) hkept
  · intro h
    rw [show ParseState.problems _ = _ from h]
    exact List.mergeSort_nil

/-- the tokens of a text without problems, but for comments and the end, derive its program -/
theorem Parse.derives_ofLexer
    (h : (ofLexer { Lexer.ofSource source with marker := marker }).diagnostics = []) :
    ∃ ts last, { Lexer.ofSource source with marker := marker }.significant = ts ++ [last] ∧
      last.kind = .eof ∧
      Derives (.stmts (ofLexer { Lexer.ofSource source with marker := marker }).code) ts := by
  obtain ⟨hlex, herrors⟩ := List.append_eq_nil_iff.1 h
  have horder := Lexer.orderly_significant hlex
  rw [← ParseState.tokens_ofLexer] at horder
  rw [ofLexer_code, ← ParseState.tokens_ofLexer]
  exact gives_code ⟨horder, le_rfl⟩ (errors_eq_nil_iff.1 herrors)

end Source

end AutoLang
