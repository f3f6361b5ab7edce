import AutoLang.Proofs.Diagnostic.Queue
import AutoLang.Proofs.Parse.Alike
import AutoLang.Proofs.Parse.ErrorLines
import AutoLang.Proofs.Parse.Soundness
import AutoLang.Proofs.Text.Lines
import Mathlib

/-! Labels and the lines they are drawn under. Whatever a parser puts a label at was the place of a token,
or reaches from one token to another, so its line and column were counted up to a point of the text. The
line with that number therefore begins at the column's distance in front of the label. A body that is
missing is reported behind the last token passed, so a parser must have passed one by then: it has, since
every phrase but the empty one begins with a token. -/

namespace AutoLang

/-- the stretch begins at a point that is counted up to along the text -/
def Span.BeginsIn (text : List Char) (s : Span) : Prop :=
  ∃ before after, text = before ++ after ∧
    (⟨s.line, s.column, s.offset⟩ : Mark) = Mark.origin.pastAll before

/-- every label begins at a point of the text -/
def Diagnostic.LabelledIn (text : List Char) (d : Diagnostic) : Prop :=
  ∀ label ∈ d.labels, label.span.BeginsIn text

variable {text : List Char}

theorem Span.BeginsIn.merge {s t : Span} (hs : s.BeginsIn text) (ht : t.BeginsIn text) :
    (s.merge t).BeginsIn text := by
  unfold Span.merge
  dsimp only
  split
  · exact hs
  · exact ht

theorem Span.beginsIn_pastAll (before after : List Char) (n : Nat) :
    ((Mark.origin.pastAll before).span n).BeginsIn (before ++ after) :=
  ⟨before, after, rfl, rfl⟩

namespace Diagnostic

theorem Confined.labelledIn {d : Diagnostic} {span : Span} (hd : d.Confined span)
    (h : span.BeginsIn text) : d.LabelledIn text := by
  intro label hlabel
  rw [hd.labels label hlabel]
  exact h

theorem labelledIn_unclosedDelimiter {opened stopped : Span} (ho : opened.BeginsIn text)
    (hs : stopped.BeginsIn text) (delimiter : Char) :
    (unclosedDelimiter opened stopped delimiter).LabelledIn text := by
  intro label hlabel
  simp only [unclosedDelimiter, List.mem_cons, List.not_mem_nil, or_false] at hlabel
  rcases hlabel with rfl | rfl
  · exact hs
  · exact ho

theorem labelledIn_errorAt {code : ProblemCode} (hcode : code.isGrammatical = true) {span : Span}
    (h : span.BeginsIn text) (message label : String) (notes : List String) :
    (errorAt code span message label notes).LabelledIn text :=
  (confined_errorAt hcode span message label notes).labelledIn h

end Diagnostic

namespace ParseState

/-- the tokens ahead and the labels so far begin at points of the text -/
structure Sited (text : List Char) (s : ParseState) : Prop where
  tokens : ∀ t ∈ s.tokens, t.span.BeginsIn text
  labels : ∀ d ∈ s.problems.kept, d.LabelledIn text

/-- and a token was passed -/
structure Begun (text : List Char) (s : ParseState) : Prop extends s.Sited text where
  previous : s.previous.BeginsIn text

variable {s t : ParseState} {d : Diagnostic}

theorem Sited.current (h : s.Sited text) : s.current.span.BeginsIn text :=
  h.tokens s.current List.mem_cons_self

theorem Sited.advance (h : s.Sited text) : s.advance.Begun text where
  tokens t ht := h.tokens t ((tokens_advance s).subset ht)
  labels := by
    rw [problems_advance]
    exact h.labels
  previous := by
    rw [previous_advance]
    exact h.current

theorem Sited.report (h : s.Sited text) (hd : d.LabelledIn text) : (s.report d).Sited text where
  tokens := h.tokens
  labels e he := by
    obtain he | rfl := DiagnosticQueue.mem_kept_push he
    · exact h.labels e he
    · exact hd

theorem Begun.report (h : s.Begun text) (hd : d.LabelledIn text) : (s.report d).Begun text where
  toSited := h.toSited.report hd
  previous := h.previous

theorem Sited.skip (h : s.Sited text) (p : TokenKind → Bool) : (s.skip p).Sited text where
  tokens t ht := h.tokens t ((tokens_skip p s).subset ht)
  labels := by
    rw [problems_skip]
    exact h.labels

/-- once a token was passed, all that comes after keeps to points of the text -/
def Sites (text : List Char) (s t : ParseState) : Prop := s.Begun text → t.Begun text

theorem Sited.opened (h : s.Sited text) : Opened (Sites text) s.current.span where
  unclosed _ delimiter ht :=
    ht.report (Diagnostic.labelledIn_unclosedDelimiter h.current ht.current delimiter)

instance : Trace (Sites text) where
  refl _ h := h
  trans hst htu h := htu (hst h)
  advance _ h := h.toSited.advance
  here _ _ hd h := h.report (hd.labelledIn h.current)
  opening hst h := hst h.toSited.opened h
  missingBody _ _ h := h.report (Diagnostic.labelledIn_errorAt rfl h.previous _ _ _)
  malformedIndex hst h :=
    (hst h).report (Diagnostic.labelledIn_errorAt rfl (h.current.merge (hst h).previous) _ _ _)

end ParseState

namespace Parse

open ParseState (Begun Opened Sited Sites)
open AutoLang.Parser (Along bind_run bind_run_of eat_run_of_eq get_bind_run kind_bind_run)

variable {α β : Type} {s : ParseState} {g : Grammar}

/-- a phrase that begins with a token -/
theorem begun_advance (hs : s.Sited text) {f : Token → Parser β}
    [hf : ∀ t : { t : Token // Opened (Sites text) t.span }, Along (Sites text) (f t.1)] :
    ((Parser.advance >>= f).run s).2.Begun text :=
  (hf ⟨s.current, hs.opened⟩).steps _ hs.advance

section First

variable [g.Along (Sites text)]

-- what is left of a production is one instance problem, as long as its body
set_option synthInstance.maxSize 1024

theorem begun_primary (hs : s.Sited text) (hk : s.kind ≠ .eof) :
    ((primary g).run s).2.Begun text := by
  rw [primary, get_bind_run]
  split
  case h_7 =>
    split
    · exact begun_advance hs
    · -- a token that begins nothing is passed after the report
      have hreport : (s.report (.expectedExpression s.current.span s.current.lexeme)).Sited text :=
        hs.report (Diagnostic.labelledIn_errorAt rfl hs.current _ _ _)
      rw [if_pos (by simpa using hk)]
      exact begun_advance (f := fun _ => pure _) hreport
  all_goals exact begun_advance hs

theorem begun_operand (hs : s.Sited text) (hk : s.kind ≠ .eof) :
    ((operand g).run s).2.Begun text := by
  rw [operand, kind_bind_run]
  split
  · exact begun_advance hs
  · exact begun_primary hs hk

theorem begun_expr (hs : s.Sited text) (hk : s.kind ≠ .eof) (floor : Nat) :
    ((expr g floor).run s).2.Begun text := by
  have hclimb (left : Expr) : Along (Sites text) (climb g floor g.rounds left) := inferInstance
  rw [expr, bind_run]
  exact (hclimb _).steps _ (begun_operand hs hk)

theorem begun_blockStmt (hs : s.Sited text) (hk : s.kind = .openBrace) :
    ((blockStmt g).run s).2.Begun text := by
  have hopened : Opened (Sites text) s.current.span := hs.opened
  have hrest : Along (Sites text) (blockFrom g.stmt s.current.span g.rounds []) := inferInstance
  have hexpect : (Parser.expect .openBrace).run s = (true, s.advance) := by
    rw [Parser.expect, bind_run_of (eat_run_of_eq hk)]
    rfl
  have hbody : ((blockBody g).run s).2.Begun text := by
    change ((Parser.expect .openBrace >>= fun found =>
      if found then blockFrom g.stmt s.current.span g.rounds [] else pure []).run s).2.Begun text
    rw [bind_run_of hexpect]
    exact hrest.steps _ hs.advance
  exact hbody

theorem begun_map {p : Parser α} (f : α → β) (h : (p.run s).2.Begun text) :
    ((f <$> p).run s).2.Begun text :=
  h

/-- a statement that is there begins with a token -/
theorem begun_phrase (hs : s.Sited text) (hk : s.kind ≠ .eof) :
    ((phrase g (expr g 0)).run s).2.Begun text := by
  rw [phrase, kind_bind_run]
  split
  case h_1 he => exact absurd he hk
  case h_7 ho => exact begun_map _ (begun_blockStmt hs ho)
  case h_9 => exact begun_advance hs
  case h_10 => exact begun_expr hs hk 0
  all_goals exact begun_map _ (begun_advance hs)

end First

/-- before the first statement nothing is reported -/
theorem sited_code (hs : s.Sited text) : (code.run s).2.Sited text := by
  let t := s.skip fun k => k == .newline || k == .semicolon
  have ht : t.Sited text := hs.skip _
  have hstmt : (Grammar.ofDepth (s.upcoming.length + 1)).stmt.run s =
      (phrase (Grammar.ofDepth s.upcoming.length)
        (expr (Grammar.ofDepth s.upcoming.length) 0)).run t := rfl
  rw [code_run, ParseState.remaining, codeFrom, bind_run, hstmt]
  by_cases hk : t.kind = .eof
  · rw [phrase_of_eof hk]
    exact ht
  · have hbegun := begun_phrase (g := Grammar.ofDepth s.upcoming.length) ht hk
    split
    · exact hbegun.toSited
    · exact (Along.steps (R := Sites text) _ hbegun).toSited

end Parse

/-- every token and every label of an error begins at a point of the text -/
theorem Lexer.beginsIn (source : String) (marker : Char) :
    (∀ t ∈ { ofSource source with marker := marker }.tokens, t.span.BeginsIn source.toList) ∧
      ∀ d ∈ { ofSource source with marker := marker }.allErrors, d.LabelledIn source.toList := by
  obtain ⟨why, hw⟩ := Scan.halt_whole marker source.toList
  obtain ⟨htokens, herrors⟩ := tokens_of_halt hw
  have htext := (Scan.cut_whole marker source.toList).1.text
  rw [htokens, herrors]
  generalize (Scan.whole marker source.toList).pieces = ps at htext ⊢
  generalize (Scan.whole marker source.toList).rest = rest at htext ⊢
  rw [htext]
  refine ⟨fun t ht => ?_, fun d hd label hlabel => ?_⟩
  · rcases List.mem_append.1 ht with ht | ht
    · obtain ⟨before, after, n, hraw, hspan⟩ := pastAll_of_mem_locate ht
      rw [hspan, hraw, List.append_assoc]
      exact Span.beginsIn_pastAll before (after ++ rest) n
    · obtain rfl := List.mem_singleton.1 ht
      obtain ⟨before, after, hsplit, hmark⟩ := why.endMark_pastAll .origin (rawOf ps) rest
      rw [hmark, hsplit]
      exact Span.beginsIn_pastAll before after 0
  · obtain ⟨n, hspan⟩ := Halt.span_of_mem_errors hd hlabel
    rw [hspan]
    exact Span.beginsIn_pastAll (rawOf ps) rest n

theorem Parse.labelledIn_diagnostics (source : String) (marker : Char) :
    ∀ d ∈ (ofLexer { Lexer.ofSource source with marker := marker }).diagnostics,
      d.LabelledIn source.toList := by
  obtain ⟨htokens, herrors⟩ := Lexer.beginsIn source marker
  have hstart : (ParseState.ofTokens { Lexer.ofSource source with marker := marker }.tokens).Sited
      source.toList := by
    constructor
    case tokens =>
      intro t ht
      rw [ParseState.tokens_ofLexer] at ht
      exact htokens t (List.mem_filter.1 ht).1
    case labels =>
      rw [show ParseState.problems _ = _ from ParseState.clean_ofTokens _]
      exact fun d hd => nomatch hd
  intro d hd
  rcases List.mem_append.1 hd with hd | hd
  · exact herrors d hd
  · exact (sited_code hstart).labels d ((errors_perm_found _).mem_iff.1 hd)

/-- the line with the number of a stretch begins at the distance of the column in front of it -/
theorem Span.BeginsIn.quoted {source : String} {s : Span} (h : s.BeginsIn source.toList) :
    ∃ above rest, source.toList = above ++ rest ∧ (utf8 above).length + s.column = s.offset ∧
      (∀ line, Text.line? source s.line = some line → Text.FirstLine rest line.toList) ∧
      (Text.line? source s.line = none ↔ s.offset = source.utf8ByteSize ∧
        (source = "" ∨ source.toList.getLast? = some '\n')) := by
  obtain ⟨before, after, hsource, hmark⟩ := h
  obtain ⟨above, line, rfl, hline, habove⟩ := exists_last_line before
  have hnumber : s.line = 1 + above.count '\n' := by
    rw [show s.line = _ from congrArg Mark.line hmark, Mark.line_pastAll, List.count_append,
      List.count_eq_zero.2 hline]
    rfl
  have hcolumn : s.column = (utf8 line).length :=
    (congrArg Mark.column hmark).trans (Mark.column_last_line hline habove)
  have hoffset : s.offset = (utf8 above).length + (utf8 line).length := by
    rw [show s.offset = _ from congrArg Mark.offset hmark, Mark.offset_pastAll, utf8_append,
      List.length_append]
    exact Nat.zero_add _
  rw [List.append_assoc] at hsource
  have hlength : source.utf8ByteSize = s.offset + (utf8 after).length := by
    rw [← length_utf8_toList, hsource, utf8_append, utf8_append, hoffset]
    simp only [List.length_append, Nat.add_assoc]
  rw [hnumber, Text.line?_eq_none_iff hsource habove]
  refine ⟨above, line ++ after, hsource, by rw [hcolumn, hoffset],
    fun _ => Text.firstLine_of_line? hsource habove, ?_⟩
  constructor
  · intro hrest
    obtain ⟨rfl, rfl⟩ := List.append_eq_nil_iff.1 hrest
    refine ⟨hlength.symm, ?_⟩
    rw [List.append_nil, List.append_nil] at hsource
    rcases habove with rfl | ⟨start, rfl⟩
    · exact .inl (String.toList_eq_nil_iff.1 hsource)
    · exact .inr (by rw [hsource]; simp)
  · rintro ⟨hend, hlast⟩
    have hafter : after = [] := by
      refine utf8_eq_nil.1 (List.length_eq_zero_iff.1 ?_)
      omega
    subst hafter
    rw [List.append_nil] at hsource ⊢
    rcases hlast with rfl | hlast
    · exact (List.append_eq_nil_iff.1 hsource.symm).2
    · -- a newline at the end is not part of the line
      by_contra hne
      rw [hsource, List.getLast?_append_of_ne_nil _ hne] at hlast
      exact hline (List.mem_of_getLast? hlast)

/-- Whatever label a text is reported with, the line that is looked up for it begins at the label's offset
less its column, and reaches up to the next newline. There is none just for a label at the very end of a
text that is empty or ends with a newline. -/
theorem label_lines (source : String) (marker : Char) {d : Diagnostic} {label : Label}
    (hd : d ∈ (Parse.ofLexer { Lexer.ofSource source with marker := marker }).diagnostics)
    (hlabel : label ∈ d.labels) :
    ∃ above rest, source.toList = above ++ rest ∧
      (utf8 above).length + label.span.column = label.span.offset ∧
      (∀ line, Text.line? source label.span.line = some line → Text.FirstLine rest line.toList) ∧
      (Text.line? source label.span.line = none ↔ label.span.offset = source.utf8ByteSize ∧
        (source = "" ∨ source.toList.getLast? = some '\n')) :=
  (Parse.labelledIn_diagnostics source marker d hd label hlabel).quoted

/-- a bracket on the second line, which ends with a carriage return and a newline -/
theorem label_lines_sample :
    let d := Diagnostic.expectedExpression ⟨2, 4, 6, 1⟩ ")"
    let label : Label := ⟨⟨2, 4, 6, 1⟩, "expected expression here", true⟩
    (d ∈ (Parse.ofLexer { Lexer.ofSource "a\n1 + )\r\n" with marker := '$' }).diagnostics ∧
        label ∈ d.labels) ∧
      ∃ above rest, "a\n1 + )\r\n".toList = above ++ rest ∧ (utf8 above).length + 4 = 6 ∧
        (∀ line, Text.line? "a\n1 + )\r\n" 2 = some line → Text.FirstLine rest line.toList) ∧
        (Text.line? "a\n1 + )\r\n" 2 = none ↔ 6 = "a\n1 + )\r\n".utf8ByteSize ∧
          ("a\n1 + )\r\n" = "" ∨ "a\n1 + )\r\n".toList.getLast? = some '\n')) := by
  intro d label
  have lexed : (Lexer.runTokens? 30 "a\n1 + )\r\n" '$').isSome = true := by decide
  have hfound : d ∈ Parse.found { Lexer.ofSource "a\n1 + )\r\n" with marker := '$' } := by
    rw [Parse.found, Parse.afterAll, Lexer.tokens_of_runTokens lexed]
    decide
  have hd : d ∈ (Parse.ofLexer { Lexer.ofSource "a\n1 + )\r\n" with marker := '$' }).diagnostics :=
    List.mem_append_right _ ((Parse.errors_perm_found _).mem_iff.2 hfound)
  have hlabel : label ∈ d.labels := List.mem_singleton_self _
  exact ⟨⟨hd, hlabel⟩, label_lines _ _ hd hlabel⟩

end AutoLang
