import AutoLang.Proofs.Parse.Agreeing
import AutoLang.Proofs.Parse.Evaluation
import AutoLang.Proofs.Parse.Soundness
import AutoLang.Proofs.Token.Gaps
import Mathlib

/-! The program depends on the significant tokens only. Texts whose tokens say the same, comments apart,
have the same program but for the places in it, and both have problems or neither has. Blanks and block
comments between two lexemes are not among these tokens, so one may have any of them. -/

namespace AutoLang

open Lexer (ofSource)

namespace Respaced

variable {ts us : List Token}

theorem of_content (blank : Prop) (h : ts.map Token.content = us.map Token.content) :
    Respaced blank ts us := by
  induction ts generalizing us with
  | nil =>
    obtain rfl := List.map_eq_nil_iff.1 h.symm
    exact .nil
  | cons t ts ih =>
    obtain ⟨u, us, rfl, hhead, htail⟩ := List.map_eq_cons_iff.1 h.symm
    obtain ⟨hk, htext⟩ := Prod.mk.inj hhead
    exact .cons hk.symm htext.symm (ih htail.symm)

end Respaced

theorem ParseState.distinct_ofLexer (source : String) (marker : Char) :
    Distinct (ofTokens { ofSource source with marker := marker }.tokens).tokens := by
  rw [tokens_ofLexer]
  exact ⟨(Lexer.terminated_drain _ #[] (by simp)).filter, Lexer.significant_apart source marker⟩

/-- two texts with the same program, places aside, and with problems in both or in neither -/
structure SameProgram (l l' : Lexer) : Prop where
  code : (Parse.ofLexer l).code.map Stmt.placeless = (Parse.ofLexer l').code.map Stmt.placeless
  errors : (Parse.ofLexer l).errors = [] ↔ (Parse.ofLexer l').errors = []

/-- what is parsed of texts whose significant tokens agree; where there may be more newlines in the
second, the first has to be without problems -/
theorem sameProgram_of_respaced {blank : Prop} {p q : String} {m m' : Char}
    (h : Respaced blank { ofSource p with marker := m }.significant
      { ofSource q with marker := m' }.significant)
    (hclean : blank → (Parse.ofLexer { ofSource p with marker := m }).errors = []) :
    SameProgram { ofSource p with marker := m } { ofSource q with marker := m' } := by
  have halike : ParseState.Alike blank (.ofTokens { ofSource p with marker := m }.tokens)
      (.ofTokens { ofSource q with marker := m' }.tokens) := by
    constructor
    case tokens => rwa [ParseState.tokens_ofLexer, ParseState.tokens_ofLexer]
    case left => exact ParseState.distinct_ofLexer p m
    case right => exact ParseState.distinct_ofLexer q m'
    case clean =>
      exact iff_of_true (ParseState.clean_ofTokens _) (ParseState.clean_ofTokens _)
  obtain ⟨hcode, hend⟩ := Parse.agrees_code halike fun hb => Parse.errors_eq_nil_iff.1 (hclean hb)
  constructor
  case code => rwa [Parse.ofLexer_code, Parse.ofLexer_code]
  case errors => rw [Parse.errors_eq_nil_iff, Parse.errors_eq_nil_iff, hend.clean]

/-- Texts whose tokens agree in kind and text once comments are removed have the same program. So it is
for texts that differ in the blanks and block comments between two of their lexemes. -/
theorem program_of_significant :
    (∀ (p q : String) (m m' : Char),
      { ofSource p with marker := m }.significant.map Token.content =
        { ofSource q with marker := m' }.significant.map Token.content →
      SameProgram { ofSource p with marker := m } { ofSource q with marker := m' }) ∧
    ∀ (a g g' b : String) (m : Char) (ps qs : List Piece) (frames : List Frame),
      InCode frames → Gap g.toList → Gap g'.toList →
      Leads m [] (a ++ (g ++ b)).toList ps frames (g ++ b).toList →
      Leads m [] (a ++ (g' ++ b)).toList qs frames (g' ++ b).toList →
      contents ps = contents qs →
      SameProgram { ofSource (a ++ (g ++ b)) with marker := m }
        { ofSource (a ++ (g' ++ b)) with marker := m } := by
  have htokens (p q : String) (m m' : Char)
      (h : { ofSource p with marker := m }.significant.map Token.content =
        { ofSource q with marker := m' }.significant.map Token.content) :=
    sameProgram_of_respaced (.of_content False h) False.elim
  refine ⟨htokens, fun a g g' b m ps qs frames hf hg hg' h h' heq => htokens _ _ m m ?_⟩
  rw [Lexer.content_significant, Lexer.content_significant]
  simp only [String.toList_append] at h h' ⊢
  rw [Scan.contents_gap hf hg hg' h h' heq]

theorem program_of_significant_sample :
    { ofSource "f(1) /* f */ + @x" with marker := '$' }.significant.map Token.content =
        { ofSource "f( 1 )+@x//" with marker := '@' }.significant.map Token.content ∧
      SameProgram { ofSource "f(1) /* f */ + @x" with marker := '$' }
        { ofSource "f( 1 )+@x//" with marker := '@' } ∧
      SameProgram { ofSource ("1" ++ (" /* * */\t" ++ "-2")) with marker := '$' }
        { ofSource ("1" ++ ("" ++ "-2")) with marker := '$' } := by
  have left : (Lexer.runTokens? 100 "f(1) /* f */ + @x" '$').isSome := by decide
  have right : (Lexer.runTokens? 100 "f( 1 )+@x//" '@').isSome := by decide
  have same : { ofSource "f(1) /* f */ + @x" with marker := '$' }.significant.map Token.content =
      { ofSource "f( 1 )+@x//" with marker := '@' }.significant.map Token.content := by
    rw [Lexer.significant, Lexer.significant, Lexer.tokens_of_runTokens left,
      Lexer.tokens_of_runTokens right]
    decide
  have comment : Lexeme.commentBody ([' ', '*', ' '] ++ ['*', '/']) = some [' ', '*', ' '] := rfl
  have gap : Gap " /* * */\t".toList := .blank rfl (.comment comment (.blank rfl .nil))
  have spaced : Move.ofFrame '$' .outside ("1" ++ (" /* * */\t" ++ "-2")).toList =
      .go [.blank [], .plain .int ['1']] [] := by
    decide
  have joined : Move.ofFrame '$' .outside ("1" ++ ("" ++ "-2")).toList =
      .go [.blank [], .plain .int ['1']] [] := by
    decide
  exact ⟨same, program_of_significant.1 _ _ _ _ same,
    program_of_significant.2 _ _ _ _ _ _ _ _ .outside gap .nil (.next (.single spaced rfl))
      (.next (.single joined rfl)) rfl⟩

end AutoLang
