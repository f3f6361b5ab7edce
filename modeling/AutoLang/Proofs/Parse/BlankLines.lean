import AutoLang.Proofs.Parse.Significant
import Mathlib

/-! Blank lines. One newline more behind a newline token is one newline token more, and the rest of the
text is read as before. The parser takes many newlines for one, but for the newline between the branches
of a condition: `else` may begin the next line, and no later one. -/

namespace AutoLang

open Lexer (ofSource endToken)

/-- a newline token that comes twice in the second list and not before an `else` -/
theorem Respaced.again_of_content {t : Token} {ts us vs : List Token}
    (h : vs.map Token.content = (ts ++ t :: t :: us).map Token.content) (hk : t.kind = .newline)
    (hnext : ∀ u ∈ us.head?, u.kind ≠ .elseKw) : Respaced True (ts ++ t :: us) vs := by
  induction ts generalizing vs with
  | nil =>
    obtain ⟨v, vs, rfl, hhead, hrest⟩ := List.map_eq_cons_iff.1 h
    obtain ⟨hkind, htext⟩ := Prod.mk.inj hhead
    obtain ⟨w, vs, rfl, -, -⟩ := List.map_eq_cons_iff.1 hrest
    exact .again trivial hk (hkind.trans hk) htext.symm hnext (.of_content True hrest.symm)
  | cons a ts ih =>
    obtain ⟨v, vs, rfl, hhead, hrest⟩ := List.map_eq_cons_iff.1 h
    obtain ⟨hkind, htext⟩ := Prod.mk.inj hhead
    exact .cons hkind.symm htext.symm (ih hrest)

/-- a newline is no comment -/
theorem filter_newline {t : Token} (hk : t.kind = .newline) (ts : List Token) :
    (t :: ts).filter (!·.kind.isTrivia) = t :: ts.filter (!·.kind.isTrivia) :=
  List.filter_cons_of_pos (by rw [hk]; rfl)

/-- the piece that a token was made of, with the pieces before and behind it -/
theorem locate_eq_append_cons {m : Mark} {ps : List Piece} {ts us : List Token} {t : Token}
    (h : locate m ps = ts ++ t :: us) :
    ∃ qs p rs, ps = qs ++ p :: rs ∧ p.kind = some t.kind ∧ p.text = t.text ∧
      t.span.offset = (m.pastAll (rawOf qs)).offset ∧ locate m qs = ts ∧
      locate ((m.pastAll (rawOf qs)).pastAll p.raw) rs = us := by
  induction ps generalizing m ts with
  | nil => cases ts <;> cases h
  | cons p ps ih =>
    have hpast (qs : List Piece) :
        m.pastAll (rawOf (p :: qs)) = (m.pastAll p.raw).pastAll (rawOf qs) := by
      rw [rawOf_cons, Mark.pastAll_append]
    cases hk : p.kind with
    | none =>
      simp only [locate, hk] at h
      obtain ⟨qs, q, rs, rfl, hq, htext, hoffset, hts, hus⟩ := ih h
      refine ⟨p :: qs, q, rs, rfl, hq, htext, ?_, ?_, ?_⟩
      · rw [hpast, hoffset]
      · simp only [locate, hk, hts]
      · rw [hpast, hus]
    | some k =>
      simp only [locate, hk] at h
      cases ts with
      | nil =>
        obtain ⟨rfl, rfl⟩ := List.cons.inj h
        exact ⟨[], p, ps, rfl, hk, rfl, rfl, rfl, rfl⟩
      | cons a ts =>
        obtain ⟨rfl, htail⟩ := List.cons.inj h
        obtain ⟨qs, q, rs, rfl, hq, htext, hoffset, rfl, hus⟩ := ih htail
        refine ⟨p :: qs, q, rs, rfl, hq, htext, ?_, ?_, ?_⟩
        · rw [hpast, hoffset]
        · simp only [locate, hk]
        · rw [hpast, hus]

namespace Lexer

variable {source : String} {marker : Char} {t : Token} {ts us : List Token}

/-- the pieces of a text without problems with tokens make up the text -/
theorem rawOf_pieces (h : { ofSource source with marker := marker }.allErrors = []) :
    rawOf (Scan.whole marker source.toList).pieces = source.toList := by
  obtain ⟨cut, hend⟩ := Scan.cut_whole marker source.toList
  simpa [hend (finished_of_allErrors h)] using cut.text.symm

/-- one newline more right behind a newline token is a token more, and nothing else changes -/
theorem significant_newline (h : { ofSource source with marker := marker }.allErrors = [])
    (htokens : { ofSource source with marker := marker }.tokens = ts ++ t :: us)
    (hk : t.kind = .newline) :
    ∃ a b : String, source = a ++ "\n" ++ b ∧ t.span.offset = a.utf8ByteSize ∧
      { ofSource (a ++ "\n\n" ++ b) with marker := marker }.allErrors = [] ∧
      { ofSource (a ++ "\n\n" ++ b) with marker := marker }.significant.map Token.content =
        ((ts ++ t :: t :: us).filter (!·.kind.isTrivia)).map Token.content := by
  have hfinished := finished_of_allErrors h
  rw [(tokens_of_finished hfinished).1] at htokens
  -- the end token is no newline, so it is one of those behind
  obtain ⟨us, rfl, hlocate⟩ : ∃ vs, us = vs ++ [endToken
      (Mark.origin.pastAll (rawOf (Scan.whole marker source.toList).pieces))] ∧
      locate .origin (Scan.whole marker source.toList).pieces = ts ++ t :: vs := by
    rcases List.eq_nil_or_concat us with rfl | ⟨vs, v, rfl⟩
    · have hlast := (List.append_inj' htokens rfl).2
      rw [← (List.cons.inj hlast).1] at hk
      cases hk
    · rw [List.concat_eq_append, ← List.cons_append, ← List.append_assoc] at htokens
      obtain ⟨hinit, hlast⟩ := List.append_inj' htokens rfl
      exact ⟨vs, by rw [List.concat_eq_append, hlast], hinit⟩
  obtain ⟨ps, p, qs, hpieces, hp, htext, hoffset, hts, hus⟩ := locate_eq_append_cons hlocate
  rw [hk] at hp
  obtain rfl := (Scan.halts_whole hfinished).eq_newline (p := p) (by simp [hpieces]) hp
  have hsource : source.toList = rawOf ps ++ '\n' :: rawOf qs := by
    rw [← rawOf_pieces h, hpieces, rawOf_append]
    rfl
  have hmore : (String.ofList (rawOf ps) ++ "\n\n" ++ String.ofList (rawOf qs)).toList =
      rawOf ps ++ '\n' :: '\n' :: rawOf qs := by
    simp
  rw [hsource] at hpieces hfinished
  obtain ⟨hagain, hhalt⟩ := Scan.whole_newline hpieces
  refine ⟨String.ofList (rawOf ps), String.ofList (rawOf qs), ?_, ?_, ?_, ?_⟩
  · rw [← String.toList_inj, hsource]
    simp
  · rw [hoffset, Mark.offset_pastAll, ← length_utf8_toList, String.toList_ofList]
    exact Nat.zero_add _
  · refine (tokens_of_finished ?_).2
    rw [hmore, hhalt, hfinished]
  · have hcontent : t.content = (.newline, "\n") := Prod.ext hk htext.symm
    rw [content_significant, hmore, hagain, List.filter_append, filter_newline hk,
      filter_newline hk, List.filter_append, ← hts, ← hus, contents_append]
    simp only [List.map_append, List.map_cons, contents_locate, hcontent, List.append_assoc]
    rfl

end Lexer

/-- One newline more behind a newline token of a text without problems leaves the text without problems
and its program the same, places aside, unless the next token but for comments is an `else`. -/
theorem program_of_blank_line (source : String) (marker : Char) (t : Token) (ts us : List Token)
    (hclean : (Parse.ofLexer { ofSource source with marker := marker }).diagnostics = [])
    (htokens : { ofSource source with marker := marker }.tokens = ts ++ t :: us)
    (hk : t.kind = .newline)
    (hnext : ∀ u ∈ (us.filter (!·.kind.isTrivia)).head?, u.kind ≠ .elseKw) :
    ∃ a b : String, source = a ++ "\n" ++ b ∧ t.span.offset = a.utf8ByteSize ∧
      (Parse.ofLexer { ofSource (a ++ "\n\n" ++ b) with marker := marker }).diagnostics = [] ∧
      (Parse.ofLexer { ofSource (a ++ "\n\n" ++ b) with marker := marker }).code.map
          Stmt.placeless =
        (Parse.ofLexer { ofSource source with marker := marker }).code.map Stmt.placeless := by
  obtain ⟨hlex, herrors⟩ := List.append_eq_nil_iff.1 hclean
  obtain ⟨a, b, hsource, hoffset, hlex', hcontent⟩ := Lexer.significant_newline hlex htokens hk
  rw [List.filter_append, filter_newline hk, filter_newline hk] at hcontent
  have hspaced := Respaced.again_of_content hcontent hk hnext
  have hsignificant : { ofSource source with marker := marker }.significant =
      ts.filter (!·.kind.isTrivia) ++ t :: us.filter (!·.kind.isTrivia) := by
    rw [Lexer.significant, htokens, List.filter_append, filter_newline hk]
  rw [← hsignificant] at hspaced
  have hsame := sameProgram_of_respaced hspaced fun _ => herrors
  exact ⟨a, b, hsource, hoffset, List.append_eq_nil_iff.2 ⟨hlex', hsame.errors.1 herrors⟩,
    hsame.code.symm⟩

theorem program_of_blank_line_sum :
    (Parse.ofLexer { ofSource "a +\nb" with marker := '$' }).diagnostics = [] ∧
      ∃ a b : String, "a +\nb" = a ++ "\n" ++ b ∧ 3 = a.utf8ByteSize ∧
        (Parse.ofLexer { ofSource (a ++ "\n\n" ++ b) with marker := '$' }).diagnostics = [] ∧
        (Parse.ofLexer { ofSource (a ++ "\n\n" ++ b) with marker := '$' }).code.map
            Stmt.placeless =
          (Parse.ofLexer { ofSource "a +\nb" with marker := '$' }).code.map Stmt.placeless := by
  have run : Parse.runsClean 10 "a +\nb" '$' = true := by decide +kernel
  have clean := Parse.diagnostics_of_runsClean run
  have tokens : { ofSource "a +\nb" with marker := '$' }.tokens =
      [⟨.ident, ⟨1, 0, 0, 1⟩, "a"⟩, ⟨.plus, ⟨1, 2, 2, 1⟩, "+"⟩] ++
        ⟨.newline, ⟨1, 3, 3, 1⟩, "\n"⟩ ::
          [⟨.ident, ⟨2, 0, 4, 1⟩, "b"⟩, ⟨.eof, ⟨2, 1, 5, 0⟩, ""⟩] := by
    have read : (Lexer.runTokens? 10 "a +\nb" '$').isSome := by decide
    rw [Lexer.tokens_of_runTokens read]
    decide
  exact ⟨clean, program_of_blank_line _ _ _ _ _ clean tokens rfl (by decide)⟩

/-- before an `else` a newline stands alone -/
theorem blank_line_before_else :
    (Parse.ofLexer { ofSource ("if a \x7bb\x7d" ++ "\n" ++ "else c") with
        marker := '$' }).diagnostics = [] ∧
      (∃ t ∈ { ofSource ("if a \x7bb\x7d" ++ "\n" ++ "else c") with marker := '$' }.tokens,
        t.kind = .newline ∧ t.span.offset = "if a \x7bb\x7d".utf8ByteSize) ∧
      (Parse.ofLexer { ofSource ("if a \x7bb\x7d" ++ "\n\n" ++ "else c") with
        marker := '$' }).diagnostics ≠ [] := by
  have run : Parse.runsClean 20 ("if a \x7bb\x7d" ++ "\n" ++ "else c") '$' = true := by
    decide +kernel
  have one : (Lexer.runTokens? 20 ("if a \x7bb\x7d" ++ "\n" ++ "else c") '$').isSome := by
    decide
  have two : (Lexer.runTokens? 20 ("if a \x7bb\x7d" ++ "\n\n" ++ "else c") '$').isSome := by
    decide
  have kept : (Parse.code.run (.ofTokens ((Lexer.runTokens? 20
      ("if a \x7bb\x7d" ++ "\n\n" ++ "else c") '$').getD []))).2.problems.kept.isEmpty = false := by
    decide +kernel
  refine ⟨Parse.diagnostics_of_runsClean run, ?_, fun clean => ?_⟩
  · rw [Lexer.tokens_of_runTokens one]
    decide
  · cases kept.symm.trans (Parse.kept_of_diagnostics two clean)

end AutoLang
