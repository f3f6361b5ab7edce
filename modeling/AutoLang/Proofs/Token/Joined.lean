import AutoLang.Proofs.Token.Seam
import AutoLang.Proofs.Tree.Shift
import Mathlib

/-! The tokens of two texts with a newline between them: those of the first, the newline, and those of
the second further down. As many format strings are closed as opened only if the first text ends inside
of none, so counting them is enough to see that no frame is open at the newline. -/

namespace AutoLang

/-- a text that ends inside of no literal: a string or a character that it ends with has both of its
quotes, and every format string that begins ends -/
structure EndsOutside (marker : Char) (cs : List Char) : Prop where
  quotes : QuotesClosed (Scan.whole marker cs).pieces
  formats : openings (Scan.whole marker cs).pieces = closings (Scan.whole marker cs).pieces

namespace Scan

variable {marker : Char} {frames : List Frame} {cs : List Char}

/-- nothing is read of a format string when the text is at its end -/
theorem formats_ofFrames_nil (marker : Char) (frames : List Frame) :
    openings (ofFrames marker frames []).pieces = 0 ∧
      closings (ofFrames marker frames []).pieces = 0 := by
  have hblank : ∀ p ∈ (ofFrames marker frames []).pieces, p.kind = none := by
    by_contra h
    push Not at h
    exact locate_ne_nil h (locate_ofFrames_nil marker frames .origin)
  have hformat : ∀ p ∈ (ofFrames marker frames []).pieces, ∀ k, p.kind = some k →
      k.isFormat = false := by
    intro p hp k hk
    rw [hblank p hp] at hk
    cases hk
  exact ⟨openings_eq_zero hformat, closings_eq_zero hformat⟩

/-- no more format strings are closed than were open; if all of them are, a newline and more behind the
text change nothing -/
theorem ofFrames_seam (hf : Nested frames) (hn : (ofFrames marker frames cs).halt = none) :
    (closings (ofFrames marker frames cs).pieces =
        openings (ofFrames marker frames cs).pieces + textFrames frames ∧
      ∀ ds, ((ofFrames marker frames cs).rest = [] →
          QuotesClosed (ofFrames marker frames cs).pieces) →
        ofFrames marker frames (cs ++ '\n' :: ds) =
          ⟨(ofFrames marker frames cs).pieces, (ofFrames marker frames cs).rest ++ '\n' :: ds,
            none⟩) ∨
    closings (ofFrames marker frames cs).pieces <
        openings (ofFrames marker frames cs).pieces + textFrames frames := by
  fun_induction ofFrames marker frames cs with
  | case1 cs => exact .inl ⟨rfl, fun ds _ => ofFrames_nil marker _⟩
  | case2 => cases hn
  | case3 frame frames cs ps new made more ih =>
    have hcount : textFrames ([frame] ++ frames) = textFrames [frame] + textFrames frames :=
      textFrames_append
    rw [List.singleton_append] at hcount
    rw [hcount]
    simp only [openings_append, closings_append]
    rcases Move.uncut_ofFrame made with uncut | cut
    · have hformats := uncut.formats
      rcases ih (uncut.nested frames hf) hn with ⟨hmore, hagain⟩ | hless
      · rw [textFrames_append] at hmore
        refine .inl ⟨by simp only [more]; omega, fun ds hq => ?_⟩
        obtain ⟨rest, cut⟩ := Move.cut_ofFrame made
        have hcut := (cut_ofFrames marker (new ++ frames) (cs.drop (rawOf ps).length)).1.text
        have hsame := uncut.again ds fun hend => by
          obtain ⟨hraw, hrest⟩ := List.append_eq_nil_iff.1 (hcut.symm.trans hend)
          exact (quotesClosed_append.1 (hq hrest)).1 hraw
        have hmore : ofFrames marker (new ++ frames) ((cs ++ '\n' :: ds).drop (rawOf ps).length) =
            ⟨more.pieces, more.rest ++ '\n' :: ds, none⟩ := by
          rw [show (cs ++ '\n' :: ds).drop (rawOf ps).length =
            cs.drop (rawOf ps).length ++ '\n' :: ds by rw [cut.drop, cut.text]; simp]
          exact hagain ds fun hrest => (quotesClosed_append.1 (hq hrest)).2
        exact ofFrames_of_go hsame hmore
      · rw [textFrames_append] at hless
        right
        simp only [more]
        omega
    · right
      have hzero := formats_ofFrames_nil marker frames
      have hpos : 0 < textFrames [frame] + textFrames frames := by
        cases hf with
        | outside => exact absurd rfl cut.inside
        | text hf => simp [textFrames]
        | braces hf => simp [textFrames]
      simp only [more, cut.frames, List.nil_append, cut.rest, cut.openings, cut.closings, hzero]
      omega

/-- inside of a format string the end of the text is no reason to stop -/
theorem ofFrames_ne_finished (h : .outside ∉ frames) :
    (ofFrames marker frames cs).halt ≠ some .finished := by
  fun_induction ofFrames marker frames cs with
  | case1 => exact (Option.some_ne_none _).symm
  | case2 frame frames cs ps why made =>
    rintro ⟨⟩
    cases frame with
    | outside => exact h List.mem_cons_self
    | text close =>
      simp only [Move.ofFrame, Move.ofFormatText] at made
      split at made
      · cases made
      · split at made
        · cases made
        · split at made <;> cases made
    | braces outer =>
      simp only [Move.ofFrame, Move.ofLexeme] at made
      split at made
      · cases made
      · rename_i c after hc
        rw [hc] at made
        split at made <;> cases made
        rename_i hend
        cases Lexeme.ofText_finished hend
  | case3 frame frames cs ps new made more ih =>
    rw [List.mem_cons, not_or] at h
    exact ih (by simp [h.2, outside_notMem made])

theorem blank_of_finished (h : (ofText marker cs).halt = some .finished) :
    cs.dropWhile Lexeme.isBlank = [] ∧
      (ofText marker cs).pieces = [.blank (cs.takeWhile Lexeme.isBlank)] := by
  unfold ofText at h ⊢
  cases made : Move.ofFrame marker .outside cs with
  | go ps new =>
    rw [ofFrames_of_go made rfl] at h
    exact absurd h (ofFrames_ne_finished (by simpa using outside_notMem made))
  | halt ps why =>
    rw [ofFrames_of_halt made] at h ⊢
    cases h
    simp only [Move.ofFrame, Move.ofLexeme] at made
    split at made <;> cases made
    rename_i hend
    exact ⟨Lexeme.ofText_finished hend, rfl⟩

/-- blanks up to the newline -/
theorem ofText_blank_seam (marker : Char) (h : cs.dropWhile Lexeme.isBlank = []) (ds : List Char) :
    ofText marker (cs ++ '\n' :: ds) =
      ⟨[.blank (cs.takeWhile Lexeme.isBlank), .plain .newline ['\n']], ds, none⟩ := by
  have made : Move.ofFrame marker .outside (cs ++ '\n' :: ds) =
      .go [.blank (cs.takeWhile Lexeme.isBlank), .plain .newline ['\n']] [] := by
    unfold Move.ofFrame Move.ofLexeme
    simp only [takeWhile_seam cs ds (show Lexeme.isBlank '\n' = false from rfl),
      dropWhile_seam cs ds (show Lexeme.isBlank '\n' = false from rfl), h]
    rfl
  have hraw : cs.takeWhile Lexeme.isBlank = cs := by
    simpa [h] using List.takeWhile_append_dropWhile (p := Lexeme.isBlank) (l := cs)
  refine (ofFrames_of_go made (ofFrames_nil marker _)).trans ?_
  simp [hraw]

/-- a text that ends inside of no literal is cut as before, whatever comes after the newline -/
theorem whole_seam (hw : (whole marker cs).halt = some .finished) :
    (closings (whole marker cs).pieces = openings (whole marker cs).pieces ∧
      ∀ ds, QuotesClosed (whole marker cs).pieces → whole marker (cs ++ '\n' :: ds) =
        ⟨(whole marker cs).pieces ++ .plain .newline ['\n'] :: (whole marker ds).pieces,
          (whole marker ds).rest, (whole marker ds).halt⟩) ∨
    closings (whole marker cs).pieces < openings (whole marker cs).pieces := by
  fun_induction whole marker cs with
  | case1 cs why made =>
    cases made.symm.trans hw
    obtain ⟨hend, hpieces⟩ := blank_of_finished made
    rw [hpieces]
    refine .inl ⟨rfl, fun ds _ => ?_⟩
    have hline := ofText_blank_seam marker hend ds
    rw [whole_of_go (by rw [hline]), hline]
    rfl
  | case2 cs made more ih =>
    have hfirst := ofFrames_seam .outside made
    have hnone : textFrames [.outside] = 0 := rfl
    rw [hnone, Nat.add_zero, show ofFrames marker [.outside] cs = ofText marker cs from rfl] at hfirst
    simp only [openings_append, closings_append]
    rcases hfirst with ⟨hsame, hagain⟩ | hless
    · rcases ih hw with ⟨hmore, hrest⟩ | hless
      · refine .inl ⟨by simp only [more]; omega, fun ds hq => ?_⟩
        obtain ⟨hquotes, hquotes'⟩ := quotesClosed_append.1 hq
        have hcut := (cut_whole marker (ofText marker cs).rest).1.text
        have hone : ofText marker (cs ++ '\n' :: ds) = _ := hagain ds fun hend =>
          hquotes (List.append_eq_nil_iff.1 (hcut.symm.trans hend)).1
        rw [whole_of_go (by rw [hone]), hone]
        simp only [more, hrest ds hquotes', List.append_assoc]
      · right
        simp only [more]
        omega
    · right
      have hle : closings more.pieces ≤ openings more.pieces := by
        rcases ih hw with ⟨hmore, -⟩ | hmore
        · exact hmore.le
        · exact hmore.le
      omega

end Scan

/-- a text that ends inside of no literal is cut as before, and after the newline reading starts over -/
theorem EndsOutside.whole {marker : Char} {cs : List Char} (h : EndsOutside marker cs)
    (hw : (Scan.whole marker cs).halt = some .finished) (ds : List Char) :
    Scan.whole marker (cs ++ '\n' :: ds) =
      ⟨(Scan.whole marker cs).pieces ++ .plain .newline ['\n'] :: (Scan.whole marker ds).pieces,
        (Scan.whole marker ds).rest, (Scan.whole marker ds).halt⟩ := by
  rcases Scan.whole_seam hw with ⟨-, hseam⟩ | hless
  · exact hseam ds h.quotes
  · exact absurd h.formats hless.ne'

/-- how many of the tokens are of a kind -/
def countKind (k : TokenKind) (ts : List Token) : Nat := ts.countP (·.kind == k)

theorem countKind_locate (k : TokenKind) (m : Mark) (ps : List Piece) :
    countKind k (locate m ps) = ps.countP (·.kind == some k) := by
  unfold countKind
  induction ps generalizing m with
  | nil => rfl
  | cons p ps ih =>
    unfold locate
    dsimp only
    split
    · rename_i hk
      rw [ih, List.countP_cons_of_neg (by simp [hk])]
    · rename_i hk
      rw [List.countP_cons, List.countP_cons, ih, hk]
      rfl

section Marks

variable (σ : Shift)

/-- the point further down -/
def Mark.shift (m : Mark) : Mark := ⟨m.line + σ.lines, m.column, m.offset + σ.bytes⟩

theorem Mark.pastAll_shift (m : Mark) (cs : List Char) :
    (m.shift σ).pastAll cs = (m.pastAll cs).shift σ := by
  induction cs generalizing m with
  | nil => rfl
  | cons c cs ih =>
    have hpast : (m.shift σ).past c = (m.past c).shift σ := by
      unfold past shift
      split <;> simp only [Mark.mk.injEq, true_and] <;> omega
    exact (congrArg (pastAll · cs) hpast).trans (ih _)

theorem locate_shift (m : Mark) (ps : List Piece) :
    locate (m.shift σ) ps = (locate m ps).map (·.shift σ) := by
  induction ps generalizing m with
  | nil => rfl
  | cons p ps ih =>
    simp only [locate, Mark.pastAll_shift, ih]
    split <;> rfl

theorem Mark.line_pastAll (m : Mark) (cs : List Char) :
    (m.pastAll cs).line = m.line + cs.count '\n' := by
  induction cs generalizing m with
  | nil => rfl
  | cons c cs ih =>
    refine (ih (m.past c)).trans ?_
    unfold past
    rw [List.count_cons]
    split
    · rename_i hc
      simp only [hc, beq_self_eq_true, if_true]
      omega
    · rename_i hc
      simp [hc]

/-- behind a text and a newline a line begins -/
theorem Mark.pastAll_newline (text : String) :
    Mark.origin.pastAll (text.toList ++ ['\n']) = Mark.origin.shift (.past text) := by
  rw [pastAll_append]
  have hline := Mark.origin.line_pastAll text.toList
  have hoffset := Mark.origin.offset_pastAll text.toList
  rw [length_utf8_toList] at hoffset
  generalize Mark.origin.pastAll text.toList = m at *
  change m.past '\n' = _
  have hsize : '\n'.utf8Size = 1 := rfl
  simp only [past, if_true, shift, Shift.past, origin, Mark.mk.injEq, true_and] at *
  omega

section Seam

variable {text : String} {ps : List Piece} (h : rawOf ps = text.toList) (qs : List Piece)

include h

theorem mark_seam :
    (Mark.origin.pastAll (rawOf ps)).pastAll ['\n'] = Mark.origin.shift (.past text) := by
  rw [← Mark.pastAll_append, h, Mark.pastAll_newline]

theorem locate_seam : locate .origin (ps ++ .plain .newline ['\n'] :: qs) = locate .origin ps ++
    ⟨.newline, (Mark.origin.pastAll (rawOf ps)).span 1, "\n"⟩ ::
      (locate .origin qs).map (Token.shift (.past text)) := by
  rw [locate_append, ← locate_shift, ← mark_seam h]
  rfl

theorem endToken_seam :
    Lexer.endToken (Mark.origin.pastAll (rawOf (ps ++ .plain .newline ['\n'] :: qs))) =
      (Lexer.endToken (Mark.origin.pastAll (rawOf qs))).shift (.past text) := by
  rw [rawOf_append, Mark.pastAll_append, rawOf_cons, Piece.raw_plain, Mark.pastAll_append,
    mark_seam h, Mark.pastAll_shift]
  rfl

end Seam

end Marks

namespace Lexer

variable {p q : String} {marker : Char}

theorem finished_of_allErrors (h : { ofSource p with marker := marker }.allErrors = []) :
    (Scan.whole marker p.toList).halt = some .finished := by
  obtain ⟨why, hw⟩ := Scan.halt_whole marker p.toList
  obtain rfl := halt_of_allErrors rfl rfl hw h
  exact hw

/-- the tokens of two texts with a newline between them -/
theorem significant_seam (hp : { ofSource p with marker := marker }.allErrors = [])
    (hq : { ofSource q with marker := marker }.allErrors = []) (ho : EndsOutside marker p.toList) :
    { ofSource (p ++ "\n" ++ q) with marker := marker }.allErrors = [] ∧
      ∃ ts last newline, newline.kind = .newline ∧
        { ofSource p with marker := marker }.significant = ts ++ [last] ∧
        { ofSource (p ++ "\n" ++ q) with marker := marker }.significant =
          ts ++ newline ::
            { ofSource q with marker := marker }.significant.map (Token.shift (.past p)) := by
  have hwp := finished_of_allErrors hp
  have hwq := finished_of_allErrors hq
  have hwhole := ho.whole hwp q.toList
  rw [show p.toList ++ '\n' :: q.toList = (p ++ "\n" ++ q).toList by simp] at hwhole
  have hraw : rawOf (Scan.whole marker p.toList).pieces = p.toList := by
    obtain ⟨cut, hend⟩ := Scan.cut_whole marker p.toList
    simpa [hend hwp] using cut.text.symm
  obtain ⟨htokens, herrors⟩ := tokens_of_finished (by rw [hwhole]; exact hwq)
  refine ⟨herrors, ?_⟩
  unfold significant
  rw [htokens, (tokens_of_finished hwp).1, (tokens_of_finished hwq).1, hwhole, locate_seam hraw,
    endToken_seam hraw]
  refine ⟨_, _, ⟨.newline, (Mark.origin.pastAll (rawOf (Scan.whole marker p.toList).pieces)).span 1,
    "\n"⟩, rfl, List.filter_append _ _, ?_⟩
  have hkeep (ts : List Token) : (ts.map (Token.shift (.past p))).filter (!·.kind.isTrivia) =
      (ts.filter (!·.kind.isTrivia)).map (Token.shift (.past p)) := by
    rw [List.filter_map]
    rfl
  rw [List.append_assoc, List.filter_append, List.cons_append, List.filter_cons_of_pos rfl,
    ← List.map_singleton, ← List.map_append, hkeep]

/-- as many format strings are closed as opened, seen from the tokens -/
theorem formats_significant (hp : { ofSource p with marker := marker }.allErrors = [])
    (ho : EndsOutside marker p.toList) :
    countKind .formatOpen { ofSource p with marker := marker }.significant =
      countKind .formatClose { ofSource p with marker := marker }.significant := by
  have hcount (k : TokenKind) (hk : k.isTrivia = false) (he : k ≠ .eof) :
      countKind k { ofSource p with marker := marker }.significant =
        (Scan.whole marker p.toList).pieces.countP (·.kind == some k) := by
    have hkept (t : Token) : ((t.kind == k) && !t.kind.isTrivia) = (t.kind == k) := by
      by_cases ht : t.kind = k <;> simp [ht, hk]
    have hlast (m : Mark) : [endToken m].countP (·.kind == k) = 0 :=
      List.countP_eq_zero.2 (by simpa [endToken] using he.symm)
    rw [← countKind_locate k .origin]
    unfold significant countKind
    rw [(tokens_of_finished (finished_of_allErrors hp)).1, List.countP_filter]
    simp only [hkept]
    rw [List.countP_append, hlast, Nat.add_zero]
  rw [hcount .formatOpen rfl (by decide), hcount .formatClose rfl (by decide)]
  exact ho.formats

end Lexer

end AutoLang
