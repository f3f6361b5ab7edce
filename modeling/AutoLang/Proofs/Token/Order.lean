import AutoLang.Proofs.Token.Lossless
import Mathlib

/-! What a reader of tokens may rely on when nothing was reported. Tokens other than comments stand in
places of their own, so a reader sees by the place whether it moved. A marker in a format string is only
taken where it announces an interpolation, so it comes right before a brace or a name. -/

namespace AutoLang

/-- the kinds that only the inside of a format string makes -/
def TokenKind.isFormat : TokenKind → Bool
  | formatOpen | formatText | formatClose | formatMark => true
  | _ => false

/-- the kinds of tokens that open and close nothing -/
def TokenKind.isPlain : TokenKind → Bool
  | openBrace | closeBrace | eof => false
  | k => !k.isFormat

theorem TokenKind.isFormat_of_isPlain {k : TokenKind} (h : k.isPlain) : k.isFormat = false := by
  cases k <;> first | rfl | cases h

namespace Lexeme

theorem isPlain_suffix (cs : List Char) : (suffix cs).2.isPlain := by
  unfold suffix
  split <;> rfl

theorem isPlain_number (c : Char) (cs : List Char) :
    ∀ k, (number c cs).kind = some k → k.isPlain := by
  rintro k ⟨⟩
  generalize digitRun _ _ _ = run
  cases run.2
  · exact isPlain_suffix _
  · rfl

theorem isPlain_keywords : ∀ k ∈ TokenKind.keywords, k.isPlain := by decide

theorem isPlain_word (c : Char) (cs : List Char) :
    ∀ k, (word c cs).kind = some k → k.isPlain := by
  rintro k ⟨⟩
  cases hw : TokenKind.keyword? (String.ofList (c :: cs.takeWhile isWordChar)) with
  | none => rfl
  | some k => exact isPlain_keywords k (List.mem_of_find?_eq_some hw)

/-- a lexeme that begins with a brace is that brace, and no other lexeme holds one -/
theorem kinds_ofText {c : Char} {cs : List Char} {ps : List Piece} (h : ofText (c :: cs) = .whole ps) :
    c = '{' ∧ ps = [.plain .openBrace ['{']] ∨ c = '}' ∧ ps = [.plain .closeBrace ['}']] ∨
      (c ≠ '{' ∧ c ≠ '}') ∧ ∀ p ∈ ps, ∀ k, p.kind = some k → k.isPlain := by
  have opens : ofText ('{' :: cs) = .whole [.plain .openBrace ['{']] := rfl
  have closes : ofText ('}' :: cs) = .whole [.plain .closeBrace ['}']] := rfl
  by_cases ho : c = '{'
  · subst ho
    exact .inl ⟨rfl, by simpa [opens] using h.symm⟩
  by_cases hc : c = '}'
  · subst hc
    exact .inr (.inl ⟨rfl, by simpa [closes] using h.symm⟩)
  refine .inr (.inr ⟨⟨ho, hc⟩, ?_⟩)
  unfold ofText at h
  split at h
  case h_1 | h_4 | h_5 => contradiction
  case h_9 =>
    unfold blockComment at h
    split at h
    · contradiction
    · cases h
      simp [Piece.plain, TokenKind.isPlain, TokenKind.isFormat]
  case h_10 heq =>
    cases heq
    split at h
    · cases h
      simpa using isPlain_number _ _
    · split at h
      · cases h
        simpa using isPlain_word _ _
      · split at h
        · rename_i k hk
          cases h
          -- the only symbols that are not plain are the braces
          have others : ∀ k ∈ TokenKind.symbols, k.isPlain ∨ k = .openBrace ∨ k = .closeBrace := by
            decide
          have hfront : k.name.toList <+: c :: cs := by
            have found := List.find?_some hk
            exact List.isPrefixOf_iff_prefix.1 found
          rcases others k (List.mem_of_find?_eq_some hk) with hk | rfl | rfl
          · simpa [Piece.plain] using hk
          · exact absurd (List.cons_prefix_cons.1 hfront).1.symm ho
          · exact absurd (List.cons_prefix_cons.1 hfront).1.symm hc
        · contradiction
  all_goals
    cases h
    simp [Piece.plain, string, character, TokenKind.isPlain, TokenKind.isFormat]

/-- a lexeme outside of format strings makes none of their tokens -/
theorem isFormat_ofText {cs : List Char} {ps : List Piece} (h : ofText cs = .whole ps) :
    ∀ p ∈ ps, ∀ k, p.kind = some k → k.isFormat = false := by
  cases cs with
  | nil => cases h
  | cons c cs =>
    rcases kinds_ofText h with ⟨-, rfl⟩ | ⟨-, rfl⟩ | ⟨-, hps⟩
    · simp [Piece.plain, TokenKind.isFormat]
    · simp [Piece.plain, TokenKind.isFormat]
    · exact fun p hp k hk => TokenKind.isFormat_of_isPlain (hps p hp k hk)

end Lexeme

/-- every marker comes right before a brace or a name -/
def Marked : List Token → Prop
  | [] => True
  | t :: ts =>
    (t.kind = .formatMark → ∃ u ∈ ts.head?, u.kind = .openBrace ∨ u.kind = .ident) ∧ Marked ts

namespace Marked

variable {ts us : List Token}

theorem append (ht : Marked ts) (hu : Marked us) : Marked (ts ++ us) := by
  induction ts with
  | nil => exact hu
  | cons t ts ih =>
    refine ⟨fun hk => ?_, ih ht.2⟩
    obtain ⟨u, hmem, hopens⟩ := ht.1 hk
    refine ⟨u, ?_, hopens⟩
    rw [List.append_eq, List.head?_append, Option.mem_def.1 hmem]
    rfl

theorem suffix (h : Marked (ts ++ us)) : Marked us := by
  induction ts with
  | nil => exact h
  | cons t ts ih => exact ih h.2

theorem of_forall (h : ∀ t ∈ ts, t.kind ≠ .formatMark) : Marked ts := by
  induction ts with
  | nil => trivial
  | cons t ts ih =>
    rw [List.forall_mem_cons] at h
    exact ⟨fun hk => absurd hk h.1, ih h.2⟩

/-- what a marker announces is no comment -/
theorem filter (h : Marked ts) : Marked (ts.filter (!·.kind.isTrivia)) := by
  induction ts with
  | nil => trivial
  | cons t ts ih =>
    rw [List.filter_cons]
    split
    · refine ⟨fun hk => ?_, ih h.2⟩
      obtain ⟨u, hmem, hopens⟩ := h.1 hk
      cases ts with
      | nil => cases hmem
      | cons v vs =>
        obtain rfl := Option.some.inj hmem
        have hkeep : (!v.kind.isTrivia) = true := by
          rcases hopens with hv | hv <;> rw [hv] <;> rfl
        exact ⟨v, by rw [List.filter_cons, if_pos hkeep]; rfl, hopens⟩
    · exact ih h.2

end Marked

section Scan

/-- a token has the kind and the text of its piece -/
theorem piece_of_mem_locate {m : Mark} {ps : List Piece} {t : Token} (h : t ∈ locate m ps) :
    ∃ p ∈ ps, p.kind = some t.kind ∧ p.text = t.text := by
  induction ps generalizing m with
  | nil => simp [locate] at h
  | cons p ps ih =>
    rcases mem_locate_cons h with ⟨k, hk, rfl⟩ | h
    · exact ⟨p, List.mem_cons_self, hk, rfl⟩
    · obtain ⟨q, hq, hk⟩ := ih h
      exact ⟨q, List.mem_cons_of_mem p hq, hk⟩

/-- what a move reads, whether it goes on or halts -/
def Move.pieces : Move → List Piece
  | go ps _ | halt ps _ => ps

theorem marked_ofLexeme (frames : List Frame) (cs : List Char) (m : Mark) :
    Marked (locate m (Move.ofLexeme frames cs).pieces) := by
  refine .of_forall fun t ht hk => ?_
  obtain ⟨p, hp, hkind, -⟩ := piece_of_mem_locate ht
  rw [hk] at hkind
  unfold Move.ofLexeme at hp
  dsimp only at hp
  split at hp
  · rename_i qs hq
    rcases List.mem_cons.1 hp with rfl | hp
    · cases hkind
    · have := Lexeme.isFormat_ofText hq p hp _ hkind
      cases this
  · rename_i q close hq
    have hopen := Lexeme.ofText_format_token hq
    simp only [Move.pieces, List.mem_cons, List.not_mem_nil, or_false] at hp
    rcases hp with rfl | rfl
    · cases hkind
    · rw [hopen] at hkind
      cases hkind
  · obtain rfl := List.mem_singleton.1 hp
    cases hkind

theorem marked_ofFormatText (marker close : Char) (cs : List Char) (m : Mark) :
    Marked (locate m (Move.ofFormatText marker close cs).pieces) := by
  unfold Move.ofFormatText
  dsimp only
  generalize Move.textRun marker close cs = run
  have part (n : Mark) :
      Marked (locate n (if run.isEmpty then [] else [Piece.plain .formatText run])) := by
    split <;> simp [locate, Piece.plain, Marked]
  split
  · exact part m
  · split
    · rw [Move.pieces, locate_append]
      exact (part m).append (by simp [locate, Piece.plain, Marked])
    · -- the marker itself, before a brace or before a name
      split <;>
      · rw [Move.pieces, locate_append]
        exact (part m).append (by simp [locate, Piece.plain, Marked])

theorem marked_ofFrame (marker : Char) (frame : Frame) (cs : List Char) (m : Mark) :
    Marked (locate m (Move.ofFrame marker frame cs).pieces) := by
  cases frame with
  | outside => exact marked_ofLexeme [] cs m
  | text close => exact marked_ofFormatText marker close cs m
  | braces outer =>
    unfold Move.ofFrame
    dsimp only
    split
    · trivial
    · exact marked_ofLexeme _ cs m

theorem marked_ofFrames (marker : Char) (frames : List Frame) (cs : List Char) (m : Mark) :
    Marked (locate m (Scan.ofFrames marker frames cs).pieces) := by
  fun_induction Scan.ofFrames marker frames cs generalizing m with
  | case1 => trivial
  | case2 frame frames cs ps why made =>
    have h := marked_ofFrame marker frame cs m
    rwa [made] at h
  | case3 frame frames cs ps new made more ih =>
    have h := marked_ofFrame marker frame cs m
    rw [made] at h
    rw [locate_append]
    exact h.append (ih _)

theorem marked_whole (marker : Char) (cs : List Char) (m : Mark) :
    Marked (locate m (Scan.whole marker cs).pieces) := by
  fun_induction Scan.whole marker cs generalizing m with
  | case1 cs => exact marked_ofFrames marker [.outside] cs m
  | case2 cs made more ih =>
    rw [locate_append]
    exact (marked_ofFrames marker [.outside] cs m).append (ih _)

end Scan

namespace Lexer

variable {source : String} {marker : Char}

/-- the tokens that are no comments -/
def significant (l : Lexer) : List Token := l.tokens.filter (!·.kind.isTrivia)

/-- the tokens of a text that is read to its end: those of its pieces, and the end token behind them -/
theorem tokens_of_finished (hw : (Scan.whole marker source.toList).halt = some .finished) :
    { ofSource source with marker := marker }.tokens =
        locate .origin (Scan.whole marker source.toList).pieces ++
          [endToken (Mark.origin.pastAll (rawOf (Scan.whole marker source.toList).pieces))] ∧
      { ofSource source with marker := marker }.allErrors = [] :=
  tokens_of_halt hw

theorem tokens_of_allErrors (h : { ofSource source with marker := marker }.allErrors = []) :
    AllSound [] (Scan.whole marker source.toList).pieces ∧
      { ofSource source with marker := marker }.tokens =
        locate .origin (Scan.whole marker source.toList).pieces ++
          [endToken (Mark.origin.pastAll (rawOf (Scan.whole marker source.toList).pieces))] := by
  obtain ⟨why, hw⟩ := Scan.halt_whole marker source.toList
  obtain rfl := halt_of_allErrors rfl rfl hw h
  obtain ⟨cut, hr⟩ := Scan.cut_whole marker source.toList
  exact ⟨hr hw ▸ cut.sound, (tokens_of_finished hw).1⟩

theorem marked_significant (h : { ofSource source with marker := marker }.allErrors = []) :
    Marked { ofSource source with marker := marker }.significant := by
  unfold significant
  rw [(tokens_of_allErrors h).2]
  exact ((marked_whole _ _ _).append (.of_forall (by simp [endToken]))).filter

/-- the tokens of any text: those of its pieces, and the end token somewhere behind them -/
theorem tokens_of_pieces (source : String) (marker : Char) :
    ∃ beyond, { ofSource source with marker := marker }.tokens =
      locate .origin (Scan.whole marker source.toList).pieces ++
        [endToken (Mark.origin.pastAll
          (rawOf (Scan.whole marker source.toList).pieces ++ beyond))] := by
  obtain ⟨why, hw⟩ := Scan.halt_whole marker source.toList
  unfold tokens
  rw [drain_eq rfl rfl hw]
  cases why with
  | finished => exact ⟨[], by simp [atHalt, halt, finish, ofSource]⟩
  | invalid c => exact ⟨[], by simp [atHalt, halt, finish, ofSource]⟩
  | openComment =>
    -- the end token stands behind the comment
    refine ⟨(Scan.whole marker source.toList).rest, ?_⟩
    simp [atHalt, halt, finish, ofSource, Mark.pastAll_append]

/-- comments apart, no two tokens stand in the same place -/
theorem significant_apart (source : String) (marker : Char) :
    { ofSource source with marker := marker }.significant.Pairwise
      fun t u : Token => t.span ≠ u.span := by
  obtain ⟨beyond, htokens⟩ := tokens_of_pieces source marker
  have sound := (Scan.cut_whole marker source.toList).1.sound
  generalize (Scan.whole marker source.toList).pieces = ps at sound htokens
  -- a token that takes room ends behind the place where it begins
  have hne {t u : Token} (ht : t ∈ (locate .origin ps).filter fun t => !t.kind.isTrivia)
      (hle : t.span.stop ≤ u.span.offset) : t.span ≠ u.span := by
    obtain ⟨hmem, hkind⟩ := List.mem_filter.1 ht
    have hroom := locate_proper sound hmem (by rintro hk; simp [hk, TokenKind.isTrivia] at hkind)
    intro he
    rw [← he, Span.stop] at hle
    omega
  unfold significant
  rw [htokens, List.filter_append, List.pairwise_append]
  refine ⟨?_, ?_, fun t ht u hu => hne ht ?_⟩
  · exact ((locate_pairwise _ ps).filter _).imp_of_mem fun ht _ => hne ht
  · exact (List.pairwise_singleton _ _).filter _
  · obtain rfl := List.mem_singleton.1 (List.mem_filter.1 hu).1
    have hstop := (locate_bounds (List.mem_filter.1 ht).1).2
    refine hstop.trans ?_
    simp [endToken, Mark.span, Mark.offset_pastAll, utf8_append]

end Lexer

end AutoLang
