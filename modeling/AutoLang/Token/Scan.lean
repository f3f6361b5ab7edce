import AutoLang.Token.Frame
/-! One whole lexeme at a time: moves are made until no frame is left. Every move that leaves a frame
in place reads at least one character, so this ends. -/

namespace AutoLang

theorem TokenKind.symbol?_pos {cs : List Char} {k : TokenKind} (h : symbol? cs = some k) :
    0 < k.name.toList.length := by
  have all : ∀ k ∈ symbols, 0 < k.name.toList.length := by decide
  exact all k (List.mem_of_find?_eq_some h)

theorem Lexeme.raw_number_pos (c : Char) (cs : List Char) : 0 < (number c cs).raw.length := by
  simp only [number, Piece.raw_plain]
  split <;> simp

theorem Lexeme.ofText_whole_pos {cs : List Char} {ps : List Piece} (h : ofText cs = .whole ps) :
    0 < (rawOf ps).length := by
  unfold ofText at h
  split at h
  case h_9 =>
    unfold blockComment at h
    split at h
    · contradiction
    · cases h
      simp
  case h_10 =>
    split at h
    · cases h
      simpa using raw_number_pos _ _
    · split at h
      · cases h
        simp [word]
      · split at h
        case h_1 k hk =>
          cases h
          simpa using TokenKind.symbol?_pos hk
        case h_2 => contradiction
  all_goals cases h
  all_goals simp [string, character]

theorem Lexeme.ofText_format_pos {cs : List Char} {p : Piece} {close : Char}
    (h : ofText cs = .format p close) : 0 < p.raw.length := by
  unfold ofText at h
  split at h
  case h_4 | h_5 =>
    cases h
    simp
  case h_9 =>
    unfold blockComment at h
    split at h <;> contradiction
  case h_10 =>
    split at h
    · contradiction
    · split at h
      · contradiction
      · split at h <;> contradiction
  all_goals contradiction

theorem Move.ofLexeme_pos {cs : List Char} {ps : List Piece} {frames frames' : List Frame}
    (h : ofLexeme frames cs = .go ps frames') : 0 < (rawOf ps).length := by
  unfold ofLexeme at h
  split at h
  case h_1 qs hq =>
    cases h
    have := Lexeme.ofText_whole_pos hq
    simp only [rawOf_cons, List.length_append]
    omega
  case h_2 p c hp =>
    cases h
    have := Lexeme.ofText_format_pos hp
    simp only [rawOf_cons, List.length_append]
    omega
  case h_3 => contradiction

theorem Move.ofLexeme_nil (frames : List Frame) :
    ofLexeme frames [] = .halt [.blank []] .finished := rfl

/-- a move that leaves a frame in place shortens the text -/
theorem Move.ofFrame_shortens {marker : Char} {frame : Frame} {cs : List Char} {ps : List Piece}
    {frames : List Frame} (h : ofFrame marker frame cs = .go ps frames) :
    (cs.drop (rawOf ps).length).length < cs.length ∨ frames = [] := by
  have shorter (hp : 0 < (rawOf ps).length) (hc : cs ≠ []) :
      (cs.drop (rawOf ps).length).length < cs.length := by
    have := List.length_pos_iff.2 hc
    simp only [List.length_drop]
    omega
  cases frame with
  | outside =>
    refine .inl (shorter (ofLexeme_pos h) ?_)
    rintro rfl
    simp [ofFrame, ofLexeme_nil] at h
  | text close =>
    simp only [ofFrame, ofFormatText] at h
    split at h
    · cases h
      exact .inr rfl
    · rename_i c after hd
      have hc : cs ≠ [] := by
        rintro rfl
        simp at hd
      split at h
      · cases h
        exact .inr rfl
      · refine .inl (shorter ?_ hc)
        split at h <;> cases h <;>
          simp only [rawOf_append, rawOf_cons, Piece.raw_plain, List.length_append,
            List.length_cons] <;> omega
  | braces outer =>
    simp only [ofFrame] at h
    split at h
    · cases h
      exact .inr rfl
    · refine .inl (shorter (ofLexeme_pos h) ?_)
      rintro rfl
      simp [ofLexeme_nil] at h

namespace Scan

/-- make moves until the frames are gone or reading halts -/
def ofFrames (marker : Char) : List Frame → List Char → Scan
  | [], cs => ⟨[], cs, none⟩
  | frame :: frames, cs =>
    match _made : Move.ofFrame marker frame cs with
    | .halt ps why => ⟨ps, cs.drop (rawOf ps).length, some why⟩
    | .go ps new =>
      let more := ofFrames marker (new ++ frames) (cs.drop (rawOf ps).length)
      ⟨ps ++ more.pieces, more.rest, more.halt⟩
termination_by frames cs => (cs.length, frames.length)
decreasing_by
  rcases Move.ofFrame_shortens _made with shorter | rfl
  · exact Prod.Lex.left _ _ shorter
  · simp only [Prod.lex_def, List.length_drop, List.nil_append, List.length_cons]
    omega

/-- the next lexeme -/
def ofText (marker : Char) (cs : List Char) : Scan := ofFrames marker [.outside] cs

theorem rest_ofFrames_le (marker : Char) (frames : List Frame) (cs : List Char) :
    (ofFrames marker frames cs).rest.length ≤ cs.length := by
  fun_induction ofFrames marker frames cs with
  | case1 => simp
  | case2 => simp
  | case3 _ _ _ _ _ _ _ ih => exact Nat.le_trans ih (by simp)

/-- a lexeme that does not halt takes at least one character -/
theorem rest_ofText_lt {marker : Char} {cs : List Char} (h : (ofText marker cs).halt = none) :
    (ofText marker cs).rest.length < cs.length := by
  unfold ofText ofFrames at h ⊢
  split at h
  · simp at h
  · rename_i ps new hm
    have hp := Move.ofLexeme_pos hm
    have hc : cs ≠ [] := by
      rintro rfl
      simp [Move.ofFrame, Move.ofLexeme_nil] at hm
    have := List.length_pos_iff.2 hc
    refine Nat.lt_of_le_of_lt (rest_ofFrames_le marker _ _) ?_
    simp only [List.length_drop]
    omega

end Scan

end AutoLang
