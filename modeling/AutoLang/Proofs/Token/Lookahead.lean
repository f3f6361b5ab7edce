import AutoLang.Proofs.Token.Seam
import Mathlib

/-! A lexeme or a move that ends in front of a newline is made without a look behind it. So the rest of
the text may be exchanged there, also inside of an interpolation and behind a literal that is not
closed. -/

namespace AutoLang

namespace Lexeme

variable {cs ds : List Char}

theorem stringBody_of_fits (h : (stringBody (cs ++ ds)).1.length < cs.length) :
    (stringBody cs).2 = true := by
  fun_induction stringBody cs with
  | case1 => cases h
  | case2 cs => rfl
  | case3 c cs body closed hb ih =>
    rw [hb] at ih
    refine ih ?_
    simpa [stringBody] using h
  | case4 c cs hq hesc body closed hb ih =>
    rw [hb] at ih
    cases cs with
    | nil =>
      have hpos : 1 ≤ (stringBody (c :: ds)).1.length := by
        unfold stringBody
        split <;> simp_all
      simp only [List.cons_append, List.nil_append, List.length_singleton] at h
      omega
    | cons d cs =>
      refine ih ?_
      simp_all [stringBody]

theorem string_fits {kind : TokenKind} {opening : List Char} (es : List Char) (hds : ds ≠ [])
    (h : (string kind opening (cs ++ ds)).raw.length ≤ opening.length + cs.length) :
    string kind opening (cs ++ es) = string kind opening (cs ++ ds) := by
  have hclosed : (stringBody cs).2 = true := by
    obtain ⟨rest, htext, hrest⟩ := stringBody_append (cs ++ ds)
    cases hb : (stringBody (cs ++ ds)).2 with
    | true =>
      refine stringBody_of_fits (show (stringBody (cs ++ ds)).1.length < cs.length from ?_)
      simp only [string, hb, if_true, List.length_append, List.length_singleton] at h
      omega
    | false =>
      -- it would take the rest of the text
      have hpos := List.length_pos_iff.2 hds
      have hlen := congrArg List.length htext
      rw [hrest hb] at hlen
      simp [string, hb] at h hlen
      omega
  rw [string_seam _ hclosed, string_seam _ hclosed]

theorem character_fits (es : List Char)
    (h : (character (cs ++ '\n' :: ds)).raw.length ≤ cs.length + 1) :
    character (cs ++ '\n' :: es) = character (cs ++ '\n' :: ds) := by
  have htake (cs : List Char) : (cs ++ '\n' :: es).take 1 = (cs ++ '\n' :: ds).take 1 := by
    cases cs <;> rfl
  cases cs with
  | nil =>
    simp [character, charBody] at h
  | cons c cs =>
    by_cases hc : c = '\\'
    · subst hc
      cases cs with
      | nil => simp [character, charBody] at h
      | cons d cs => simp [character, charBody, htake]
    · simp [character, charBody, hc, htake]

theorem commentBody_fits {body : List Char} (h : commentBody (cs ++ ds) = some body)
    (hfit : body.length + 2 ≤ cs.length) : commentBody cs = some body := by
  induction cs generalizing body with
  | nil => cases hfit
  | cons c cs ih =>
    cases cs with
    | nil => simp at hfit
    | cons d cs =>
      by_cases hend : c = '*' ∧ d = '/'
      · obtain ⟨rfl, rfl⟩ := hend
        exact h
      · have hstep (es : List Char) :
            commentBody (c :: d :: es) = (commentBody (d :: es)).map (c :: ·) := by
          rw [commentBody]
          rintro tail rfl heq
          exact hend ⟨rfl, (List.cons.inj heq).1⟩
        rw [List.cons_append, List.cons_append, hstep] at h
        obtain ⟨tail, htail, rfl⟩ := Option.map_eq_some_iff.1 h
        rw [hstep, ih htail (by simpa using hfit)]
        rfl

theorem ofText_fits {ps : List Piece} (h : ofText (cs ++ '\n' :: ds) = .whole ps)
    (hfit : (rawOf ps).length ≤ cs.length) (es : List Char) :
    ofText (cs ++ '\n' :: es) = .whole ps := by
  have hone {p : Piece} (hp : ps = [p]) : p.raw.length ≤ cs.length := by
    subst hp
    simpa using hfit
  cases cs with
  | nil =>
    cases h
    cases hfit
  | cons c cs =>
    rw [List.cons_append] at h ⊢
    unfold ofText at h
    split at h
    case h_1 heq => cases heq
    case h_10 hnewline hcstr hformat htick hstr hchar hline hblock heq =>
      obtain ⟨rfl, rfl⟩ := List.cons.inj heq
      -- a second character that decides the lexeme is no newline, so it is the same in both texts
      unfold ofText
      split
      case h_1 heq => cases heq
      case h_10 heq =>
        obtain ⟨rfl, rfl⟩ := List.cons.inj heq
        simpa only [number_seam, word_seam, ← List.cons_append, symbol?_seam] using h
      all_goals rename_i heq
      case h_2 => exact (hnewline (List.cons.inj heq).1).elim
      case h_5 => exact (htick (List.cons.inj heq).1).elim
      case h_6 => exact (hstr (List.cons.inj heq).1).elim
      case h_7 => exact (hchar (List.cons.inj heq).1).elim
      all_goals
        obtain ⟨hc, htail⟩ := List.cons.inj heq
        obtain ⟨cs, rfl⟩ := head_seam htail (by decide)
      case h_3 => exact (hcstr _ hc rfl).elim
      case h_4 => exact (hformat _ hc rfl).elim
      case h_8 => exact (hline _ hc rfl).elim
      case h_9 => exact (hblock _ hc rfl).elim
    all_goals rename_i heq
    case h_2 =>
      obtain ⟨rfl, -⟩ := List.cons.inj heq
      exact h
    case h_4 | h_5 => cases h
    all_goals obtain ⟨rfl, htail⟩ := List.cons.inj heq
    case h_6 =>
      subst htail
      cases h
      refine congrArg (fun p => Lexeme.whole [p]) (string_fits _ (List.cons_ne_nil _ _) ?_)
      exact (hone rfl).trans_eq (by simp [Nat.add_comm])
    case h_7 =>
      subst htail
      cases h
      exact congrArg (fun p => Lexeme.whole [p]) (character_fits es (hone rfl))
    all_goals obtain ⟨cs, rfl⟩ := head_seam htail (by decide)
    all_goals obtain ⟨-, rfl⟩ := List.cons.inj htail
    case h_3 =>
      cases h
      refine congrArg (fun p => Lexeme.whole [p]) (string_fits _ (List.cons_ne_nil _ _) ?_)
      exact (hone rfl).trans_eq (Nat.add_comm cs.length 2)
    case h_8 =>
      rw [← h]
      change Lexeme.whole [_, Piece.plain .commentText ((cs ++ '\n' :: es).takeWhile (· != '\n'))] =
        Lexeme.whole [_, Piece.plain .commentText ((cs ++ '\n' :: ds).takeWhile (· != '\n'))]
      rw [takeWhile_seam cs es rfl, takeWhile_seam cs ds rfl]
    case h_9 =>
      change blockComment (cs ++ '\n' :: es) = _
      unfold blockComment at h ⊢
      split at h
      · cases h
      · rename_i body hbody
        rw [← h, commentBody_append_of_some _ (commentBody_fits hbody ?_)]
        cases h
        simpa using hfit

theorem ofText_format_fits {p : Piece} {close : Char}
    (h : ofText (cs ++ '\n' :: ds) = .format p close) (es : List Char) :
    ofText (cs ++ '\n' :: es) = .format p close := by
  rcases ofText_format_cases h with ⟨after, heq, -⟩ | ⟨after, heq, -⟩
  · obtain ⟨cs, rfl⟩ := head_seam heq (by decide)
    obtain ⟨cs, rfl⟩ := head_seam (List.cons.inj heq).2 (by decide)
    exact h
  · obtain ⟨cs, rfl⟩ := head_seam heq (by decide)
    exact h

end Lexeme

namespace Move

variable {marker : Char} {frame : Frame} {frames new : List Frame} {cs ds : List Char}
  {ps : List Piece}

theorem ofLexeme_fits (h : ofLexeme frames (cs ++ '\n' :: ds) = .go ps new)
    (hfit : (rawOf ps).length ≤ cs.length) (es : List Char) :
    ofLexeme frames (cs ++ '\n' :: es) = .go ps new := by
  have hlen := congrArg List.length (List.takeWhile_append_dropWhile (p := Lexeme.isBlank) (l := cs))
  rw [List.length_append] at hlen
  unfold ofLexeme at h ⊢
  rw [takeWhile_seam cs _ rfl, dropWhile_seam cs _ rfl] at h ⊢
  dsimp only at h ⊢
  split at h
  · rename_i qs hqs
    cases h
    rw [rawOf_cons, Piece.raw_blank, List.length_append] at hfit
    rw [Lexeme.ofText_fits hqs (by omega)]
  · rename_i p close hp
    rw [Lexeme.ofText_format_fits hp, ← h]
  · cases h

theorem textRun_fits {close : Char}
    (h : (textRun marker close (cs ++ '\n' :: ds)).length < cs.length) (es : List Char) :
    textRun marker close (cs ++ '\n' :: es) = textRun marker close (cs ++ '\n' :: ds) := by
  induction cs with
  | nil => cases h
  | cons c cs ih =>
    have hopens : opensInterpolation marker (c :: (cs ++ '\n' :: es)) =
        opensInterpolation marker (c :: (cs ++ '\n' :: ds)) := by
      cases cs <;> rfl
    rw [List.cons_append, textRun] at h
    rw [List.cons_append, List.cons_append, textRun, textRun, hopens]
    split at h
    · rename_i hstop
      rw [if_pos hstop, if_pos hstop]
    · rename_i hgo
      rw [if_neg hgo, if_neg hgo, ih (by simpa using h)]

/-- literal text makes a piece unless there is none -/
theorem rawOf_textPart (run : List Char) :
    rawOf (if run.isEmpty then [] else [Piece.plain .formatText run]) = run := by
  cases run <;> simp

/-- a move takes the literal text and, unless the text ends there, something behind it -/
theorem length_textRun {close : Char} (h : ofFormatText marker close cs = .go ps new) :
    (textRun marker close cs).length ≤ (rawOf ps).length ∧
      (cs.drop (textRun marker close cs).length ≠ [] →
        (textRun marker close cs).length < (rawOf ps).length) := by
  unfold ofFormatText at h
  dsimp only at h
  generalize textRun marker close cs = run at h ⊢
  split at h
  · rename_i hend
    cases h
    rw [rawOf_textPart]
    exact ⟨le_rfl, fun hne => absurd hend hne⟩
  · have hlt : run.length < (rawOf ps).length := by
      split at h
      · cases h
        rw [rawOf_append, rawOf_textPart]
        simp
      · split at h <;>
        · cases h
          rw [rawOf_append, rawOf_textPart]
          simp
    exact ⟨hlt.le, fun _ => hlt⟩

theorem ofFormatText_fits {close : Char}
    (h : ofFormatText marker close (cs ++ '\n' :: ds) = .go ps new)
    (hfit : (rawOf ps).length ≤ cs.length) (es : List Char) :
    ofFormatText marker close (cs ++ '\n' :: es) = .go ps new := by
  have hrun : (textRun marker close (cs ++ '\n' :: ds)).length < cs.length := by
    obtain ⟨hle, hlt⟩ := length_textRun h
    by_cases hend : (cs ++ '\n' :: ds).drop (textRun marker close (cs ++ '\n' :: ds)).length = []
    · have := List.drop_eq_nil_iff.1 hend
      rw [List.length_append, List.length_cons] at this
      omega
    · exact (hlt hend).trans_le hfit
  unfold ofFormatText at h ⊢
  dsimp only at h ⊢
  rw [textRun_fits hrun]
  generalize textRun marker close (cs ++ '\n' :: ds) = run at h hrun
  rw [List.drop_append_of_le_length hrun.le] at h ⊢
  obtain ⟨c, after, hd⟩ := List.exists_cons_of_ne_nil (List.drop_eq_nil_iff.not.2 hrun.not_ge)
  rw [hd, List.cons_append] at h ⊢
  dsimp only at h ⊢
  split at h
  · rename_i hc
    rw [if_pos hc, h]
  · rename_i hc
    rw [if_neg hc]
    split at h
    · rename_i inner hinner
      obtain ⟨after, rfl⟩ := Lexeme.head_seam hinner (by decide)
      exact h
    · rename_i hb
      split
      · rename_i inner hinner
        obtain ⟨after, rfl⟩ := Lexeme.head_seam hinner (by decide)
        exact (hb _ rfl).elim
      · rw [takeWhile_seam after _ rfl] at h ⊢
        exact h

/-- a move that ends in front of a newline is the same whatever comes behind the newline -/
theorem ofFrame_fits (h : ofFrame marker frame (cs ++ '\n' :: ds) = .go ps new)
    (hfit : (rawOf ps).length ≤ cs.length) (es : List Char) :
    ofFrame marker frame (cs ++ '\n' :: es) = .go ps new := by
  cases frame with
  | outside => exact ofLexeme_fits h hfit es
  | text close => exact ofFormatText_fits h hfit es
  | braces outer =>
    unfold ofFrame at h ⊢
    dsimp only at h ⊢
    rw [dropWhile_seam cs _ rfl] at h ⊢
    cases hcs : cs.dropWhile Lexeme.isBlank with
    | nil =>
      rw [hcs] at h
      exact ofLexeme_fits h hfit es
    | cons c after =>
      rw [hcs] at h
      exact ofLexeme_fits h hfit es

end Move

end AutoLang
