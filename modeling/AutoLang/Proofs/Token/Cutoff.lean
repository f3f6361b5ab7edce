import AutoLang.Proofs.Token.Lookahead
import Mathlib

/-! What comes behind a text decides only how much is read, never what. A reader that stops within a
text reads the same when the text ends there: none takes less for a lack of characters, as each takes
the longest front that fits. So every move on a longer text that ends within the shorter one is made on
the shorter one too. -/

namespace AutoLang

/-- a run that ends within a text ends there if the text does -/
theorem takeWhile_within {p : Char → Bool} {cs ds : List Char}
    (h : ((cs ++ ds).takeWhile p).length ≤ cs.length) :
    (cs ++ ds).takeWhile p = cs.takeWhile p := by
  rw [List.takeWhile_append] at h ⊢
  split
  · rename_i hall
    rw [if_pos hall, List.length_append] at h
    have hnone : ds.takeWhile p = [] := List.length_eq_zero_iff.1 (by omega)
    rw [hnone, List.append_nil]
    exact ((List.takeWhile_prefix p).eq_of_length hall).symm
  · rfl

theorem dropWhile_within {p : Char → Bool} {cs ds : List Char}
    (h : ((cs ++ ds).takeWhile p).length ≤ cs.length) :
    (cs ++ ds).dropWhile p = cs.dropWhile p ++ ds := by
  have hall := List.takeWhile_append_dropWhile (p := p) (l := cs ++ ds)
  rw [takeWhile_within h] at hall
  have hsame : cs.takeWhile p ++ (cs ++ ds).dropWhile p =
      cs.takeWhile p ++ (cs.dropWhile p ++ ds) := by
    rw [hall, ← List.append_assoc, List.takeWhile_append_dropWhile]
  exact List.append_cancel_left hsame

namespace Lexeme

variable {cs ds : List Char}

theorem digitRun_within {hex dotted : Bool}
    (h : (digitRun hex dotted (cs ++ ds)).1.length ≤ cs.length) :
    digitRun hex dotted (cs ++ ds) = digitRun hex dotted cs := by
  induction cs generalizing dotted with
  | nil =>
    cases ds with
    | nil => rfl
    | cons d ds =>
      simp only [List.nil_append, digitRun] at h ⊢
      split_ifs at h ⊢ <;> simp_all
  | cons c cs ih =>
    have hhead (hp : (cs ++ ds).head?.any Char.isDigit = true)
        (hfit : (digitRun hex true (cs ++ ds)).1.length ≤ cs.length) :
        cs.head?.any Char.isDigit = true := by
      cases cs with
      | cons d cs => exact hp
      | nil =>
        -- a digit behind the point would be taken along with it
        cases ds with
        | nil => exact hp
        | cons d ds => simp_all [digitRun]
    simp only [List.cons_append, digitRun] at h ⊢
    by_cases hc : (c == '_' || c.isDigit || (hex && isHexDigit c)) = true
    · rw [if_pos hc] at h
      rw [if_pos hc, if_pos hc, ih (by simpa using h)]
    · rw [if_neg hc] at h
      rw [if_neg hc, if_neg hc]
      by_cases hp : (c == '.' && !dotted && (cs ++ ds).head?.any Char.isDigit) = true
      · rw [if_pos hp] at h
        have hfit : (digitRun hex true (cs ++ ds)).1.length ≤ cs.length := by simpa using h
        have hcs : (c == '.' && !dotted && cs.head?.any Char.isDigit) = true := by
          rw [Bool.and_eq_true] at hp ⊢
          exact ⟨hp.1, hhead hp.2 hfit⟩
        rw [if_pos hp, if_pos hcs, ih hfit]
      · have hcs : (c == '.' && !dotted && cs.head?.any Char.isDigit) ≠ true := by
          cases cs with
          | nil => simp
          | cons d cs => exact hp
        rw [if_neg hp, if_neg hcs]

theorem suffix_take (cs : List Char) : suffix (cs.take 2) = suffix cs := by
  fun_cases suffix cs with
  | case1 | case2 | case3 | case5 => rfl
  | case4 cs h | case6 cs h =>
    cases cs with
    | nil => rfl
    | cons d cs =>
      have hd : d ≠ '8' := fun hd => h cs (by rw [hd])
      simp [suffix, hd]
  | case7 cs hf hd _ hu _ hi =>
    cases cs with
    | nil => rfl
    | cons c cs => simp_all [suffix]

theorem suffix_within (h : (suffix (cs ++ ds)).1.length ≤ cs.length) :
    suffix (cs ++ ds) = suffix cs := by
  by_cases hlong : 2 ≤ cs.length
  · rw [← suffix_take cs, ← suffix_take (cs ++ ds), List.take_append_of_le_length hlong]
  · unfold suffix at h ⊢
    rcases cs with _ | ⟨c, _ | ⟨d, cs⟩⟩
    · split at h <;> simp_all
    · split at h <;> simp_all 
    · simp at hlong

theorem number_within {c : Char} (h : (number c (cs ++ ds)).raw.length ≤ (c :: cs).length) :
    number c (cs ++ ds) = number c cs := by
  have hhead : (c == '0' && (cs ++ ds).head? == some 'x') = (c == '0' && cs.head? == some 'x') := by
    cases cs with
    | cons d cs => rfl
    | nil =>
      -- the digit alone is in the text
      by_cases hx : (c == '0' && ds.head? == some 'x') = true
      · simp [number, hx] at h
      · simpa using hx
  unfold number at h ⊢
  dsimp only at h ⊢
  rw [hhead] at h ⊢
  generalize hhex : (c == '0' && cs.head? == some 'x') = hex at h ⊢
  generalize hstart : (if hex = true then [c, 'x'] else [c]) = start at h ⊢
  have hlen : start.length ≤ (c :: cs).length := by
    subst hstart hhex
    cases cs with
    | nil => simp
    | cons => split <;> simp
  rw [Piece.raw_plain, List.length_append, List.length_append, ← List.cons_append,
    List.drop_append_of_le_length hlen] at h
  have hrun : digitRun hex false ((c :: cs).drop start.length ++ ds) =
      digitRun hex false ((c :: cs).drop start.length) :=
    digitRun_within (by rw [List.length_drop]; omega)
  rw [hrun] at h
  rw [← List.cons_append, List.drop_append_of_le_length hlen, hrun]
  generalize digitRun hex false ((c :: cs).drop start.length) = run at h ⊢
  have hmid : start.length + run.1.length ≤ (c :: cs).length := by omega
  rw [List.drop_append_of_le_length hmid] at h ⊢
  rw [suffix_within (by rw [List.length_drop]; omega)]

theorem word_within {c : Char} (h : (word c (cs ++ ds)).raw.length ≤ (c :: cs).length) :
    word c (cs ++ ds) = word c cs := by
  have hrun : (cs ++ ds).takeWhile isWordChar = cs.takeWhile isWordChar :=
    takeWhile_within (by simpa [word] using h)
  simp only [word, hrun]

theorem string_within {kind : TokenKind} {opening : List Char} (hds : ds ≠ [])
    (h : (string kind opening (cs ++ ds)).raw.length ≤ opening.length + cs.length) :
    string kind opening (cs ++ ds) = string kind opening cs := by
  simpa using (string_fits [] hds h).symm

theorem character_within (hds : ds ≠ [])
    (h : (character (cs ++ ds)).raw.length ≤ cs.length + 1) :
    character (cs ++ ds) = character cs := by
  obtain ⟨e, es, rfl⟩ := List.exists_cons_of_ne_nil hds
  have hpos : 0 < (charBody (e :: es)).1.length := by
    unfold charBody
    split <;> simp_all
  rcases cs with _ | ⟨c, _ | ⟨d, cs⟩⟩
  · simp only [character, List.nil_append, List.length_append, List.length_cons,
      List.length_nil] at h
    omega
  · by_cases hc : c = '\\'
    · subst hc
      simp [character, charBody] at h
    · -- a quote that is not in the text would be taken along
      have he : e ≠ '\'' := by
        rintro rfl
        simp [character, charBody, hc] at h
      simp [character, charBody, hc, he]
  · by_cases hc : c = '\\'
    · subst hc
      cases cs with
      | cons => simp [character, charBody]
      | nil =>
        have he : e ≠ '\'' := by
          rintro rfl
          simp [character, charBody] at h
        simp [character, charBody, he]
    · simp [character, charBody, hc]

theorem isPrefixOf_within {w : List Char} (h : w.length ≤ cs.length) :
    w.isPrefixOf (cs ++ ds) = w.isPrefixOf cs := by
  rw [Bool.eq_iff_iff, List.isPrefixOf_iff_prefix, List.isPrefixOf_iff_prefix]
  constructor
  · exact fun hw => List.prefix_of_prefix_length_le hw (List.prefix_append cs ds) h
  · exact fun hw => hw.trans (List.prefix_append cs ds)

theorem symbol?_within {k : TokenKind} (h : TokenKind.symbol? (cs ++ ds) = some k)
    (hfit : k.name.toList.length ≤ cs.length) : TokenKind.symbol? cs = some k := by
  unfold TokenKind.symbol? at h ⊢
  rw [List.find?_eq_some_iff_append] at h ⊢
  obtain ⟨hk, before, after, hsplit, hbefore⟩ := h
  refine ⟨by rwa [isPrefixOf_within hfit] at hk, before, after, hsplit, fun k' hk' => ?_⟩
  -- what is not in front of the longer text is not in front of the shorter one
  have hnot := hbefore k' hk'
  rw [Bool.not_eq_true', ← Bool.not_eq_true, List.isPrefixOf_iff_prefix] at hnot ⊢
  exact fun hw => hnot (hw.trans (List.prefix_append cs ds))

theorem head_within {d : Char} {es : List Char} (h : cs ++ ds = d :: es) (hpos : 0 < cs.length) :
    ∃ cs', cs = d :: cs' ∧ es = cs' ++ ds := by
  cases cs with
  | nil => cases hpos
  | cons c cs =>
    obtain ⟨rfl, rfl⟩ := List.cons.inj h
    exact ⟨cs, rfl, rfl⟩

theorem ofText_within {ps : List Piece} (hds : ds ≠ []) (h : ofText (cs ++ ds) = .whole ps)
    (hfit : (rawOf ps).length ≤ cs.length) : ofText cs = .whole ps := by
  have hpos := ofText_whole_pos h
  obtain ⟨c, cs, rfl⟩ := List.exists_cons_of_length_pos (hpos.trans_le hfit)
  -- a lexeme of more than one character has its second character in the text
  have hsecond (hlen : 2 ≤ (rawOf ps).length) : 0 < cs.length := by
    rw [List.length_cons] at hfit
    omega
  have hone {p : Piece} (hp : .whole [p] = Lexeme.whole ps) : p.raw.length ≤ cs.length + 1 := by
    cases hp
    simpa using hfit
  rw [List.cons_append] at h
  unfold ofText at h
  split at h
  case h_1 heq => cases heq
  case h_2 heq =>
    obtain ⟨rfl, -⟩ := List.cons.inj heq
    exact h
  case h_3 heq =>
    obtain ⟨rfl, htail⟩ := List.cons.inj heq
    obtain ⟨cs, rfl, rfl⟩ := head_within htail (hsecond (by cases h; simp [string]))
    rw [← h, string_within hds ((hone h).trans_eq (by simp; omega))]
    rfl
  case h_4 | h_5 => cases h
  case h_6 heq =>
    obtain ⟨rfl, rfl⟩ := List.cons.inj heq
    rw [← h, string_within hds ((hone h).trans_eq (Nat.add_comm _ _))]
    rfl
  case h_7 heq =>
    obtain ⟨rfl, rfl⟩ := List.cons.inj heq
    rw [← h, character_within hds (hone h)]
    rfl
  case h_8 heq =>
    obtain ⟨rfl, htail⟩ := List.cons.inj heq
    obtain ⟨cs, rfl, rfl⟩ := head_within htail (hsecond (by cases h; simp))
    have hrun : ((cs ++ ds).takeWhile (· != '\n')).length ≤ cs.length := by
      cases h
      simpa using hfit
    rw [← h, takeWhile_within hrun]
    rfl
  case h_9 heq =>
    obtain ⟨rfl, htail⟩ := List.cons.inj heq
    unfold blockComment at h
    split at h
    · cases h
    · rename_i body hbody
      obtain ⟨cs, rfl, rfl⟩ := head_within htail (hsecond (by cases h; simp))
      have hlen : body.length + 2 ≤ cs.length := by
        cases h
        simpa using hfit
      change blockComment cs = _
      unfold blockComment
      rw [commentBody_fits hbody hlen, ← h]
  case h_10 hnewline hcstr hformat htick hstr hchar hline hblock heq =>
    obtain ⟨rfl, rfl⟩ := List.cons.inj heq
    unfold ofText
    split
    case h_1 heq => cases heq
    case h_10 heq =>
      obtain ⟨rfl, rfl⟩ := List.cons.inj heq
      split at h
      · rename_i hdigit
        rw [if_pos hdigit, ← h, number_within (hone h)]
      · rename_i hdigit
        rw [if_neg hdigit]
        split at h
        · rename_i hword
          rw [if_pos hword, ← h, word_within (hone h)]
        · rename_i hword
          rw [if_neg hword]
          split at h
          · rename_i k hk
            have hlen := hone h
            rw [Piece.raw_plain] at hlen
            have hsymbol := symbol?_within ((congrArg _ (List.cons_append ..)).trans hk) hlen
            rw [hsymbol]
            exact h
          · cases h
    all_goals rename_i heq
    all_goals obtain ⟨hc, htail⟩ := List.cons.inj heq
    case h_2 => exact (hnewline hc).elim
    case h_3 => exact (hcstr _ hc (by rw [htail]; rfl)).elim
    case h_4 => exact (hformat _ hc (by rw [htail]; rfl)).elim
    case h_5 => exact (htick hc).elim
    case h_6 => exact (hstr hc).elim
    case h_7 => exact (hchar hc).elim
    case h_8 => exact (hline _ hc (by rw [htail]; rfl)).elim
    case h_9 => exact (hblock _ hc (by rw [htail]; rfl)).elim

theorem ofText_format_within {p : Piece} {close : Char} (h : ofText (cs ++ ds) = .format p close)
    (hfit : p.raw.length ≤ cs.length) : ofText cs = .format p close := by
  rcases ofText_format_cases h with ⟨after, heq, rfl, rfl⟩ | ⟨after, heq, rfl, rfl⟩
  · obtain ⟨cs, rfl, htail⟩ := head_within heq (Nat.lt_of_succ_lt hfit)
    obtain ⟨cs, rfl, -⟩ := head_within htail.symm (Nat.lt_of_succ_lt_succ hfit)
    rfl
  · obtain ⟨cs, rfl, -⟩ := head_within heq hfit
    rfl

end Lexeme

namespace Move

variable {marker : Char} {frame : Frame} {frames new : List Frame} {cs ds : List Char}
  {ps : List Piece}

/-- a move takes the blanks and something behind them -/
theorem takeWhile_lt_ofLexeme (h : ofLexeme frames cs = .go ps new) :
    (cs.takeWhile Lexeme.isBlank).length < (rawOf ps).length := by
  unfold ofLexeme at h
  dsimp only at h
  split at h
  · rename_i qs hqs
    cases h
    have hpos := Lexeme.ofText_whole_pos hqs
    simpa using hpos
  · rename_i p close hp
    cases h
    have hpos := Lexeme.ofText_format_pos hp
    simpa using hpos
  · cases h

theorem ofLexeme_within (hds : ds ≠ []) (h : ofLexeme frames (cs ++ ds) = .go ps new)
    (hfit : (rawOf ps).length ≤ cs.length) : ofLexeme frames cs = .go ps new := by
  have hblank := (takeWhile_lt_ofLexeme h).le.trans hfit
  have hlen := congrArg List.length (List.takeWhile_append_dropWhile (p := Lexeme.isBlank) (l := cs))
  rw [List.length_append] at hlen
  unfold ofLexeme at h ⊢
  rw [takeWhile_within hblank, dropWhile_within hblank] at h
  dsimp only at h ⊢
  split at h
  · rename_i qs hqs
    cases h
    rw [rawOf_cons, Piece.raw_blank, List.length_append] at hfit
    rw [Lexeme.ofText_within hds hqs (by omega)]
  · rename_i p close hp
    cases h
    simp only [rawOf_cons, Piece.raw_blank, List.length_append, rawOf_nil, List.length_nil] at hfit
    rw [Lexeme.ofText_format_within hp (by omega)]
  · cases h

theorem textRun_within {close : Char}
    (hfit : (textRun marker close (cs ++ ds)).length < cs.length)
    (hlast : ∀ c, cs.drop (textRun marker close (cs ++ ds)).length = [c] → c = close) :
    textRun marker close (cs ++ ds) = textRun marker close cs := by
  induction cs with
  | nil => cases hfit
  | cons c cs ih =>
    rw [List.cons_append, textRun] at hfit hlast ⊢
    rw [textRun]
    by_cases hclose : (c == close) = true
    · simp [hclose]
    · simp only [hclose, Bool.false_or] at hfit hlast ⊢
      have hopens (hcs : cs ≠ []) : opensInterpolation marker (c :: (cs ++ ds)) =
          opensInterpolation marker (c :: cs) := by
        obtain ⟨d, cs, rfl⟩ := List.exists_cons_of_ne_nil hcs
        rfl
      by_cases hgo : opensInterpolation marker (c :: (cs ++ ds)) = true
      · rw [if_pos hgo] at hlast ⊢
        have hcs : cs ≠ [] := by
          rintro rfl
          simp [hlast c rfl] at hclose
        rw [← hopens hcs, if_pos hgo]
      · rw [if_neg hgo] at hfit hlast ⊢
        have hfit : (textRun marker close (cs ++ ds)).length < cs.length := by simpa using hfit
        have hcs : cs ≠ [] := List.length_pos_iff.1 (Nat.zero_lt_of_lt hfit)
        rw [← hopens hcs, if_neg hgo, ih hfit (by simpa using hlast)]

/-- behind literal text a marker takes at least one character along -/
theorem length_textRun_marker {close c : Char} {after : List Char}
    (h : ofFormatText marker close cs = .go ps new)
    (hd : cs.drop (textRun marker close cs).length = c :: after) (hc : c ≠ close) :
    (textRun marker close cs).length + 2 ≤ (rawOf ps).length := by
  have hopens := (drop_textRun hd).resolve_left hc
  unfold ofFormatText at h
  dsimp only at h
  generalize textRun marker close cs = run at h hd ⊢
  rw [hd] at h
  dsimp only at h
  rw [if_neg (by simpa using hc)] at h
  split at h
  · cases h
    rw [rawOf_append, rawOf_textPart]
    simp
  · rename_i hbrace
    have hname := List.length_pos_iff.2 (takeWhile_isWordChar_ne_nil hopens hbrace)
    cases h
    simp only [rawOf_append, rawOf_textPart, rawOf_cons, rawOf_nil, Piece.raw_plain,
      List.length_append, List.length_cons, List.length_nil]
    omega

theorem ofFormatText_within {close : Char} (hds : ds ≠ [])
    (h : ofFormatText marker close (cs ++ ds) = .go ps new)
    (hfit : (rawOf ps).length ≤ cs.length) : ofFormatText marker close cs = .go ps new := by
  have hlt : (textRun marker close (cs ++ ds)).length < cs.length := by
    obtain ⟨hle, hmore⟩ := length_textRun h
    by_cases hend : (cs ++ ds).drop (textRun marker close (cs ++ ds)).length = []
    · have hpos := List.length_pos_iff.2 hds
      rw [List.drop_eq_nil_iff, List.length_append] at hend
      omega
    · exact (hmore hend).trans_le hfit
  obtain ⟨c, after, hd⟩ := List.exists_cons_of_ne_nil (List.drop_eq_nil_iff.not.2 hlt.not_ge)
  have hlong : (cs ++ ds).drop (textRun marker close (cs ++ ds)).length = c :: (after ++ ds) := by
    rw [List.drop_append_of_le_length hlt.le, hd, List.cons_append]
  -- what a marker takes along is in the text too
  have hafter (hc : c ≠ close) : 0 < after.length := by
    have hmarker := length_textRun_marker h hlong hc
    have hlen := congrArg List.length hd
    rw [List.length_drop, List.length_cons] at hlen
    omega
  have hrun : textRun marker close (cs ++ ds) = textRun marker close cs := by
    refine textRun_within hlt fun e he => ?_
    obtain ⟨rfl, rfl⟩ := List.cons.inj (hd.symm.trans he)
    by_contra hc
    cases hafter hc
  have hlen := congrArg List.length hd
  unfold ofFormatText at h ⊢
  dsimp only at h ⊢
  rw [hlong, hrun] at h
  rw [hrun] at hd hlen
  rw [hd]
  dsimp only at h ⊢
  by_cases hclose : c = close
  · rw [if_pos (by simpa using hclose)] at h ⊢
    exact h
  · rw [if_neg (by simpa using hclose)] at h ⊢
    have hpos := hafter hclose
    split at h
    · rename_i inner hinner
      obtain ⟨after, rfl, -⟩ := Lexeme.head_within hinner hpos
      exact h
    · rename_i hbrace
      split
      · exact (hbrace _ rfl).elim
      · rw [takeWhile_within] at h
        · exact h
        · cases h
          simp only [rawOf_append, rawOf_textPart, rawOf_cons, rawOf_nil, Piece.raw_plain,
            List.length_append, List.length_cons, List.length_nil] at hfit
          rw [List.length_drop, List.length_cons] at hlen
          omega

/-- a move that ends within a text is made on the text alone -/
theorem ofFrame_within (hds : ds ≠ []) (h : ofFrame marker frame (cs ++ ds) = .go ps new)
    (hfit : (rawOf ps).length ≤ cs.length) : ofFrame marker frame cs = .go ps new := by
  cases frame with
  | outside => exact ofLexeme_within hds h hfit
  | text close => exact ofFormatText_within hds h hfit
  | braces outer =>
    unfold ofFrame at h ⊢
    dsimp only at h ⊢
    split at h
    · -- the blanks would reach to the end of the longer text
      cases h
      simp at hfit
      exact absurd hfit hds
    · rename_i c after hc
      have hblank := (takeWhile_lt_ofLexeme h).trans_le hfit
      rw [dropWhile_within hblank.le] at hc
      rw [takeWhile_within hblank.le] at hblank
      have hlen := congrArg List.length
        (List.takeWhile_append_dropWhile (p := Lexeme.isBlank) (l := cs))
      rw [List.length_append] at hlen
      obtain ⟨after, hd, -⟩ := Lexeme.head_within hc (by omega)
      rw [hd]
      exact ofLexeme_within hds h hfit

end Move

end AutoLang
