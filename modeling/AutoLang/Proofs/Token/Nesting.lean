import AutoLang.Proofs.Token.Order
import Mathlib

/-! Format strings nest. The tokens of a text follow a grammar in which a format string is text and
interpolations between its quotes, and the code of an interpolation holds braces that match. A reader of
tokens relies on this shape. It holds of every text and every marker, except that a text may end, or
reading may halt, before everything is closed. -/

namespace AutoLang

/-- where a run of tokens stands -/
inductive Place where
  /-- in code; only in the braces of an interpolation do braces have to match -/
  | code (braced : Bool)
  /-- in a format string; no text may come next where text came before -/
  | format (textNext : Bool)

/-- the runs of tokens that a place may hold -/
inductive Formed : Place → List Token → Prop where
  | nil (place : Place) : Formed place []
  | plain {t : Token} {ts : List Token} {braced : Bool} :
      t.kind.isPlain → Formed (.code braced) ts → Formed (.code braced) (t :: ts)
  | brace {t : Token} {ts : List Token} : t.kind = .openBrace ∨ t.kind = .closeBrace →
      Formed (.code false) ts → Formed (.code false) (t :: ts)
  | braces {o c : Token} {us ts : List Token} : o.kind = .openBrace → Formed (.code true) us →
      c.kind = .closeBrace → Formed (.code true) ts → Formed (.code true) (o :: us ++ c :: ts)
  | formatString {o c : Token} {us ts : List Token} {braced : Bool} :
      o.kind = .formatOpen → Formed (.format true) us → c.kind = .formatClose →
      Formed (.code braced) ts → Formed (.code braced) (o :: us ++ c :: ts)
  | text {t : Token} {ts : List Token} : t.kind = .formatText → t.text ≠ "" →
      Formed (.format false) ts → Formed (.format true) (t :: ts)
  | name {m n : Token} {ts : List Token} {textNext : Bool} :
      m.kind = .formatMark → n.kind = .ident → n.text ≠ "" → Formed (.format true) ts →
      Formed (.format textNext) (m :: n :: ts)
  | code {m o c : Token} {us ts : List Token} {textNext : Bool} :
      m.kind = .formatMark → o.kind = .openBrace → Formed (.code true) us →
      c.kind = .closeBrace → Formed (.format true) ts →
      Formed (.format textNext) (m :: o :: us ++ c :: ts)

namespace Formed

variable {ts us : List Token}

theorem plains {braced : Bool} (h : ∀ t ∈ ts, t.kind.isPlain) (hu : Formed (.code braced) us) :
    Formed (.code braced) (ts ++ us) := by
  induction ts with
  | nil => exact hu
  | cons t ts ih =>
    rw [List.forall_mem_cons] at h
    exact .plain h.1 (ih h.2)

/-- what follows a text may as well stand without it -/
theorem withoutText (h : Formed (.format false) ts) : Formed (.format true) ts := by
  cases h with
  | nil => exact .nil _
  | name hm hn hne hts => exact .name hm hn hne hts
  | code hm ho hus hc hts => exact .code hm ho hus hc hts

theorem textRun (m : Mark) (run : List Char) (h : Formed (.format false) ts) :
    Formed (.format true)
      (locate m (if run.isEmpty then [] else [Piece.plain .formatText run]) ++ ts) := by
  cases run with
  | nil => exact h.withoutText
  | cons c cs => exact .text rfl (by simp [Piece.plain]) h

end Formed

/-- the tokens close the frames, the innermost first, and go on outside of all format strings -/
inductive Closes : List Frame → List Token → Prop where
  | outside {ts : List Token} : Formed (.code false) ts → Closes [] ts
  | text {close : Char} {frames : List Frame} {t : Token} {us ts : List Token} :
      Formed (.format true) us → t.kind = .formatClose → Closes frames ts →
      Closes (.text close :: frames) (us ++ t :: ts)
  | last {frames : List Frame} {t : Token} {us ts : List Token} :
      Formed (.code true) us → t.kind = .closeBrace → Closes frames ts →
      Closes (.braces 0 :: frames) (us ++ t :: ts)
  | inner {outer : Nat} {frames : List Frame} {t : Token} {us ts : List Token} :
      Formed (.code true) us → t.kind = .closeBrace → Closes (.braces outer :: frames) ts →
      Closes (.braces (outer + 1) :: frames) (us ++ t :: ts)

/-- where the tokens stand that are read next -/
def placeIn : List Frame → Place
  | .text _ :: _ => .format true
  | .braces _ :: _ => .code true
  | _ => .code false

namespace Closes

variable {frames : List Frame} {outer : Nat} {close : Char} {o : Token} {ts us : List Token}

/-- what may stand in front in the innermost place may stand in front of the whole -/
theorem front (h : Closes frames ts)
    (hu : ∀ vs, Formed (placeIn frames) vs → Formed (placeIn frames) (us ++ vs)) :
    Closes frames (us ++ ts) := by
  cases h with
  | outside hts => exact .outside (hu _ hts)
  | text hvs hk hts =>
    rw [← List.append_assoc]
    exact .text (hu _ hvs) hk hts
  | last hvs hk hts =>
    rw [← List.append_assoc]
    exact .last (hu _ hvs) hk hts
  | inner hvs hk hts =>
    rw [← List.append_assoc]
    exact .inner (hu _ hvs) hk hts

theorem plains {braced : Bool} (h : Closes frames ts) (hf : placeIn frames = .code braced)
    (hu : ∀ u ∈ us, u.kind.isPlain) : Closes frames (us ++ ts) :=
  h.front fun vs hvs => by
    rw [hf] at hvs ⊢
    exact .plains hu hvs

theorem openBrace (h : Closes (.braces (outer + 1) :: frames) ts) (ho : o.kind = .openBrace) :
    Closes (.braces outer :: frames) (o :: ts) := by
  cases h with
  | @inner _ _ t vs ts hvs hk hts =>
    have hfront : Closes _ ((o :: vs ++ [t]) ++ ts) := hts.front fun ws hws => by
      simpa [placeIn] using Formed.braces ho hvs hk hws
    simpa using hfront

theorem closeBrace (h : Closes (Move.bracesAfter outer (some '}') ++ frames) ts)
    (ho : o.kind = .closeBrace) : Closes (.braces outer :: frames) (o :: ts) := by
  cases outer with
  | zero => exact .last (.nil _) ho h
  | succ outer => exact .inner (.nil _) ho h

theorem formatString {braced : Bool} (h : Closes (.text close :: frames) ts)
    (hf : placeIn frames = .code braced) (ho : o.kind = .formatOpen) : Closes frames (o :: ts) := by
  cases h with
  | @text _ _ t vs ts hvs hk hts =>
    have hfront : Closes _ ((o :: vs ++ [t]) ++ ts) := hts.front fun ws hws => by
      rw [hf] at hws ⊢
      simpa using Formed.formatString ho hvs hk hws
    simpa using hfront

theorem textRun (m : Mark) (run : List Char) {t : Token} (h : Closes frames ts)
    (hus : Formed (.format false) us) (ht : t.kind = .formatClose) :
    Closes (.text close :: frames)
      (locate m (if run.isEmpty then [] else [Piece.plain .formatText run]) ++ (us ++ t :: ts)) := by
  rw [← List.append_assoc]
  exact .text (hus.textRun m run) ht h

/-- one more frame can be closed -/
theorem exist_cons {frame : Frame} (hf : frame ≠ .outside) (h : Closes frames ts) :
    ∃ us, Closes (frame :: frames) us := by
  cases frame with
  | outside => exact absurd rfl hf
  | text close => exact ⟨_, .text (t := ⟨.formatClose, .nowhere, ""⟩) (.nil _) rfl h⟩
  | braces outer =>
    induction outer with
    | zero => exact ⟨_, .last (t := ⟨.closeBrace, .nowhere, ""⟩) (.nil _) rfl h⟩
    | succ outer ih =>
      obtain ⟨us, hus⟩ := ih nofun
      exact ⟨_, .inner (t := ⟨.closeBrace, .nowhere, ""⟩) (.nil _) rfl hus⟩

theorem exist (h : .outside ∉ frames) : ∃ ts, Closes frames ts := by
  induction frames with
  | nil => exact ⟨[], .outside (.nil _)⟩
  | cons frame frames ih =>
    rw [List.mem_cons, not_or] at h
    obtain ⟨ts, hts⟩ := ih h.2
    exact hts.exist_cons (Ne.symm h.1)

end Closes

section Scan

variable {marker : Char} {cs : List Char} {frame : Frame} {frames new : List Frame} {ps : List Piece}

theorem locate_blank_cons (m : Mark) (raw : List Char) (ps : List Piece) :
    locate m (.blank raw :: ps) = locate (m.pastAll raw) ps := rfl

theorem plain_of_mem_locate (h : ∀ p ∈ ps, ∀ k, p.kind = some k → k.isPlain) (m : Mark) :
    ∀ t ∈ locate m ps, t.kind.isPlain := by
  intro t ht
  obtain ⟨p, hp, hk, -⟩ := piece_of_mem_locate ht
  exact h p hp _ hk

/-- the opening of a format string, wherever code may stand -/
theorem closes_opening {p : Piece} {close : Char} {braced : Bool} {ts : List Token} (m : Mark)
    (h : Lexeme.ofText cs = .format p close) (hf : placeIn frames = .code braced)
    (hts : Closes (.text close :: frames) ts) : Closes frames (locate m [p] ++ ts) := by
  have hp := Lexeme.ofText_format_token h
  simp only [locate, hp]
  exact hts.formatString hf rfl

/-- what a lexeme in an interpolation reads leads to the frames that it leaves -/
theorem closes_ofLexeme {outer : Nat} {c : Char} {after : List Char}
    (hc : cs.dropWhile Lexeme.isBlank = c :: after)
    (h : Move.ofLexeme (Move.bracesAfter outer (some c)) cs = .go ps new) {ts : List Token}
    (m : Mark) (hts : Closes (new ++ frames) ts) :
    Closes (.braces outer :: frames) (locate m ps ++ ts) := by
  have other (h : c ≠ '{' ∧ c ≠ '}') : Move.bracesAfter outer (some c) = [.braces outer] := by
    unfold Move.bracesAfter
    split
    · rename_i heq
      cases heq
      exact absurd rfl h.1
    · rename_i heq
      cases heq
      exact absurd rfl h.2
    · rfl
  unfold Move.ofLexeme at h
  dsimp only at h
  rw [hc] at h
  split at h
  · rename_i qs hq
    cases h
    rw [locate_blank_cons]
    rcases Lexeme.kinds_ofText hq with ⟨rfl, rfl⟩ | ⟨rfl, rfl⟩ | ⟨hne, hqs⟩
    · exact hts.openBrace rfl
    · exact hts.closeBrace rfl
    · rw [other hne] at hts
      exact hts.plains rfl (plain_of_mem_locate hqs _)
  · rename_i p close hp
    cases h
    rw [locate_blank_cons]
    have hne : c ≠ '{' ∧ c ≠ '}' := by
      constructor <;>
      · rintro rfl
        cases hp
    rw [other hne] at hts
    exact closes_opening _ hp rfl hts
  · cases h

/-- what the inside of a format string reads leads to the frames that it leaves, unless the text is
read to its end -/
theorem closes_ofFormatText {close : Char} (h : Move.ofFormatText marker close cs = .go ps new)
    (m : Mark) :
    (∀ ts, Closes (new ++ frames) ts → Closes (.text close :: frames) (locate m ps ++ ts)) ∨
      cs.drop (rawOf ps).length = [] ∧
        ∀ ts, Closes frames ts → ∃ us, Closes (.text close :: frames) (locate m ps ++ us) := by
  unfold Move.ofFormatText at h
  dsimp only at h
  have stop (c : Char) (after : List Char)
      (hd : cs.drop (Move.textRun marker close cs).length = c :: after) :
      c = close ∨ Move.opensInterpolation marker (c :: after) = true := Move.drop_textRun hd
  generalize Move.textRun marker close cs = run at h stop
  split at h
  · rename_i hend
    cases h
    refine .inr ⟨?_, fun ts hts =>
      ⟨_, hts.textRun (t := ⟨.formatClose, .nowhere, ""⟩) m run (.nil _) rfl⟩⟩
    cases run <;> simpa [rawOf, Piece.plain] using hend
  · rename_i c after hd
    left
    intro ts hts
    split at h
    · cases h
      rw [locate_append, List.append_assoc]
      exact hts.textRun m run (.nil _) rfl
    · rename_i hne
      have opens : Move.opensInterpolation marker (c :: after) = true := by
        simpa [show c ≠ close by simpa using hne] using stop c after hd
      split at h
      · cases h
        rw [locate_append, List.append_assoc]
        cases hts with
        | last hus hk hts =>
          cases hts with
          | text hvs hl hts =>
            generalize hopening : locate _ [Piece.plain .formatMark _, .plain .openBrace _] = opening
            obtain ⟨a, b, rfl, ha, hb⟩ :
                ∃ a b, opening = [a, b] ∧ a.kind = .formatMark ∧ b.kind = .openBrace :=
              ⟨_, _, hopening.symm, rfl, rfl⟩
            simpa using hts.textRun m run (.code ha hb hus hk hvs) hl
      · rename_i hb
        cases h
        rw [locate_append, List.append_assoc]
        have hname : String.ofList (after.takeWhile Lexeme.isWordChar) ≠ "" := by
          rw [ne_eq, String.ofList_eq_empty_iff]
          exact Move.takeWhile_isWordChar_ne_nil opens hb
        cases hts with
        | text hvs hl hts => exact hts.textRun m run (.name rfl rfl hname hvs) hl

/-- nothing is left to read, so no token comes -/
theorem locate_ofFrames_nil (marker : Char) (frames : List Frame) (m : Mark) :
    locate m (Scan.ofFrames marker frames []).pieces = [] := by
  induction frames generalizing m with
  | nil => simp [Scan.ofFrames, locate]
  | cons frame frames ih =>
    rw [Scan.ofFrames]
    cases frame with
    | outside => rfl
    | text close => exact ih m
    | braces outer => exact ih _

theorem closes_ofFrame (h : Move.ofFrame marker frame cs = .go ps new) (hf : frame ≠ .outside)
    (m : Mark) :
    (∀ ts, Closes (new ++ frames) ts → Closes (frame :: frames) (locate m ps ++ ts)) ∨
      cs.drop (rawOf ps).length = [] ∧
        ∀ ts, Closes frames ts → ∃ us, Closes (frame :: frames) (locate m ps ++ us) := by
  cases frame with
  | outside => exact absurd rfl hf
  | text close => exact closes_ofFormatText h m
  | braces outer =>
    unfold Move.ofFrame at h
    dsimp only at h
    split at h
    · cases h
      exact .inr ⟨by simp, fun ts hts => hts.exist_cons hf⟩
    · rename_i c after hc
      exact .inl fun ts hts => closes_ofLexeme hc h m hts

/-- a move that halts reads no token -/
theorem locate_ofFrame_halt {why : Halt} (h : Move.ofFrame marker frame cs = .halt ps why) (m : Mark) :
    locate m ps = [] := by
  have lexeme {frames : List Frame} (h : Move.ofLexeme frames cs = .halt ps why) :
      locate m ps = [] := by
    unfold Move.ofLexeme at h
    dsimp only at h
    split at h <;> cases h
    rfl
  cases frame with
  | outside => exact lexeme h
  | text close =>
    simp only [Move.ofFrame, Move.ofFormatText] at h
    split at h
    · cases h
    · split at h
      · cases h
      · split at h <;> cases h
  | braces outer =>
    simp only [Move.ofFrame] at h
    split at h
    · cases h
    · exact lexeme h

theorem outside_notMem (h : Move.ofFrame marker frame cs = .go ps new) : .outside ∉ new := by
  have lexeme {frames : List Frame} (hf : .outside ∉ frames)
      (h : Move.ofLexeme frames cs = .go ps new) : .outside ∉ new := by
    unfold Move.ofLexeme at h
    dsimp only at h
    split at h <;> cases h
    · exact hf
    · simpa using hf
  cases frame with
  | outside => exact lexeme (by simp) h
  | text close =>
    simp only [Move.ofFrame, Move.ofFormatText] at h
    split at h
    · cases h
      exact List.not_mem_nil
    · split at h
      · cases h
        exact List.not_mem_nil
      · split at h <;> cases h <;> simp
  | braces outer =>
    simp only [Move.ofFrame] at h
    split at h
    · cases h
      exact List.not_mem_nil
    · refine lexeme ?_ h
      unfold Move.bracesAfter
      split
      · simp
      · split <;> simp
      · simp

/-- a stretch of code or of a format string closes the frames it is read in, unless the text ends or
reading halts before -/
theorem closes_ofFrames (marker : Char) (frames : List Frame) (cs : List Char) (m : Mark)
    (hf : .outside ∉ frames) :
    (∀ ts, Closes [] ts → Closes frames (locate m (Scan.ofFrames marker frames cs).pieces ++ ts)) ∨
      ((Scan.ofFrames marker frames cs).rest = [] ∨ (Scan.ofFrames marker frames cs).halt ≠ none) ∧
        ∃ ts, Closes frames (locate m (Scan.ofFrames marker frames cs).pieces ++ ts) := by
  fun_induction Scan.ofFrames marker frames cs generalizing m with
  | case1 cs => exact .inl fun ts hts => hts
  | case2 frame frames cs ps why made =>
    refine .inr ⟨.inr (Option.some_ne_none why), ?_⟩
    rw [locate_ofFrame_halt made]
    exact Closes.exist hf
  | case3 frame frames cs ps new made more ih =>
    rw [List.mem_cons, not_or] at hf
    rw [locate_append]
    rcases closes_ofFrame made (Ne.symm hf.1) m with step | ⟨hend, stuck⟩
    · specialize ih (m.pastAll (rawOf ps)) (by simp [hf.2, outside_notMem made])
      rcases ih with ih | ⟨hstop, ts, hts⟩
      · left
        intro ts hts
        rw [List.append_assoc]
        exact step _ (ih ts hts)
      · refine .inr ⟨hstop, ts, ?_⟩
        rw [List.append_assoc]
        exact step _ hts
    · right
      obtain ⟨ts, hts⟩ := Closes.exist hf.2
      simp only [more, hend]
      rw [locate_ofFrames_nil, List.append_nil]
      have hle := Scan.rest_ofFrames_le marker (new ++ frames) []
      exact ⟨.inl (List.length_eq_zero_iff.1 (Nat.le_zero.1 hle)), stuck ts hts⟩

theorem closes_toplevel (h : Lexeme.ofText cs = .whole ps) (m : Mark) {ts : List Token}
    (hts : Closes [] ts) : Closes [] (locate m ps ++ ts) := by
  cases cs with
  | nil => cases h
  | cons c cs =>
    rcases Lexeme.kinds_ofText h with ⟨-, rfl⟩ | ⟨-, rfl⟩ | ⟨-, hps⟩
    · exact hts.front fun vs hvs => .brace (.inl rfl) hvs
    · exact hts.front fun vs hvs => .brace (.inr rfl) hvs
    · exact hts.plains rfl (plain_of_mem_locate hps m)

/-- a lexeme outside of format strings may stand wherever code may, unless it is cut off -/
theorem closes_ofText (marker : Char) (cs : List Char) (m : Mark) :
    (∀ ts, Closes [] ts → Closes [] (locate m (Scan.ofText marker cs).pieces ++ ts)) ∨
      ((Scan.ofText marker cs).rest = [] ∨ (Scan.ofText marker cs).halt ≠ none) ∧
        ∃ ts, Closes [] (locate m (Scan.ofText marker cs).pieces ++ ts) := by
  unfold Scan.ofText
  rw [Scan.ofFrames]
  split
  · rename_i ps why made
    refine .inr ⟨.inr (Option.some_ne_none why), ?_⟩
    rw [locate_ofFrame_halt made]
    exact Closes.exist List.not_mem_nil
  · rename_i ps new made
    have hnew := outside_notMem made
    simp only [Move.ofFrame, Move.ofLexeme] at made
    split at made
    · rename_i qs hq
      cases made
      refine .inl fun ts hts => ?_
      rw [locate_append, List.append_assoc, locate_blank_cons, List.nil_append, Scan.ofFrames]
      exact closes_toplevel hq _ hts
    · rename_i p close hp
      cases made
      dsimp only
      rw [locate_append, locate_blank_cons]
      rcases closes_ofFrames marker [.text close] (cs.drop (rawOf [.blank _, p]).length) _ hnew with
        closed | ⟨hstop, ts, hts⟩
      · left
        intro ts hts
        rw [List.append_assoc]
        exact closes_opening _ hp rfl (closed ts hts)
      · refine .inr ⟨hstop, ts, ?_⟩
        rw [List.append_assoc]
        exact closes_opening _ hp rfl hts
    · cases made

theorem locate_whole_nil (marker : Char) (m : Mark) : locate m (Scan.whole marker []).pieces = [] := by
  have hend : (Scan.ofText marker []).halt = some .finished := by
    rw [Scan.ofText, Scan.ofFrames]
    rfl
  rw [Scan.whole_of_halt hend]
  exact locate_ofFrames_nil marker [.outside] m

theorem closes_whole (marker : Char) (cs : List Char) (m : Mark) :
    ∃ ts, Closes [] (locate m (Scan.whole marker cs).pieces ++ ts) := by
  fun_induction Scan.whole marker cs generalizing m with
  | case1 cs why made =>
    rcases closes_ofText marker cs m with closed | ⟨-, stuck⟩
    · exact ⟨[], closed [] (.outside (.nil _))⟩
    · exact stuck
  | case2 cs made more ih =>
    rw [locate_append]
    rcases closes_ofText marker cs m with closed | ⟨hend, ts, hts⟩
    · obtain ⟨ts, hts⟩ := ih (m.pastAll (rawOf (Scan.ofText marker cs).pieces))
      refine ⟨ts, ?_⟩
      rw [List.append_assoc]
      exact closed _ hts
    · have hnil : (Scan.ofText marker cs).rest = [] := by simpa [made] using hend
      refine ⟨ts, ?_⟩
      simp only [more, hnil]
      rw [locate_whole_nil, List.append_nil]
      exact hts

end Scan

/-- what is reported when reading ends at this token: nothing at the end of the text, a character that
no token begins with right here, or a comment that reached to the end of the text -/
inductive EndsAt (source : String) (e : Token) : List Diagnostic → Prop where
  | text : e.span.offset = source.utf8ByteSize → EndsAt source e []
  | character {span : Span} {c : Char} : span.offset = e.span.offset →
      EndsAt source e [.invalidCharacter span c]
  | comment {span : Span} : e.span.offset = source.utf8ByteSize →
      EndsAt source e [.unterminatedComment span]

theorem length_utf8_toList (s : String) : (utf8 s.toList).length = s.utf8ByteSize := by
  rw [← toUTF8_toList]
  rfl

/-- the tokens of every text, with every marker, are formed like code outside of format strings, or they
are the beginning of tokens so formed, up to where the text ended or reading halted -/
theorem tokens_nest (source : String) (marker : Char) :
    ∃ ts e missing, { Lexer.ofSource source with marker := marker }.tokens = ts ++ [e] ∧
      e.kind = .eof ∧ Formed (.code false) (ts ++ missing) ∧
      EndsAt source e { Lexer.ofSource source with marker := marker }.allErrors := by
  obtain ⟨why, hw⟩ := Scan.halt_whole marker source.toList
  obtain ⟨missing, hclosed⟩ := closes_whole marker source.toList .origin
  obtain ⟨cut, hrest⟩ := Scan.cut_whole marker source.toList
  unfold Lexer.tokens Lexer.allErrors
  rw [Lexer.drain_eq rfl rfl hw]
  dsimp only [Lexer.ofSource]
  generalize Scan.whole marker source.toList = scan at hw hclosed cut hrest
  refine ⟨locate .origin scan.pieces, _, missing, by simp; rfl, rfl, ?_, ?_⟩
  · cases hclosed with
    | outside h => exact h
  · -- all characters are behind the mark where reading ends, but those that were not read
    have hbytes :
        (Mark.origin.pastAll (rawOf scan.pieces ++ scan.rest)).offset = source.utf8ByteSize := by
      rw [← cut.text, Mark.offset_pastAll, length_utf8_toList]
      exact Nat.zero_add _
    cases why with
    | finished =>
      rw [hrest hw, List.append_nil] at hbytes
      exact .text hbytes
    | invalid c => exact .character rfl
    | openComment =>
      rw [Mark.pastAll_append] at hbytes
      exact .comment hbytes

end AutoLang
