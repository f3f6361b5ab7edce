import AutoLang.Proofs.Token.Moves
import Mathlib

/-! What stands between lexemes makes no significant token. Blanks and block comments may come and go
between two lexemes in code, and one newline may become two; the lexemes around them, and why reading
halts, stay the same. -/

namespace AutoLang

/-- blanks and complete block comments -/
inductive Gap : List Char → Prop
  | nil : Gap []
  | blank {c : Char} {cs : List Char} : Lexeme.isBlank c → Gap cs → Gap (c :: cs)
  | comment {body cs : List Char} : Lexeme.commentBody (body ++ ['*', '/']) = some body → Gap cs →
      Gap ('/' :: '*' :: body ++ '*' :: '/' :: cs)

/-- what a token says, wherever it stands -/
def Token.content (t : Token) : TokenKind × String := (t.kind, t.text)

/-- what the tokens of the pieces say, comments apart -/
def contents (ps : List Piece) : List (TokenKind × String) :=
  ps.filterMap fun p => (p.kind.filter (!·.isTrivia)).map (·, p.text)

@[simp] theorem contents_append (ps qs : List Piece) :
    contents (ps ++ qs) = contents ps ++ contents qs :=
  List.filterMap_append

theorem contents_locate (m : Mark) (ps : List Piece) :
    ((locate m ps).filter (!·.kind.isTrivia)).map Token.content = contents ps := by
  induction ps generalizing m with
  | nil => rfl
  | cons p ps ih =>
    have hcons (o : Option (TokenKind × String))
        (ho : (p.kind.filter (!·.isTrivia)).map (·, p.text) = o) :
        contents (p :: ps) = o.toList ++ contents ps := by
      subst ho
      cases hc : (p.kind.filter (!·.isTrivia)).map (·, p.text) <;>
        simp [contents, hc]
    unfold locate
    dsimp only
    split
    · rename_i hk
      rw [ih, hcons none (by rw [hk]; rfl)]
      rfl
    · rename_i k hk
      by_cases ht : k.isTrivia = true
      · rw [List.filter_cons_of_neg (by simp [ht]), ih, hcons none (by simp [hk, ht])]
        rfl
      · rw [List.filter_cons_of_pos (by simpa using ht), List.map_cons, ih,
          hcons (some (k, p.text)) (by simp [hk, ht])]
        rfl

theorem Lexer.content_significant (source : String) (marker : Char) :
    { ofSource source with marker := marker }.significant.map Token.content =
      contents (Scan.whole marker source.toList).pieces ++ [(.eof, "")] := by
  obtain ⟨beyond, htokens⟩ := tokens_of_pieces source marker
  unfold significant
  rw [htokens, List.filter_append, List.map_append, contents_locate]
  rfl

section Indent

variable {marker c : Char} {frame : Frame} {frames : List Frame} {cs : List Char} {ps : List Piece}
  {why : Halt}

/-- the first piece begins with one more character -/
def indent (c : Char) : List Piece → List Piece
  | [] => []
  | p :: ps => { p with raw := c :: p.raw } :: ps

theorem contents_indent (c : Char) (ps : List Piece) : contents (indent c ps) = contents ps := by
  cases ps <;> rfl

theorem rawOf_indent (h : ps ≠ []) : rawOf (indent c ps) = c :: rawOf ps := by
  cases ps with
  | nil => exact absurd rfl h
  | cons p ps => rfl

namespace Move

/-- the same move, with one more character read by its first piece -/
def indent (c : Char) : Move → Move
  | go ps new => go (AutoLang.indent c ps) new
  | halt ps why => halt (AutoLang.indent c ps) why

theorem ofLexeme_blank (hc : Lexeme.isBlank c) (cs : List Char) :
    ofLexeme frames (c :: cs) = (ofLexeme frames cs).indent c := by
  unfold ofLexeme
  rw [List.takeWhile_cons_of_pos hc, List.dropWhile_cons_of_pos hc]
  dsimp only
  split <;> rfl

/-- in code a blank in front changes nothing but the blank that is read first -/
theorem ofFrame_blank (marker : Char) (hf : ∀ close, frame ≠ .text close) (hc : Lexeme.isBlank c)
    (cs : List Char) : ofFrame marker frame (c :: cs) = (ofFrame marker frame cs).indent c := by
  cases frame with
  | outside => exact ofLexeme_blank hc cs
  | text close => exact absurd rfl (hf close)
  | braces outer =>
    unfold ofFrame
    dsimp only
    rw [List.dropWhile_cons_of_pos hc]
    split
    · rfl
    · exact ofLexeme_blank hc cs

theorem pieces_ofLexeme_ne_nil (frames : List Frame) (cs : List Char) :
    (ofLexeme frames cs).pieces ≠ [] := by
  unfold ofLexeme
  dsimp only
  split <;> exact List.cons_ne_nil _ _

theorem pieces_ofFrame_ne_nil (marker : Char) (hf : ∀ close, frame ≠ .text close) (cs : List Char) :
    (ofFrame marker frame cs).pieces ≠ [] := by
  cases frame with
  | outside => exact pieces_ofLexeme_ne_nil [] cs
  | text close => exact absurd rfl (hf close)
  | braces outer =>
    unfold ofFrame
    dsimp only
    split
    · exact List.cons_ne_nil _ _
    · exact pieces_ofLexeme_ne_nil _ cs

end Move

namespace Halts

theorem blank_frame (h : Halts marker (frame :: frames) cs ps why)
    (hf : ∀ close, frame ≠ .text close) (hc : Lexeme.isBlank c) :
    ∃ qs, Halts marker (frame :: frames) (c :: cs) qs why ∧ contents qs = contents ps := by
  have hindent := Move.ofFrame_blank marker hf hc cs
  have hne := Move.pieces_ofFrame_ne_nil marker hf cs
  cases h with
  | halt halted =>
    rw [halted] at hindent
    exact ⟨_, .halt hindent, contents_indent c ps⟩
  | @move _ _ new _ first rest _ made hrest =>
    rw [made] at hindent hne
    refine ⟨AutoLang.indent c first ++ rest, .move hindent ?_, ?_⟩
    · rwa [rawOf_indent (show first ≠ [] from hne)]
    · rw [contents_append, contents_append, contents_indent]

theorem blank (h : Halts marker frames cs ps why) (hf : InCode frames) (hc : Lexeme.isBlank c) :
    ∃ qs, Halts marker frames (c :: cs) qs why ∧ contents qs = contents ps := by
  cases hf with
  | outside =>
    cases h with
    | next h =>
      obtain ⟨qs, hqs, heq⟩ := h.blank_frame nofun hc
      exact ⟨qs, .next hqs, heq⟩
  | braces outer frames => exact h.blank_frame nofun hc

end Halts

end Indent

section Gap

variable {marker : Char} {frames last : List Frame} {g cs : List Char}
  {ps qs : List Piece} {why : Halt}

/-- what is read of a block comment with no blank before it -/
def commentPieces (body : List Char) : List Piece :=
  [.blank [], .plain .openComment ['/', '*'], .plain .commentText body,
    .plain .closeComment ['*', '/']]

theorem Move.ofLexeme_comment {body : List Char}
    (hbody : Lexeme.commentBody (body ++ ['*', '/']) = some body) (cs : List Char) :
    ofLexeme frames ('/' :: '*' :: body ++ '*' :: '/' :: cs) = .go (commentPieces body) frames := by
  have hends : Lexeme.commentBody (body ++ '*' :: '/' :: cs) = some body := by
    have happend := Lexeme.commentBody_append_of_some cs hbody
    rwa [List.append_assoc] at happend
  have htext : Lexeme.ofText ('/' :: '*' :: body ++ '*' :: '/' :: cs) =
      .whole (commentPieces body).tail := by
    change Lexeme.blockComment (body ++ '*' :: '/' :: cs) = _
    rw [Lexeme.blockComment, hends]
    rfl
  unfold ofLexeme
  rw [show ('/' :: '*' :: body ++ '*' :: '/' :: cs).dropWhile Lexeme.isBlank =
    '/' :: '*' :: body ++ '*' :: '/' :: cs from rfl, htext]
  rfl

/-- a block comment in code is passed in one move -/
theorem InCode.comment (h : InCode frames) {body : List Char}
    (hbody : Lexeme.commentBody (body ++ ['*', '/']) = some body) (cs : List Char) :
    Leads marker frames ('/' :: '*' :: body ++ '*' :: '/' :: cs) (commentPieces body) frames
      cs := by
  have hrest : ('/' :: '*' :: body ++ '*' :: '/' :: cs).drop (rawOf (commentPieces body)).length =
      cs := by
    simp [commentPieces]
  cases h with
  | outside =>
    have made : Move.ofFrame marker .outside ('/' :: '*' :: body ++ '*' :: '/' :: cs) = _ :=
      Move.ofLexeme_comment hbody cs
    exact .next (.single made hrest)
  | braces outer frames =>
    have made : Move.ofFrame marker (.braces outer) ('/' :: '*' :: body ++ '*' :: '/' :: cs) = _ :=
      Move.ofLexeme_comment hbody cs
    exact .single made hrest

/-- a gap in code says nothing -/
theorem Gap.halts (hg : Gap g) (hf : InCode frames) (h : Halts marker frames cs ps why) :
    ∃ qs, Halts marker frames (g ++ cs) qs why ∧ contents qs = contents ps := by
  induction hg with
  | nil => exact ⟨ps, h, rfl⟩
  | blank hc _ ih =>
    obtain ⟨qs, hqs, heq⟩ := ih
    obtain ⟨rs, hrs, heq'⟩ := hqs.blank hf hc
    exact ⟨rs, hrs, heq'.trans heq⟩
  | @comment body g hbody _ ih =>
    obtain ⟨qs, hqs, heq⟩ := ih
    refine ⟨commentPieces body ++ qs, ?_, heq⟩
    rw [List.append_assoc]
    exact (hf.comment hbody (g ++ cs)).halts hqs

/-- every text is read to some halt, whatever frames are open -/
theorem Scan.halts_exists (marker : Char) (frames : List Frame) (cs : List Char) :
    ∃ ps why, Halts marker frames cs ps why := by
  have hmoves := moves_ofFrames marker frames cs
  cases hn : (ofFrames marker frames cs).halt with
  | none =>
    rw [hn] at hmoves
    obtain ⟨why, hw⟩ := halt_whole marker (ofFrames marker frames cs).rest
    exact ⟨_, why, hmoves.halts (halts_whole hw)⟩
  | some why =>
    rw [hn] at hmoves
    exact ⟨_, why, hmoves⟩

/-- one gap in place of another between the same lexemes -/
theorem Scan.contents_gap {a g' b : List Char} (hf : InCode frames) (hg : Gap g) (hg' : Gap g')
    (h : Leads marker [] (a ++ (g ++ b)) ps frames (g ++ b))
    (h' : Leads marker [] (a ++ (g' ++ b)) qs frames (g' ++ b)) (heq : contents ps = contents qs) :
    contents (whole marker (a ++ (g ++ b))).pieces =
      contents (whole marker (a ++ (g' ++ b))).pieces := by
  obtain ⟨rs, why, hrest⟩ := halts_exists marker frames b
  obtain ⟨us, hus, hsame⟩ := hg.halts hf hrest
  obtain ⟨us', hus', hsame'⟩ := hg'.halts hf hrest
  rw [(whole_of_halts (h.halts hus)).1, (whole_of_halts (h'.halts hus')).1, contents_append,
    contents_append, heq, hsame, hsame']

/-- a newline more behind a newline token is a token more -/
theorem Scan.whole_newline (hps : (whole marker (rawOf ps ++ '\n' :: cs)).pieces =
      ps ++ .plain .newline ['\n'] :: qs) :
    (whole marker (rawOf ps ++ '\n' :: '\n' :: cs)).pieces =
        ps ++ .plain .newline ['\n'] :: .blank [] :: .plain .newline ['\n'] :: qs ∧
      (whole marker (rawOf ps ++ '\n' :: '\n' :: cs)).halt =
        (whole marker (rawOf ps ++ '\n' :: cs)).halt := by
  obtain ⟨why, hw⟩ := halt_whole marker (rawOf ps ++ '\n' :: cs)
  have hall := halts_whole hw
  obtain ⟨last, hlast, hleads⟩ := hall.upToNewline .nil rfl hps
  obtain ⟨rs, hrs, hrest⟩ := (hleads cs).halts_rest hall
  obtain rfl : qs = rs := by
    rw [hps, List.append_assoc] at hrs
    exact (List.cons.inj (List.append_cancel_left hrs)).2
  have hmore := (hleads ('\n' :: cs)).halts ((hlast.newline cs).halts hrest)
  obtain ⟨hpieces, hhalt⟩ := whole_of_halts hmore
  exact ⟨by simpa using hpieces, hhalt.trans hw.symm⟩

end Gap

end AutoLang
