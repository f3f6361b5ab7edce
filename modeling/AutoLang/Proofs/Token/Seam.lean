import AutoLang.Proofs.Token.Nesting
import Mathlib

/-! What stands behind a newline does not matter for what is read before it. Neither a lexeme nor a move
depends on it, unless the text in front of the newline ends inside of a literal: a string, a character
or a format string. -/

namespace AutoLang

/-- a literal in quotes with both of its quotes, or anything else -/
def Piece.isClosed (p : Piece) : Bool :=
  match p.kind with
  | some .str => p.raw == '"' :: p.text.toList ++ ['"']
  | some .cstr => p.raw == 'c' :: '"' :: p.text.toList ++ ['"']
  | some .char => p.raw == '\'' :: (Lexeme.charBody p.raw.tail).1 ++ ['\'']
  | _ => true

/-- a literal in quotes with no character behind it has its closing quote -/
def QuotesClosed : List Piece → Prop
  | [] => True
  | p :: ps => (rawOf ps = [] → p.isClosed) ∧ QuotesClosed ps

instance : DecidablePred QuotesClosed
  | [] => .isTrue trivial
  | p :: ps =>
    have := instDecidablePredListPieceQuotesClosed ps
    inferInstanceAs (Decidable ((rawOf ps = [] → p.isClosed) ∧ QuotesClosed ps))

/-- how many of the pieces begin a format string -/
def openings (ps : List Piece) : Nat := ps.countP (·.kind == some .formatOpen)

/-- how many of the pieces end a format string -/
def closings (ps : List Piece) : Nat := ps.countP (·.kind == some .formatClose)

theorem quotesClosed_append {ps qs : List Piece} :
    QuotesClosed (ps ++ qs) ↔ (rawOf qs = [] → QuotesClosed ps) ∧ QuotesClosed qs := by
  induction ps with
  | nil => simp [QuotesClosed]
  | cons p ps ih =>
    simp only [List.cons_append, QuotesClosed, rawOf_append, List.append_eq_nil_iff, ih]
    tauto

section Runs

variable {p : Char → Bool} (cs ds : List Char)

theorem takeWhile_seam (hp : p '\n' = false) : (cs ++ '\n' :: ds).takeWhile p = cs.takeWhile p := by
  induction cs with
  | nil => simp [hp]
  | cons c cs ih => simp [List.takeWhile_cons, ih]

theorem dropWhile_seam (hp : p '\n' = false) :
    (cs ++ '\n' :: ds).dropWhile p = cs.dropWhile p ++ '\n' :: ds := by
  induction cs with
  | nil => simp [hp]
  | cons c cs ih =>
    simp only [List.cons_append, List.dropWhile_cons, ih]
    split <;> rfl

end Runs

namespace Lexeme

variable (cs ds : List Char)

theorem digitRun_seam (hex dotted : Bool) :
    digitRun hex dotted (cs ++ '\n' :: ds) = digitRun hex dotted cs := by
  have hhead (cs : List Char) :
      (cs ++ '\n' :: ds).head?.any Char.isDigit = cs.head?.any Char.isDigit := by
    cases cs <;> rfl
  induction cs generalizing dotted with
  | nil => cases hex <;> rfl
  | cons c cs ih => simp only [List.cons_append, digitRun, ih, hhead]

theorem suffix_seam : suffix (cs ++ '\n' :: ds) = suffix cs := by
  fun_cases suffix cs with
  | case1 | case2 | case3 | case5 => rfl
  | case4 cs h | case6 cs h =>
    cases cs with
    | nil => rfl
    | cons c cs =>
      have hc : c ≠ '8' := by
        rintro rfl
        exact h _ rfl
      simp [suffix, hc]
  | case7 cs hf hd _ hu _ hi =>
    cases cs with
    | nil => rfl
    | cons c cs => simp_all [suffix]

theorem number_seam (c : Char) : number c (cs ++ '\n' :: ds) = number c cs := by
  have hhead : ((cs ++ '\n' :: ds).head? == some 'x') = (cs.head? == some 'x') := by
    cases cs <;> rfl
  -- no part of a number is longer than the text
  have hdrop (n : Nat) (h : n ≤ (c :: cs).length) :
      (c :: (cs ++ '\n' :: ds)).drop n = (c :: cs).drop n ++ '\n' :: ds :=
    List.drop_append_of_le_length h
  unfold number
  dsimp only
  rw [hhead]
  generalize hstart : (if c == '0' && cs.head? == some 'x' then [c, 'x'] else [c]) = start
  have hlen : start.length ≤ (c :: cs).length := by
    rw [← hstart]
    split
    · rename_i hx
      cases cs <;> simp_all
    · simp
  rw [hdrop _ hlen, digitRun_seam]
  have hrun := ( digitRun_prefix (c == '0' && cs.head? == some 'x') false
    ((c :: cs).drop start.length)).length_le
  rw [List.length_drop] at hrun
  rw [hdrop _ (by omega), suffix_seam]

theorem word_seam (c : Char) : word c (cs ++ '\n' :: ds) = word c cs := by
  simp only [word, takeWhile_seam cs ds (show isWordChar '\n' = false from rfl)]

variable {cs}

theorem stringBody_append_of_closed (h : (stringBody cs).2 = true) :
    stringBody (cs ++ ds) = stringBody cs := by
  fun_induction stringBody cs with
  | case1 => cases h
  | case2 cs => rfl
  | case3 c cs body closed hb ih =>
    rw [hb] at ih
    simp only [List.cons_append, stringBody, ih h]
  | case4 c cs hq hesc body closed hb ih =>
    rw [hb] at ih
    have hcs : cs ≠ [] := by
      rintro rfl
      cases hb
      cases h
    obtain ⟨d, es, rfl⟩ := List.exists_cons_of_ne_nil hcs
    simp_all [stringBody]

theorem string_seam {kind : TokenKind} {opening : List Char}
    (h : (stringBody cs).2 = true) : string kind opening (cs ++ ds) = string kind opening cs := by
  simp only [string, stringBody_append_of_closed ds h]

theorem charBody_append (h : cs.drop (charBody cs).1.length ≠ []) :
    charBody (cs ++ ds) = charBody cs := by
  fun_cases charBody cs with
  | case1 => exact absurd rfl h
  | case2 c cs => rfl
  | case3 c cs hesc =>
    cases cs with
    | nil => simp [charBody] at h
    | cons d cs =>
      have hc : c ≠ '\\' := by
        rintro rfl
        exact hesc d cs rfl rfl
      simp [charBody, hc]

theorem character_append (h : cs.drop (charBody cs).1.length ≠ []) :
    character (cs ++ ds) = character cs := by
  have hle := List.length_pos_iff.2 h
  rw [List.length_drop] at hle
  simp only [character, charBody_append ds h]
  rw [List.drop_append_of_le_length (by omega), List.take_append_of_le_length (by simp; omega)]

theorem commentBody_append_of_some {body : List Char} (h : commentBody cs = some body) :
    commentBody (cs ++ ds) = some body := by
  fun_induction commentBody cs generalizing body with
  | case1 => cases h
  | case2 cs => exact h
  | case3 c cs hend ih =>
    obtain ⟨tail, ht, rfl⟩ := Option.map_eq_some_iff.1 h
    cases cs with
    | nil => cases ht
    | cons d cs =>
      have : ¬ (c = '*' ∧ d = '/') := by
        rintro ⟨rfl, rfl⟩
        exact hend cs rfl rfl
      have hne : ∀ es, c = '*' → d :: (cs ++ ds) = '/' :: es → False := by
        rintro es rfl heq
        exact this ⟨rfl, (List.cons.inj heq).1⟩
      rw [List.cons_append, List.cons_append, commentBody, ← List.cons_append, ih ht]
      · rfl
      · exact hne

theorem isPrefixOf_seam {w : List Char} (h : '\n' ∉ w) (cs ds : List Char) :
    w.isPrefixOf (cs ++ '\n' :: ds) = w.isPrefixOf cs := by
  induction w generalizing cs with
  | nil => simp [List.isPrefixOf]
  | cons c w ih =>
    rw [List.mem_cons, not_or] at h
    cases cs with
    | nil => simp [List.isPrefixOf, Ne.symm h.1]
    | cons d cs => simp [List.isPrefixOf, ih h.2]

theorem symbol?_seam (cs ds : List Char) :
    TokenKind.symbol? (cs ++ '\n' :: ds) = TokenKind.symbol? cs := by
  have hname : ∀ k ∈ TokenKind.symbols, '\n' ∉ k.name.toList := by decide
  unfold TokenKind.symbol?
  refine List.find?_congr fun k hk => isPrefixOf_seam (hname k hk) cs ds

theorem charBody_charBody (cs : List Char) : (charBody (charBody cs).1).1 = (charBody cs).1 := by
  fun_cases charBody cs with
  | case1 => rfl
  | case2 => rfl
  | case3 c cs hesc =>
    unfold charBody
    split <;> simp_all

theorem stringBody_closed {kind : TokenKind} {opening : List Char}
    (hk : kind = .str ∧ opening = ['"'] ∨ kind = .cstr ∧ opening = ['c', '"'])
    (h : (opening ++ cs).drop (string kind opening cs).raw.length = [] →
      (string kind opening cs).isClosed) :
    (stringBody cs).2 = true := by
  by_contra hopen
  rw [Bool.not_eq_true] at hopen
  obtain ⟨rest, hcs, hrest⟩ := stringBody_append cs
  rw [hopen, hrest hopen] at hcs
  have hraw : (string kind opening cs).raw = opening ++ cs := by
    simpa [string, hopen] using hcs.symm
  have hclosed := h (by rw [hraw, List.drop_length])
  rcases hk with ⟨rfl, rfl⟩ | ⟨rfl, rfl⟩ <;> simp [string, Piece.isClosed, hopen] at hclosed

theorem charBody_closed
    (h : ('\'' :: cs).drop (character cs).raw.length = [] → (character cs).isClosed) :
    cs.drop (charBody cs).1.length ≠ [] := by
  intro hend
  have hraw : (character cs).raw = '\'' :: (charBody cs).1 := by
    simp [character, hend]
  have hclosed := h (by rw [hraw]; exact hend)
  rw [Piece.isClosed, hraw] at hclosed
  simp [character, charBody_charBody] at hclosed

theorem head_seam {c : Char} {ds es : List Char} (h : cs ++ '\n' :: ds = c :: es) (hc : c ≠ '\n') :
    ∃ cs', cs = c :: cs' := by
  cases cs with
  | nil => exact absurd (List.cons.inj h).1.symm hc
  | cons d cs => exact ⟨cs, by rw [(List.cons.inj h).1]⟩

theorem ofText_seam {ps : List Piece} (h : ofText cs = .whole ps)
    (hq : cs.drop (rawOf ps).length = [] → QuotesClosed ps) :
    ofText (cs ++ '\n' :: ds) = .whole ps := by
  have hone {p : Piece} (hp : ps = [p]) (hend : cs.drop p.raw.length = []) : p.isClosed := by
    subst hp
    exact (hq (by simpa using hend)).1 rfl
  unfold ofText at h
  split at h
  case h_1 | h_4 | h_5 => cases h
  case h_2 => exact h
  case h_3 cs =>
    cases h
    have hclosed := stringBody_closed (.inr ⟨rfl, rfl⟩) (hone rfl)
    exact congrArg (fun p => Lexeme.whole [p]) (string_seam _ hclosed)
  case h_6 cs =>
    cases h
    have hclosed := stringBody_closed (.inl ⟨rfl, rfl⟩) (hone rfl)
    exact congrArg (fun p => Lexeme.whole [p]) (string_seam _ hclosed)
  case h_7 cs =>
    cases h
    exact congrArg (fun p => Lexeme.whole [p]) (character_append _ (charBody_closed (hone rfl)))
  case h_8 cs =>
    rw [← h]
    change Lexeme.whole [_, Piece.plain .commentText ((cs ++ '\n' :: ds).takeWhile (· != '\n'))] = _
    rw [takeWhile_seam cs ds rfl]
  case h_9 cs =>
    change blockComment (cs ++ '\n' :: ds) = _
    unfold blockComment at h ⊢
    split at h
    · cases h
    · rename_i body hb
      rw [commentBody_append_of_some _ hb, ← h]
  case h_10 c cs hnewline hcstr hformat htick hstr hchar hline hblock =>
    -- a second character that decides the lexeme is no newline, so it stands in the first text
    rw [List.cons_append]
    unfold ofText
    split
    case h_1 heq => cases heq
    case h_10 heq =>
      cases heq
      simpa only [number_seam, word_seam, ← List.cons_append, symbol?_seam] using h
    all_goals rename_i heq
    case h_2 => exact (hnewline (List.cons.inj heq).1).elim
    case h_5 => exact (htick (List.cons.inj heq).1).elim
    case h_6 => exact (hstr (List.cons.inj heq).1).elim
    case h_7 => exact (hchar (List.cons.inj heq).1).elim
    all_goals
      obtain ⟨hc, htail⟩ := List.cons.inj heq
      obtain ⟨es, hcs⟩ := head_seam htail (by decide)
    case h_3 => exact (hcstr es hc hcs).elim
    case h_4 => exact (hformat es hc hcs).elim
    case h_8 => exact (hline es hc hcs).elim
    case h_9 => exact (hblock es hc hcs).elim

theorem ofText_format_seam {p : Piece} {close : Char} (h : ofText cs = .format p close) :
    ofText (cs ++ '\n' :: ds) = .format p close := by
  rcases ofText_format_cases h with ⟨after, rfl, -⟩ | ⟨after, rfl, -⟩ <;> exact h

end Lexeme

/-- how many of the frames are the text of a format string -/
def textFrames (frames : List Frame) : Nat :=
  frames.countP fun
    | .text _ => true
    | _ => false

/-- an interpolation stands inside the text of a format string, and nothing is around the code outside
of all format strings -/
inductive Nested : List Frame → Prop
  | nil : Nested []
  | outside : Nested [.outside]
  | text {close : Char} {frames : List Frame} : Nested frames → Nested (.text close :: frames)
  | braces {outer : Nat} {close : Char} {frames : List Frame} : Nested (.text close :: frames) →
    Nested (.braces outer :: .text close :: frames)

theorem Nested.bracesAfter {frames : List Frame} {outer : Nat} {c : Option Char}
    (h : Nested (.braces outer :: frames)) :
    Nested (Move.bracesAfter outer c ++ frames) := by
  cases h with
  | braces h =>
    unfold Move.bracesAfter
    split
    · exact .braces h
    · split
      · exact h
      · exact .braces h
    · exact .braces h

section Counts

variable {ps qs : List Piece} {frames new : List Frame}

@[simp] theorem openings_append : openings (ps ++ qs) = openings ps + openings qs :=
  List.countP_append

@[simp] theorem closings_append : closings (ps ++ qs) = closings ps + closings qs :=
  List.countP_append

@[simp] theorem textFrames_append : textFrames (new ++ frames) = textFrames new + textFrames frames :=
  List.countP_append

theorem openings_eq_zero (h : ∀ p ∈ ps, ∀ k, p.kind = some k → k.isFormat = false) :
    openings ps = 0 := by
  refine List.countP_eq_zero.2 fun p hp hk => ?_
  cases h p hp _ (beq_iff_eq.1 hk)

theorem closings_eq_zero (h : ∀ p ∈ ps, ∀ k, p.kind = some k → k.isFormat = false) :
    closings ps = 0 := by
  refine List.countP_eq_zero.2 fun p hp hk => ?_
  cases h p hp _ (beq_iff_eq.1 hk)

end Counts

namespace Move

variable {marker : Char} {frame : Frame} {frames new : List Frame} {cs : List Char} {ps : List Piece}

theorem ofLexeme_formats (h : ofLexeme frames cs = .go ps new) :
    closings ps + textFrames new = openings ps + textFrames frames := by
  unfold ofLexeme at h
  dsimp only at h
  split at h
  · rename_i qs hqs
    cases h
    have hqs := Lexeme.isFormat_ofText hqs
    have hps : ∀ p ∈ Piece.blank (cs.takeWhile Lexeme.isBlank) :: qs, ∀ k, p.kind = some k →
        k.isFormat = false := List.forall_mem_cons.2 ⟨nofun, hqs⟩
    rw [openings_eq_zero hps, closings_eq_zero hps]
  · rename_i p close hp
    cases h
    have hk := Lexeme.ofText_format_token hp
    simp [openings, closings, textFrames, Piece.blank, hk]
    omega
  · cases h

theorem ofLexeme_seam (h : ofLexeme frames cs = .go ps new)
    (hq : cs.drop (rawOf ps).length = [] → QuotesClosed ps) (ds : List Char) :
    ofLexeme frames (cs ++ '\n' :: ds) = .go ps new := by
  have hblank : cs.drop (cs.takeWhile Lexeme.isBlank).length = cs.dropWhile Lexeme.isBlank := by
    simpa using (cut_blank cs).drop
  unfold ofLexeme at h ⊢
  rw [takeWhile_seam cs ds rfl, dropWhile_seam cs ds rfl]
  dsimp only at h ⊢
  split at h
  · rename_i qs hqs
    cases h
    rw [Lexeme.ofText_seam ds hqs fun hend => (hq ?_).2]
    rw [rawOf_cons, Piece.raw_blank, List.length_append, ← List.drop_drop, hblank, hend]
  · rename_i p close hp
    rw [Lexeme.ofText_format_seam ds hp, ← h]
  · cases h


theorem textFrames_bracesAfter (outer : Nat) (c : Option Char) :
    textFrames (bracesAfter outer c) = 0 := by
  unfold bracesAfter
  split
  · rfl
  · split <;> rfl
  · rfl

theorem nested_ofLexeme {outside : List Frame} (h : ofLexeme frames cs = .go ps new)
    (hf : Nested (frames ++ outside)) : Nested (new ++ outside) := by
  unfold ofLexeme at h
  dsimp only at h
  split at h
  · cases h
    exact hf
  · cases h
    exact .text hf
  · cases h

theorem opensInterpolation_append {c : Char} {cs : List Char} (ds : List Char) (h : cs ≠ []) :
    opensInterpolation marker (c :: (cs ++ ds)) = opensInterpolation marker (c :: cs) := by
  cases cs with
  | nil => exact absurd rfl h
  | cons d cs => rfl

/-- literal text that something in the text ends is the same whatever comes behind -/
theorem textRun_append {close : Char} (ds : List Char)
    (h : cs.drop (textRun marker close cs).length ≠ []) :
    textRun marker close (cs ++ ds) = textRun marker close cs := by
  induction cs with
  | nil => exact absurd rfl h
  | cons c cs ih =>
    rw [textRun] at h
    rw [List.cons_append, textRun, textRun]
    by_cases hc : c = close
    · simp [hc]
    have hcs : cs ≠ [] := by
      rintro rfl
      simp [hc, opensInterpolation, textRun] at h
    rw [opensInterpolation_append ds hcs]
    split at h
    · rename_i hstop
      rw [if_pos hstop, if_pos hstop]
    · rename_i hgo
      rw [if_neg hgo, if_neg hgo, ih (by simpa using h)]

/-- a move that does not depend on the end of the text: a newline and more behind it change nothing -/
structure Uncut (marker : Char) (frame : Frame) (cs : List Char) (ps : List Piece)
    (new : List Frame) : Prop where
  formats : closings ps + textFrames new = openings ps + textFrames [frame]
  nested : ∀ frames, Nested (frame :: frames) → Nested (new ++ frames)
  again : ∀ ds, (cs.drop (rawOf ps).length = [] → QuotesClosed ps) →
    ofFrame marker frame (cs ++ '\n' :: ds) = .go ps new

/-- a move that the end of the text cuts short; the frame is gone, and no format string was closed -/
structure CutShort (frame : Frame) (cs : List Char) (ps : List Piece) (new : List Frame) : Prop where
  inside : frame ≠ .outside
  frames : new = []
  openings : openings ps = 0
  closings : closings ps = 0
  rest : cs.drop (rawOf ps).length = []

theorem uncut_ofFormatText {close : Char} (h : ofFormatText marker close cs = .go ps new) :
    Uncut marker (.text close) cs ps new ∨ CutShort (.text close) cs ps new := by
  have hpart (run : List Char) :
      openings (if run.isEmpty then [] else [Piece.plain .formatText run]) = 0 ∧
        closings (if run.isEmpty then [] else [Piece.plain .formatText run]) = 0 ∧
        rawOf (if run.isEmpty then [] else [Piece.plain .formatText run]) = run := by
    cases run <;> exact ⟨rfl, rfl, by simp⟩
  by_cases hend : cs.drop (textRun marker close cs).length = []
  · right
    unfold ofFormatText at h
    dsimp only at h
    rw [hend] at h
    cases h
    obtain ⟨ho, hc, hraw⟩ := hpart (textRun marker close cs)
    exact ⟨nofun, rfl, ho, hc, by rw [hraw, hend]⟩
  · left
    have hagain (ds : List Char) : ofFormatText marker close (cs ++ '\n' :: ds) = .go ps new := by
      have hle := List.length_pos_iff.2 hend
      rw [List.length_drop] at hle
      unfold ofFormatText at h ⊢
      dsimp only at h ⊢
      rw [textRun_append _ hend, List.drop_append_of_le_length (by omega)]
      generalize textRun marker close cs = run at *
      split at h
      · rename_i hnil
        exact absurd hnil hend
      · rename_i c after hd
        rw [hd, List.cons_append]
        dsimp only
        split at h
        · rename_i hc
          rw [if_pos hc, h]
        · rename_i hc
          rw [if_neg hc]
          cases after with
          | nil => exact h
          | cons d after =>
            rw [← takeWhile_seam (d :: after) ds (show Lexeme.isWordChar '\n' = false from rfl)] at h
            by_cases hd : d = '{'
            · subst hd
              exact h
            · simpa [hd] using h
    unfold ofFormatText at h
    dsimp only at h
    obtain ⟨ho, hc, -⟩ := hpart (textRun marker close cs)
    generalize (if (textRun marker close cs).isEmpty then [] else
      [Piece.plain .formatText (textRun marker close cs)]) = part at h ho hc
    split at h
    · rename_i hnil
      exact absurd hnil hend
    · split at h
      · cases h
        refine ⟨?_, fun frames hf => ?_, fun ds _ => hagain ds⟩
        · rw [closings_append, openings_append, ho, hc]
          rfl
        · cases hf with
          | text hf => exact hf
      · split at h
        · cases h
          refine ⟨?_, fun frames hf => .braces hf, fun ds _ => hagain ds⟩
          rw [closings_append, openings_append, ho, hc]
          rfl
        · cases h
          refine ⟨?_, fun frames hf => hf, fun ds _ => hagain ds⟩
          rw [closings_append, openings_append, ho, hc]
          rfl

theorem uncut_ofFrame (h : ofFrame marker frame cs = .go ps new) :
    Uncut marker frame cs ps new ∨ CutShort frame cs ps new := by
  cases frame with
  | outside =>
    have h : ofLexeme [] cs = .go ps new := h
    refine .inl ⟨(ofLexeme_formats h).trans rfl, fun frames hf => nested_ofLexeme h ?_,
      fun ds hq => ofLexeme_seam h hq ds⟩
    cases hf with
    | outside => exact .nil
  | text close => exact uncut_ofFormatText h
  | braces outer =>
    unfold ofFrame at h
    dsimp only at h
    split at h
    · cases h
      exact .inr ⟨nofun, rfl, rfl, rfl, by simp⟩
    · rename_i c after hc
      refine .inl ⟨?_, fun frames hf => nested_ofLexeme h hf.bracesAfter, fun ds hq => ?_⟩
      · rw [ofLexeme_formats h, textFrames_bracesAfter]
        rfl
      · have hagain := ofLexeme_seam h hq ds
        unfold ofFrame
        rw [dropWhile_seam cs ds rfl, hc]
        exact hagain

end Move

end AutoLang
