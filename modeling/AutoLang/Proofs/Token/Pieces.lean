import AutoLang.Token.Scan
import Mathlib

/-! Reading loses nothing: what is cut from the front of a text are the characters of its pieces, in
their order. A blank piece holds blanks only, and the text of every other piece follows from its
characters. Each function of the reader gets one lemma that says so, from the lexemes up to `Scan`. -/

namespace AutoLang

/-- what a character stands for behind a backslash: a line feed, a tab, a carriage return and the null
character have a letter of their own, and every other character, a quote or a backslash too, is itself -/
inductive Escapes : Char → Char → Prop where
  | lineFeed : Escapes 'n' '\n'
  | tab : Escapes 't' '\t'
  | carriageReturn : Escapes 'r' '\r'
  | null : Escapes '0' '\x00'
  | itself {c : Char} : c ∉ ['n', 't', 'r', '0'] → Escapes c c

/-- the characters of a character literal and the character it denotes; nothing at all may follow the
opening quote, and a lone backslash may follow it, at the end of the text -/
inductive CharSpelled (atEnd : Prop) : List Char → String → Prop where
  | missing : atEnd → CharSpelled atEnd ['\''] ""
  | plain {c : Char} {closing : List Char} :
      (c = '\\' → closing = [] ∧ atEnd) → closing = [] ∨ closing = ['\''] →
      CharSpelled atEnd ('\'' :: c :: closing) c.toString
  | escaped {c d : Char} {closing : List Char} : Escapes c d → closing = [] ∨ closing = ['\''] →
      CharSpelled atEnd ('\'' :: '\\' :: c :: closing) d.toString

/-- the characters of a string are its body in quotes; the closing quote is missing only at the end of
the text -/
def StringSpelled (opening : List Char) (atEnd : Prop) (raw : List Char) (text : String) : Prop :=
  raw = opening ++ text.toList ++ ['"'] ∨ (raw = opening ++ text.toList ∧ atEnd)

/-- how the text of a token comes from its characters; `atEnd` says that the source ends with them -/
def Spelled (kind : TokenKind) (atEnd : Prop) (raw : List Char) (text : String) : Prop :=
  match kind with
  | .char => CharSpelled atEnd raw text
  | .str => StringSpelled ['"'] atEnd raw text
  | .cstr => StringSpelled ['c', '"'] atEnd raw text
  | _ => raw = text.toList

namespace Piece

/-- the text `rest` comes after the piece -/
def Sound (rest : List Char) (p : Piece) : Prop :=
  match p.kind with
  | none => ∀ c ∈ p.raw, c = ' ' ∨ c = '\t' ∨ c = '\r'
  | some k => k ≠ .eof ∧ (k ≠ .commentText → p.raw ≠ []) ∧ Spelled k (rest = []) p.raw p.text

/-- the kinds whose tokens have the characters as their text -/
def IsVerbatim (k : TokenKind) : Prop := k ≠ .eof ∧ k ≠ .char ∧ k ≠ .str ∧ k ≠ .cstr

instance (k : TokenKind) : Decidable (IsVerbatim k) := by unfold IsVerbatim; infer_instance

theorem sound_plain {k : TokenKind} {raw rest : List Char} (hk : IsVerbatim k)
    (hr : k ≠ .commentText → raw ≠ []) : Sound rest (plain k raw) := by
  obtain ⟨he, hc, hs, hcs⟩ := hk
  refine ⟨he, hr, ?_⟩
  unfold Spelled plain
  split <;> simp_all

theorem sound_blank {raw rest : List Char} (h : ∀ c ∈ raw, Lexeme.isBlank c = true) :
    Sound rest (blank raw) := by
  intro c hc
  have := h c hc
  simpa [Lexeme.isBlank, or_assoc] using this

end Piece

/-- all pieces are sound, each before those after it and then `rest` -/
def AllSound (rest : List Char) : List Piece → Prop
  | [] => True
  | p :: ps => p.Sound (rawOf ps ++ rest) ∧ AllSound rest ps

theorem allSound_append {rest : List Char} {ps qs : List Piece} :
    AllSound rest (ps ++ qs) ↔ AllSound (rawOf qs ++ rest) ps ∧ AllSound rest qs := by
  induction ps with
  | nil => simp [AllSound]
  | cons p ps ih =>
    simp only [List.cons_append, AllSound, rawOf_append, List.append_assoc, ih]
    tauto

theorem allSound_singleton {rest : List Char} {p : Piece} :
    AllSound rest [p] ↔ p.Sound rest := by
  simp [AllSound]

/-- the pieces stand at the front of the text, and `rest` is what comes after them -/
structure Cut (cs : List Char) (ps : List Piece) (rest : List Char) : Prop where
  text : cs = rawOf ps ++ rest
  sound : AllSound rest ps

theorem Cut.append {cs mid rest : List Char} {ps qs : List Piece} (h : Cut cs ps mid)
    (h' : Cut mid qs rest) : Cut cs (ps ++ qs) rest := by
  obtain ⟨rfl, hp⟩ := h
  obtain ⟨rfl, hq⟩ := h'
  exact ⟨by simp, allSound_append.2 ⟨hp, hq⟩⟩

theorem Cut.nil (cs : List Char) : Cut cs [] cs := ⟨rfl, trivial⟩

theorem Cut.plain (k : TokenKind) (raw : List Char) {rest : List Char} (hk : Piece.IsVerbatim k)
    (hr : k ≠ .commentText → raw ≠ []) : Cut (raw ++ rest) [.plain k raw] rest :=
  ⟨by simp, allSound_singleton.2 (Piece.sound_plain hk hr)⟩

/-- what is left of the text after the pieces -/
theorem Cut.drop {cs rest : List Char} {ps : List Piece} (h : Cut cs ps rest) :
    cs.drop (rawOf ps).length = rest := by
  rw [h.text, List.drop_left]

namespace Lexeme

theorem isWordChar_of_isWordStart {c : Char} (h : isWordStart c) : isWordChar c := by
  simp only [isWordStart, isWordChar, Char.isAlphanum, Bool.or_eq_true] at h ⊢
  tauto

theorem digitRun_prefix (hex dotted : Bool) (cs : List Char) :
    (digitRun hex dotted cs).1 <+: cs := by
  induction cs generalizing dotted with
  | nil => simp [digitRun]
  | cons c cs ih =>
    unfold digitRun
    split
    · exact List.cons_prefix_cons.2 ⟨rfl, ih dotted⟩
    · split
      · exact List.cons_prefix_cons.2 ⟨rfl, ih true⟩
      · exact List.nil_prefix

theorem suffix_prefix (cs : List Char) : (suffix cs).1 <+: cs := by
  unfold suffix
  split <;> simp

theorem isVerbatim_suffix (cs : List Char) : Piece.IsVerbatim (suffix cs).2 := by
  unfold suffix
  split <;> simp [Piece.IsVerbatim]

theorem cut_number (c : Char) (cs : List Char) :
    ∃ rest, Cut (c :: cs) [number c cs] rest := by
  unfold number
  dsimp only
  set start := if c == '0' && cs.head? == some 'x' then [c, 'x'] else [c] with hs
  have hstart : start <+: c :: cs ∧ start ≠ [] := by
    rw [hs]
    split
    · rename_i hx
      cases cs <;> simp_all
    · simp
  set run := digitRun (c == '0' && cs.head? == some 'x') false ((c :: cs).drop start.length)
  have hrun : run.1 <+: (c :: cs).drop start.length := digitRun_prefix _ _ _
  set tail := suffix ((c :: cs).drop (start.length + run.1.length)) with ht
  have htail : tail.1 <+: (c :: cs).drop (start.length + run.1.length) := suffix_prefix _
  obtain ⟨⟨a, ha⟩, hne⟩ := hstart
  rw [← ha] at hrun htail ⊢
  rw [List.drop_left] at hrun
  obtain ⟨b, rfl⟩ := hrun
  rw [← List.append_assoc, ← List.length_append, List.drop_left] at htail
  obtain ⟨rest, rfl⟩ := htail
  refine ⟨rest, ?_⟩
  rw [show start ++ (run.1 ++ (tail.1 ++ rest)) = start ++ run.1 ++ tail.1 ++ rest by simp]
  refine Cut.plain _ _ ?_ (by simp [hne])
  split
  · decide
  · rw [ht]
    exact isVerbatim_suffix _

theorem isVerbatim_keyword {word : String} {k : TokenKind}
    (h : TokenKind.keyword? word = some k) : Piece.IsVerbatim k := by
  have all : ∀ k ∈ TokenKind.keywords, Piece.IsVerbatim k := by decide
  exact all k (List.mem_of_find?_eq_some h)

theorem cut_word (c : Char) (cs : List Char) : ∃ rest, Cut (c :: cs) [word c cs] rest := by
  have cut : Cut ((c :: cs.takeWhile isWordChar) ++ cs.dropWhile isWordChar) [word c cs]
      (cs.dropWhile isWordChar) := by
    refine Cut.plain _ _ ?_ (by simp)
    cases hk : TokenKind.keyword? (String.ofList (c :: cs.takeWhile isWordChar)) with
    | none => decide
    | some k => exact isVerbatim_keyword hk
  rw [List.cons_append, List.takeWhile_append_dropWhile] at cut
  exact ⟨_, cut⟩

/-- the body ends before a quote, or it is all there is -/
theorem stringBody_append (cs : List Char) : ∃ rest,
    cs = (stringBody cs).1 ++ (if (stringBody cs).2 then ['"'] else []) ++ rest ∧
      ((stringBody cs).2 = false → rest = []) := by
  fun_induction stringBody cs with
  | case1 => exact ⟨[], by simp, fun _ => rfl⟩
  | case2 cs => exact ⟨cs, by simp, by simp⟩
  | case3 c cs body closed h ih =>
    obtain ⟨rest, hr, he⟩ := ih
    rw [h] at hr he
    exact ⟨rest, by simp [← hr], he⟩
  | case4 c cs _ _ body closed h ih =>
    obtain ⟨rest, hr, he⟩ := ih
    rw [h] at hr he
    exact ⟨rest, by simp [← hr], he⟩

theorem cut_string {kind : TokenKind} {opening : List Char} (cs : List Char)
    (hk : kind = .str ∧ opening = ['"'] ∨ kind = .cstr ∧ opening = ['c', '"']) :
    ∃ rest, Cut (opening ++ cs) [string kind opening cs] rest := by
  obtain ⟨rest, hr, he⟩ := stringBody_append cs
  refine ⟨rest, ?_, allSound_singleton.2 ?_⟩
  · simp only [string, rawOf_cons, rawOf_nil, List.append_nil, List.append_assoc] at hr ⊢
    rw [← hr]
  · have spelled : StringSpelled opening (rest = []) (string kind opening cs).raw
        (string kind opening cs).text := by
      simp only [StringSpelled, string, String.toList_ofList]
      cases hb : (stringBody cs).2 with
      | true => simp
      | false => simp [he hb]
    rcases hk with ⟨rfl, rfl⟩ | ⟨rfl, rfl⟩
    · exact ⟨by decide, by simp [string], spelled⟩
    · exact ⟨by decide, by simp [string], spelled⟩

theorem escapes_unescape (c : Char) : Escapes c (unescape c) := by
  unfold unescape
  split
  · exact .lineFeed
  · exact .tab
  · exact .carriageReturn
  · exact .null
  · exact .itself (by simp_all)

theorem cut_character (cs : List Char) : ∃ rest, Cut ('\'' :: cs) [character cs] rest := by
  unfold character
  dsimp only
  -- the closing quote is taken if it is there
  have closing (body after : List Char) : ∃ rest close,
      (if (List.drop body.length (body ++ after)).take 1 == ['\'']
        then (List.drop body.length (body ++ after)).take 1 else []) = close ∧
      after = close ++ rest ∧ (close = [] ∨ close = ['\'']) := by
    rw [List.drop_left]
    by_cases h : after.take 1 = ['\'']
    · refine ⟨after.drop 1, ['\''], by simp [h], ?_, .inr rfl⟩
      rw [← h, List.take_append_drop]
    · exact ⟨after, [], by simp [h], rfl, .inl rfl⟩
  unfold charBody
  split
  · exact ⟨[], by simp, allSound_singleton.2 ⟨by decide, by simp, .missing rfl⟩⟩
  · rename_i c after
    obtain ⟨rest, close, hc, rfl, hq⟩ := closing ['\\', c] after
    simp only [List.cons_append, List.nil_append] at hc
    rw [hc]
    exact ⟨rest, by simp, allSound_singleton.2 ⟨by decide, by simp, .escaped (escapes_unescape c) hq⟩⟩
  · rename_i c after hesc
    obtain ⟨rest, close, hc, rfl, hq⟩ := closing [c] after
    simp only [List.cons_append, List.nil_append] at hc
    rw [hc]
    refine ⟨rest, by simp, allSound_singleton.2 ⟨by decide, by simp, .plain ?_ hq⟩⟩
    rintro rfl
    -- a backslash is plain only when nothing comes after it
    cases hr : close ++ rest with
    | nil => simpa using hr
    | cons d ds => exact absurd hr (hesc d ds rfl)

theorem commentBody_append {cs body : List Char} (h : commentBody cs = some body) :
    ∃ rest, cs = body ++ ['*', '/'] ++ rest := by
  fun_induction commentBody cs generalizing body with
  | case1 => simp at h
  | case2 cs =>
    cases h
    exact ⟨cs, by simp⟩
  | case3 c cs _ ih =>
    obtain ⟨tail, ht, rfl⟩ := Option.map_eq_some_iff.1 h
    obtain ⟨rest, rfl⟩ := ih ht
    exact ⟨rest, by simp⟩

theorem cut_blockComment {cs : List Char} {ps : List Piece} (h : blockComment cs = .whole ps) :
    ∃ rest, Cut ('/' :: '*' :: cs) ps rest := by
  unfold blockComment at h
  split at h
  · contradiction
  · rename_i body hb
    cases h
    obtain ⟨rest, rfl⟩ := commentBody_append hb
    have opening : Cut ('/' :: '*' :: (body ++ ['*', '/'] ++ rest)) [.plain .openComment ['/', '*']]
        (body ++ ['*', '/'] ++ rest) := Cut.plain .openComment ['/', '*'] (by decide) (by simp)
    rw [List.append_assoc] at opening ⊢
    have content : Cut (body ++ (['*', '/'] ++ rest)) [.plain .commentText body]
        (['*', '/'] ++ rest) := Cut.plain .commentText body (by decide) (by simp)
    have closing : Cut (['*', '/'] ++ rest) [.plain .closeComment ['*', '/']] rest :=
      Cut.plain .closeComment ['*', '/'] (by decide) (by simp)
    exact ⟨rest, opening.append (content.append closing)⟩

theorem cut_lineComment (cs : List Char) : ∃ rest, Cut ('/' :: '/' :: cs)
    [.plain .lineComment ['/', '/'], .plain .commentText (cs.takeWhile (· != '\n'))] rest := by
  have opening : Cut ('/' :: '/' :: cs) [.plain .lineComment ['/', '/']] cs :=
    Cut.plain .lineComment ['/', '/'] (by decide) (by simp)
  have content : Cut (cs.takeWhile (· != '\n') ++ cs.dropWhile (· != '\n'))
      [.plain .commentText (cs.takeWhile (· != '\n'))] (cs.dropWhile (· != '\n')) :=
    Cut.plain _ _ (by decide) (by simp)
  rw [List.takeWhile_append_dropWhile] at content
  exact ⟨_, opening.append content⟩

theorem cut_symbol {cs : List Char} {k : TokenKind} (h : TokenKind.symbol? cs = some k) :
    ∃ rest, Cut cs [.plain k k.name.toList] rest := by
  have all : ∀ k ∈ TokenKind.symbols, Piece.IsVerbatim k := by decide
  have hne : k.name.toList ≠ [] := List.ne_nil_of_length_pos (TokenKind.symbol?_pos h)
  unfold TokenKind.symbol? at h
  have hp := List.find?_some h
  obtain ⟨rest, rfl⟩ := List.isPrefixOf_iff_prefix.1 hp
  exact ⟨rest, Cut.plain _ _ (all k (List.mem_of_find?_eq_some h)) fun _ => hne⟩

theorem cut_ofText_whole {cs : List Char} {ps : List Piece} (h : ofText cs = .whole ps) :
    ∃ rest, Cut cs ps rest := by
  unfold ofText at h
  split at h
  case h_1 | h_4 | h_5 => contradiction
  case h_2 cs =>
    cases h
    exact ⟨cs, Cut.plain .newline ['\n'] (by decide) (by simp)⟩
  case h_3 =>
    cases h
    exact cut_string _ (.inr ⟨rfl, rfl⟩)
  case h_6 =>
    cases h
    exact cut_string _ (.inl ⟨rfl, rfl⟩)
  case h_7 =>
    cases h
    exact cut_character _
  case h_8 =>
    cases h
    exact cut_lineComment _
  case h_9 => exact cut_blockComment h
  case h_10 =>
    split at h
    · cases h
      exact cut_number _ _
    · split at h
      · cases h
        exact cut_word _ _
      · split at h
        case h_1 k hk =>
          cases h
          exact cut_symbol hk
        case h_2 => contradiction

/-- a format string begins in one of two ways -/
theorem ofText_format_cases {cs : List Char} {p : Piece} {close : Char}
    (h : ofText cs = .format p close) :
    (∃ after, cs = 'f' :: '"' :: after ∧ p = .plain .formatOpen ['f', '"'] ∧ close = '"') ∨
      ∃ after, cs = '\x60' :: after ∧ p = .plain .formatOpen ['\x60'] ∧ close = '\x60' := by
  unfold ofText at h
  split at h
  case h_4 cs =>
    cases h
    exact .inl ⟨cs, rfl, rfl, rfl⟩
  case h_5 cs =>
    cases h
    exact .inr ⟨cs, rfl, rfl, rfl⟩
  case h_9 =>
    unfold blockComment at h
    split at h <;> contradiction
  case h_10 =>
    split at h
    · contradiction
    · split at h
      · contradiction
      · split at h <;> contradiction
  all_goals contradiction

theorem cut_ofText_format {cs : List Char} {p : Piece} {close : Char}
    (h : ofText cs = .format p close) : ∃ rest, Cut cs [p] rest := by
  rcases ofText_format_cases h with ⟨after, rfl, rfl, -⟩ | ⟨after, rfl, rfl, -⟩
  · exact ⟨after, Cut.plain .formatOpen ['f', '"'] (by decide) (by simp)⟩
  · exact ⟨after, Cut.plain .formatOpen ['\x60'] (by decide) (by simp)⟩

/-- only the end of the text makes a lexeme finish reading -/
theorem ofText_finished {cs : List Char} (h : ofText cs = .halt .finished) : cs = [] := by
  unfold ofText at h
  split at h
  case h_1 => rfl
  case h_9 =>
    unfold blockComment at h
    split at h <;> simp at h
  case h_10 =>
    split at h
    · contradiction
    · split at h
      · contradiction
      · split at h <;> simp at h
  all_goals contradiction

end Lexeme

namespace Move

theorem textRun_prefix (marker close : Char) (cs : List Char) : textRun marker close cs <+: cs := by
  induction cs with
  | nil => simp [textRun]
  | cons c cs ih =>
    unfold textRun
    split
    · exact List.nil_prefix
    · exact List.cons_prefix_cons.2 ⟨rfl, ih⟩

/-- a run of text ends at the closing quote, at an interpolation or with the text -/
theorem drop_textRun {marker close c : Char} {cs after : List Char}
    (h : cs.drop (textRun marker close cs).length = c :: after) :
    c = close ∨ opensInterpolation marker (c :: after) = true := by
  induction cs with
  | nil => simp [textRun] at h
  | cons d ds ih =>
    unfold textRun at h
    split at h
    · rename_i hd
      cases h
      simpa using hd
    · exact ih (by simpa using h)

/-- a name that announces itself is not empty -/
theorem takeWhile_isWordChar_ne_nil {marker m : Char} {after : List Char}
    (h : opensInterpolation marker (m :: after) = true) (hb : ∀ inner, after ≠ '{' :: inner) :
    after.takeWhile Lexeme.isWordChar ≠ [] := by
  cases after with
  | nil => simp [opensInterpolation] at h
  | cons d ds =>
    simp only [opensInterpolation, Bool.and_eq_true, Bool.or_eq_true, beq_iff_eq] at h
    rcases h.2 with rfl | hw
    · exact absurd rfl (hb ds)
    · simp [Lexeme.isWordChar_of_isWordStart hw]

theorem cut_ofFormatText {marker close : Char} {cs : List Char} {ps : List Piece}
    {frames : List Frame} (h : ofFormatText marker close cs = .go ps frames) :
    ∃ rest, Cut cs ps rest := by
  unfold ofFormatText at h
  dsimp only at h
  obtain ⟨after, ha⟩ := textRun_prefix marker close cs
  have stop (c : Char) (rest : List Char) :
      cs.drop (textRun marker close cs).length = c :: rest →
        c = close ∨ opensInterpolation marker (c :: rest) = true := drop_textRun
  generalize textRun marker close cs = run at h ha stop
  have hd : cs.drop run.length = after := by rw [← ha, List.drop_left]
  have part : Cut cs (if run.isEmpty then [] else [Piece.plain .formatText run]) after := by
    rw [← ha]
    split
    · rename_i he
      rw [List.isEmpty_iff.1 he]
      exact Cut.nil after
    · rename_i he
      exact Cut.plain .formatText run (by decide) fun _ => by simpa using he
  rw [hd] at h
  split at h
  · cases h
    exact ⟨_, part⟩
  · rename_i c after
    split at h
    · cases h
      exact ⟨after, part.append (Cut.plain .formatClose [c] (by decide) (by simp))⟩
    · rename_i hc
      have mark : Cut (c :: after) [.plain .formatMark [c]] after :=
        Cut.plain .formatMark [c] (by decide) (by simp)
      split at h
      · rename_i inner
        cases h
        have brace : Cut ('{' :: inner) [.plain .openBrace ['{']] inner :=
          Cut.plain .openBrace ['{'] (by decide) (by simp)
        exact ⟨inner, part.append (mark.append brace)⟩
      · rename_i hb
        cases h
        -- a name comes after the marker, so it is not empty
        have open_ : opensInterpolation marker (c :: after) = true := by
          have := stop c after hd
          simp_all
        have name : Cut (after.takeWhile Lexeme.isWordChar ++ after.dropWhile Lexeme.isWordChar)
            [.plain .ident (after.takeWhile Lexeme.isWordChar)]
            (after.dropWhile Lexeme.isWordChar) :=
          Cut.plain _ _ (by decide) fun _ => takeWhile_isWordChar_ne_nil open_ hb
        rw [List.takeWhile_append_dropWhile] at name
        exact ⟨_, part.append (mark.append name)⟩

theorem cut_blank (cs : List Char) :
    Cut cs [.blank (cs.takeWhile Lexeme.isBlank)] (cs.dropWhile Lexeme.isBlank) := by
  refine ⟨by simp, allSound_singleton.2 (Piece.sound_blank fun c hc => ?_)⟩
  exact List.mem_takeWhile_imp hc

theorem cut_ofLexeme {frames frames' : List Frame} {cs : List Char} {ps : List Piece}
    (h : ofLexeme frames cs = .go ps frames') : ∃ rest, Cut cs ps rest := by
  unfold ofLexeme at h
  dsimp only at h
  split at h
  · rename_i qs hq
    cases h
    obtain ⟨rest, hc⟩ := Lexeme.cut_ofText_whole hq
    exact ⟨rest, (cut_blank cs).append hc⟩
  · rename_i p close hp
    cases h
    obtain ⟨rest, hc⟩ := Lexeme.cut_ofText_format hp
    exact ⟨rest, (cut_blank cs).append hc⟩
  · contradiction

/-- a lexeme that halts leaves the text after the blanks, and at the end nothing -/
theorem cut_ofLexeme_halt {frames : List Frame} {cs : List Char} {ps : List Piece} {why : Halt}
    (h : ofLexeme frames cs = .halt ps why) :
    ∃ rest, Cut cs ps rest ∧ (why = .finished → rest = []) := by
  unfold ofLexeme at h
  dsimp only at h
  split at h
  · contradiction
  · contradiction
  · rename_i hw
    cases h
    refine ⟨_, cut_blank cs, ?_⟩
    rintro rfl
    exact Lexeme.ofText_finished hw

theorem cut_ofFrame {marker : Char} {frame : Frame} {cs : List Char} {ps : List Piece}
    {frames : List Frame} (h : ofFrame marker frame cs = .go ps frames) :
    ∃ rest, Cut cs ps rest := by
  cases frame with
  | outside => exact cut_ofLexeme h
  | text close => exact cut_ofFormatText h
  | braces outer =>
    simp only [ofFrame] at h
    split at h
    · rename_i hn
      cases h
      have := cut_blank cs
      rw [hn, List.takeWhile_eq_self_iff.2 (by simpa using hn)] at this
      exact ⟨[], this⟩
    · exact cut_ofLexeme h

theorem cut_ofFrame_halt {marker : Char} {frame : Frame} {cs : List Char} {ps : List Piece}
    {why : Halt} (h : ofFrame marker frame cs = .halt ps why) :
    ∃ rest, Cut cs ps rest ∧ (why = .finished → rest = []) := by
  cases frame with
  | outside => exact cut_ofLexeme_halt h
  | text close =>
    simp only [ofFrame, ofFormatText] at h
    split at h
    · contradiction
    · split at h
      · contradiction
      · split at h <;> contradiction
  | braces outer =>
    simp only [ofFrame] at h
    split at h
    · contradiction
    · exact cut_ofLexeme_halt h

end Move

/-- the pieces of a lexeme are cut from the front of the text, whatever frames it is read in -/
theorem Scan.cut_ofFrames (marker : Char) (frames : List Frame) (cs : List Char) :
    Cut cs (ofFrames marker frames cs).pieces (ofFrames marker frames cs).rest ∧
      ((ofFrames marker frames cs).halt = some .finished →
        (ofFrames marker frames cs).rest = []) := by
  fun_induction ofFrames marker frames cs with
  | case1 cs => exact ⟨Cut.nil cs, by simp⟩
  | case2 frame frames cs ps why made =>
    obtain ⟨rest, hc, hf⟩ := Move.cut_ofFrame_halt made
    dsimp only
    rw [hc.drop]
    exact ⟨hc, fun h => hf (Option.some.inj h)⟩
  | case3 frame frames cs ps new made more ih =>
    obtain ⟨rest, hc⟩ := Move.cut_ofFrame made
    rw [hc.drop] at ih
    dsimp only [more]
    rw [hc.drop]
    exact ⟨hc.append ih.1, ih.2⟩

end AutoLang
