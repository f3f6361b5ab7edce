import AutoLang.Proofs.Token.Order
import Mathlib

/-! How the pieces of a text come to be, wherever they stand, within format strings and outside.
Numbers, strings and characters are read by readers of their own; every other piece is no more than its
characters. -/

namespace AutoLang

/-- the kinds that have a reader of their own -/
def TokenKind.isConstant : TokenKind → Bool
  | int | uint | u8 | i8 | float | double | str | cstr | char => true
  | _ => false

/-- how strings of a kind begin -/
def TokenKind.opening? : TokenKind → Option (List Char)
  | str => some ['"']
  | cstr => some ['c', '"']
  | _ => none

/-- what makes a piece -/
inductive Piece.Made : Piece → Prop
  | blank (raw : List Char) : Made (blank raw)
  | number {c : Char} (cs : List Char) : c.isDigit → Made (Lexeme.number c cs)
  | string {k : TokenKind} {opening : List Char} (cs : List Char) : k.opening? = some opening →
    Made (Lexeme.string k opening cs)
  | character (cs : List Char) : Made (Lexeme.character cs)
  | plain {k : TokenKind} (raw : List Char) : k.isConstant = false → Made (plain k raw)

section Scan

theorem Lexeme.made_word (c : Char) (cs : List Char) : (word c cs).Made := by
  refine .plain _ ?_
  have keywords : ∀ k ∈ TokenKind.keywords, k.isConstant = false := by decide
  cases hw : TokenKind.keyword? (String.ofList (c :: cs.takeWhile isWordChar)) with
  | none => rfl
  | some k => exact keywords k (List.mem_of_find?_eq_some hw)

theorem Lexeme.made_ofText {cs : List Char} {ps : List Piece} (h : ofText cs = .whole ps) :
    ∀ p ∈ ps, p.Made := by
  unfold ofText at h
  split at h
  case h_1 | h_4 | h_5 => contradiction
  case h_2 =>
    cases h
    exact List.forall_mem_singleton.2 (.plain _ rfl)
  case h_3 | h_6 =>
    cases h
    exact List.forall_mem_singleton.2 (.string _ rfl)
  case h_7 =>
    cases h
    exact List.forall_mem_singleton.2 (.character _)
  case h_8 =>
    cases h
    exact List.forall_mem_cons.2 ⟨.plain _ rfl, List.forall_mem_singleton.2 (.plain _ rfl)⟩
  case h_9 =>
    unfold blockComment at h
    split at h
    · contradiction
    · cases h
      exact List.forall_mem_cons.2 ⟨.plain _ rfl,
        List.forall_mem_cons.2 ⟨.plain _ rfl, List.forall_mem_singleton.2 (.plain _ rfl)⟩⟩
  case h_10 =>
    split at h
    · rename_i hc
      cases h
      exact List.forall_mem_singleton.2 (.number _ hc)
    · split at h
      · cases h
        exact List.forall_mem_singleton.2 (made_word _ _)
      · split at h
        · rename_i k hk
          cases h
          have symbols : ∀ k ∈ TokenKind.symbols, k.isConstant = false := by decide
          exact List.forall_mem_singleton.2 (.plain _ (symbols k (List.mem_of_find?_eq_some hk)))
        · contradiction

theorem Move.made_ofLexeme (frames : List Frame) (cs : List Char) :
    ∀ p ∈ (ofLexeme frames cs).pieces, p.Made := by
  unfold ofLexeme
  dsimp only
  split
  · rename_i qs hq
    exact List.forall_mem_cons.2 ⟨.blank _, Lexeme.made_ofText hq⟩
  · rename_i q close hq
    refine List.forall_mem_cons.2 ⟨.blank _, List.forall_mem_singleton.2 ?_⟩
    rcases Lexeme.ofText_format_cases hq with ⟨_, -, rfl, -⟩ | ⟨_, -, rfl, -⟩
    · exact .plain _ rfl
    · exact .plain _ rfl
  · exact List.forall_mem_singleton.2 (.blank _)

theorem Move.made_ofFormatText (marker close : Char) (cs : List Char) :
    ∀ p ∈ (ofFormatText marker close cs).pieces, p.Made := by
  unfold ofFormatText
  dsimp only
  generalize textRun marker close cs = run
  have part : ∀ p ∈ if run.isEmpty then [] else [Piece.plain .formatText run], p.Made := by
    split
    · exact List.forall_mem_nil _
    · exact List.forall_mem_singleton.2 (.plain _ rfl)
  split
  · exact part
  · split
    · exact List.forall_mem_append.2 ⟨part, List.forall_mem_singleton.2 (.plain _ rfl)⟩
    · split <;>
      exact List.forall_mem_append.2 ⟨part,
        List.forall_mem_cons.2 ⟨.plain _ rfl, List.forall_mem_singleton.2 (.plain _ rfl)⟩⟩

theorem Move.made_ofFrame (marker : Char) (frame : Frame) (cs : List Char) :
    ∀ p ∈ (ofFrame marker frame cs).pieces, p.Made := by
  cases frame with
  | outside => exact made_ofLexeme [] cs
  | text close => exact made_ofFormatText marker close cs
  | braces outer =>
    unfold ofFrame
    dsimp only
    split
    · exact List.forall_mem_singleton.2 (.blank _)
    · exact made_ofLexeme _ cs

theorem Scan.made_ofFrames (marker : Char) (frames : List Frame) (cs : List Char) :
    ∀ p ∈ (ofFrames marker frames cs).pieces, p.Made := by
  fun_induction ofFrames marker frames cs with
  | case1 => exact List.forall_mem_nil _
  | case2 frame frames cs ps why made =>
    have h := Move.made_ofFrame marker frame cs
    rwa [made] at h
  | case3 frame frames cs ps new made more ih =>
    have h := Move.made_ofFrame marker frame cs
    rw [made] at h
    exact List.forall_mem_append.2 ⟨h, ih⟩

theorem Scan.made_whole (marker : Char) (cs : List Char) :
    ∀ p ∈ (whole marker cs).pieces, p.Made := by
  fun_induction whole marker cs with
  | case1 cs => exact made_ofFrames marker [.outside] cs
  | case2 cs made more ih =>
    exact List.forall_mem_append.2 ⟨made_ofFrames marker [.outside] cs, ih⟩

end Scan

section Strings

namespace Lexeme

theorem opening?_suffix (cs : List Char) : (suffix cs).2.opening? = none := by
  unfold suffix
  split <;> rfl

theorem opening?_number (c : Char) (cs : List Char) :
    ∀ k, (number c cs).kind = some k → k.opening? = none := by
  rintro k ⟨⟩
  generalize digitRun _ _ _ = run
  cases run.2
  · exact opening?_suffix _
  · rfl

theorem text_string (k : TokenKind) (opening cs : List Char) :
    (string k opening cs).text.toList = (stringBody cs).1 := String.toList_ofList

theorem raw_string (k : TokenKind) (opening cs : List Char) : (string k opening cs).raw =
    opening ++ (stringBody cs).1 ++ if (stringBody cs).2 then ['"'] else [] := rfl

end Lexeme

namespace Piece

variable {p : Piece} {k : TokenKind} {opening : List Char}

/-- a piece of a string is one that was read as such -/
theorem Made.eq_string (h : p.Made) (hp : p.kind = some k) (hk : k.opening? = some opening) :
    ∃ cs, p = Lexeme.string k opening cs := by
  cases h with
  | blank => cases hp
  | number cs hc =>
    rw [Lexeme.opening?_number _ _ k hp] at hk
    cases hk
  | string cs hopening =>
    obtain rfl := Option.some.inj hp
    rw [hopening] at hk
    exact ⟨cs, by rw [Option.some.inj hk]⟩
  | character =>
    obtain rfl := Option.some.inj hp
    cases hk
  | plain raw hplain =>
    obtain rfl := Option.some.inj hp
    have hconstant (k : TokenKind) (hk : k.opening?.isSome) : k.isConstant = true := by
      cases k <;> first | rfl | cases hk
    rw [hconstant _ (hk ▸ rfl)] at hplain
    cases hplain

theorem Sound.string {rest : List Char} (h : Sound rest p) (hp : p.kind = some k)
    (hk : k.opening? = some opening) : StringSpelled opening (rest = []) p.raw p.text := by
  unfold Sound at h
  rw [hp] at h
  cases k with
  | str | cstr =>
    cases hk
    exact h.2.2
  | _ => cases hk

end Piece

end Strings

namespace Lexer

variable {source : String} {marker : Char} {t : Token}

/-- the piece behind a token, and what the text has before and behind it -/
theorem piece_of_token (ht : t ∈ { ofSource source with marker := marker }.tokens)
    (hk : t.kind ≠ .eof) : ∃ (p : Piece) (before after : List Char), p.Made ∧
      p.kind = some t.kind ∧ p.text = t.text ∧ p.Sound after ∧
        source.toList = before ++ p.raw ++ after := by
  obtain ⟨beyond, htokens⟩ := tokens_of_pieces source marker
  rw [htokens] at ht
  rcases List.mem_append.1 ht with ht | ht
  · obtain ⟨p, hp, hkind, htext⟩ := piece_of_mem_locate ht
    have hmade := Scan.made_whole marker source.toList p hp
    have hcut := (Scan.cut_whole marker source.toList).1
    obtain ⟨ps, qs, hsplit⟩ := List.append_of_mem hp
    rw [hsplit] at hcut
    refine ⟨p, rawOf ps, rawOf qs ++ _, hmade, hkind, htext, (allSound_append.1 hcut.sound).2.1,
      hcut.text.trans ?_⟩
    rw [rawOf_append, rawOf_cons]
    simp only [List.append_assoc]
  · obtain rfl := List.mem_singleton.1 ht
    exact absurd rfl hk

end Lexer

end AutoLang
