import AutoLang.Proofs.Token.Stream
import Mathlib

/-! Tokens give the source back. If reading reports nothing, the tokens stand in the order of the source
without overlap, what they leave out is blank, and the text of each is the stretch it stands on. -/

namespace AutoLang

/-- the bytes of a text -/
def utf8 (cs : List Char) : List UInt8 := cs.flatMap String.utf8EncodeChar

theorem utf8_append (cs ds : List Char) : utf8 (cs ++ ds) = utf8 cs ++ utf8 ds :=
  List.flatMap_append

theorem length_utf8 (cs : List Char) :
    (utf8 cs).length = cs.foldr (fun c n => c.utf8Size + n) 0 := by
  induction cs with
  | nil => rfl
  | cons c cs ih =>
    rw [List.foldr_cons, ← ih]
    simp [utf8]

theorem utf8_eq_nil {cs : List Char} : utf8 cs = [] ↔ cs = [] := by
  cases cs with
  | nil => simp [utf8]
  | cons c cs => simp [utf8, String.utf8EncodeChar_ne_nil]

theorem toUTF8_toList (s : String) : s.toUTF8.data.toList = utf8 s.toList := by
  have h : s.toUTF8 = s.toList.utf8Encode := String.utf8Encode_toList.symm
  rw [h]
  simp [List.utf8Encode, utf8]

theorem Mark.offset_pastAll (m : Mark) (cs : List Char) :
    (m.pastAll cs).offset = m.offset + (utf8 cs).length := by
  induction cs generalizing m with
  | nil => simp [Mark.pastAll, utf8]
  | cons c cs ih =>
    have hc : (m.past c).offset = m.offset + c.utf8Size := by
      unfold Mark.past
      split <;> rfl
    have := ih (m.past c)
    simp only [Mark.pastAll, List.foldl_cons] at this ⊢
    rw [this, hc, length_utf8, length_utf8, List.foldr_cons, Nat.add_assoc]

namespace Token

/-- the bytes that a token stands on -/
def slice (bytes : List UInt8) (t : Token) : List UInt8 :=
  (bytes.drop t.span.offset).take t.span.length

def Covers (t : Token) (i : Nat) : Prop := t.span.offset ≤ i ∧ i < t.span.stop

/-- the text of a token as the source spells it -/
def SpelledIn (bytes : List UInt8) (t : Token) : Prop :=
  ∃ raw : List Char, utf8 raw = t.slice bytes ∧
    Spelled t.kind (t.span.stop = bytes.length) raw t.text

end Token

/-- the tokens give the bytes of a source back, but for blanks -/
structure Lossless (bytes : List UInt8) (tokens : List Token) : Prop where
  ordered : tokens.Pairwise fun t u => t.span.stop ≤ u.span.offset
  blank : ∀ i (h : i < bytes.length), (∀ t ∈ tokens, ¬ t.Covers i) →
    bytes[i] = 32 ∨ bytes[i] = 9 ∨ bytes[i] = 13
  ends : ∃ before last, tokens = before ++ [last] ∧ last.kind = .eof ∧
    last.span.offset = bytes.length ∧ last.span.length = 0
  proper : ∀ t ∈ tokens, t.kind ≠ .eof → t.kind ≠ .commentText → 1 ≤ t.span.length
  spelled : ∀ t ∈ tokens, t.SpelledIn bytes

section locate

variable {m : Mark} {p : Piece} {ps : List Piece} {t : Token}

/-- a token is the first piece's, or one of the pieces after it -/
theorem mem_locate_cons (h : t ∈ locate m (p :: ps)) :
    (∃ k, p.kind = some k ∧ t = ⟨k, m.span (utf8 p.raw).length, p.text⟩) ∨
      t ∈ locate (m.pastAll p.raw) ps := by
  unfold locate at h
  dsimp only at h
  split at h
  · exact .inr h
  · rename_i k hk
    rcases List.mem_cons.1 h with rfl | h
    · exact .inl ⟨k, hk, by rw [length_utf8]⟩
    · exact .inr h

theorem locate_bounds (h : t ∈ locate m ps) :
    m.offset ≤ t.span.offset ∧ t.span.stop ≤ m.offset + (utf8 (rawOf ps)).length := by
  induction ps generalizing m with
  | nil => simp [locate] at h
  | cons p ps ih =>
    rw [rawOf_cons, utf8_append, List.length_append]
    rcases mem_locate_cons h with ⟨k, -, rfl⟩ | h
    · simp [Mark.span, Span.stop]
    · have := ih h
      rw [Mark.offset_pastAll] at this
      omega

theorem locate_pairwise (m : Mark) (ps : List Piece) :
    (locate m ps).Pairwise fun t u => t.span.stop ≤ u.span.offset := by
  induction ps generalizing m with
  | nil => exact .nil
  | cons p ps ih =>
    unfold locate
    dsimp only
    split
    · exact ih _
    · refine List.pairwise_cons.2 ⟨fun u hu => ?_, ih _⟩
      have := (locate_bounds hu).1
      rw [Mark.offset_pastAll, length_utf8] at this
      simpa [Mark.span, Span.stop] using this

theorem locate_proper {rest : List Char} (hs : AllSound rest ps) (h : t ∈ locate m ps)
    (hk : t.kind ≠ .commentText) : 1 ≤ t.span.length := by
  induction ps generalizing m with
  | nil => simp [locate] at h
  | cons p ps ih =>
    rcases mem_locate_cons h with ⟨k, hp, rfl⟩ | h
    · have hs := hs.1
      unfold Piece.Sound at hs
      rw [hp] at hs
      have hr := mt utf8_eq_nil.1 (hs.2.1 hk)
      exact List.length_pos_iff.2 hr
    · exact ih hs.2 h

theorem slice_append (before : List Char) (k : TokenKind) (raw after : List Char) (text : String)
    (hm : m.offset = (utf8 before).length) :
    Token.slice (utf8 (before ++ (raw ++ after))) ⟨k, m.span (utf8 raw).length, text⟩ = utf8 raw := by
  simp only [Token.slice, Mark.span, hm, utf8_append]
  rw [List.drop_left, List.take_left]

theorem locate_spelled (before : List Char) (hm : m.offset = (utf8 before).length)
    (hs : AllSound [] ps) (h : t ∈ locate m ps) : t.SpelledIn (utf8 (before ++ rawOf ps)) := by
  induction ps generalizing m before with
  | nil => simp [locate] at h
  | cons p ps ih =>
    rw [rawOf_cons]
    rcases mem_locate_cons h with ⟨k, hp, rfl⟩ | h
    · refine ⟨p.raw, (slice_append before k p.raw (rawOf ps) p.text hm).symm, ?_⟩
      have hs := hs.1
      unfold Piece.Sound at hs
      rw [hp] at hs
      have atEnd : (m.span (utf8 p.raw).length).stop =
          (utf8 (before ++ (p.raw ++ rawOf ps))).length ↔ rawOf ps ++ [] = [] := by
        simp only [Mark.span, Span.stop, utf8_append, List.length_append, hm, List.append_nil]
        rw [← utf8_eq_nil, ← List.length_eq_zero_iff]
        omega
      dsimp only
      rw [propext atEnd]
      exact hs.2.2
    · have := ih (before ++ p.raw) (by rw [Mark.offset_pastAll, utf8_append, hm]; simp) hs.2 h
      rwa [List.append_assoc] at this

/-- a byte of blanks -/
theorem blank_of_mem_utf8 {raw : List Char} {b : UInt8}
    (h : ∀ c ∈ raw, c = ' ' ∨ c = '\t' ∨ c = '\r') (hb : b ∈ utf8 raw) :
    b = 32 ∨ b = 9 ∨ b = 13 := by
  obtain ⟨c, hc, hb⟩ := List.mem_flatMap.1 hb
  have space : String.utf8EncodeChar ' ' = [32] := by decide
  have tab : String.utf8EncodeChar '\t' = [9] := by decide
  have ret : String.utf8EncodeChar '\r' = [13] := by decide
  rcases h c hc with rfl | rfl | rfl
  · exact .inl (by simpa [space] using hb)
  · exact .inr (.inl (by simpa [tab] using hb))
  · exact .inr (.inr (by simpa [ret] using hb))

/-- a byte that no token covers belongs to a blank piece -/
theorem locate_blank (before : List Char) (hm : m.offset = (utf8 before).length)
    (hs : AllSound [] ps) {i : Nat} (hi : m.offset ≤ i)
    (h : i < (utf8 (before ++ rawOf ps)).length) (hn : ∀ t ∈ locate m ps, ¬ t.Covers i) :
    (utf8 (before ++ rawOf ps))[i] = 32 ∨ (utf8 (before ++ rawOf ps))[i] = 9 ∨
      (utf8 (before ++ rawOf ps))[i] = 13 := by
  induction ps generalizing m before with
  | nil =>
    simp [← hm] at h
    omega
  | cons p ps ih =>
    by_cases hp : i < m.offset + (utf8 p.raw).length
    · have hs := hs.1
      unfold Piece.Sound at hs
      cases hk : p.kind with
      | some k =>
        -- the token of the piece would cover the byte
        refine absurd ?_ (hn ⟨k, m.span (p.raw.foldr (fun c n => c.utf8Size + n) 0), p.text⟩ ?_)
        · rw [← length_utf8]
          exact ⟨hi, hp⟩
        · simp [locate, hk]
      | none =>
        rw [hk] at hs
        refine blank_of_mem_utf8 hs ?_
        have e : (utf8 (before ++ rawOf (p :: ps)))[i] =
            (utf8 p.raw)[i - (utf8 before).length] := by
          simp only [rawOf_cons, utf8_append]
          rw [List.getElem_append_right (by omega), List.getElem_append_left (by omega)]
        rw [e]
        exact List.getElem_mem _
    · have e : before ++ rawOf (p :: ps) = (before ++ p.raw) ++ rawOf ps := by simp
      simp only [e] at h ⊢
      have hm' := Mark.offset_pastAll m p.raw
      refine ih (before ++ p.raw) (by rw [hm', utf8_append, hm, List.length_append]) hs.2
        (by omega) h fun t ht => hn t ?_
      unfold locate
      dsimp only
      split
      · exact ht
      · exact List.mem_cons_of_mem _ ht

end locate

/-- a lexer that reported nothing read the text to its end -/
theorem Lexer.halt_of_allErrors {l : Lexer} {why : Halt} (hp : l.pending = [])
    (hf : l.finished = false) (hw : (Scan.whole l.marker l.rest).halt = some why)
    (h : l.allErrors = []) : why = .finished := by
  unfold Lexer.allErrors at h
  rw [drain_eq hp hf hw] at h
  cases why with
  | finished => rfl
  | invalid c => simp [atHalt, Lexer.halt, finish] at h
  | openComment => simp [atHalt, Lexer.halt, finish] at h

theorem tokens_lossless (source : String) (marker : Char)
    (h : { Lexer.ofSource source with marker := marker }.allErrors = []) :
    Lossless source.toUTF8.data.toList { Lexer.ofSource source with marker := marker }.tokens := by
  obtain ⟨why, hw⟩ := Scan.halt_whole marker source.toList
  obtain rfl := Lexer.halt_of_allErrors rfl rfl hw h
  obtain ⟨⟨text, sound⟩, hr⟩ := Scan.cut_whole marker source.toList
  rw [hr hw] at text sound
  rw [List.append_nil] at text
  set ps := (Scan.whole marker source.toList).pieces
  have tokens : { Lexer.ofSource source with marker := marker }.tokens =
      locate .origin ps ++ [Lexer.endToken (Mark.origin.pastAll (rawOf ps))] := by
    unfold Lexer.tokens
    rw [Lexer.drain_eq rfl rfl hw]
    simp [Lexer.atHalt, Lexer.halt, Lexer.finish, Lexer.ofSource, ps]
  have origin : Mark.origin.offset = (utf8 []).length := rfl
  have last : (Lexer.endToken (Mark.origin.pastAll (rawOf ps))).span.offset =
      (utf8 (rawOf ps)).length := by
    simp [Lexer.endToken, Mark.span, Mark.offset_pastAll, Mark.origin]
  rw [tokens, toUTF8_toList, text]
  constructor
  case ordered =>
    refine List.pairwise_append.2 ⟨locate_pairwise _ _, List.pairwise_singleton _ _, ?_⟩
    intro t ht u hu
    rw [List.mem_singleton.1 hu, last]
    simpa [Mark.origin] using (locate_bounds ht).2
  case blank =>
    intro i hi hn
    exact locate_blank [] origin sound (Nat.zero_le i) hi
      fun t ht => hn t (List.mem_append_left _ ht)
  case ends => exact ⟨_, _, rfl, rfl, last, rfl⟩
  case proper =>
    intro t ht he hc
    rcases List.mem_append.1 ht with ht | ht
    · exact locate_proper sound ht hc
    · exact absurd (by rw [List.mem_singleton.1 ht]; rfl) he
  case spelled =>
    intro t ht
    rcases List.mem_append.1 ht with ht | ht
    · exact locate_spelled [] origin sound ht
    · rw [List.mem_singleton.1 ht]
      exact ⟨[], by simp [Token.slice, Lexer.endToken, Mark.span, utf8], rfl⟩

/-- a format string with code in it, a comment, an escaped character and a string that is not closed -/
theorem tokens_lossless_format_string :
    { Lexer.ofSource "`é%\x7bx /**/\x7d` '\\n'\tc\"y" with marker := '%' }.allErrors = [] ∧
      Lossless "`é%\x7bx /**/\x7d` '\\n'\tc\"y".toUTF8.data.toList
        { Lexer.ofSource "`é%\x7bx /**/\x7d` '\\n'\tc\"y" with marker := '%' }.tokens := by
  have clean : { Lexer.ofSource "`é%\x7bx /**/\x7d` '\\n'\tc\"y" with
      marker := '%' }.allErrors = [] := by cbv
  exact ⟨clean, tokens_lossless _ _ clean⟩

end AutoLang
