import AutoLang.Proofs.Token.Stream
import Mathlib

/-! Words with spaces between them. A symbol, a name or a numeral that is followed by a space or by the
end of the text makes one token of its own, so a text of such words is read back word by word, without
an error. -/

namespace AutoLang

/-- the text goes on with a space, or not at all -/
def WordEnds (cs : List Char) : Prop := ∀ c ∈ cs.head?, c = ' '

/-- a word that makes a token of kind `k` wherever a space or the end follows it -/
structure Lexes (w : String) (k : TokenKind) : Prop where
  start : ∃ c cs, w.toList = c :: cs ∧ Lexeme.isBlank c = false
  lexeme : ∀ cs, WordEnds cs → Lexeme.ofText (w.toList ++ cs) = .whole [.plain k w.toList]

/-- words in order, with spaces between them and perhaps around them -/
inductive Spaced : List String → List Char → Prop
  | blank (n : Nat) : Spaced [] (List.replicate n ' ')
  | word (n : Nat) {w : String} {ws : List String} {cs : List Char} : WordEnds cs → Spaced ws cs →
    Spaced (w :: ws) (List.replicate n ' ' ++ (w.toList ++ cs))

/-- the token that a word makes -/
structure Token.Spells (t : Token) (w : String) : Prop where
  text : t.text = w
  lexes : Lexes w t.kind

theorem wordEnds_cases {cs : List Char} (h : WordEnds cs) : cs = [] ∨ ∃ ds, cs = ' ' :: ds := by
  cases cs with
  | nil => exact .inl rfl
  | cons c ds =>
    obtain rfl := h c rfl
    exact .inr ⟨ds, rfl⟩

/-- words with one space before each -/
theorem spaced_flatMap (ws : List String) : Spaced ws (ws.flatMap fun w => ' ' :: w.toList) := by
  induction ws with
  | nil => exact .blank 0
  | cons w ws ih =>
    refine .word 1 ?_ ih
    cases ws with
    | nil => simp [WordEnds]
    | cons v vs => simp [WordEnds]

theorem Lexes.unique {w : String} {k k' : TokenKind} (h : Lexes w k) (h' : Lexes w k') : k = k' := by
  have hn : WordEnds [] := by simp [WordEnds]
  have := (h.lexeme [] hn).symm.trans (h'.lexeme [] hn)
  simpa [Piece.plain] using this

theorem lexes_symbol {k : TokenKind} (h : k ∈ TokenKind.symbols) : Lexes k.name k := by
  refine ⟨?_, fun cs hcs => ?_⟩
  · fin_cases h <;> exact ⟨_, _, rfl, rfl⟩
  · rcases wordEnds_cases hcs with rfl | ⟨ds, rfl⟩
    · fin_cases h <;> rfl
    · fin_cases h <;> rfl

section Run

variable {p : Char → Bool} {cs ds : List Char}

/-- a run that a word takes whole ends with the word -/
theorem takeWhile_append_wordEnds (h : ∀ c ∈ cs, p c) (hp : p ' ' = false) (hd : WordEnds ds) :
    (cs ++ ds).takeWhile p = cs := by
  rw [List.takeWhile_append_of_pos h]
  rcases wordEnds_cases hd with rfl | ⟨es, rfl⟩ <;> simp [hp]

theorem head?_append_wordEnds (h : ∀ c ∈ cs, p c) (hd : WordEnds ds) {q : Char} (hq : p q = false)
    (hs : q ≠ ' ') : (cs ++ ds).head? ≠ some q := by
  intro hhead
  cases cs with
  | nil => exact hs (hd q hhead)
  | cons c cs =>
    cases hhead
    rw [h q List.mem_cons_self] at hq
    cases hq

end Run

theorem isBlank_of_isWordChar {c : Char} (hc : Lexeme.isWordChar c) : Lexeme.isBlank c = false := by
  by_contra hb
  simp only [Lexeme.isBlank, Bool.not_eq_false, Bool.or_eq_true, beq_iff_eq] at hb
  rcases hb with (rfl | rfl) | rfl <;> exact absurd hc (by decide)

theorem isDigit_of_isWordStart {c : Char} (hc : Lexeme.isWordStart c) : c.isDigit = false := by
  by_contra hd
  simp only [Lexeme.isWordStart, Char.isAlpha, Char.isUpper, Char.isLower, Char.isDigit,
    Bool.or_eq_true, Bool.and_eq_true, decide_eq_true_eq, beq_iff_eq, Bool.not_eq_false,
    UInt32.le_iff_toNat_le, ge_iff_le] at hc hd
  have h0 : '0'.val.toNat = 48 := rfl
  have h9 : '9'.val.toNat = 57 := rfl
  have hA : 'A'.val.toNat = 65 := rfl
  have ha : 'a'.val.toNat = 97 := rfl
  rcases hc with (hc | hc) | rfl
  · omega
  · omega
  · exact absurd hd (by decide)

/-- what begins with a letter, a digit or an underscore is a number or a word -/
theorem Lexeme.ofText_of_isWordChar {c : Char} {cs : List Char} (hc : isWordChar c)
    (hq : cs.head? ≠ some '"') :
    ofText (c :: cs) = if c.isDigit then .whole [number c cs]
      else .whole [word c cs] := by
  have hstart : c.isDigit = false → isWordStart c = true := by
    intro hd
    simpa [isWordChar, isWordStart, Char.isAlphanum, hd] using hc
  unfold ofText
  split
  case h_3 cs' heq =>
    cases heq
    exact absurd rfl hq
  case h_4 cs' heq =>
    cases heq
    exact absurd rfl hq
  case h_10 d ds _ _ _ _ _ _ _ _ heq =>
    cases heq
    split
    · rfl
    · rename_i hd
      rw [if_pos (hstart (by simpa using hd))]
  case h_1 heq => cases heq
  all_goals
    rename_i heq
    cases heq
    exact absurd hc (by decide)

theorem lexes_word {w : String} {c : Char} {cs : List Char} (hw : w.toList = c :: cs)
    (hc : Lexeme.isWordStart c) (hcs : ∀ d ∈ cs, Lexeme.isWordChar d)
    (hk : TokenKind.keyword? w = none) : Lexes w .ident := by
  have hwc := Lexeme.isWordChar_of_isWordStart hc
  have hd := isDigit_of_isWordStart hc
  refine ⟨⟨c, cs, hw, isBlank_of_isWordChar hwc⟩, fun ds hds => ?_⟩
  · rw [hw, List.cons_append,
      Lexeme.ofText_of_isWordChar hwc (head?_append_wordEnds hcs hds (by decide) (by decide)), hd]
    have hpiece : Lexeme.word c (cs ++ ds) = .plain .ident (c :: cs) := by
      unfold Lexeme.word
      dsimp only
      rw [takeWhile_append_wordEnds hcs (by decide) hds, ← hw, String.ofList_toList, hk]
      rfl
    rw [hpiece]
    rfl

theorem digitRun_digits {cs ds : List Char} (h : ∀ c ∈ cs, c.isDigit) (hds : WordEnds ds) :
    Lexeme.digitRun false false (cs ++ ds) = (cs, false) := by
  induction cs with
  | nil => rcases wordEnds_cases hds with rfl | ⟨es, rfl⟩ <;> rfl
  | cons c cs ih =>
    rw [List.forall_mem_cons] at h
    rw [List.cons_append, Lexeme.digitRun, ih h.2]
    simp [h.1]

theorem lexes_digits {w : String} (hne : w.toList ≠ []) (h : ∀ c ∈ w.toList, c.isDigit) :
    Lexes w .int := by
  obtain ⟨c, cs, hw⟩ := List.exists_cons_of_ne_nil hne
  rw [hw, List.forall_mem_cons] at h
  have hwc : Lexeme.isWordChar c := by simp [Lexeme.isWordChar, Char.isAlphanum, h.1]
  refine ⟨⟨c, cs, hw, isBlank_of_isWordChar hwc⟩, fun ds hds => ?_⟩
  · rw [hw, List.cons_append, Lexeme.ofText_of_isWordChar hwc
      (head?_append_wordEnds h.2 hds (by decide) (by decide)), h.1]
    have hpiece : Lexeme.number c (cs ++ ds) = .plain .int (c :: cs) := by
      have hx : (cs ++ ds).head? ≠ some 'x' := head?_append_wordEnds h.2 hds (by decide) (by decide)
      have htail : Lexeme.suffix ds = ([], .int) := by
        rcases wordEnds_cases hds with rfl | ⟨es, rfl⟩ <;> rfl
      have hhex : (c == '0' && (cs ++ ds).head? == some 'x') = false := by
        rw [Bool.and_eq_false_iff]
        exact .inr (by simpa using hx)
      unfold Lexeme.number
      dsimp only
      rw [hhex, if_neg Bool.false_ne_true, List.length_singleton, List.drop_one, List.tail_cons,
        digitRun_digits h.2 hds]
      simp [Nat.add_comm 1, htail]
    rw [hpiece]
    rfl

section Scan

variable {marker : Char} {w : String} {k : TokenKind} {cs : List Char}

theorem takeWhile_blanks (n : Nat) {c : Char} (hc : Lexeme.isBlank c = false) (cs : List Char) :
    (List.replicate n ' ' ++ (c :: cs)).takeWhile Lexeme.isBlank = List.replicate n ' ' ∧
      (List.replicate n ' ' ++ (c :: cs)).dropWhile Lexeme.isBlank = c :: cs := by
  have hall : ∀ d ∈ List.replicate n ' ', Lexeme.isBlank d = true := by
    intro d hd
    rw [List.eq_of_mem_replicate hd]
    rfl
  rw [List.takeWhile_append_of_pos hall, List.dropWhile_append_of_pos hall]
  simp [hc]

/-- one word, with the spaces before it -/
theorem scan_word (n : Nat) (hw : Lexes w k) (hcs : WordEnds cs) :
    Scan.ofText marker (List.replicate n ' ' ++ (w.toList ++ cs)) =
      ⟨[.blank (List.replicate n ' '), .plain k w.toList], cs, none⟩ := by
  obtain ⟨c, ds, hc, hb⟩ := hw.start
  have hlex := hw.lexeme cs hcs
  rw [hc, List.cons_append] at hlex ⊢
  obtain ⟨htake, hdrop⟩ := takeWhile_blanks n hb (ds ++ cs)
  have hmove : Move.ofFrame marker .outside (List.replicate n ' ' ++ c :: (ds ++ cs)) =
      .go [.blank (List.replicate n ' '), .plain k (c :: ds)] [] := by
    unfold Move.ofFrame Move.ofLexeme
    dsimp only
    rw [htake, hdrop, hlex]
  unfold Scan.ofText
  rw [Scan.ofFrames]
  split
  · rename_i ps why made
    rw [hmove] at made
    cases made
  · rename_i ps new made
    rw [hmove] at made
    cases made
    have hsplit : List.replicate n ' ' ++ c :: (ds ++ cs) =
        rawOf [.blank (List.replicate n ' '), .plain k (c :: ds)] ++ cs := by simp [rawOf]
    rw [hsplit, List.drop_left, List.append_nil, Scan.ofFrames]
    rfl

/-- spaces at the end of the text -/
theorem scan_blank (n : Nat) : Scan.ofText marker (List.replicate n ' ') =
    ⟨[.blank (List.replicate n ' ')], [], some .finished⟩ := by
  have hall : ∀ d ∈ List.replicate n ' ', Lexeme.isBlank d = true := by
    intro d hd
    rw [List.eq_of_mem_replicate hd]
    rfl
  have htake : (List.replicate n ' ').takeWhile Lexeme.isBlank = List.replicate n ' ' :=
    List.takeWhile_eq_self_iff.2 hall
  have hdrop : (List.replicate n ' ').dropWhile Lexeme.isBlank = [] :=
    List.dropWhile_eq_nil_iff.2 hall
  have hmove : Move.ofFrame marker .outside (List.replicate n ' ') =
      .halt [.blank (List.replicate n ' ')] .finished := by
    unfold Move.ofFrame Move.ofLexeme
    dsimp only
    rw [htake, hdrop]
    rfl
  unfold Scan.ofText
  rw [Scan.ofFrames]
  split
  · rename_i ps why made
    rw [hmove] at made
    cases made
    simp [rawOf]
  · rename_i ps new made
    rw [hmove] at made
    cases made

/-- a spaced text is read to its end, and its tokens spell its words -/
theorem whole_spaced (marker : Char) {ws : List String} (h : Spaced ws cs) (hw : ∀ w ∈ ws, ∃ k, Lexes w k) :
    (Scan.whole marker cs).halt = some .finished ∧
      ∀ m, List.Forall₂ Token.Spells (locate m (Scan.whole marker cs).pieces) ws := by
  induction h with
  | blank n =>
    have hhalt : (Scan.ofText marker (List.replicate n ' ')).halt = some .finished := by
      rw [scan_blank]
    rw [Scan.whole_of_halt hhalt, scan_blank]
    exact ⟨rfl, fun m => .nil⟩
  | @word n w ws cs hcs _ ih =>
    rw [List.forall_mem_cons] at hw
    obtain ⟨⟨k, hk⟩, hw⟩ := hw
    obtain ⟨hhalt, hspell⟩ := ih hw
    have hgo : Scan.ofText marker _ = _ := scan_word n hk hcs
    rw [Scan.whole_of_go (by rw [hgo]), hgo]
    refine ⟨hhalt, fun m => ?_⟩
    rw [locate_append]
    exact .cons ⟨String.ofList_toList, hk⟩ (hspell _)

end Scan

/-- the tokens of a spaced text spell its words, and nothing is wrong with them -/
theorem tokens_spaced {l : Lexer} {ws : List String} (hp : l.pending = []) (hf : l.finished = false)
    (h : Spaced ws l.rest) (hw : ∀ w ∈ ws, ∃ k, Lexes w k) :
    ∃ ts last, l.tokens = ts ++ [last] ∧ last.kind = .eof ∧ List.Forall₂ Token.Spells ts ws ∧
      l.allErrors = l.errors := by
  obtain ⟨hhalt, hspell⟩ := whole_spaced l.marker h hw
  have hdrain := Lexer.drain_eq hp hf hhalt #[]
  refine ⟨_, Lexer.endToken (l.atHalt (Scan.whole l.marker l.rest) .finished).mark, ?_, rfl,
    hspell l.mark, ?_⟩
  · rw [Lexer.tokens, hdrain]
    simp only [Array.toList_push, Array.empty_append]
  · rw [Lexer.allErrors, hdrain]
    rfl

end AutoLang
