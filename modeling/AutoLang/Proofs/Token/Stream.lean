import AutoLang.Proofs.Token.Pieces
import AutoLang.Token.Lexer
import Mathlib

/-! The tokens of a whole text. A lexer reads one lexeme at a time and hands its tokens out one by one;
`drain_eq` says that what it hands out in the end are the tokens of all pieces that `Scan.whole` cuts
from the text, in order, and then one end token. -/

namespace AutoLang

namespace Scan

section Equations

variable {marker : Char} {frame : Frame} {frames : List Frame} {cs : List Char} {ps : List Piece}

theorem ofFrames_nil (marker : Char) (cs : List Char) : ofFrames marker [] cs = ⟨[], cs, none⟩ := by
  rw [ofFrames]

theorem ofFrames_of_halt {why : Halt} (h : Move.ofFrame marker frame cs = .halt ps why) :
    ofFrames marker (frame :: frames) cs = ⟨ps, cs.drop (rawOf ps).length, some why⟩ := by
  rw [ofFrames]
  split
  · rename_i made
    cases h.symm.trans made
    rfl
  · rename_i made
    cases h.symm.trans made

theorem ofFrames_of_go {new : List Frame} {more : Scan} (h : Move.ofFrame marker frame cs = .go ps new)
    (hmore : ofFrames marker (new ++ frames) (cs.drop (rawOf ps).length) = more) :
    ofFrames marker (frame :: frames) cs = ⟨ps ++ more.pieces, more.rest, more.halt⟩ := by
  rw [ofFrames]
  split
  · rename_i made
    cases h.symm.trans made
  · rename_i made
    cases h.symm.trans made
    rw [hmore]

end Equations

/-- all lexemes of a text, up to the one that halts -/
def whole (marker : Char) (cs : List Char) : Scan :=
  match _made : (ofText marker cs).halt with
  | some _ => ofText marker cs
  | none =>
    let more := whole marker (ofText marker cs).rest
    ⟨(ofText marker cs).pieces ++ more.pieces, more.rest, more.halt⟩
termination_by cs.length
decreasing_by exact rest_ofText_lt _made

theorem whole_of_halt {marker : Char} {cs : List Char} {why : Halt}
    (h : (ofText marker cs).halt = some why) : whole marker cs = ofText marker cs := by
  rw [whole]
  split
  · rfl
  · simp_all

theorem whole_of_go {marker : Char} {cs : List Char} (h : (ofText marker cs).halt = none) :
    whole marker cs =
      ⟨(ofText marker cs).pieces ++ (whole marker (ofText marker cs).rest).pieces,
        (whole marker (ofText marker cs).rest).rest,
        (whole marker (ofText marker cs).rest).halt⟩ := by
  rw [whole]
  split
  · simp_all
  · rfl

theorem cut_whole (marker : Char) (cs : List Char) :
    Cut cs (whole marker cs).pieces (whole marker cs).rest ∧
      ((whole marker cs).halt = some .finished → (whole marker cs).rest = []) := by
  fun_induction whole marker cs with
  | case1 cs => exact cut_ofFrames marker [.outside] cs
  | case2 cs made more ih =>
    have hc := (cut_ofFrames marker [.outside] cs).1
    exact ⟨hc.append ih.1, ih.2⟩

/-- reading goes on until something halts it -/
theorem halt_whole (marker : Char) (cs : List Char) :
    ∃ why, (whole marker cs).halt = some why := by
  fun_induction whole marker cs with
  | case1 cs why made => exact ⟨why, made⟩
  | case2 cs made more ih => exact ih

end Scan

theorem Lexeme.ofText_whole_token {cs : List Char} {ps : List Piece} (h : ofText cs = .whole ps) :
    ∃ p ∈ ps, p.kind ≠ none := by
  unfold ofText at h
  split at h
  case h_1 | h_4 | h_5 => contradiction
  case h_9 =>
    unfold blockComment at h
    split at h
    · contradiction
    · cases h
      exact ⟨_, List.mem_cons_self, by simp [Piece.plain]⟩
  case h_10 =>
    split at h
    · cases h
      exact ⟨_, List.mem_cons_self, by simp [number, Piece.plain]⟩
    · split at h
      · cases h
        exact ⟨_, List.mem_cons_self, by simp [word, Piece.plain]⟩
      · split at h
        · cases h
          exact ⟨_, List.mem_cons_self, by simp [Piece.plain]⟩
        · contradiction
  all_goals
    cases h
    exact ⟨_, List.mem_cons_self, by simp [Piece.plain, string, character]⟩

theorem Lexeme.ofText_format_token {cs : List Char} {p : Piece} {close : Char}
    (h : ofText cs = .format p close) : p.kind = some .formatOpen := by
  rcases ofText_format_cases h with ⟨after, -, rfl, -⟩ | ⟨after, -, rfl, -⟩ <;> rfl

/-- a lexeme that does not halt makes a token -/
theorem Scan.ofText_token {marker : Char} {cs : List Char} (h : (ofText marker cs).halt = none) :
    ∃ p ∈ (ofText marker cs).pieces, p.kind ≠ none := by
  unfold ofText ofFrames at h ⊢
  split at h
  · simp at h
  · rename_i ps new hm
    simp only [Move.ofFrame, Move.ofLexeme] at hm
    split at hm
    · rename_i qs hq
      cases hm
      obtain ⟨p, hp, hk⟩ := Lexeme.ofText_whole_token hq
      exact ⟨p, by simp [hp], hk⟩
    · rename_i p close hp
      cases hm
      exact ⟨p, by simp, by simp [Lexeme.ofText_format_token hp]⟩
    · contradiction

theorem Mark.pastAll_append (m : Mark) (cs ds : List Char) :
    m.pastAll (cs ++ ds) = (m.pastAll cs).pastAll ds := by
  simp [Mark.pastAll]

theorem locate_append (m : Mark) (ps qs : List Piece) :
    locate m (ps ++ qs) = locate m ps ++ locate (m.pastAll (rawOf ps)) qs := by
  induction ps generalizing m with
  | nil => rfl
  | cons p ps ih =>
    simp only [List.cons_append, locate, ih, rawOf_cons, Mark.pastAll_append]
    split <;> rfl

theorem locate_ne_nil {m : Mark} {ps : List Piece} (h : ∃ p ∈ ps, p.kind ≠ none) :
    locate m ps ≠ [] := by
  induction ps generalizing m with
  | nil => simp at h
  | cons p ps ih =>
    unfold locate
    dsimp only
    split
    · rename_i hn
      obtain ⟨q, hq, hk⟩ := h
      rcases List.mem_cons.1 hq with rfl | hq
      · exact absurd hn hk
      · exact ih ⟨q, hq, hk⟩
    · simp

theorem locate_kind_ne_eof {rest : List Char} {ps : List Piece} (h : AllSound rest ps) (m : Mark) :
    ∀ t ∈ locate m ps, t.kind ≠ .eof := by
  induction ps generalizing m with
  | nil => simp [locate]
  | cons p ps ih =>
    obtain ⟨hp, hps⟩ := h
    unfold locate
    dsimp only
    split
    · exact ih hps _
    · rename_i k hk
      intro t ht
      rcases List.mem_cons.1 ht with rfl | ht
      · unfold Piece.Sound at hp
        rw [hk] at hp
        exact hp.1
      · exact ih hps _ t ht

namespace Lexer

theorem drain_step (l : Lexer) (read : Array Token) : l.drain read =
    if l.next.1.kind = .eof then (read.push l.next.1, l.next.2)
    else l.next.2.drain (read.push l.next.1) := by
  rw [drain]
  split
  rename_i t l' made
  simp only [made]
  split <;> rfl

/-- queued tokens come first -/
theorem drain_pending {l : Lexer} {ts us : List Token} (h : ∀ t ∈ ts, t.kind ≠ .eof)
    (hp : l.pending = ts ++ us) (read : Array Token) :
    l.drain read = { l with pending := us }.drain (read ++ ts.toArray) := by
  induction ts generalizing l read with
  | nil =>
    obtain ⟨_, _, pending, _, _, _⟩ := l
    cases hp
    simp
  | cons t ts ih =>
    have hn : l.next = (t, { l with pending := ts ++ us }) := by simp [next, pop, hp]
    rw [drain_step, hn, if_neg (h t List.mem_cons_self),
      ih (fun u hu => h u (List.mem_cons_of_mem t hu)) rfl]
    simp

/-- a token that is queued alone is handed out last if it is the end token -/
theorem drain_end {l : Lexer} {m : Mark} (hp : l.pending = [endToken m]) (read : Array Token) :
    l.drain read = (read.push (endToken m), { l with pending := [] }) := by
  have hn : l.next = (endToken m, { l with pending := [] }) := by simp [next, pop, hp]
  rw [drain_step, hn]
  exact if_pos rfl

theorem drain_refill {l : Lexer} (hp : l.pending = []) (hf : l.finished = false)
    (hr : l.refill.pending ≠ []) (read : Array Token) : l.drain read = l.refill.drain read := by
  have hn : l.next = l.refill.next := by
    simp [next, hp, hf, hr]
  rw [drain_step, hn, ← drain_step]

/-- the lexer where reading halts, with nothing queued but the end token -/
def atHalt (l : Lexer) (scan : Scan) (why : Halt) : Lexer :=
  halt { l with
    rest := scan.rest
    mark := l.mark.pastAll (rawOf scan.pieces)
    pending := [] } why

/-- all tokens to the end token, and the lexer after them -/
theorem drain_eq {l : Lexer} {why : Halt} (hp : l.pending = []) (hf : l.finished = false)
    (hw : (Scan.whole l.marker l.rest).halt = some why) (read : Array Token) :
    l.drain read =
      (read ++ (locate l.mark (Scan.whole l.marker l.rest).pieces).toArray
          |>.push (endToken (l.atHalt (Scan.whole l.marker l.rest) why).mark),
        { l.atHalt (Scan.whole l.marker l.rest) why with pending := [] }) := by
  obtain ⟨cs, m, pending, marker, errors, finished⟩ := l
  subst hp hf
  dsimp only at hw ⊢
  induction cs using Scan.whole.induct marker generalizing m errors read with
  | case1 cs why' made =>
    rw [Scan.whole_of_halt made] at hw ⊢
    set l : Lexer := ⟨cs, m, [], marker, errors, false⟩
    have hr : l.refill = { l.atHalt (Scan.ofText marker cs) why with
        pending := locate m (Scan.ofText marker cs).pieces ++
          [endToken (l.atHalt (Scan.ofText marker cs) why).mark] } := by
      unfold refill
      dsimp only [l]
      rw [hw]
      cases why <;> rfl
    have sound := (Scan.cut_ofFrames marker [.outside] cs).1.sound
    rw [drain_refill rfl rfl (by rw [hr]; simp), hr,
      drain_pending (locate_kind_ne_eof sound m) rfl, drain_end rfl]
    rfl
  | case2 cs made ih =>
    rw [Scan.whole_of_go made] at hw ⊢
    dsimp only at hw ⊢
    set scan := Scan.ofText marker cs
    set l : Lexer := ⟨cs, m, [], marker, errors, false⟩
    have hr : l.refill = ⟨scan.rest, m.pastAll (rawOf scan.pieces), locate m scan.pieces, marker,
        errors, false⟩ := by
      unfold refill
      dsimp only [l]
      rw [made]
    have sound : AllSound scan.rest scan.pieces := (Scan.cut_ofFrames marker [.outside] cs).1.sound
    have hne : locate m scan.pieces ≠ [] := locate_ne_nil (Scan.ofText_token made)
    rw [drain_refill rfl rfl (by rw [hr]; exact hne), hr,
      drain_pending (locate_kind_ne_eof sound m) (List.append_nil _).symm, ih _ _ _ hw]
    simp only [locate_append, rawOf_append, atHalt, Mark.pastAll_append, l]
    simp

end Lexer

namespace Halt

/-- what is reported when reading halts at `m` -/
def errors (m : Mark) : Halt → List Diagnostic
  | finished => []
  | invalid c => [.invalidCharacter (m.span c.utf8Size) c]
  | openComment => [.unterminatedComment (m.span 2)]

/-- the end of what is read when reading halts at `m` in front of `rest` -/
def endMark (m : Mark) (rest : List Char) : Halt → Mark
  | openComment => m.pastAll rest
  | _ => m

end Halt

/-- the tokens and the errors of a text, from its pieces and the halt behind them -/
theorem Lexer.tokens_of_halt {source : String} {marker : Char} {why : Halt}
    (hw : (Scan.whole marker source.toList).halt = some why) :
    { ofSource source with marker := marker }.tokens =
        locate .origin (Scan.whole marker source.toList).pieces ++
          [endToken (why.endMark (Mark.origin.pastAll (rawOf (Scan.whole marker source.toList).pieces))
            (Scan.whole marker source.toList).rest)] ∧
      { ofSource source with marker := marker }.allErrors =
        why.errors (Mark.origin.pastAll (rawOf (Scan.whole marker source.toList).pieces)) := by
  unfold tokens allErrors
  rw [drain_eq rfl rfl hw]
  cases why <;> simp [atHalt, halt, finish, ofSource, Halt.endMark, Halt.errors]

end AutoLang
