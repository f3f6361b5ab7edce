import AutoLang.Proofs.Token.Joined
import AutoLang.Proofs.Token.Lookahead
import Mathlib

/-! Reading a text is a sequence of moves from one pile of frames to the next. What was read up to some
place does not restrict what comes behind it: only the frames that are open there are passed on. At a
newline token the moves up to it are the same for every text behind it. -/

namespace AutoLang

/-- moves that make the pieces lead from a text in front of some frames to a rest of it in front of
others; when all frames are gone, the next lexeme may begin -/
inductive Leads (marker : Char) :
    List Frame → List Char → List Piece → List Frame → List Char → Prop where
  | refl (frames : List Frame) (cs : List Char) : Leads marker frames cs [] frames cs
  | next {cs rest : List Char} {ps : List Piece} {frames : List Frame} :
      Leads marker [.outside] cs ps frames rest → Leads marker [] cs ps frames rest
  | move {frame : Frame} {frames new last : List Frame} {cs rest : List Char} {ps qs : List Piece} :
      Move.ofFrame marker frame cs = .go ps new →
      Leads marker (new ++ frames) (cs.drop (rawOf ps).length) qs last rest →
      Leads marker (frame :: frames) cs (ps ++ qs) last rest

/-- moves that make the pieces and end with a halt -/
inductive Halts (marker : Char) : List Frame → List Char → List Piece → Halt → Prop where
  | halt {frame : Frame} {frames : List Frame} {cs : List Char} {ps : List Piece} {why : Halt} :
      Move.ofFrame marker frame cs = .halt ps why → Halts marker (frame :: frames) cs ps why
  | next {cs : List Char} {ps : List Piece} {why : Halt} :
      Halts marker [.outside] cs ps why → Halts marker [] cs ps why
  | move {frame : Frame} {frames new : List Frame} {cs : List Char} {ps qs : List Piece}
      {why : Halt} : Move.ofFrame marker frame cs = .go ps new →
      Halts marker (new ++ frames) (cs.drop (rawOf ps).length) qs why →
      Halts marker (frame :: frames) cs (ps ++ qs) why

variable {marker : Char} {frame : Frame} {frames new last : List Frame} {cs ds rest : List Char}
  {p : Piece} {ps qs : List Piece} {why : Halt}

namespace Leads

theorem single (made : Move.ofFrame marker frame cs = .go ps new)
    (hrest : cs.drop (rawOf ps).length = rest) :
    Leads marker (frame :: frames) cs ps (new ++ frames) rest := by
  subst hrest
  simpa using Leads.move made (.refl (new ++ frames) _)

theorem halts (h : Leads marker frames cs ps last rest) (hr : Halts marker last rest qs why) :
    Halts marker frames cs (ps ++ qs) why := by
  induction h with
  | refl => exact hr
  | next _ ih => exact .next (ih hr)
  | move made _ ih =>
    rw [List.append_assoc]
    exact .move made (ih hr)

/-- reading that passes a place goes on from there -/
theorem halts_rest (h : Leads marker frames cs ps last rest) (hr : Halts marker frames cs qs why) :
    ∃ rs, qs = ps ++ rs ∧ Halts marker last rest rs why := by
  induction h generalizing qs with
  | refl => exact ⟨qs, rfl, hr⟩
  | next _ ih =>
    cases hr with
    | next hr => exact ih hr
  | move made _ ih =>
    cases hr with
    | halt halted => cases made.symm.trans halted
    | move made' hr =>
      cases made.symm.trans made'
      obtain ⟨rs, rfl, hrs⟩ := ih hr
      exact ⟨rs, (List.append_assoc _ _ _).symm, hrs⟩

end Leads

namespace Halts

theorem unique {why' : Halt} (h : Halts marker frames cs ps why)
    (h' : Halts marker frames cs qs why') : ps = qs ∧ why = why' := by
  induction h generalizing qs with
  | halt halted =>
    cases h' with
    | halt halted' =>
      cases halted.symm.trans halted'
      exact ⟨rfl, rfl⟩
    | move made => cases halted.symm.trans made
  | next _ ih =>
    cases h' with
    | next h' => exact ih h'
  | move made _ ih =>
    cases h' with
    | halt halted => cases made.symm.trans halted
    | move made' h' =>
      cases made.symm.trans made'
      obtain ⟨rfl, rfl⟩ := ih h'
      exact ⟨rfl, rfl⟩

end Halts

namespace Scan

/-- the frames of a lexeme are left behind, or reading halts inside of it -/
theorem moves_ofFrames (marker : Char) (frames : List Frame) (cs : List Char) :
    match (ofFrames marker frames cs).halt with
    | none => Leads marker frames cs (ofFrames marker frames cs).pieces []
        (ofFrames marker frames cs).rest
    | some why => Halts marker frames cs (ofFrames marker frames cs).pieces why := by
  fun_induction ofFrames marker frames cs with
  | case1 cs => exact .refl [] cs
  | case2 frame frames cs ps why made => exact .halt made
  | case3 frame frames cs ps new made more ih =>
    cases hm : more.halt with
    | none =>
      simp only [more, hm] at ih ⊢
      exact .move made ih
    | some why =>
      simp only [more, hm] at ih ⊢
      exact .move made ih

theorem halts_whole (hw : (whole marker cs).halt = some why) :
    Halts marker [] cs (whole marker cs).pieces why := by
  fun_induction whole marker cs with
  | case1 cs why' made =>
    have hmoves := moves_ofFrames marker [.outside] cs
    rw [show (ofFrames marker [.outside] cs).halt = some why' from made] at hmoves
    cases made.symm.trans hw
    exact .next hmoves
  | case2 cs made more ih =>
    have hmoves := moves_ofFrames marker [.outside] cs
    rw [show (ofFrames marker [.outside] cs).halt = none from made] at hmoves
    exact .next (hmoves.halts (ih hw))

/-- the pieces of a text and why reading halts, from any moves that read it -/
theorem whole_of_halts (h : Halts marker [] cs ps why) :
    (whole marker cs).pieces = ps ∧ (whole marker cs).halt = some why := by
  obtain ⟨why', hw⟩ := halt_whole marker cs
  obtain ⟨hps, rfl⟩ := (halts_whole hw).unique h
  exact ⟨hps, hw⟩

end Scan

/-- what comes next is code: outside of every format string, or in an interpolation -/
inductive InCode : List Frame → Prop
  | outside : InCode []
  | braces (outer : Nat) (frames : List Frame) : InCode (.braces outer :: frames)

namespace Lexeme

theorem kind_number_ne_newline (c : Char) (cs : List Char) : (number c cs).kind ≠ some .newline := by
  have hsuffix (ds : List Char) : (suffix ds).2 ≠ .newline := by
    unfold suffix
    split <;> decide
  intro hk
  simp only [number, Piece.plain, Option.some.injEq] at hk
  generalize digitRun _ _ _ = run at hk
  cases hdot : run.2 with
  | true => simp [hdot] at hk
  | false => exact absurd (by simpa [hdot] using hk) (hsuffix _)

theorem kind_word_ne_newline (c : Char) (cs : List Char) : (word c cs).kind ≠ some .newline := by
  have hkeyword : ∀ k ∈ TokenKind.keywords, k ≠ .newline := by decide
  intro hk
  simp only [word, Piece.plain, Option.some.injEq] at hk
  cases hw : TokenKind.keyword? (String.ofList (c :: cs.takeWhile isWordChar)) with
  | none =>
    rw [hw] at hk
    cases hk
  | some k =>
    rw [hw] at hk
    exact absurd hk (hkeyword k (List.mem_of_find?_eq_some hw))

theorem ofText_newline_of_mem (h : ofText cs = .whole ps) (hp : p ∈ ps)
    (hk : p.kind = some .newline) : ∃ after, cs = '\n' :: after ∧ ps = [.plain .newline ['\n']] := by
  have hsymbol : ∀ k ∈ TokenKind.symbols, k ≠ .newline := by decide
  unfold ofText at h
  split at h
  case h_1 | h_4 | h_5 => cases h
  case h_2 after =>
    cases h
    exact ⟨after, rfl, rfl⟩
  case h_9 =>
    unfold blockComment at h
    split at h
    · cases h
    · cases h
      simp only [List.mem_cons, List.not_mem_nil, or_false] at hp
      rcases hp with rfl | rfl | rfl <;> cases hk
  case h_10 =>
    split at h
    · cases h
      obtain rfl := List.mem_singleton.1 hp
      exact absurd hk (kind_number_ne_newline _ _)
    · split at h
      · cases h
        obtain rfl := List.mem_singleton.1 hp
        exact absurd hk (kind_word_ne_newline _ _)
      · split at h
        · rename_i k hk'
          cases h
          obtain rfl := List.mem_singleton.1 hp
          exact absurd (Option.some.inj hk) (hsymbol k (List.mem_of_find?_eq_some hk'))
        · cases h
  case h_8 =>
    cases h
    simp only [List.mem_cons, List.not_mem_nil, or_false] at hp
    rcases hp with rfl | rfl <;> cases hk
  all_goals
    cases h
    obtain rfl := List.mem_singleton.1 hp
    cases hk

end Lexeme

namespace Move

theorem ofLexeme_newline_of_mem (h : ofLexeme frames cs = .go ps new) (hp : p ∈ ps)
    (hk : p.kind = some .newline) :
    (∃ after, cs.dropWhile Lexeme.isBlank = '\n' :: after) ∧
      ps = [.blank (cs.takeWhile Lexeme.isBlank), .plain .newline ['\n']] ∧ new = frames := by
  unfold ofLexeme at h
  dsimp only at h
  split at h
  · rename_i qs hq
    cases h
    rcases List.mem_cons.1 hp with rfl | hp
    · cases hk
    · obtain ⟨after, hcs, rfl⟩ := Lexeme.ofText_newline_of_mem hq hp hk
      exact ⟨⟨after, hcs⟩, rfl, rfl⟩
  · rename_i q close hq
    cases h
    simp only [List.mem_cons, List.not_mem_nil, or_false] at hp
    rcases hp with rfl | rfl
    · cases hk
    · rw [Lexeme.ofText_format_token hq] at hk
      cases hk
  · cases h

theorem kind_ne_newline_ofFormatText {close : Char} (h : ofFormatText marker close cs = .go ps new)
    (hp : p ∈ ps) : p.kind ≠ some .newline := by
  unfold ofFormatText at h
  dsimp only at h
  generalize textRun marker close cs = run at h
  have hpart : ∀ p ∈ if run.isEmpty then [] else [Piece.plain .formatText run],
      p.kind ≠ some .newline := by
    split <;> simp [Piece.plain]
  split at h
  · cases h
    exact hpart p hp
  · split at h
    · cases h
      rcases List.mem_append.1 hp with hp | hp
      · exact hpart p hp
      · obtain rfl := List.mem_singleton.1 hp
        intro hk
        cases hk
    · split at h <;> cases h <;>
      · rcases List.mem_append.1 hp with hp | hp
        · exact hpart p hp
        · simp only [List.mem_cons, List.not_mem_nil, or_false] at hp
          rcases hp with rfl | rfl <;>
          · intro hk
            cases hk

/-- blanks up to a newline are one move, whatever comes behind it -/
theorem ofFrame_blank_newline (marker : Char) (hcs : cs.dropWhile Lexeme.isBlank = [])
    (ds : List Char) :
    ofFrame marker .outside (cs ++ '\n' :: ds) = .go [.blank cs, .plain .newline ['\n']] [] ∧
      ∀ outer, ofFrame marker (.braces outer) (cs ++ '\n' :: ds) =
        .go [.blank cs, .plain .newline ['\n']] [.braces outer] := by
  have htake : cs.takeWhile Lexeme.isBlank = cs := by
    simpa [hcs] using List.takeWhile_append_dropWhile (p := Lexeme.isBlank) (l := cs)
  have hlexeme (frames : List Frame) :
      ofLexeme frames (cs ++ '\n' :: ds) = .go [.blank cs, .plain .newline ['\n']] frames := by
    unfold ofLexeme
    rw [takeWhile_seam cs ds rfl, dropWhile_seam cs ds rfl, hcs, htake]
    rfl
  refine ⟨hlexeme [], fun outer => ?_⟩
  unfold ofFrame
  rw [dropWhile_seam cs ds rfl, hcs]
  exact hlexeme [.braces outer]

/-- the move that makes a newline token makes no other, and there is code in front of and behind it -/
theorem ofFrame_newline_of_mem (h : ofFrame marker frame cs = .go ps new) (hp : p ∈ ps)
    (hk : p.kind = some .newline) :
    ps = [.blank (cs.takeWhile Lexeme.isBlank), .plain .newline ['\n']] ∧
      (frame = .outside ∧ new = [] ∨ ∃ outer, frame = .braces outer ∧ new = [.braces outer]) := by
  cases frame with
  | outside =>
    obtain ⟨-, hps, hnew⟩ := ofLexeme_newline_of_mem h hp hk
    exact ⟨hps, .inl ⟨rfl, hnew⟩⟩
  | text close => exact absurd hk (kind_ne_newline_ofFormatText h hp)
  | braces outer =>
    unfold ofFrame at h
    dsimp only at h
    split at h
    · cases h
      obtain rfl := List.mem_singleton.1 hp
      cases hk
    · rename_i c after hc
      obtain ⟨⟨after', hcs⟩, hps, rfl⟩ := ofLexeme_newline_of_mem h hp hk
      cases hc.symm.trans hcs
      exact ⟨hps, .inr ⟨outer, rfl, rfl⟩⟩

theorem kind_of_halt (h : ofFrame marker frame cs = .halt ps why) (hp : p ∈ ps) : p.kind = none := by
  by_contra hk
  exact locate_ne_nil ⟨p, hp, hk⟩ (locate_ofFrame_halt h .origin)

theorem nested_ofFrame (h : ofFrame marker frame cs = .go ps new) (hf : Nested (frame :: frames)) :
    Nested (new ++ frames) := by
  rcases uncut_ofFrame h with uncut | cut
  · exact uncut.nested frames hf
  · rw [cut.frames]
    cases hf with
    | outside => exact .nil
    | text hf => exact hf
    | braces hf => exact hf

end Move

/-- a newline in code is a token of its own -/
theorem InCode.newline (h : InCode frames) (ds : List Char) :
    Leads marker frames ('\n' :: ds) [.blank [], .plain .newline ['\n']] frames ds := by
  obtain ⟨hout, hin⟩ := Move.ofFrame_blank_newline marker List.dropWhile_nil ds
  cases h with
  | outside => exact .next (.single hout rfl)
  | braces outer frames => exact .single (hin outer) rfl

/-- a newline token is a newline, and nothing else -/
theorem Halts.eq_newline (h : Halts marker frames cs qs why) (hp : p ∈ qs)
    (hk : p.kind = some .newline) : p = .plain .newline ['\n'] := by
  induction h with
  | halt halted => cases hk.symm.trans (Move.kind_of_halt halted hp)
  | next _ ih => exact ih hp
  | move made _ ih =>
    rcases List.mem_append.1 hp with hp | hp
    · obtain ⟨rfl, -⟩ := Move.ofFrame_newline_of_mem made hp hk
      simp only [List.mem_cons, List.not_mem_nil, or_false] at hp
      rcases hp with rfl | rfl
      · cases hk
      · rfl
    · exact ih hp

/-- a move that makes a newline token leads to code, whatever comes behind the newline -/
theorem leads_of_newline_move {tail : List Piece}
    (made : Move.ofFrame marker frame (rawOf ps ++ '\n' :: ds) =
      .go (ps ++ .plain .newline ['\n'] :: tail) new) (hf : Nested (frame :: frames)) :
    ∃ last, InCode last ∧ ∀ es, Leads marker (frame :: frames) (rawOf ps ++ '\n' :: es)
      (ps ++ [.plain .newline ['\n']]) last es := by
  obtain ⟨hone, hframe⟩ :=
    Move.ofFrame_newline_of_mem made (p := .plain .newline ['\n']) (by simp) rfl
  rw [takeWhile_seam _ _ rfl] at hone
  generalize ht : (rawOf ps).takeWhile Lexeme.isBlank = t at hone
  obtain rfl : ps = [.blank t] := by
    rcases ps with _ | ⟨q, _ | ⟨r, ps⟩⟩
    · cases hone
    · cases hone
      rfl
    · simp at hone
  have hraw : rawOf [.blank t] = t := List.append_nil t
  rw [hraw] at ht ⊢
  have hdrop : t.dropWhile Lexeme.isBlank = [] := by
    simpa [ht] using List.takeWhile_append_dropWhile (p := Lexeme.isBlank) (l := t)
  have hrest (es : List Char) :
      (t ++ '\n' :: es).drop (rawOf [.blank t, .plain .newline ['\n']]).length = es := by
    simp
  rcases hframe with ⟨rfl, rfl⟩ | ⟨outer, rfl, rfl⟩
  · -- nothing is around the code outside of all format strings
    cases hf
    refine ⟨[], .outside, fun es => ?_⟩
    exact .single (Move.ofFrame_blank_newline _ hdrop es).1 (hrest es)
  · refine ⟨.braces outer :: frames, .braces outer frames, fun es => ?_⟩
    exact .single ((Move.ofFrame_blank_newline _ hdrop es).2 outer) (hrest es)

/-- up to a newline token the moves are the same for every text behind it, and lead into code -/
theorem Halts.upToNewline (h : Halts marker frames cs qs why) (hf : Nested frames)
    (hcs : cs = rawOf ps ++ '\n' :: ds) {rs : List Piece}
    (hqs : qs = ps ++ .plain .newline ['\n'] :: rs) :
    ∃ last, InCode last ∧
      ∀ es, Leads marker frames (rawOf ps ++ '\n' :: es) (ps ++ [.plain .newline ['\n']]) last
        es := by
  induction h generalizing ps with
  | halt halted =>
    subst hqs
    cases Move.kind_of_halt (p := .plain .newline ['\n']) halted (by simp)
  | next _ ih =>
    obtain ⟨last, hlast, hleads⟩ := ih .outside hcs hqs
    exact ⟨last, hlast, fun es => .next (hleads es)⟩
  | @move frame frames new cs first qs why made _ ih =>
    subst hcs
    -- the newline is read by a later move, or by this one
    have hsplit : (∃ ps', ps = first ++ ps' ∧ qs = ps' ++ .plain .newline ['\n'] :: rs) ∨
        ∃ tail, first = ps ++ .plain .newline ['\n'] :: tail := by
      rcases List.append_eq_append_iff.1 hqs with ⟨ps', hps, hrest⟩ | ⟨tail, hfirst, hrest⟩
      · exact .inl ⟨ps', hps, hrest⟩
      · cases tail with
        | nil => exact .inl ⟨[], by simpa using hfirst.symm, hrest.symm⟩
        | cons q tail =>
          cases hrest
          exact .inr ⟨tail, hfirst⟩
    rcases hsplit with ⟨ps, rfl, rfl⟩ | ⟨tail, hfirst⟩
    · rw [rawOf_append, List.append_assoc, List.drop_left] at ih
      obtain ⟨last, hlast, hleads⟩ := ih (Move.nested_ofFrame made hf) rfl rfl
      refine ⟨last, hlast, fun es => ?_⟩
      have hagain := Move.ofFrame_fits made (by simp) es
      rw [List.append_assoc]
      refine .move hagain ?_
      rw [rawOf_append, List.append_assoc, List.drop_left]
      exact hleads es
    · subst hfirst
      exact leads_of_newline_move made hf

end AutoLang
