import AutoLang.Proofs.Parse.Consumption
import AutoLang.Proofs.Token.Cutoff
import AutoLang.Proofs.Token.Gaps
import AutoLang.Proofs.Token.OnDemand
import Mathlib

/-! Reading stops once. A character that begins no lexeme and a comment that does not end stop it like
the end of the text does, inside of any number of format strings: nothing is queued after the end token,
and the tokens in front of it are those of the text cut off where reading stopped. -/

namespace AutoLang

variable {marker : Char} {frame : Frame} {frames : List Frame} {cs : List Char} {ps : List Piece}
  {why : Halt}

namespace Move

/-- a move halts behind blanks, and only where code may stand -/
theorem ofFrame_halt (h : ofFrame marker frame cs = .halt ps why) :
    ps = [.blank (cs.takeWhile Lexeme.isBlank)] ∧
      Lexeme.ofText (cs.dropWhile Lexeme.isBlank) = .halt why ∧ ∀ close, frame ≠ .text close := by
  have hlexeme {frames : List Frame} (h : ofLexeme frames cs = .halt ps why) :
      ps = [.blank (cs.takeWhile Lexeme.isBlank)] ∧
        Lexeme.ofText (cs.dropWhile Lexeme.isBlank) = .halt why := by
    unfold ofLexeme at h
    dsimp only at h
    split at h <;> cases h
    rename_i hhalt
    exact ⟨rfl, hhalt⟩
  cases frame with
  | outside =>
    obtain ⟨hps, hhalt⟩ := hlexeme h
    exact ⟨hps, hhalt, by simp⟩
  | text close =>
    simp only [ofFrame, ofFormatText] at h
    split at h
    · cases h
    · split at h
      · cases h
      · split at h <;> cases h
  | braces outer =>
    simp only [ofFrame] at h
    split at h
    · cases h
    · obtain ⟨hps, hhalt⟩ := hlexeme h
      exact ⟨hps, hhalt, by simp⟩

end Move

namespace Halts

/-- the pieces stand at the front of the text, and what halts reading stands behind them -/
theorem text (h : Halts marker frames cs ps why) :
    ∃ rest, cs = rawOf ps ++ rest ∧ (rest = [] → why = .finished) := by
  induction h with
  | @halt frame frames cs ps why halted =>
    obtain ⟨rfl, hhalt, -⟩ := Move.ofFrame_halt halted
    refine ⟨cs.dropWhile Lexeme.isBlank, by simp, fun hrest => ?_⟩
    rw [hrest] at hhalt
    cases hhalt
    rfl
  | next _ ih => exact ih
  | @move frame frames new cs ps qs why made _ ih =>
    obtain ⟨after, hcut⟩ := Move.cut_ofFrame made
    obtain ⟨rest, htext, hrest⟩ := ih
    rw [hcut.drop] at htext
    refine ⟨rest, ?_, hrest⟩
    rw [hcut.text, htext, rawOf_append, List.append_assoc]

/-- at the end of the text reading finishes, whatever frames are open -/
theorem at_end (h : Halts marker frames [] ps why) : why = .finished ∧ ∀ m, locate m ps = [] := by
  generalize hcs : ([] : List Char) = cs at h
  induction h with
  | halt halted =>
    subst hcs
    obtain ⟨rfl, hhalt, -⟩ := Move.ofFrame_halt halted
    cases hhalt
    exact ⟨rfl, fun m => rfl⟩
  | next _ ih => exact ih hcs
  | @move frame frames new cs ps qs why made _ ih =>
    subst hcs
    obtain ⟨hwhy, hqs⟩ := ih (by simp)
    refine ⟨hwhy, fun m => ?_⟩
    rw [locate_append, hqs, List.append_nil]
    cases frame with
    | outside => cases made
    | text close =>
      cases made
      rfl
    | braces outer =>
      cases made
      rfl

/-- blanks alone are read to their end -/
theorem of_blank (hframe : ∀ close, frame ≠ .text close) (hcs : ∀ c ∈ cs, Lexeme.isBlank c = true) :
    ∃ qs, Halts marker (frame :: frames) cs qs .finished ∧ ∀ m, locate m qs = [] := by
  have htake : cs.takeWhile Lexeme.isBlank = cs := List.takeWhile_eq_self_iff.2 hcs
  have hdrop : cs.dropWhile Lexeme.isBlank = [] := List.dropWhile_eq_nil_iff.2 hcs
  cases frame with
  | outside =>
    refine ⟨[.blank cs], .halt ?_, fun m => rfl⟩
    simp [Move.ofFrame, Move.ofLexeme, htake, hdrop, Lexeme.ofText]
  | text close => exact absurd rfl (hframe close)
  | braces outer =>
    have made : Move.ofFrame marker (.braces outer) cs = .go [.blank cs] [] := by
      simp [Move.ofFrame, hdrop]
    obtain ⟨qs, why, hqs⟩ := Scan.halts_exists marker frames []
    obtain ⟨rfl, hnone⟩ := hqs.at_end
    refine ⟨[.blank cs] ++ qs, .move made (by simpa using hqs), fun m => ?_⟩
    rw [locate_append, hnone, List.append_nil]
    rfl

/-- a text that ends where reading halts is read to its end, into the same tokens -/
theorem cutoff (h : Halts marker frames cs ps why) (hwhy : why ≠ .finished) :
    ∃ qs, Halts marker frames (rawOf ps) qs .finished ∧ ∀ m, locate m qs = locate m ps := by
  induction h with
  | @halt frame frames cs ps why halted =>
    obtain ⟨rfl, -, hframe⟩ := Move.ofFrame_halt halted
    have hblank : ∀ c ∈ cs.takeWhile Lexeme.isBlank, Lexeme.isBlank c = true :=
      fun c hc => List.mem_takeWhile_imp hc
    obtain ⟨qs, hqs, hnone⟩ := of_blank hframe hblank
    exact ⟨qs, by simpa using hqs, hnone⟩
  | next _ ih =>
    obtain ⟨qs, hqs, hsame⟩ := ih hwhy
    exact ⟨qs, .next hqs, hsame⟩
  | @move frame frames new cs first ps why made more ih =>
    obtain ⟨rest, htext, hrest⟩ := more.text
    obtain ⟨after, hcut⟩ := Move.cut_ofFrame made
    rw [hcut.drop] at htext
    obtain ⟨qs, hqs, hsame⟩ := ih hwhy
    have made' : Move.ofFrame marker frame (rawOf first ++ rawOf ps) = .go first new := by
      refine Move.ofFrame_within (mt hrest hwhy) ?_ (by simp)
      rw [List.append_assoc, ← htext, ← hcut.text]
      exact made
    have hmoves : Halts marker (frame :: frames) (rawOf first ++ rawOf ps) (first ++ qs) .finished :=
      .move made' (by rwa [List.drop_left])
    refine ⟨first ++ qs, by rwa [rawOf_append], fun m => ?_⟩
    rw [locate_append, locate_append, hsame]

end Halts

namespace Lexer

/-- the text cut off where reading halts has the tokens of the pieces and an end token behind them -/
theorem tokens_cutoff {source : String} (hw : (Scan.whole marker source.toList).halt = some why)
    (hwhy : why ≠ .finished) (hps : (Scan.whole marker source.toList).pieces = ps) :
    ∃ cut : String,
      cut.toUTF8.data.toList =
        source.toUTF8.data.toList.take (Mark.origin.pastAll (rawOf ps)).offset ∧
      { ofSource cut with marker := marker }.tokens =
        locate .origin ps ++ [endToken (Mark.origin.pastAll (rawOf ps))] := by
  have htext := (Scan.cut_whole marker source.toList).1.text
  have hhalts := Scan.halts_whole hw
  rw [hps] at htext hhalts
  obtain ⟨qs, hqs, hsame⟩ := hhalts.cutoff hwhy
  obtain ⟨hpieces, hhalt⟩ := Scan.whole_of_halts hqs
  have hraw : rawOf qs = rawOf ps := by
    obtain ⟨cut, hend⟩ := Scan.cut_whole marker (rawOf ps)
    rw [cut.text, hend hhalt, hpieces, List.append_nil]
  refine ⟨String.ofList (rawOf ps), ?_, ?_⟩
  · have hoffset : (Mark.origin.pastAll (rawOf ps)).offset = (utf8 (rawOf ps)).length := by
      simp [Mark.offset_pastAll, Mark.origin]
    rw [hoffset, toUTF8_toList, toUTF8_toList, String.toList_ofList, htext, utf8_append,
      List.take_left]
  · rw [← String.toList_ofList (l := rawOf ps)] at hpieces hhalt
    rw [(tokens_of_finished hhalt).1, hpieces, hsame, hraw]

/-- what reading of a text gives: one end token, the last one, whichever way it is asked for, and at
most one error, which leaves the tokens of the text in front of it -/
structure StopsOnce (source : String) (marker : Char) : Prop where
  ends : ∃ ts e, { ofSource source with marker := marker }.tokens = ts ++ [e] ∧ e.kind = .eof ∧
    (∀ t ∈ ts, t.kind ≠ .eof) ∧
    ∀ requests, { ofSource source with marker := marker }.handed requests =
      (List.range (requests.count .token)).map
        ({ ofSource source with marker := marker }.tokens.getD · e)
  once : { ofSource source with marker := marker }.allErrors.length ≤ 1
  cutoff : ∀ d ∈ { ofSource source with marker := marker }.allErrors, ∃ span cut,
    d.primarySpan? = some span ∧
    cut.toUTF8.data.toList = source.toUTF8.data.toList.take span.offset ∧
    (d.code = .invalidCharacter ∧
        { ofSource cut with marker := marker }.tokens =
          { ofSource source with marker := marker }.tokens ∨
      d.code = .unterminatedComment ∧
        { ofSource cut with marker := marker }.tokens.dropLast =
          { ofSource source with marker := marker }.tokens.dropLast)

theorem reading_stops_once (source : String) (marker : Char) : StopsOnce source marker := by
  obtain ⟨why, hw⟩ := Scan.halt_whole marker source.toList
  obtain ⟨htokens, herrors⟩ := tokens_of_halt hw
  constructor
  case ends =>
    obtain ⟨ts, e, hsplit, heof, hts⟩ :=
      terminated_drain { ofSource source with marker := marker } #[] (by simp)
    refine ⟨ts, e, hsplit, heof, hts, fun requests => ?_⟩
    rw [handed_eq_map_nth]
    exact List.map_congr_left fun n _ => nth_eq_tokens (queued_ofSource source marker) hsplit n
  case once =>
    rw [herrors]
    cases why <;> simp [Halt.errors]
  case cutoff =>
    intro d hd
    rw [herrors] at hd
    rw [htokens]
    cases why with
    | finished => cases hd
    | invalid c =>
      obtain rfl := List.mem_singleton.1 hd
      obtain ⟨cut, hbytes, hcut⟩ := tokens_cutoff hw (by simp) rfl
      exact ⟨_, cut, rfl, hbytes, .inl ⟨rfl, hcut⟩⟩
    | openComment =>
      obtain rfl := List.mem_singleton.1 hd
      obtain ⟨cut, hbytes, hcut⟩ := tokens_cutoff hw (by simp) rfl
      refine ⟨_, cut, rfl, hbytes, .inr ⟨rfl, ?_⟩⟩
      rw [hcut, List.dropLast_concat, List.dropLast_concat]

end Lexer

end AutoLang
