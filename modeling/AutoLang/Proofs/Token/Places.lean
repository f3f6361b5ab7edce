import AutoLang.Proofs.Token.Joined
import Mathlib

/-! Lines and columns are those of the offsets. The reader counts both along with the bytes, one
character after another; here they are read off the text, from the newlines in front of an offset.
Every token and every label of an error begins at a point that the reader counted up to. -/

namespace AutoLang

/-- the line that the offset `p` is on begins at `start`: with the text, or just after a newline -/
structure LineBegins (bytes : List UInt8) (p start : Nat) : Prop where
  before : start ≤ p
  first : start = 0 ∨ bytes[start - 1]? = some 10
  last : ∀ i, start ≤ i → i < p → bytes[i]? ≠ some 10

/-- the line and the column of the stretch are those of its offset in the text -/
structure Span.PlacedIn (bytes : List UInt8) (s : Span) : Prop where
  inside : s.offset ≤ bytes.length
  line : s.line = 1 + (bytes.take s.offset).count 10
  column : ∃ start, LineBegins bytes s.offset start ∧ s.column = s.offset - start

/-- only a newline is encoded with the byte of a newline -/
theorem count_newline_utf8EncodeChar (c : Char) :
    (String.utf8EncodeChar c).count 10 = if c = '\n' then 1 else 0 := by
  have hc : c = '\n' ↔ c.val.toNat = 10 := by
    rw [← Char.toNat_inj]
    rfl
  simp only [hc]
  unfold String.utf8EncodeChar
  dsimp only
  generalize c.val.toNat = v
  have hbyte (n : Nat) (h : n < 256) : UInt8.ofNat n = 10 ↔ n = 10 := by
    rw [← UInt8.toNat_inj]
    simp [Nat.mod_eq_of_lt h]
  by_cases hv : v ≤ 127
  · simp only [if_pos hv, List.count_singleton, beq_iff_eq, hbyte v (by omega)]
  · -- the bytes of a longer encoding are all above 127
    have hhigh (n : Nat) (h : n < 128) : (10 : UInt8) ≠ UInt8.ofNat (n + 128) := by
      rw [ne_comm, Ne, hbyte _ (by omega)]
      omega
    rw [if_neg hv, if_neg (show v ≠ 10 by omega), List.count_eq_zero]
    split_ifs <;> simp only [List.mem_cons, List.not_mem_nil, or_false, not_or]
    · exact ⟨hhigh (v / 64 % 32 + 64) (by omega), hhigh (v % 64) (by omega)⟩
    · exact ⟨hhigh (v / 4096 % 16 + 96) (by omega), hhigh (v / 64 % 64) (by omega),
        hhigh (v % 64) (by omega)⟩
    · exact ⟨hhigh (v / 262144 % 8 + 112) (by omega), hhigh (v / 4096 % 64) (by omega),
        hhigh (v / 64 % 64) (by omega), hhigh (v % 64) (by omega)⟩

theorem count_newline_utf8 (cs : List Char) : (utf8 cs).count 10 = cs.count '\n' := by
  induction cs with
  | nil => rfl
  | cons c cs ih =>
    rw [show utf8 (c :: cs) = String.utf8EncodeChar c ++ utf8 cs from rfl, List.count_append, ih,
      count_newline_utf8EncodeChar, List.count_cons, Nat.add_comm]
    simp

/-- a text is what is in front of its last line, and that line -/
theorem exists_last_line (cs : List Char) :
    ∃ before line, cs = before ++ line ∧ '\n' ∉ line ∧
      (before = [] ∨ ∃ above, before = above ++ ['\n']) := by
  induction cs using List.reverseRecOn with
  | nil => exact ⟨[], [], rfl, List.not_mem_nil, .inl rfl⟩
  | append_singleton cs c ih =>
    by_cases hc : c = '\n'
    · subst hc
      exact ⟨cs ++ ['\n'], [], by simp, List.not_mem_nil, .inr ⟨cs, rfl⟩⟩
    · obtain ⟨before, line, rfl, hline, hbefore⟩ := ih
      refine ⟨before, line ++ [c], by simp, ?_, hbefore⟩
      simpa [hline] using Ne.symm hc

section Line

variable {before line : List Char} (hline : '\n' ∉ line)
  (hbefore : before = [] ∨ ∃ above, before = above ++ ['\n'])

include hline

/-- within a line the column counts the bytes -/
theorem Mark.column_pastAll (m : Mark) :
    (m.pastAll line).column = m.column + (utf8 line).length := by
  induction line generalizing m with
  | nil => rfl
  | cons c cs ih =>
    obtain ⟨hc, hcs⟩ : '\n' ≠ c ∧ '\n' ∉ cs := by simpa using hline
    have hpast : (m.past c).column = m.column + c.utf8Size := by
      simp [Mark.past, hc.symm]
    have hrest := ih hcs (m.past c)
    rw [hpast, length_utf8] at hrest
    rw [length_utf8, List.foldr_cons, ← Nat.add_assoc]
    exact hrest

include hbefore

theorem Mark.column_last_line :
    (origin.pastAll (before ++ line)).column = (utf8 line).length := by
  have hstart : (origin.pastAll before).column = 0 := by
    rcases hbefore with rfl | ⟨above, rfl⟩
    · rfl
    · rw [pastAll_append]
      rfl
  rw [pastAll_append, column_pastAll hline, hstart, Nat.zero_add]

theorem lineBegins_utf8 (after : List Char) :
    LineBegins (utf8 (before ++ line ++ after)) (utf8 (before ++ line)).length
      (utf8 before).length := by
  have hnone : 10 ∉ utf8 line := by
    rw [← List.count_eq_zero, count_newline_utf8, List.count_eq_zero]
    exact hline
  rw [utf8_append, utf8_append, List.length_append]
  constructor
  case before => omega
  case first =>
    rcases hbefore with rfl | ⟨above, rfl⟩
    · exact .inl rfl
    · right
      have hnewline : utf8 ['\n'] = [10] := by decide
      simp [utf8_append, hnewline]
  case last =>
    intro i hstart hstop hi
    rw [List.append_assoc, List.getElem?_append_right hstart,
      List.getElem?_append_left (by omega)] at hi
    exact hnone (List.mem_of_getElem? hi)

end Line

/-- counting along gives the line and the column of the offset -/
theorem Mark.placedIn_pastAll (cs after : List Char) (n : Nat) :
    ((origin.pastAll cs).span n).PlacedIn (utf8 (cs ++ after)) := by
  have hoffset : ((origin.pastAll cs).span n).offset = (utf8 cs).length := by
    simp [span, offset_pastAll, origin]
  constructor
  case inside =>
    rw [hoffset, utf8_append, List.length_append]
    exact Nat.le_add_right _ _
  case line =>
    rw [hoffset, utf8_append, List.take_left, count_newline_utf8]
    exact origin.line_pastAll cs
  case column =>
    obtain ⟨before, line, rfl, hline, hbefore⟩ := exists_last_line cs
    refine ⟨(utf8 before).length, hoffset ▸ lineBegins_utf8 hline hbefore after, ?_⟩
    rw [hoffset, utf8_append, List.length_append, Nat.add_sub_cancel_left]
    exact column_last_line hline hbefore

/-- a token of the pieces begins behind some of their characters -/
theorem pastAll_of_mem_locate {m : Mark} {ps : List Piece} {t : Token} (h : t ∈ locate m ps) :
    ∃ before after n, rawOf ps = before ++ after ∧ t.span = (m.pastAll before).span n := by
  induction ps generalizing m with
  | nil => cases h
  | cons p ps ih =>
    rcases mem_locate_cons h with ⟨k, -, rfl⟩ | h
    · exact ⟨[], rawOf (p :: ps), _, rfl, rfl⟩
    · obtain ⟨before, after, n, hraw, hspan⟩ := ih h
      refine ⟨p.raw ++ before, after, n, ?_, ?_⟩
      · rw [rawOf_cons, hraw, List.append_assoc]
      · rw [hspan, Mark.pastAll_append]

section Lines

variable {m : Mark} {ps : List Piece} {t : Token}

theorem Mark.line_le_pastAll (m : Mark) (cs : List Char) : m.line ≤ (m.pastAll cs).line := by
  rw [m.line_pastAll]
  exact Nat.le_add_right _ _

theorem lines_of_mem_locate (h : t ∈ locate m ps) :
    m.line ≤ t.span.line ∧ t.span.line ≤ (m.pastAll (rawOf ps)).line := by
  obtain ⟨before, after, n, hraw, hspan⟩ := pastAll_of_mem_locate h
  rw [hspan, hraw, Mark.pastAll_append]
  exact ⟨m.line_le_pastAll before, Mark.line_le_pastAll _ after⟩

theorem lines_locate (m : Mark) (ps : List Piece) :
    (locate m ps).Pairwise fun t u => t.span.line ≤ u.span.line := by
  induction ps generalizing m with
  | nil => exact .nil
  | cons p ps ih =>
    unfold locate
    dsimp only
    split
    · exact ih _
    · refine List.pairwise_cons.2 ⟨fun u hu => ?_, ih _⟩
      exact (m.line_le_pastAll p.raw).trans (lines_of_mem_locate hu).1

/-- the tokens of a text do not go up in it -/
theorem Lexer.lines_tokens (source : String) (marker : Char) :
    { ofSource source with marker := marker }.tokens.Pairwise
      fun t u : Token => t.span.line ≤ u.span.line := by
  obtain ⟨why, hw⟩ := Scan.halt_whole marker source.toList
  rw [(tokens_of_halt hw).1]
  refine List.pairwise_append.2 ⟨lines_locate _ _, List.pairwise_singleton _ _, ?_⟩
  intro t ht u hu
  obtain rfl := List.mem_singleton.1 hu
  refine (lines_of_mem_locate ht).2.trans ?_
  cases why with
  | finished | invalid => exact le_rfl
  | openComment => exact Mark.line_le_pastAll _ _

end Lines

namespace Halt

/-- the end token stands behind the pieces, or behind the whole text -/
theorem endMark_pastAll (m : Mark) (cs rest : List Char) (why : Halt) :
    ∃ before after, cs ++ rest = before ++ after ∧
      why.endMark (m.pastAll cs) rest = m.pastAll before := by
  cases why with
  | openComment => exact ⟨cs ++ rest, [], (List.append_nil _).symm, (m.pastAll_append cs rest).symm⟩
  | finished | invalid => exact ⟨cs, rest, rfl, rfl⟩

/-- a label of what is reported stands where reading halts -/
theorem span_of_mem_errors {m : Mark} {why : Halt} {d : Diagnostic} {label : Label}
    (hd : d ∈ why.errors m) (hlabel : label ∈ d.labels) : ∃ n, label.span = m.span n := by
  cases why with
  | finished => cases hd
  | invalid | openComment =>
    obtain rfl := List.mem_singleton.1 hd
    obtain rfl := List.mem_singleton.1 hlabel
    exact ⟨_, rfl⟩

end Halt

/-- every token and every label of an error is on the line and in the column of its offset -/
theorem tokens_placed (source : String) (marker : Char) :
    (∀ t ∈ { Lexer.ofSource source with marker := marker }.tokens,
      t.span.PlacedIn source.toUTF8.data.toList) ∧
    ∀ d ∈ { Lexer.ofSource source with marker := marker }.allErrors, ∀ label ∈ d.labels,
      label.span.PlacedIn source.toUTF8.data.toList := by
  obtain ⟨why, hw⟩ := Scan.halt_whole marker source.toList
  obtain ⟨htokens, herrors⟩ := Lexer.tokens_of_halt hw
  have htext := (Scan.cut_whole marker source.toList).1.text
  rw [htokens, herrors, toUTF8_toList]
  generalize (Scan.whole marker source.toList).pieces = ps at htext ⊢
  generalize (Scan.whole marker source.toList).rest = rest at htext ⊢
  rw [htext]
  refine ⟨fun t ht => ?_, fun d hd label hlabel => ?_⟩
  · rcases List.mem_append.1 ht with ht | ht
    · obtain ⟨before, after, n, hraw, hspan⟩ := pastAll_of_mem_locate ht
      rw [hspan, hraw, List.append_assoc]
      exact Mark.placedIn_pastAll before (after ++ rest) n
    · obtain rfl := List.mem_singleton.1 ht
      obtain ⟨before, after, hsplit, hmark⟩ := why.endMark_pastAll .origin (rawOf ps) rest
      rw [hmark, hsplit]
      exact Mark.placedIn_pastAll before after 0
  · obtain ⟨n, hspan⟩ := Halt.span_of_mem_errors hd hlabel
    rw [hspan]
    exact Mark.placedIn_pastAll (rawOf ps) rest n

/-- a newline in a character begins a line, and so do those in a comment -/
example : (Lexer.ofSource "'\n'x /*\n\n*/ y").tokens.map (fun t => (t.span.line, t.span.column)) =
    [(1, 0), (2, 1), (2, 3), (2, 5), (4, 0), (4, 3), (4, 4)] := by cbv

end AutoLang
