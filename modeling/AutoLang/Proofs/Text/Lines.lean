import AutoLang.Proofs.Token.Places
import AutoLang.Text.Lines
import Mathlib

/-! The lines that a text is cut into, and the lines that a reader counts. Behind a newline the text is cut
afresh, so the line with some number begins behind as many newlines as stand in front of it, which is where
a column counts from. No line begins at the end of the text. -/

namespace AutoLang.Text

/-- `line` is what stands in a text up to its first newline, without a carriage return directly before
the newline; a text without a newline is one line -/
inductive FirstLine : (text line : List Char) → Prop where
  | last {line : List Char} : '\n' ∉ line → FirstLine line line
  | newline {line : List Char} (below : List Char) : '\n' ∉ line → line.getLast? ≠ some '\r' →
    FirstLine (line ++ '\n' :: below) line
  | carriageReturn {line : List Char} (below : List Char) : '\n' ∉ line →
    FirstLine (line ++ '\r' :: '\n' :: below) line

/-- the lines of a text -/
abbrev cut (rev text : List Char) : List (List Char) := linesFrom '\n' '\r' rev text

section Cut

variable {line rest : List Char} (rev : List Char)

theorem cut_newline : cut rev ('\n' :: rest) = endLine '\r' rev :: cut [] rest := by
  rw [cut, linesFrom, if_pos rfl]

/-- what has no newline is part of a line -/
theorem cut_append_of_not_mem (h : '\n' ∉ line) :
    cut rev (line ++ rest) = cut (line.reverse ++ rev) rest := by
  induction line generalizing rev with
  | nil => rfl
  | cons c line ih =>
    obtain ⟨hc, hline⟩ : '\n' ≠ c ∧ '\n' ∉ line := by simpa using h
    rw [List.cons_append, cut, linesFrom, if_neg hc.symm, ← cut, ih _ hline]
    simp

/-- behind a newline the text is cut afresh -/
theorem drop_cut (above : List Char) :
    (cut rev (above ++ '\n' :: rest)).drop (above.count '\n' + 1) = cut [] rest := by
  induction above generalizing rev with
  | nil =>
    rw [List.nil_append, cut_newline]
    rfl
  | cons c above ih =>
    by_cases hc : c = '\n'
    · subst hc
      rw [List.cons_append, cut_newline, List.count_cons_self, List.drop_succ_cons, ih]
    · rw [List.cons_append, cut, linesFrom, if_neg hc, ← cut, List.count_cons_of_ne hc, ih]

theorem firstLine_endLine (h : '\n' ∉ line) (below : List Char) :
    FirstLine (line ++ '\n' :: below) (endLine '\r' line.reverse) := by
  unfold endLine
  rw [List.head?_reverse]
  split
  · rename_i hreturn
    obtain ⟨start, rfl⟩ := List.getLast?_eq_some_iff.1 hreturn
    have hstart : '\n' ∉ start := fun hmem => h (List.mem_append_left _ hmem)
    simpa using FirstLine.carriageReturn below hstart
  · rename_i hplain
    rw [List.reverse_reverse]
    exact .newline below h hplain

/-- the first of the lines is the one up to the first newline -/
theorem head?_cut (h : rest ≠ []) : ∃ line, (cut [] rest).head? = some line ∧ FirstLine rest line := by
  by_cases hnewline : '\n' ∈ rest
  · obtain ⟨line, below, rfl, hline⟩ := List.eq_append_cons_of_mem hnewline
    refine ⟨_, ?_, firstLine_endLine hline below⟩
    rw [cut_append_of_not_mem _ hline, cut_newline, List.append_nil]
    rfl
  · refine ⟨rest, ?_, .last hnewline⟩
    have hcut : cut [] (rest ++ []) = cut (rest.reverse ++ []) [] :=
      cut_append_of_not_mem [] hnewline
    rw [List.append_nil, List.append_nil] at hcut
    rw [hcut, cut, linesFrom, if_neg (by simpa using h), List.reverse_reverse]
    rfl

end Cut

section Line

variable {source : String} {above rest : List Char}

theorem line?_eq (hsource : source.toList = above ++ rest)
    (habove : above = [] ∨ ∃ before, above = before ++ ['\n']) :
    line? source (1 + above.count '\n') = (cut [] rest).head?.map String.ofList := by
  have hcut : (cut [] (above ++ rest)).drop (above.count '\n') = cut [] rest := by
    rcases habove with rfl | ⟨before, rfl⟩
    · rfl
    · rw [List.append_assoc, List.singleton_append, List.count_append, List.count_singleton_self,
        drop_cut]
  rw [line?, if_neg (by omega), lines, hsource, List.getElem?_map, ← hcut, List.head?_drop,
    Nat.add_sub_cancel_left]

theorem firstLine_of_line? (hsource : source.toList = above ++ rest)
    (habove : above = [] ∨ ∃ before, above = before ++ ['\n']) {text : String}
    (htext : line? source (1 + above.count '\n') = some text) : FirstLine rest text.toList := by
  rw [line?_eq hsource habove] at htext
  have hrest : rest ≠ [] := by
    rintro rfl
    cases htext
  obtain ⟨line, hline, hfirst⟩ := head?_cut hrest
  rw [hline, Option.map_some, Option.some.injEq] at htext
  rwa [← htext, String.toList_ofList]

theorem line?_eq_none_iff (hsource : source.toList = above ++ rest)
    (habove : above = [] ∨ ∃ before, above = before ++ ['\n']) :
    line? source (1 + above.count '\n') = none ↔ rest = [] := by
  rw [line?_eq hsource habove]
  constructor
  · intro hnone
    by_contra hrest
    obtain ⟨line, hline, -⟩ := head?_cut hrest
    rw [hline] at hnone
    cases hnone
  · rintro rfl
    rfl

end Line

end AutoLang.Text
