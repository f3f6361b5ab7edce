import AutoLang.Proofs.C.Constants
import AutoLang.Proofs.Token.Written
import Mathlib

/-! Strings as C reads them. The reader of tokens takes a backslash and the character behind it together,
and so does C; the control characters that the compiler escapes change nothing about the pairs. So the
quote behind a string is its end, unless a backslash is left over. That happens to a string that is cut
off by the end of the text. -/

namespace AutoLang

namespace C

/-- behind an opening quote: the first quote that is not escaped is the last character -/
def closesAtEnd : List Char → Bool
  | [] => false
  | ['"'] => true
  | '"' :: _ => false
  | '\\' :: _ :: cs => closesAtEnd cs
  | _ :: cs => closesAtEnd cs

/-- a backslash is left over at the end -/
def endsEscaping : List Char → Bool
  | [] => false
  | ['\\'] => true
  | '\\' :: _ :: cs => endsEscaping cs
  | _ :: cs => endsEscaping cs

/-- the text begins with a quote, and no line ends in it -/
structure Quoted (text : String) : Prop where
  opening : ∃ cs, text.toList = '"' :: cs
  plain : ∀ c ∈ text.toList, c ≠ '\n' ∧ c ≠ '\r' ∧ c ≠ '\x00'

/-- a string as C has it -/
structure WellQuoted (text : String) : Prop extends Quoted text where
  closed : closesAtEnd text.toList.tail = true

section Escapes

variable {c : Char} {cs : List Char}

theorem closesAtEnd_escape (c : Char) (cs : List Char) :
    closesAtEnd ('\\' :: c :: cs) = closesAtEnd cs := by
  rw [closesAtEnd]

theorem closesAtEnd_plain (hq : c ≠ '"') (hb : c ≠ '\\') : closesAtEnd (c :: cs) = closesAtEnd cs := by
  rw [closesAtEnd]
  · exact fun h _ => hq h
  · exact hq
  · exact fun _ _ h _ => hb h

theorem endsEscaping_escape (c : Char) (cs : List Char) :
    endsEscaping ('\\' :: c :: cs) = endsEscaping cs := by
  rw [endsEscaping]

theorem endsEscaping_plain (hb : c ≠ '\\') : endsEscaping (c :: cs) = endsEscaping cs := by
  rw [endsEscaping]
  · exact fun h _ => hb h
  · exact fun _ _ h _ => hb h

/-- a character of a string in C -/
def escaped (c : Char) : List Char := ((controlEscape? c).getD c.toString).toList

theorem toList_stringText (s : String) :
    (stringText s).toList = '"' :: (s.toList.flatMap escaped ++ ['"']) := by
  rw [stringText, String.toList_append, String.toList_append, String.toList_join, List.flatMap_map]
  rfl

/-- a character stands for itself, or a backslash and another character do -/
theorem escaped_cases (c : Char) :
    escaped c = [c] ∧ c ≠ '\n' ∧ c ≠ '\r' ∧ c ≠ '\x00' ∨
      (c ≠ '"' ∧ c ≠ '\\') ∧ ∃ d ∈ ['n', 'r', 't', '0'], escaped c = ['\\', d] := by
  unfold escaped controlEscape?
  split
  · exact .inr ⟨by decide, 'n', by decide, rfl⟩
  · exact .inr ⟨by decide, 'r', by decide, rfl⟩
  · exact .inr ⟨by decide, 't', by decide, rfl⟩
  · exact .inr ⟨by decide, '0', by decide, rfl⟩
  · rename_i hn hr ht h0
    exact .inl ⟨String.toList_singleton c, hn, hr, h0⟩

/-- behind a backslash it does not matter how a character is written -/
theorem closesAtEnd_pair (c : Char) (cs : List Char) :
    closesAtEnd ('\\' :: (escaped c ++ cs)) = closesAtEnd cs := by
  obtain ⟨he, -⟩ | ⟨-, d, hd, he⟩ := escaped_cases c
  · rw [he]
    exact closesAtEnd_escape c cs
  · -- the two backslashes are a pair
    have plain : ∀ d ∈ ['n', 'r', 't', '0'], d ≠ '"' ∧ d ≠ '\\' := by simp
    rw [he]
    exact (closesAtEnd_escape '\\' (d :: cs)).trans (closesAtEnd_plain (plain d hd).1 (plain d hd).2)

theorem closesAtEnd_escaped (hq : c ≠ '"') (hb : c ≠ '\\') :
    closesAtEnd (escaped c ++ cs) = closesAtEnd cs := by
  obtain ⟨he, -⟩ | ⟨-, d, -, he⟩ := escaped_cases c
  · rw [he]
    exact closesAtEnd_plain hq hb
  · rw [he]
    exact closesAtEnd_escape d cs

/-- the body of a string that was read is closed by a quote unless a backslash is left over, and none is
if the string was closed -/
theorem closesAtEnd_stringBody (cs : List Char) :
    closesAtEnd ((Lexeme.stringBody cs).1.flatMap escaped ++ ['"']) =
        !endsEscaping (Lexeme.stringBody cs).1 ∧
      ((Lexeme.stringBody cs).2 = true → endsEscaping (Lexeme.stringBody cs).1 = false) := by
  fun_induction Lexeme.stringBody cs with
  | case1 => exact ⟨rfl, fun h => absurd h Bool.false_ne_true⟩
  | case2 cs => exact ⟨rfl, fun _ => rfl⟩
  | case3 c cs body closed h ih =>
    rw [h] at ih
    dsimp only
    rw [endsEscaping_escape, List.flatMap_cons, List.flatMap_cons]
    refine ⟨?_, ih.2⟩
    have hpair := closesAtEnd_pair c (body.flatMap escaped ++ ['"'])
    rw [← List.append_assoc] at hpair
    exact hpair.trans ih.1
  | case4 c cs hq hesc body closed h ih =>
    rw [h] at ih
    dsimp only
    by_cases hb : c = '\\'
    · -- the last character of the text
      obtain rfl := hb
      obtain rfl : cs = [] := by
        cases cs with
        | nil => rfl
        | cons d ds => exact absurd rfl (hesc d ds rfl)
      cases h
      exact ⟨rfl, fun h => absurd h Bool.false_ne_true⟩
    · rw [endsEscaping_plain hb, List.flatMap_cons, List.append_assoc, closesAtEnd_escaped hq hb]
      exact ih

/-- no line ends in the text of a string -/
theorem quoted_stringText (s : String) : Quoted (stringText s) := by
  refine ⟨⟨_, toList_stringText s⟩, ?_⟩
  have plain : ∀ c ∈ ['"', '\\', 'n', 'r', 't', '0'], c ≠ '\n' ∧ c ≠ '\r' ∧ c ≠ '\x00' := by
    simp
  rw [toList_stringText, List.forall_mem_cons, List.forall_mem_append, List.forall_mem_singleton]
  refine ⟨plain _ (by decide), fun c hc => ?_, plain _ (by decide)⟩
  obtain ⟨b, -, hc⟩ := List.mem_flatMap.1 hc
  obtain ⟨he, hplain⟩ | ⟨-, d, hd, he⟩ := escaped_cases b
  · rw [he] at hc
    obtain rfl := List.mem_singleton.1 hc
    exact hplain
  · rw [he] at hc
    rcases List.mem_pair.1 hc with rfl | rfl
    · exact plain _ (by decide)
    · exact plain _ (List.mem_cons_of_mem _ (List.mem_cons_of_mem _ hd))

end Escapes

end C

/-- the text of a string, for strings of both kinds -/
def Literal.string? : Literal → Option String
  | str s | cstr s => some s
  | _ => none

theorem C.literalText_of_string? {v : Literal} {body : String} (h : v.string? = some body) :
    C.literalText v = C.stringText body := by
  cases v <;> cases h <;> rfl

theorem TokenKind.mem_of_opening? {k : TokenKind} {opening : List Char}
    (h : k.opening? = some opening) : opening ∈ [['"'], ['c', '"']] := by
  cases k with
  | str | cstr =>
    cases h
    decide
  | _ => cases h

section Source

variable {source : String} {marker : Char} {t : Token} {v : Literal} {body : String}

/-- a string comes from a token of its own -/
theorem Parse.opening?_of_literal? (h : Parse.literal? t = some v) (hv : v.string? = some body) :
    ∃ opening, t.kind.opening? = some opening ∧ t.text = body := by
  unfold Parse.literal? at h
  split at h
  case h_11 hk | h_12 hk =>
    cases h
    exact ⟨_, by rw [hk]; rfl, Option.some.inj hv⟩
  all_goals cases h
  all_goals cases hv

/-- the text of a string token is the body that was read, and one that was not closed is cut off by the
end of the text -/
theorem Lexer.stringBody_of_token {opening : List Char}
    (ht : t ∈ { ofSource source with marker := marker }.tokens) (hk : t.kind.opening? = some opening) :
    ∃ cs, t.text.toList = (Lexeme.stringBody cs).1 ∧
      ((Lexeme.stringBody cs).2 = false → opening ++ t.text.toList <:+ source.toList) := by
  have hne : t.kind ≠ .eof := fun he => by rw [he] at hk; cases hk
  obtain ⟨p, before, after, hmade, hkind, htext, hsound, hsource⟩ := piece_of_token ht hne
  obtain ⟨cs, rfl⟩ := hmade.eq_string hkind hk
  have hbody : t.text.toList = (Lexeme.stringBody cs).1 := by rw [← htext, Lexeme.text_string]
  refine ⟨cs, hbody, fun hopen => ?_⟩
  have hraw : (Lexeme.string t.kind opening cs).raw = opening ++ t.text.toList := by
    rw [Lexeme.raw_string, hopen, hbody]
    exact List.append_nil _
  have hend : after = [] := by
    rcases hsound.string rfl hk with hclosed | ⟨-, hend⟩
    · -- then there would be one character more
      rw [htext, hraw] at hclosed
      simpa using congrArg List.length hclosed
    · exact hend
  rw [hsource, hraw, hend, List.append_nil]
  exact List.suffix_append _ _

/-- The strings of a program that is read without problems and compiled are in the text of the C program.
Each begins with a quote, and no line ends in it. The first quote behind that is not escaped is its last
character exactly if no backslash is left over at the end of its body, and one is left over only where
the string is cut off by the end of the source. -/
theorem compiled_strings_closed (source : String) (marker : Char) (scopes : ScopeTree) (name : String)
    (style : C.GuardStyle) (files : CFiles)
    (hclean : (Parse.ofLexer { Lexer.ofSource source with marker := marker }).diagnostics = [])
    (hfiles : (compileOver scopes
      (Parse.ofLexer { Lexer.ofSource source with marker := marker }).code name style).1 = .ok files)
    (s : Span) (v : Literal) (body : String) (hv : v.string? = some body)
    (hn : NodeOf (Parse.ofLexer { Lexer.ofSource source with marker := marker }).code
      (.expr (.literal s v))) :
    C.Shows v files.source ∧ C.Quoted (C.literalText v) ∧
      (C.WellQuoted (C.literalText v) ↔ C.endsEscaping body.toList = false) ∧
      (C.endsEscaping body.toList = true →
        ∃ opening ∈ [['"'], ['c', '"']], opening ++ body.toList <:+ source.toList) := by
  obtain ⟨hvalue, hshows⟩ := constant_of_compileOver hfiles hn
  obtain ⟨t, ht, hliteral⟩ := token_of_value hclean hvalue
  obtain ⟨opening, hk, rfl⟩ := Parse.opening?_of_literal? hliteral hv
  obtain ⟨cs, hbody, hcut⟩ := Lexer.stringBody_of_token ht hk
  obtain ⟨hcloses, hnone⟩ := C.closesAtEnd_stringBody cs
  rw [← hbody] at hcloses hnone
  have htext := C.toList_stringText t.text
  have hquoted := C.quoted_stringText t.text
  rw [C.literalText_of_string? hv]
  refine ⟨hshows, hquoted, ⟨fun hwell => ?_, fun hnone => ⟨hquoted, ?_⟩⟩, fun hleft => ?_⟩
  · have hclosed := hwell.closed
    rwa [htext, List.tail_cons, hcloses, Bool.not_eq_true'] at hclosed
  · rw [htext, List.tail_cons, hcloses, hnone]
    rfl
  · refine ⟨opening, TokenKind.mem_of_opening? hk, hcut ?_⟩
    rw [Bool.eq_false_iff]
    intro hclosed
    rw [hnone hclosed] at hleft
    cases hleft

/-- the string that a statement is -/
def Stmt.string? : Stmt → Option String
  | .expr _ (.literal _ v) => v.string?
  | _ => none

theorem nodeOf_of_string? {code : Code} (h : some body ∈ code.map Stmt.string?) :
    ∃ s v, v.string? = some body ∧ NodeOf code (.expr (.literal s v)) := by
  obtain ⟨x, hx, hbody⟩ := List.mem_map.1 h
  unfold Stmt.string? at hbody
  split at hbody
  · rename_i v
    exact ⟨_, v, hbody, .child (.statement hx) List.mem_cons_self⟩
  · cases hbody

/-- a string among the statements of a text, if they can be compiled -/
theorem string_of_runTokens
    (lexed : (Lexer.runTokens? 60 source Lexer.defaultMarker).isSome = true)
    (hok : (compileOver .empty (Parse.code.run (.ofTokens
      ((Lexer.runTokens? 60 source Lexer.defaultMarker).getD []))).1 "m" .pragma).1.isOk = true)
    (hbody : some body ∈ (Parse.code.run (.ofTokens
      ((Lexer.runTokens? 60 source Lexer.defaultMarker).getD []))).1.map Stmt.string?) :
    ∃ files s v, (compileOver .empty (parse source).code "m" .pragma).1 = .ok files ∧
      v.string? = some body ∧ NodeOf (parse source).code (.expr (.literal s v)) := by
  rw [← Parse.code_parse_of_runTokens lexed] at hok hbody
  obtain ⟨s, v, hv, hn⟩ := nodeOf_of_string? hbody
  cases hfiles : (compileOver .empty (parse source).code "m" .pragma).1 with
  | error u =>
    rw [hfiles] at hok
    cases hok
  | ok files => exact ⟨files, s, v, rfl, hv, hn⟩

namespace C.Samples

/-- an escaped quote, an escaped newline, and a backslash that is escaped at the end -/
def escapes : String := "\"a\\\"b\\\nc\\\\\""

/-- a string that is cut off behind a backslash -/
def cutOff : String := "\"a\\"

end C.Samples

open C.Samples

theorem compiled_strings_closed_escapes : ∃ files s v, (parse escapes).diagnostics = [] ∧
    (compileOver .empty (parse escapes).code "m" .pragma).1 = .ok files ∧
      v.string? = some "a\\\"b\\\nc\\\\" ∧
        NodeOf (parse escapes).code (.expr (.literal s v)) ∧
          C.Shows v files.source ∧ C.WellQuoted (C.literalText v) := by
  have run : Parse.runsClean 60 escapes Lexer.defaultMarker = true := by decide +kernel
  have clean := Parse.diagnostics_parse_of_runsClean run
  obtain ⟨files, s, v, hfiles, hv, hn⟩ : ∃ files s v,
      (compileOver .empty (parse escapes).code "m" .pragma).1 = .ok files ∧
        v.string? = some "a\\\"b\\\nc\\\\" ∧ NodeOf (parse escapes).code (.expr (.literal s v)) :=
    string_of_runTokens (by decide) (by decide) (by decide)
  obtain ⟨hshows, -, hclosed, -⟩ := compiled_strings_closed escapes Lexer.defaultMarker .empty "m"
    .pragma files clean hfiles s v _ hv hn
  exact ⟨files, s, v, clean, hfiles, hv, hn, hshows, hclosed.2 (by decide)⟩

/-- the backslash of a string that is cut off escapes the quote that the compiler puts behind -/
theorem cut_off_string_not_closed : ¬ ∀ (source : String) (files : CFiles),
    (parse source).diagnostics = [] →
      (compileOver .empty (parse source).code "m" .pragma).1 = .ok files →
        ∀ (s : Span) (v : Literal) (body : String), v.string? = some body →
          NodeOf (parse source).code (.expr (.literal s v)) → C.WellQuoted (C.literalText v) := by
  intro closed
  have run : Parse.runsClean 60 cutOff Lexer.defaultMarker = true := by decide +kernel
  obtain ⟨files, s, v, hfiles, hv, hn⟩ : ∃ files s v,
      (compileOver .empty (parse cutOff).code "m" .pragma).1 = .ok files ∧
        v.string? = some "a\\" ∧ NodeOf (parse cutOff).code (.expr (.literal s v)) :=
    string_of_runTokens (by decide) (by decide) (by decide)
  have hwell := closed cutOff files (Parse.diagnostics_parse_of_runsClean run) hfiles s v _ hv hn
  rw [C.literalText_of_string? hv] at hwell
  exact absurd hwell.closed (by decide)

end Source

end AutoLang
