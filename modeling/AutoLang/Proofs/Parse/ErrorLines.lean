import AutoLang.Proofs.Parse.Evaluation
import AutoLang.Proofs.Parse.Steps
import AutoLang.Proofs.Token.Places
import Mathlib

/-! On which lines errors are reported. The queue compares an error with the last one it kept and no
other, so one error per line is what the order of the reports gives. The parser only moves down the
text, and what it reports of the token it stands at is never above an error before it. Two kinds of
errors look back: a missing body is reported behind the last token passed, and a malformed index at its
opening bracket. As long as none of them looks back past an error on a later line, no two errors are on
one line; where one does, two may be. -/

namespace AutoLang

namespace Diagnostic

/-- the line of the first primary label -/
def line (d : Diagnostic) : Nat := (d.primarySpan?.getD .nowhere).line

/-- the errors that are not reported of the token that the parser stands at -/
def looksBack (d : Diagnostic) : Bool :=
  d.code == .missingBody || d == .malformedIndex (d.primarySpan?.getD .nowhere)

theorem Concerns.line {d : Diagnostic} {span : Span} (h : d.Concerns span) : d.line = span.line := by
  rw [Diagnostic.line, h.place]
  rfl

theorem looksBack_malformedIndex (span : Span) : (malformedIndex span).looksBack = true := by
  have hsame : (malformedIndex span).primarySpan?.getD .nowhere = span := rfl
  simp [looksBack, hsame]

/-- lines that do not go up, with no two neighbours on one line, go down from each to the next -/
theorem lines_increase {ds : List Diagnostic} (hne : ds.IsChain fun e d => e.line ≠ d.line)
    (hle : ds.Pairwise fun e d => e.line ≤ d.line) : ds.Pairwise fun e d => e.line < d.line := by
  induction ds with
  | nil => exact .nil
  | cons d ds ih =>
    cases ds with
    | nil => exact List.pairwise_singleton _ _
    | cons e ds =>
      rw [List.isChain_cons_cons] at hne
      rw [List.pairwise_cons] at hle
      have hrest := ih hne.2 hle.2
      have hnext : d.line < e.line := lt_of_le_of_ne (hle.1 e List.mem_cons_self) hne.1
      refine List.pairwise_cons.2 ⟨fun c hc => ?_, hrest⟩
      rcases List.mem_cons.1 hc with rfl | hc
      · exact hnext
      · exact hnext.trans ((List.pairwise_cons.1 hrest).1 c hc)

end Diagnostic

/-- what is kept of the errors while the parser stands on the line `n` -/
structure DiagnosticQueue.Lined (q : DiagnosticQueue) (n : Nat) : Prop where
  placed : ∀ d ∈ q.kept, d.primarySpan?.isSome ∧ d.line ≤ n
  last : q.lastLine = q.kept.getLast?.map (·.line)
  apart : q.kept.IsChain fun e d => e.line ≠ d.line
  forward : q.kept.Pairwise fun e d => d.looksBack = false → e.line ≤ d.line

namespace DiagnosticQueue.Lined

variable {q : DiagnosticQueue} {n m : Nat} {d : Diagnostic} {span : Span}

theorem empty (limit n : Nat) : (DiagnosticQueue.empty limit).Lined n where
  placed _ hd := nomatch hd
  last := rfl
  apart := .nil
  forward := .nil

theorem mono (h : q.Lined n) (hm : n ≤ m) : q.Lined m where
  placed d hd := ⟨(h.placed d hd).1, (h.placed d hd).2.trans hm⟩
  last := h.last
  apart := h.apart
  forward := h.forward

/-- an error at or above the line, and above it only if it looks back -/
theorem push (h : q.Lined n) (hd : d.Concerns span) (hle : span.line ≤ n)
    (hback : d.looksBack = false → span.line = n) : (q.push d).2.Lined n := by
  have hline : d.primarySpan?.map (·.line) = some d.line := by
    rw [hd.line, hd.place]
    rfl
  rw [← hd.line] at hle hback
  obtain ⟨hother, -⟩ | ⟨-, -, hpush⟩ | ⟨-, -, hnew, hpush⟩ := push_cases q d
  · exact absurd (hother.symm.trans hd.error) Bool.false_ne_true
  · rw [hpush]
    exact h
  · have hlast : q.lastLine ≠ some d.line := by
      intro hsame
      simp [repeats, hd.grammatical, hline, hsame] at hnew
    rw [hpush]
    constructor
    case placed =>
      intro e he
      rcases List.mem_append.1 he with he | he
      · exact h.placed e he
      · obtain rfl := List.mem_singleton.1 he
        exact ⟨by simp [hd.place], hle⟩
    case last =>
      rw [if_pos hd.grammatical, hline]
      simp
    case apart =>
      refine List.isChain_append.2 ⟨h.apart, .singleton _, ?_⟩
      intro e he c hc
      obtain rfl : d = c := by simpa using hc
      intro hsame
      rw [h.last, he] at hlast
      exact hlast (congrArg some hsame)
    case forward =>
      refine List.pairwise_append.2 ⟨h.forward, List.pairwise_singleton _ _, ?_⟩
      intro e he c hc hlook
      obtain rfl := List.mem_singleton.1 hc
      rw [hback hlook]
      exact (h.placed e he).2

/-- in a stretch where no error looks back past one on a later line, each is further down than those
before -/
theorem increase (h : q.Lined n) {ds : List Diagnostic} (hds : ds <:+: q.kept)
    (hback : ds.Pairwise fun e d => d.looksBack = true → e.line ≤ d.line) :
    ds.Pairwise fun e d => e.line < d.line := by
  have hapart : ds.IsChain fun e d => e.line ≠ d.line := List.IsChain.infix h.apart hds
  refine Diagnostic.lines_increase hapart (((h.forward.sublist hds.sublist).and hback).imp ?_)
  rintro e d ⟨hfalse, htrue⟩
  cases hlook : d.looksBack with
  | false => exact hfalse hlook
  | true => exact htrue hlook

end DiagnosticQueue.Lined

namespace ParseState

/-- the tokens ahead do not go up in the text, and nothing behind is below the current one -/
structure Lined (s : ParseState) : Prop where
  ahead : s.tokens.Pairwise fun t u => t.span.line ≤ u.span.line
  behind : s.previous.line ≤ s.current.span.line
  queue : s.problems.Lined s.current.span.line

/-- the parser does not go up in the text -/
def Descends (s t : ParseState) : Prop :=
  s.Lined → t.Lined ∧ s.current.span.line ≤ t.current.span.line

theorem Lined.advance {s : ParseState} (h : s.Lined) :
    s.advance.Lined ∧ s.current.span.line ≤ s.advance.current.span.line := by
  obtain ⟨current, upcoming, previous, problems⟩ := s
  cases upcoming with
  | nil => exact ⟨⟨h.ahead, le_rfl, h.queue⟩, le_rfl⟩
  | cons t ts =>
    obtain ⟨hfirst, hrest⟩ := List.pairwise_cons.1 h.ahead
    have hnext : current.span.line ≤ t.span.line := hfirst t List.mem_cons_self
    exact ⟨⟨hrest, hnext, h.queue.mono hnext⟩, hnext⟩

theorem Lined.report {s : ParseState} {d : Diagnostic} {span : Span} (h : s.Lined)
    (hd : d.Concerns span) (hle : span.line ≤ s.current.span.line)
    (hback : d.looksBack = false → span.line = s.current.span.line) : (s.report d).Lined :=
  ⟨h.ahead, h.behind, h.queue.push hd hle hback⟩

instance : Trace Descends where
  refl _ h := ⟨h, le_rfl⟩
  trans hst htu h := ⟨(htu (hst h).1).1, (hst h).2.trans (htu (hst h).1).2⟩
  advance _ h := h.advance
  here _ _ hd h := ⟨h.report hd.toConcerns le_rfl fun _ => rfl, le_rfl⟩
  opening hst := hst ⟨fun _ _ h => ⟨h.report ⟨rfl, rfl, rfl⟩ le_rfl fun _ => rfl, le_rfl⟩⟩
  missingBody s construct h := by
    refine ⟨h.report ⟨rfl, rfl, rfl⟩ h.behind fun hlook => ?_, le_rfl⟩
    cases hlook
  malformedIndex {s t} hst h := by
    obtain ⟨ht, hdown⟩ := hst h
    -- the bracket was passed before, so it is not below
    have hle : (s.current.span.merge t.previous).line ≤ t.current.span.line := by
      unfold Span.merge
      dsimp only
      split
      · exact hdown
      · exact ht.behind
    refine ⟨ht.report ⟨rfl, rfl, rfl⟩ hle fun hlook => ?_, hdown⟩
    rw [Diagnostic.looksBack_malformedIndex] at hlook
    cases hlook

theorem lined_ofTokens {tokens : List Token}
    (h : tokens.Pairwise fun t u => t.span.line ≤ u.span.line) : (ofTokens tokens).Lined := by
  have hkept := h.filter (!·.kind.isTrivia)
  unfold ofTokens
  split
  · exact ⟨List.pairwise_singleton _ _, Nat.zero_le _, .empty _ _⟩
  · rename_i t ts hsplit
    rw [hsplit] at hkept
    exact ⟨hkept, Nat.zero_le _, .empty _ _⟩

end ParseState

namespace Parse

/-- the state at the end of the text -/
def afterAll (l : Lexer) : ParseState := (code.run (.ofTokens l.tokens)).2

/-- the errors in the order in which they are found -/
def found (l : Lexer) : List Diagnostic := (afterAll l).problems.kept

theorem errors_perm_found (l : Lexer) : (ofLexer l).errors.Perm (found l) :=
  List.mergeSort_perm _ _

variable (source : String) (marker : Char)

/-- neighbours among the errors found are on different lines, and only one that looks back is above
another found before it -/
theorem lined_afterAll :
    (afterAll { Lexer.ofSource source with marker := marker }).Lined := by
  have hstart := ParseState.lined_ofTokens (Lexer.lines_tokens source marker)
  have hdown : ParseState.Descends (.ofTokens { Lexer.ofSource source with marker := marker }.tokens)
      (afterAll { Lexer.ofSource source with marker := marker }) := Parser.Along.steps _
  exact (hdown hstart).1

/-- the errors are those found, and as long as none looks back past one on a later line, each is further
down than those before, so that no two of them are on one line -/
theorem one_error_per_line :
    (∀ d ∈ (ofLexer { Lexer.ofSource source with marker := marker }).errors,
        d.primarySpan?.isSome) ∧
      (ofLexer { Lexer.ofSource source with marker := marker }).errors.Perm
        (found { Lexer.ofSource source with marker := marker }) ∧
      (∀ ds, ds <:+: found { Lexer.ofSource source with marker := marker } →
        (ds.Pairwise fun e d => d.looksBack = true → e.line ≤ d.line) →
        ds.Pairwise fun e d => e.line < d.line) ∧
      (((found { Lexer.ofSource source with marker := marker }).Pairwise
          fun e d => d.looksBack = true → e.line ≤ d.line) →
        (ofLexer { Lexer.ofSource source with marker := marker }).errors.Pairwise
          fun e d => e.line < d.line) := by
  have hqueue := (lined_afterAll source marker).queue
  have hperm := errors_perm_found { Lexer.ofSource source with marker := marker }
  have hplaced : ∀ d ∈ found { Lexer.ofSource source with marker := marker },
      d.primarySpan?.isSome := fun d hd => (hqueue.placed d hd).1
  refine ⟨fun d hd => hplaced d (hperm.mem_iff.1 hd), hperm, fun ds hds h => hqueue.increase hds h,
    fun h => ?_⟩
  have hincrease := hqueue.increase List.infix_rfl h
  -- what increases is in the order of the text already
  have hsorted : (ofLexer { Lexer.ofSource source with marker := marker }).errors =
      found { Lexer.ofSource source with marker := marker } := by
    refine List.mergeSort_of_pairwise (hincrease.imp_of_mem ?_)
    intro e d he hd hlt
    obtain ⟨s, hs⟩ := Option.isSome_iff_exists.1 (hplaced e he)
    obtain ⟨t, ht⟩ := Option.isSome_iff_exists.1 (hplaced d hd)
    simp only [Diagnostic.line, hs, ht, Option.getD_some] at hlt
    simp [DiagnosticQueue.notAfter, hs, ht, hlt]
  rw [hsorted]
  exact hincrease

/-- a stray bracket, an index without an expression and a condition without a body, line by line -/
theorem one_error_per_line_sample :
    ((found { Lexer.ofSource ")\na[]\nif x" with marker := '$' }).map (·.looksBack) =
        [false, true, true] ∧
      (found { Lexer.ofSource ")\na[]\nif x" with marker := '$' }).Pairwise
        fun e d => d.looksBack = true → e.line ≤ d.line) ∧
      (ofLexer { Lexer.ofSource ")\na[]\nif x" with marker := '$' }).errors.Pairwise
        fun e d => e.line < d.line := by
  have lexed : (Lexer.runTokens? 30 ")\na[]\nif x" '$').isSome = true := by decide
  have hback : (found { Lexer.ofSource ")\na[]\nif x" with marker := '$' }).map (·.looksBack) =
      [false, true, true] := by
    rw [found, afterAll, Lexer.tokens_of_runTokens lexed]
    decide
  have hdown : (found { Lexer.ofSource ")\na[]\nif x" with marker := '$' }).Pairwise
      fun e d => d.looksBack = true → e.line ≤ d.line := by
    rw [found, afterAll, Lexer.tokens_of_runTokens lexed]
    decide
  exact ⟨⟨hback, hdown⟩, (one_error_per_line _ _).2.2.2 hdown⟩

/-- a bracket on the first line, then a group that the text ends in, and behind it the body that is
missing on the first line again -/
theorem two_errors_on_one_line :
    ((found { Lexer.ofSource ") if (\n" with marker := '$' }).map fun d => (d.code, d.line)) =
        [(.expectedExpression, 1), (.expectedExpression, 2), (.missingBody, 1)] ∧
      ¬ (ofLexer { Lexer.ofSource ") if (\n" with marker := '$' }).errors.Pairwise
        fun e d => e.line ≠ d.line := by
  have lexed : (Lexer.runTokens? 30 ") if (\n" '$').isSome = true := by decide
  have hfound : ((found { Lexer.ofSource ") if (\n" with marker := '$' }).map
      fun d => (d.code, d.line)) =
      [(.expectedExpression, 1), (.expectedExpression, 2), (.missingBody, 1)] := by
    rw [found, afterAll, Lexer.tokens_of_runTokens lexed]
    decide
  refine ⟨hfound, fun hapart => ?_⟩
  have hlines : ((found { Lexer.ofSource ") if (\n" with marker := '$' }).map
      fun d => (d.code, d.line)).Pairwise fun x y => x.2 ≠ y.2 :=
    List.pairwise_map.2 (((errors_perm_found _).pairwise_iff fun h => Ne.symm h).1 hapart)
  rw [hfound] at hlines
  exact absurd hlines (by decide)

end Parse

end AutoLang
