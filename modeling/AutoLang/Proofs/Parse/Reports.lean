import AutoLang.Proofs.Diagnostic.Queue
import AutoLang.Proofs.Parse.ErrorLines
import AutoLang.Proofs.Parse.Soundness
import Mathlib

/-! What a parser reports and what it hands out. A parse is a run of two kinds of steps, moving on and
reporting, so its queue is the one that the reports leave behind when they are pushed one after another.
The first of them is always accepted. So a parse hands out no errors exactly if it reported nothing,
whichever of the later reports were filtered out. -/

namespace AutoLang

open DiagnosticQueue (Call session)

namespace ParseState

/-- a parser comes from `s` to `t` by moving on and reporting these diagnostics, in this order -/
inductive Reports (s : ParseState) : List Diagnostic → ParseState → Prop where
  | start : s.Reports [] s
  | advance {ds : List Diagnostic} {t : ParseState} : s.Reports ds t → s.Reports ds t.advance
  | report {ds : List Diagnostic} {t : ParseState} (d : Diagnostic) :
    s.Reports ds t → s.Reports (ds ++ [d]) (t.report d)

variable {s t u : ParseState} {ds es : List Diagnostic}

theorem Reports.trans (h : s.Reports ds t) (h' : t.Reports es u) : s.Reports (ds ++ es) u := by
  induction h' with
  | start => rwa [List.append_nil]
  | advance _ ih => exact ih.advance
  | report d _ ih =>
    rw [← List.append_assoc]
    exact ih.report d

/-- the parser reported something or nothing on the way -/
def Leads (s t : ParseState) : Prop := ∃ ds, s.Reports ds t

instance : Trace Leads where
  refl _ := ⟨[], .start⟩
  trans := fun ⟨_, h⟩ ⟨_, h'⟩ => ⟨_, h.trans h'⟩
  advance _ := ⟨[], .advance .start⟩
  here _ d _ := ⟨[d], .report d .start⟩
  opening h := h ⟨fun _ _ => ⟨_, .report _ .start⟩⟩
  missingBody _ _ := ⟨_, .report _ .start⟩
  malformedIndex := fun ⟨_, h⟩ => ⟨_, h.report _⟩

/-- moving on leaves the queue alone, so it is the one that the reports make of it -/
theorem Reports.problems_eq {limit : Nat} (h : s.Reports ds t) (hs : s.problems = .empty limit) :
    t.problems = (session limit (ds.map .push)).1 := by
  induction h with
  | start => exact hs
  | advance _ ih => rw [problems_advance, ih]
  | report d _ ih =>
    rw [ParseState.report, ih, session, session, List.map_append, List.foldl_append]
    rfl

end ParseState

namespace DiagnosticQueue

theorem accepted_eq_nil_iff (limit : Nat) (ds : List Diagnostic) :
    (session limit (ds.map .push)).2 = [] ↔ ds = [] := by
  induction ds using List.reverseRecOn with
  | nil => exact iff_of_true rfl rfl
  | append_singleton ds d ih =>
    refine iff_of_false (fun hnone => ?_) (by simp)
    rw [session, List.map_append, List.foldl_append] at hnone
    change (if ((session limit (ds.map .push)).1.push d).1
      then (session limit (ds.map .push)).2 ++ [d] else (session limit (ds.map .push)).2) = [] at hnone
    by_cases hanswer : ((session limit (ds.map .push)).1.push d).1 = true
    · rw [if_pos hanswer] at hnone
      simp at hnone
    · rw [if_neg hanswer] at hnone
      refine hanswer ((holds_session limit _).accepts_first ?_ d)
      simp [hnone]

end DiagnosticQueue

namespace Parse

/-- what is handed out is what a queue makes of the reports, and it is nothing only if there were none -/
theorem errors_of_reports (l : Lexer) {ds : List Diagnostic}
    (h : (ParseState.ofTokens l.tokens).Reports ds (afterAll l)) :
    (ofLexer l).errors = (session DiagnosticQueue.defaultLimit (ds.map .push)).1.flush.1 ∧
      ((ofLexer l).errors = [] ↔ ds = []) := by
  have hqueue := h.problems_eq (ParseState.clean_ofTokens _)
  have hkept := (DiagnosticQueue.holds_session DiagnosticQueue.defaultLimit (ds.map .push)).kept
  rw [ofLexer_errors, ← afterAll, hqueue, DiagnosticQueue.flush_eq_nil_iff, hkept]
  exact ⟨rfl, DiagnosticQueue.accepted_eq_nil_iff _ ds⟩

theorem exists_reports (l : Lexer) :
    ∃ ds, (ParseState.ofTokens l.tokens).Reports ds (afterAll l) := by
  have hleads : ParseState.Leads (.ofTokens l.tokens) (afterAll l) := Parser.Along.steps _
  exact hleads

end Parse

/-- A queue counts the errors that it accepted since the last flush, never more than its limit. It
accepts every diagnostic that is no error, and every error as long as it accepted none before. A flush
hands out just what was accepted, in the order of the text, what has no place first and what has the same
place in the order of the pushes. So a parse, which only moves on and reports, hands out no errors exactly
if it reported nothing. -/
theorem queue_hands_out_accepted (limit : Nat) (calls : List Call) (l : Lexer) :
    let q := (session limit calls).1
    let accepted := (session limit calls).2
    (q.errorCount = accepted.countP (·.isError) ∧ (limit ≠ 0 → q.errorCount ≤ limit)) ∧
      (∀ d, d.isError = false → (q.push d).1 = true) ∧
      (∀ d, (∀ e ∈ accepted, e.isError = false) → (q.push d).1 = true) ∧
      (q.flush.1.Perm accepted ∧ q.flush.1.Pairwise (fun d e => d.position ≤ e.position) ∧
        ∀ p, q.flush.1.filter (fun d => d.position = p) = accepted.filter fun d => d.position = p) ∧
      (∃ ds, (ParseState.ofTokens l.tokens).Reports ds (Parse.afterAll l)) ∧
      ∀ ds, (ParseState.ofTokens l.tokens).Reports ds (Parse.afterAll l) →
        ((Parse.ofLexer l).errors = [] ↔ ds = []) := by
  intro q accepted
  have hholds : q.Holds limit accepted := DiagnosticQueue.holds_session limit calls
  have hperm := q.flush_perm
  have hfilter := q.filter_flush
  rw [hholds.kept] at hperm
  simp only [hholds.kept] at hfilter
  exact ⟨⟨hholds.count, hholds.bounded⟩, fun _ => DiagnosticQueue.accepts_other,
    fun d hnone => hholds.accepts_first hnone d, ⟨hperm, q.flush_sorted, hfilter⟩,
    Parse.exists_reports l, fun _ h => (Parse.errors_of_reports l h).2⟩

end AutoLang
