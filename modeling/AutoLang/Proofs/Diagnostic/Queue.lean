import AutoLang.Diagnostic.Queue
import Mathlib

/-! What a queue accepts and what it hands out. Every push is answered, and the diagnostics that were
accepted since the last flush decide all that a queue does: how many errors it counts, which line it
compares the next error with, and what the next flush gives, which is those diagnostics in the order of
the text. Three filters answer a push, but none of them stops an error when none was accepted before. -/

namespace AutoLang

/-- line and column of the first primary label; without one a diagnostic stands before all lines -/
def Diagnostic.position (d : Diagnostic) : WithBot (ℕ ×ₗ ℕ) :=
  match d.primarySpan? with
  | none => ⊥
  | some span => (toLex (span.line, span.column) : ℕ ×ₗ ℕ)

namespace DiagnosticQueue

/-- a use of a queue -/
inductive Call where
  | push (d : Diagnostic)
  | flush

/-- the queue after a call, and the diagnostics accepted since the last flush, in the order of the pushes:
those whose push was answered with `true` -/
def Call.apply (state : DiagnosticQueue × List Diagnostic) : Call → DiagnosticQueue × List Diagnostic
  | push d => ((state.1.push d).2, if (state.1.push d).1 then state.2 ++ [d] else state.2)
  | flush => (state.1.flush.2, [])

/-- a queue and what it accepted after some calls -/
def session (limit : Nat) (calls : List Call) : DiagnosticQueue × List Diagnostic :=
  calls.foldl Call.apply (empty limit, [])

/-- a queue is what it accepted since the last flush -/
structure Holds (limit : Nat) (q : DiagnosticQueue) (accepted : List Diagnostic) : Prop where
  limit_eq : q.limit = limit
  kept : q.kept = accepted
  count : q.errorCount = accepted.countP (·.isError)
  last : q.lastLine = (accepted.filter fun d => d.isError && d.code.isGrammatical).getLast?.bind
    fun d => d.primarySpan?.map (·.line)
  bounded : limit ≠ 0 → q.errorCount ≤ limit

variable {limit : Nat} {q : DiagnosticQueue} {accepted : List Diagnostic} {d : Diagnostic}

/-- a diagnostic is kept for not being an error, or stopped by one of two filters, or kept and counted -/
theorem push_cases (q : DiagnosticQueue) (d : Diagnostic) :
    (d.isError = false ∧ q.push d = (true, { q with kept := q.kept ++ [d] })) ∨
      (d.isError = true ∧ (q.limitReached = true ∨ q.repeats d = true) ∧ q.push d = (false, q)) ∨
      (d.isError = true ∧ q.limitReached = false ∧ q.repeats d = false ∧ q.push d = (true, { q with
        kept := q.kept ++ [d]
        errorCount := q.errorCount + 1
        lastLine :=
          if d.code.isGrammatical then d.primarySpan?.map (·.line) else q.lastLine })) := by
  unfold push
  cases hd : d.isError with
  | false => exact .inl ⟨rfl, rfl⟩
  | true =>
    right
    cases hlimit : q.limitReached with
    | true => exact .inl ⟨rfl, .inl rfl, rfl⟩
    | false =>
      cases hrepeats : q.repeats d with
      | true => exact .inl ⟨rfl, .inr rfl, rfl⟩
      | false => exact .inr ⟨rfl, rfl, rfl, rfl⟩

theorem accepts_other (hd : d.isError = false) : (q.push d).1 = true := by
  obtain ⟨-, hpush⟩ | ⟨he, -⟩ | ⟨he, -⟩ := push_cases q d
  · rw [hpush]
  · exact absurd (hd.symm.trans he) Bool.false_ne_true
  · exact absurd (hd.symm.trans he) Bool.false_ne_true

theorem mem_kept_push {e : Diagnostic} (h : e ∈ (q.push d).2.kept) : e ∈ q.kept ∨ e = d := by
  obtain ⟨-, hpush⟩ | ⟨-, -, hpush⟩ | ⟨-, -, -, hpush⟩ := push_cases q d
  · rw [hpush] at h
    simpa using h
  · rw [hpush] at h
    exact .inl h
  · rw [hpush] at h
    simpa using h

namespace Holds

theorem empty (limit : Nat) : Holds limit (.empty limit) [] where
  limit_eq := rfl
  kept := rfl
  count := rfl
  last := rfl
  bounded _ := Nat.zero_le _

theorem push (h : Holds limit q accepted) (d : Diagnostic) :
    Holds limit (q.push d).2 (if (q.push d).1 then accepted ++ [d] else accepted) := by
  obtain ⟨hd, hpush⟩ | ⟨-, -, hpush⟩ | ⟨hd, hlimit, -, hpush⟩ := push_cases q d
  · rw [hpush]
    exact ⟨h.limit_eq, congrArg (· ++ [d]) h.kept, by simp [h.count, hd], by simp [h.last, hd],
      h.bounded⟩
  · rw [hpush]
    exact h
  · rw [hpush]
    refine ⟨h.limit_eq, congrArg (· ++ [d]) h.kept, by simp [h.count, hd], ?_, fun hne => ?_⟩
    · cases hcode : d.code.isGrammatical <;> simp [h.last, hd, hcode]
    · simp only [limitReached, h.limit_eq, Bool.and_eq_false_iff, decide_eq_false_iff_not] at hlimit
      dsimp only
      omega

theorem flush (h : Holds limit q accepted) : Holds limit q.flush.2 [] := by
  rw [DiagnosticQueue.flush, h.limit_eq]
  exact .empty limit

theorem step (h : Holds limit q accepted) (c : Call) :
    Holds limit (c.apply (q, accepted)).1 (c.apply (q, accepted)).2 := by
  cases c with
  | push d => exact h.push d
  | flush => exact h.flush

/-- no filter stops the first error -/
theorem accepts_first (h : Holds limit q accepted) (hnone : ∀ e ∈ accepted, e.isError = false)
    (d : Diagnostic) : (q.push d).1 = true := by
  obtain ⟨-, hpush⟩ | ⟨-, hstop, -⟩ | ⟨-, -, -, hpush⟩ := push_cases q d
  · rw [hpush]
  · have hcount : q.errorCount = 0 := by
      rw [h.count, List.countP_eq_zero]
      simpa using hnone
    have hline : q.lastLine = none := by
      rw [h.last, List.filter_eq_nil_iff.2 fun e he => by simp [hnone e he]]
      rfl
    rcases hstop with hlimit | hrepeats
    · simp [limitReached, hcount] at hlimit
      omega
    · cases hspan : d.primarySpan? <;> simp [repeats, hline, hspan] at hrepeats
  · rw [hpush]

end Holds

theorem holds_session (limit : Nat) (calls : List Call) :
    Holds limit (session limit calls).1 (session limit calls).2 := by
  induction calls using List.reverseRecOn with
  | nil => exact .empty limit
  | append_singleton calls c ih =>
    rw [session, List.foldl_append]
    exact ih.step c

theorem notAfter_iff {d e : Diagnostic} : notAfter d e = true ↔ d.position ≤ e.position := by
  unfold notAfter Diagnostic.position
  cases d.primarySpan? with
  | none => simp
  | some s =>
    cases e.primarySpan? with
    | none => simp
    | some t => simp [WithBot.coe_le_coe, Prod.Lex.toLex_le_toLex]

theorem notAfter_trans (c d e : Diagnostic) (h : notAfter c d = true) (h' : notAfter d e = true) :
    notAfter c e = true :=
  notAfter_iff.2 ((notAfter_iff.1 h).trans (notAfter_iff.1 h'))

theorem notAfter_total (d e : Diagnostic) : (notAfter d e || notAfter e d) = true := by
  rw [Bool.or_eq_true, notAfter_iff, notAfter_iff]
  exact le_total _ _

theorem flush_perm (q : DiagnosticQueue) : q.flush.1.Perm q.kept := List.mergeSort_perm _ _

theorem flush_eq_nil_iff (q : DiagnosticQueue) : q.flush.1 = [] ↔ q.kept = [] := by
  rw [← List.length_eq_zero_iff, (flush_perm q).length_eq, List.length_eq_zero_iff]

theorem flush_sorted (q : DiagnosticQueue) :
    q.flush.1.Pairwise fun d e => d.position ≤ e.position :=
  (List.pairwise_mergeSort notAfter_trans notAfter_total q.kept).imp notAfter_iff.1

/-- diagnostics at one place are handed out in the order in which they came -/
theorem filter_flush (q : DiagnosticQueue) (p : WithBot (ℕ ×ₗ ℕ)) :
    q.flush.1.filter (fun d => d.position = p) = q.kept.filter fun d => d.position = p := by
  have hsame : (q.kept.filter fun d => d.position = p).Pairwise (notAfter · ·) := by
    refine List.pairwise_of_forall_mem_list fun d hd e he => notAfter_iff.2 ?_
    have hd := of_decide_eq_true (List.mem_filter.1 hd).2
    have he := of_decide_eq_true (List.mem_filter.1 he).2
    rw [hd, he]
  have hsub := (List.sublist_mergeSort notAfter_trans notAfter_total hsame
    List.filter_sublist).filter fun d => d.position = p
  rw [List.filter_filter] at hsub
  simp only [Bool.and_self] at hsub
  refine (hsub.eq_of_length ?_).symm
  exact ((flush_perm q).filter _).length_eq.symm

end DiagnosticQueue

end AutoLang
