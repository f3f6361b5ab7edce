import AutoLang.Eval.Basic
import Mathlib

/-! A program run in pieces. The only thing that one run hands to the next besides scopes and output is
whether a break is pending, and a whole program forgets it at its end. So a program may be cut between
any two statements, unless the first part ends with a break pending: there the rest would not be run. -/

namespace AutoLang

namespace Eval

variable {xs ys : List Stmt} {p q : Code} {s : EvalState}

theorem run_sequence_cons (x : Stmt) (xs : List Stmt) (last : Value) (s : EvalState) :
    (sequence (x :: xs) last).run s =
      if ((stmt x).run s).2.leaving then (stmt x).run s
      else (sequence xs ((stmt x).run s).1).run ((stmt x).run s).2 := by
  rw [sequence]
  change (if ((stmt x).run s).2.leaving then (pure ((stmt x).run s).1 : Eval Value)
    else sequence xs ((stmt x).run s).1).run ((stmt x).run s).2 = _
  split <;> rfl

/-- statements that end with no break pending go on with those behind them -/
theorem run_sequence_append (last : Value) (h : ((sequence xs last).run s).2.leaving = false) :
    (sequence (xs ++ ys) last).run s =
      (sequence ys ((sequence xs last).run s).1).run ((sequence xs last).run s).2 := by
  induction xs generalizing last s with
  | nil =>
    rw [sequence]
    rfl
  | cons x xs ih =>
    rw [run_sequence_cons] at h
    rw [List.cons_append, run_sequence_cons, run_sequence_cons]
    split at h
    · rename_i hbreak
      rw [hbreak] at h
      cases h
    · rename_i hgo
      rw [if_neg hgo, if_neg hgo]
      exact ih _ h

/-- the value before the first statement is lost to it -/
theorem sequence_of_ne_nil (h : xs ≠ []) (last last' : Value) :
    sequence xs last = sequence xs last' := by
  obtain ⟨x, xs, rfl⟩ := List.exists_cons_of_ne_nil h
  rw [sequence, sequence]

theorem snd_sequence (xs : List Stmt) (last last' : Value) (s : EvalState) :
    ((sequence xs last).run s).2 = ((sequence xs last').run s).2 := by
  cases xs with
  | nil =>
    rw [sequence, sequence]
    rfl
  | cons x xs => rw [sequence_of_ne_nil (List.cons_ne_nil x xs) last last']

/-- a program is its statements, and then no break is pending -/
theorem run_code (c : Code) (s : EvalState) :
    (code c).run s = (((sequence c .void).run s).1,
      { ((sequence c .void).run s).2 with leaving := false }) := rfl

/-- a program without a break at its end leaves what its statements leave -/
theorem snd_code (h : ((sequence p .void).run s).2.leaving = false) :
    ((code p).run s).2 = ((sequence p .void).run s).2 := by
  rw [run_code, ← h]

/-- the second of two programs goes on where the first ends, if no break is pending there -/
theorem run_code_append (h : ((sequence p .void).run s).2.leaving = false) :
    (code (p ++ q)).run s =
      (((sequence q ((sequence p .void).run s).1).run ((code p).run s).2).1,
        { ((sequence q .void).run ((code p).run s).2).2 with leaving := false }) := by
  rw [run_code, run_sequence_append .void h, snd_code h, snd_sequence q .void]

end Eval

open Eval

/-- A program whose statements end with no break pending and another one behind it, also one that is run
over the scopes and the output that the first left, do what the statements of both do at once. If the
second has a statement, its value is that of the whole. -/
theorem run_in_pieces (p q : Code) (s : EvalState)
    (h : ((sequence p .void).run s).2.leaving = false) :
    let first := (code p).run s
    let again := (code q).run first.2
    let fresh := (code q).run ⟨first.2.scopes, first.2.output, false⟩
    let whole := (code (p ++ q)).run s
    again.2 = whole.2 ∧ fresh.2 = whole.2 ∧ (q ≠ [] → again.1 = whole.1 ∧ fresh.1 = whole.1) := by
  intro first again fresh whole
  -- the flag is all that an evaluator holds, and the first program put it back
  have hfresh : fresh = again := rfl
  have hwhole : whole = (_, _) := run_code_append h
  have hstate : again.2 = whole.2 := by
    rw [hwhole]
    rfl
  refine ⟨hstate, hfresh ▸ hstate, fun hq => ?_⟩
  have hvalue : again.1 = whole.1 := by
    rw [hwhole, sequence_of_ne_nil hq _ .void]
    rfl
  exact ⟨hvalue, hfresh ▸ hvalue⟩

namespace Samples

/-- `var n = 1` and `for i in 0..3 { n += i; if n == 2 { break } }` -/
def countToTwo : Code :=
  [.store .nowhere "n" none (.literal .nowhere (.int 1)),
    .loop .nowhere "i"
      (.range .nowhere (.literal .nowhere (.int 0)) (.literal .nowhere (.int 3)) false)
      (.block .nowhere
        [.expr .nowhere (.binary .nowhere (.ident .nowhere "n") .addAssign (.ident .nowhere "i")),
          .cond .nowhere
            (.binary .nowhere (.ident .nowhere "n") .eq (.literal .nowhere (.int 2)))
            (.block .nowhere [.leave .nowhere]) none])]

/-- `print(n)` and `n` -/
def showCount : Code :=
  [.expr .nowhere (.call .nowhere (.ident .nowhere "print") [.ident .nowhere "n"]),
    .expr .nowhere (.ident .nowhere "n")]

end Samples

open Samples

/-- a loop that a break ends, and the count in a program of its own -/
theorem run_in_pieces_count :
    ((sequence countToTwo .void).run ⟨.empty, "", false⟩).2.leaving = false ∧
      ((code showCount).run ((code countToTwo).run ⟨.empty, "", false⟩).2).2 =
        ((code (countToTwo ++ showCount)).run ⟨.empty, "", false⟩).2 ∧
      ((code showCount).run ((code countToTwo).run ⟨.empty, "", false⟩).2).1 =
        ((code (countToTwo ++ showCount)).run ⟨.empty, "", false⟩).1 ∧
      ((code (countToTwo ++ showCount)).run ⟨.empty, "", false⟩).2.output = "2\n" := by
  have hdone : ((sequence countToTwo .void).run ⟨.empty, "", false⟩).2.leaving = false := by
    decide
  have hpieces := run_in_pieces countToTwo showCount ⟨.empty, "", false⟩ hdone
  have hprinted : ((code (countToTwo ++ showCount)).run ⟨.empty, "", false⟩).2.output = "2\n" := by
    decide
  exact ⟨hdone, hpieces.1, (hpieces.2.2 (List.cons_ne_nil _ _)).1, hprinted⟩

/-- a break outside of loops ends its own program only -/
example : ((code ([.leave .nowhere] ++ showCount)).run ⟨.empty, "", false⟩).2.output = "" ∧
    ((code showCount).run ((code [.leave .nowhere]).run ⟨.empty, "", false⟩).2).2.output =
      "nil\n" := by
  decide

end AutoLang
