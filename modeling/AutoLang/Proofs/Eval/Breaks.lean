import AutoLang.Proofs.Eval.Leaving
import AutoLang.Proofs.Eval.Pieces
import Mathlib

/-! Breaks that stand in loops. A loop takes what is pending at the end of each round, so it ends with no
break pending unless its source left one. If every break of a tree stands in the body of a loop of the
tree, none gets out of it, and a program of such statements is run to its last one. -/

namespace AutoLang

mutual

/-- every break in an expression stands in the body of a loop in it -/
def Expr.breaksInLoops : Expr → Bool
  | .literal _ _ | .ident _ _ | .ref _ _ => true
  | .unary _ _ e => e.breaksInLoops
  | .binary _ l _ r => l.breaksInLoops && r.breaksInLoops
  | .range _ a b _ => a.breaksInLoops && b.breaksInLoops
  | .array _ es => exprsBreakInLoops es
  | .pair _ f => f.breaksInLoops
  | .object _ fs => fieldsBreakInLoops fs
  | .block _ b => stmtsBreakInLoops b
  | .format _ ps => exprsBreakInLoops ps
  | .call _ c as => c.breaksInLoops && exprsBreakInLoops as
  | .index _ a i => a.breaksInLoops && i.breaksInLoops
  | .cond _ t y none => t.breaksInLoops && y.breaksInLoops
  | .cond _ t y (some n) => t.breaksInLoops && y.breaksInLoops && n.breaksInLoops

def Field.breaksInLoops : Field → Bool
  | .mk _ e => e.breaksInLoops

/-- every break in a statement stands in the body of a loop in it; the source of a loop is not its body -/
def Stmt.breaksInLoops : Stmt → Bool
  | .expr _ e => e.breaksInLoops
  | .cond _ t y none => t.breaksInLoops && y.breaksInLoops
  | .cond _ t y (some n) => t.breaksInLoops && y.breaksInLoops && n.breaksInLoops
  | .loop _ _ e _ => e.breaksInLoops
  | .store _ _ _ e => e.breaksInLoops
  | .block _ b => stmtsBreakInLoops b
  | .function _ _ _ _ b => stmtsBreakInLoops b
  | .blank _ => true
  | .leave _ => false

def exprsBreakInLoops : List Expr → Bool
  | [] => true
  | e :: es => e.breaksInLoops && exprsBreakInLoops es

def fieldsBreakInLoops : List Field → Bool
  | [] => true
  | f :: fs => f.breaksInLoops && fieldsBreakInLoops fs

def stmtsBreakInLoops : List Stmt → Bool
  | [] => true
  | x :: xs => x.breaksInLoops && stmtsBreakInLoops xs

end

namespace Eval

variable {α β : Type} {m m' : Eval α}

/-- if no break is pending before, none is after -/
def Quiet (m : Eval α) : Prop := ∀ s : EvalState, s.leaving = false → (m.run s).2.leaving = false

namespace Quiet

theorem pure (a : α) : Quiet (pure a) := fun _ hs => hs

theorem bind {f : α → Eval β} (hm : Quiet m) (hf : ∀ a, Quiet (f a)) : Quiet (m >>= f) :=
  fun s hs => hf _ _ (hm s hs)

theorem ite {c : Prop} [Decidable c] (hm : Quiet m) (hm' : Quiet m') :
    Quiet (if c then m else m') := by
  split
  · exact hm
  · exact hm'

theorem lookup? (n : String) : Quiet (lookup? n) := fun _ hs => hs

theorem assign (n : String) (v : Value) : Quiet (assign n v) := fun _ hs => hs

theorem define (n : String) (v : Value) : Quiet (define n v) := fun _ hs => hs

theorem declare (n : String) (ty : Ty) : Quiet (declare n ty) := fun _ hs => hs

theorem print (line : String) : Quiet (print line) := fun _ hs => hs

theorem isLeaving : Quiet isLeaving := fun _ hs => hs

theorem inBlock {body : Eval Value} (h : Quiet body) : Quiet (inBlock body) :=
  fun s hs => h { s with scopes := s.scopes.enter .block } hs

/-- a loop with a quiet source, whatever its body does -/
theorem loop {e : Expr} (h : Quiet (expr e)) (p : Span) (n : String) (b : Stmt) :
    Quiet (stmt (.loop p n e b)) := by
  intro s hs
  rw [leaving_loop, h s hs, Bool.false_and]

end Quiet

theorem quiet_binary {l r : Expr} (p : Span) (op : BinaryOp) (hl : Quiet (expr l))
    (hr : Quiet (expr r)) : Quiet (expr (.binary p l op r)) := by
  cases hop : op.isAssignment with
  | false =>
    by_cases hdot : op = .dot
    · subst hdot
      rw [expr]
      exact hl.bind fun _ => .pure _
    · rw [expr_operands p l r hop hdot]
      exact hl.bind fun _ => hr.bind fun _ => .pure _
  | true =>
    rcases Bool.or_eq_true_iff.1 hop with hassign | hcompound
    · rw [beq_iff_eq.1 hassign, expr]
      refine hr.bind fun v => ?_
      cases l.name? with
      | none => exact .pure _
      | some n => exact (Quiet.assign n v).bind fun _ => .pure v
    · obtain ⟨base, hbase⟩ := Option.isSome_iff_exists.1 hcompound
      rw [expr_compound p l r hbase]
      cases l.name? with
      | none => exact .pure _
      | some n => exact hr.bind fun v => (Quiet.lookup? n).bind fun _ =>
          (Quiet.assign n _).bind fun _ => .pure _

mutual

theorem quiet_expr : (e : Expr) → e.breaksInLoops → Quiet (expr e)
  | .literal _ v, _ => by
    rw [expr]
    exact .pure v.value
  | .ident _ n, _ => by
    rw [expr]
    exact (Quiet.lookup? n).bind fun _ => .pure _
  | .ref _ n, _ => by
    rw [expr]
    exact (Quiet.lookup? n).bind fun _ => .pure _
  | .unary _ op e, h => by
    rw [expr]
    exact (quiet_expr e h).bind fun _ => .pure _
  | .binary p l op r, h => by
    rw [Expr.breaksInLoops, Bool.and_eq_true] at h
    exact quiet_binary p op (quiet_expr l h.1) (quiet_expr r h.2)
  | .range _ a b _, h => by
    rw [Expr.breaksInLoops, Bool.and_eq_true] at h
    rw [expr]
    exact (quiet_expr a h.1).bind fun _ => (quiet_expr b h.2).bind fun _ => .pure _
  | .array _ es, h => by
    rw [expr]
    exact (quiet_exprs es h).bind fun _ => .pure _
  | .pair _ (.mk k e), h => by
    rw [expr]
    exact (quiet_expr e h).bind fun _ => .pure _
  | .object _ fs, h => by
    rw [expr]
    exact (quiet_fields fs h).bind fun _ => .pure _
  | .block _ b, h => by
    rw [expr]
    exact quiet_sequence b .nil h
  | .format _ ps, h => by
    rw [expr]
    exact (quiet_exprs ps h).bind fun _ => .pure _
  | .call _ c as, h => by
    rw [Expr.breaksInLoops, Bool.and_eq_true] at h
    rw [expr]
    refine (Quiet.lookup? _).bind fun _ => (quiet_expr c h.1).bind fun _ => ?_
    refine (quiet_exprs as h.2).bind fun _ => .ite ?_ (.pure _)
    exact (Quiet.print _).bind fun _ => .pure _
  | .index _ a i, h => by
    rw [Expr.breaksInLoops, Bool.and_eq_true] at h
    rw [expr]
    exact (quiet_expr a h.1).bind fun _ => (quiet_expr i h.2).bind fun _ => .pure _
  | .cond _ t y none, h => by
    rw [Expr.breaksInLoops, Bool.and_eq_true] at h
    rw [expr]
    exact (quiet_expr t h.1).bind fun _ => .ite (quiet_expr y h.2) (.pure _)
  | .cond _ t y (some n), h => by
    rw [Expr.breaksInLoops, Bool.and_eq_true, Bool.and_eq_true] at h
    rw [expr]
    exact (quiet_expr t h.1.1).bind fun _ => .ite (quiet_expr y h.1.2) (quiet_expr n h.2)

theorem quiet_exprs : (es : List Expr) → exprsBreakInLoops es → Quiet (exprs es)
  | [], _ => by
    rw [exprs]
    exact .pure []
  | e :: es, h => by
    rw [exprsBreakInLoops, Bool.and_eq_true] at h
    rw [exprs]
    exact (quiet_expr e h.1).bind fun _ => (quiet_exprs es h.2).bind fun _ => .pure _

theorem quiet_fields : (fs : List Field) → fieldsBreakInLoops fs → Quiet (fields fs)
  | [], _ => by
    rw [fields]
    exact .pure []
  | .mk k e :: fs, h => by
    rw [fieldsBreakInLoops, Bool.and_eq_true] at h
    rw [fields]
    exact (quiet_expr e h.1).bind fun _ => (quiet_fields fs h.2).bind fun _ => .pure _

theorem quiet_stmt : (x : Stmt) → x.breaksInLoops → Quiet (stmt x)
  | .expr _ e, h => by
    rw [stmt]
    exact quiet_expr e h
  | .store _ n ty e, h => by
    rw [stmt]
    refine (quiet_expr e h).bind fun v => ?_
    cases ty with
    | none => exact (Quiet.define n v).bind fun _ => .pure v
    | some ty => exact (Quiet.declare n ty).bind fun _ => (Quiet.define n v).bind fun _ => .pure v
  | .block _ b, h => by
    rw [stmt]
    exact (quiet_sequence b .void h).inBlock
  | .cond _ t y none, h => by
    rw [Stmt.breaksInLoops, Bool.and_eq_true] at h
    rw [stmt]
    exact (quiet_expr t h.1).bind fun _ => .ite (quiet_stmt y h.2) (.pure _)
  | .cond _ t y (some n), h => by
    rw [Stmt.breaksInLoops, Bool.and_eq_true, Bool.and_eq_true] at h
    rw [stmt]
    exact (quiet_expr t h.1.1).bind fun _ => .ite (quiet_stmt y h.1.2) (quiet_stmt n h.2)
  | .loop p n e b, h => (quiet_expr e h).loop p n b
  | .function _ _ _ _ _, _ => by
    rw [stmt]
    exact .pure _
  | .blank _, _ => by
    rw [stmt]
    exact .pure _

theorem quiet_sequence : (xs : List Stmt) → (last : Value) → stmtsBreakInLoops xs →
    Quiet (sequence xs last)
  | [], last, _ => by
    rw [sequence]
    exact .pure last
  | x :: xs, _, h => by
    rw [stmtsBreakInLoops, Bool.and_eq_true] at h
    rw [sequence]
    exact (quiet_stmt x h.1).bind fun v => Quiet.isLeaving.bind fun _ =>
      .ite (.pure v) (quiet_sequence xs v h.2)

end

/-- run one more statement, for its value -/
def andThen (r : Value × EvalState) (x : Stmt) : Value × EvalState := (stmt x).run r.2

/-- statements that let no break out are all run -/
theorem run_sequence_all (xs : List Stmt) (h : stmtsBreakInLoops xs) (last : Value) (s : EvalState)
    (hs : s.leaving = false) : (sequence xs last).run s = xs.foldl andThen (last, s) := by
  induction xs generalizing last s with
  | nil =>
    rw [sequence]
    rfl
  | cons x xs ih =>
    rw [stmtsBreakInLoops, Bool.and_eq_true] at h
    have hx := quiet_stmt x h.1 s hs
    rw [run_sequence_cons, hx, if_neg Bool.false_ne_true, ih h.2 _ _ hx]
    rfl

end Eval

open Eval

/-- What is run with no break pending ends with none pending, if every break in it stands in the body of
a loop in it. So a program whose statements are all like that runs every one of them, one after the
other. -/
theorem breaks_stay_in_loops (s : EvalState) (hs : s.leaving = false) :
    (∀ e : Expr, e.breaksInLoops → ((expr e).run s).2.leaving = false) ∧
      (∀ x : Stmt, x.breaksInLoops → ((stmt x).run s).2.leaving = false) ∧
      ∀ c : Code, (∀ x ∈ c, x.breaksInLoops) → (code c).run s = c.foldl andThen (.void, s) := by
  refine ⟨fun e h => quiet_expr e h s hs, fun x h => quiet_stmt x h s hs, fun c h => ?_⟩
  have hc : stmtsBreakInLoops c := by
    induction c with
    | nil => rfl
    | cons x xs ih =>
      rw [List.forall_mem_cons] at h
      rw [stmtsBreakInLoops, h.1, ih h.2, Bool.and_self]
  have hend := quiet_sequence c .void hc s hs
  rw [← run_sequence_all c hc .void s hs]
  exact Prod.ext rfl (snd_code hend)

namespace Samples

/-- `for i in 0..3 { if i == 1 { break }; print(i) }` -/
def countToOne : Stmt :=
  .loop .nowhere "i"
    (.range .nowhere (.literal .nowhere (.int 0)) (.literal .nowhere (.int 3)) false)
    (.block .nowhere
      [.cond .nowhere (.binary .nowhere (.ident .nowhere "i") .eq (.literal .nowhere (.int 1)))
          (.block .nowhere [.leave .nowhere]) none,
        .expr .nowhere (.call .nowhere (.ident .nowhere "print") [.ident .nowhere "i"])])

/-- `for j in [{ for i in 0..3 { … } }, 2] { print(7); break }`, with a loop in the source -/
def countInSource : Stmt :=
  .loop .nowhere "j"
    (.array .nowhere [.block .nowhere [countToOne], .literal .nowhere (.int 2)])
    (.block .nowhere
      [.expr .nowhere (.call .nowhere (.ident .nowhere "print") [.literal .nowhere (.int 7)]),
        .leave .nowhere])

end Samples

open Samples

/-- each of three breaks ends the loop that it stands in, and the last statement is run -/
theorem breaks_stay_in_loops_nested :
    let s : EvalState := ⟨.empty, "", false⟩
    let c : Code := [countInSource, countToOne]
    ((stmt countInSource).run s).2.leaving = false ∧
      ((expr (.block .nowhere [countToOne])).run s).2.leaving = false ∧
      (code c).run s = c.foldl andThen (.void, s) ∧ ((code c).run s).2.output = "0\n7\n0\n" := by
  intro s c
  obtain ⟨hexpr, hstmt, hcode⟩ := breaks_stay_in_loops s rfl
  refine ⟨hstmt _ (by decide), hexpr _ (by decide), hcode c (by decide), ?_⟩
  decide

end AutoLang
