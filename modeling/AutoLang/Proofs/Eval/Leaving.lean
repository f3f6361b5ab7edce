import AutoLang.Proofs.Eval.Scopes
import Mathlib

/-! Breaks that are pending. Nothing but a loop takes one: code that is run with a break pending leaves
it so, unless a loop in it makes a round. A loop asks at the end of every round, and it does not ask
where the break came from. So a break that is met in the source of a loop, or before the loop, is taken by
that loop if it has a round to make, and not by the loop around it. -/

namespace AutoLang

/-- what a loop over a value counts through -/
def Value.items : Value → List Value
  | .range r => (List.range' 0 r.count).map fun i => .int (r.get i)
  | .array vs => vs
  | _ => []

namespace EvalState

/-- the state in which a loop begins a round -/
def enterRound (s : EvalState) (n : String) (v : Value) : EvalState :=
  { s with scopes := (s.scopes.enter .block).assign n v }

/-- the state in which a loop ends after a break -/
def exitLoop (s : EvalState) : EvalState := { s with scopes := s.scopes.exit, leaving := false }

end EvalState

namespace Eval

section Loop

variable {n : String} {body : Eval Value}

/-- a range is gone through like an array of its members -/
theorem overRange_eq (r : IntRange) (count : Nat) : ∀ (i : Nat) (last : Value),
    overRange n r body count i last =
      overItems n body ((List.range' i count).map fun i => .int (r.get i)) last := by
  induction count with
  | zero => exact fun i last => rfl
  | succ count ih =>
    intro i last
    rw [List.range'_succ, List.map_cons, overRange, overItems]
    simp only [ih]

theorem stmt_loop (p : Span) (n : String) (e : Expr) (b : Stmt) :
    stmt (.loop p n e b) =
      (do let source ← expr e; inBlock (overItems n (stmt b) source.items .void)) := by
  rw [stmt]
  congr 1
  funext source
  cases source with
  | range r => exact congrArg inBlock (overRange_eq r r.count 0 .void)
  | _ => rfl

/-- after a round with a break the loop ends, and without one it goes on -/
theorem run_overItems_cons (v : Value) (vs : List Value) (last : Value) (s : EvalState) :
    (overItems n body (v :: vs) last).run s =
      let first := body.run { s with scopes := s.scopes.assign n v }
      if first.2.leaving then (first.1, { first.2 with leaving := false })
      else (overItems n body vs first.1).run { first.2 with leaving := false } := by
  extract_lets first
  change (if first.2.leaving then (pure first.1 : Eval Value)
    else overItems n body vs first.1).run { first.2 with leaving := false } = _
  split
  · rfl
  · rfl

/-- after a round no break is pending; without a round nothing was asked -/
theorem leaving_overItems (items : List Value) (last : Value) (s : EvalState) :
    ((overItems n body items last).run s).2.leaving = (s.leaving && items.isEmpty) := by
  induction items generalizing last s with
  | nil => exact (Bool.and_true _).symm
  | cons v vs ih =>
    rw [run_overItems_cons, List.isEmpty_cons, Bool.and_false]
    dsimp only
    split
    · rfl
    · exact ih _ _

/-- a loop with a round to make leaves no break pending, one without leaves what its source did -/
theorem leaving_loop (p : Span) (n : String) (e : Expr) (b : Stmt) (s : EvalState) :
    ((stmt (.loop p n e b)).run s).2.leaving =
      (((expr e).run s).2.leaving && ((expr e).run s).1.items.isEmpty) := by
  rw [stmt_loop]
  exact leaving_overItems _ _ { ((expr e).run s).2 with
    scopes := ((expr e).run s).2.scopes.enter .block }

end Loop

end Eval

mutual

/-- whether some loop makes a round while an expression is run from a state -/
def Expr.makesRound : Expr → EvalState → Bool
  | .literal _ _, _ | .ident _ _, _ | .ref _ _, _ => false
  | .unary _ _ e, s => e.makesRound s
  | .binary _ l op r, s =>
    if op.isAssignment then r.makesRound s
    else if op = .dot then l.makesRound s
    else l.makesRound s || r.makesRound ((Eval.expr l).run s).2
  | .range _ a b _, s => a.makesRound s || b.makesRound ((Eval.expr a).run s).2
  | .array _ es, s => exprsMakeRound es s
  | .pair _ f, s => f.makesRound s
  | .object _ fs, s => fieldsMakeRound fs s
  | .block _ b, s => stmtsMakeRound b s
  | .format _ ps, s => exprsMakeRound ps s
  | .call _ c as, s => c.makesRound s || exprsMakeRound as ((Eval.expr c).run s).2
  | .index _ a i, s => a.makesRound s || i.makesRound ((Eval.expr a).run s).2
  | .cond _ t y (some n), s =>
    t.makesRound s ||
      (if ((Eval.expr t).run s).1.isTrue then y.makesRound ((Eval.expr t).run s).2
        else n.makesRound ((Eval.expr t).run s).2)
  | .cond _ t y none, s =>
    t.makesRound s ||
      (((Eval.expr t).run s).1.isTrue && y.makesRound ((Eval.expr t).run s).2)

def Field.makesRound : Field → EvalState → Bool
  | .mk _ e, s => e.makesRound s

/-- whether some loop makes a round while a statement is run from a state -/
def Stmt.makesRound : Stmt → EvalState → Bool
  | .expr _ e, s => e.makesRound s
  | .store _ _ _ e, s => e.makesRound s
  | .block _ b, s => stmtsMakeRound b { s with scopes := s.scopes.enter .block }
  | .cond _ t y (some n), s =>
    t.makesRound s ||
      (if ((Eval.expr t).run s).1.isTrue then y.makesRound ((Eval.expr t).run s).2
        else n.makesRound ((Eval.expr t).run s).2)
  | .cond _ t y none, s =>
    t.makesRound s ||
      (((Eval.expr t).run s).1.isTrue && y.makesRound ((Eval.expr t).run s).2)
  | .loop _ _ e _, s => e.makesRound s || !((Eval.expr e).run s).1.items.isEmpty
  | .function _ _ _ _ _, _ | .blank _, _ | .leave _, _ => false

def exprsMakeRound : List Expr → EvalState → Bool
  | [], _ => false
  | e :: es, s => e.makesRound s || exprsMakeRound es ((Eval.expr e).run s).2

def fieldsMakeRound : List Field → EvalState → Bool
  | [], _ => false
  | .mk _ e :: fs, s => e.makesRound s || fieldsMakeRound fs ((Eval.expr e).run s).2

/-- statements after a break are not run -/
def stmtsMakeRound : List Stmt → EvalState → Bool
  | [], _ => false
  | x :: xs, s =>
    x.makesRound s ||
      (!((Eval.stmt x).run s).2.leaving && stmtsMakeRound xs ((Eval.stmt x).run s).2)

end

namespace Eval

section Binary

variable {l r : Expr} {op : BinaryOp} {s : EvalState}

/-- an assignment runs its value only, if it runs anything -/
theorem leaving_assignment (p : Span) (hop : op.isAssignment = true) (hs : s.leaving = true)
    (hr : ((expr r).run s).2.leaving = true) : ((expr (.binary p l op r)).run s).2.leaving = true := by
  rcases Bool.or_eq_true_iff.1 hop with hassign | hcompound
  · rw [beq_iff_eq.1 hassign, expr]
    cases hname : l.name? with
    | none => exact hr
    | some n => exact hr
  · obtain ⟨base, hbase⟩ := Option.isSome_iff_exists.1 hcompound
    rw [expr_compound p l r hbase]
    cases hname : l.name? with
    | none => exact hs
    | some n => exact hr

end Binary

theorem leaving_cond {t : Expr} {m m' : Eval Value} {s : EvalState}
    (yes : ((expr t).run s).1.isTrue = true → (m.run ((expr t).run s).2).2.leaving = true)
    (no : ((expr t).run s).1.isTrue = false → (m'.run ((expr t).run s).2).2.leaving = true) :
    ((do if (← expr t).isTrue then m else m' : Eval Value).run s).2.leaving = true := by
  change ((if ((expr t).run s).1.isTrue then m else m').run ((expr t).run s).2).2.leaving = true
  cases htest : ((expr t).run s).1.isTrue with
  | true => exact yes htest
  | false => exact no htest

mutual

theorem leaving_expr : (e : Expr) → (s : EvalState) → s.leaving = true → e.makesRound s = false →
    ((expr e).run s).2.leaving = true
  | .literal _ v, s, hs, _ => by
    rw [expr]
    exact hs
  | .ident _ n, s, hs, _ => by
    rw [expr]
    exact hs
  | .ref _ n, s, hs, _ => by
    rw [expr]
    exact hs
  | .unary _ op e, s, hs, h => by
    rw [expr]
    exact leaving_expr e s hs h
  | .binary p l op r, s, hs, h => by
    rw [Expr.makesRound] at h
    split at h
    · rename_i hop
      exact leaving_assignment p hop hs (leaving_expr r s hs h)
    · rename_i hop
      split at h
      · rename_i hdot
        subst hdot
        rw [expr]
        exact leaving_expr l s hs h
      · rename_i hdot
        rw [Bool.or_eq_false_iff] at h
        rw [expr_operands p l r (by simpa using hop) hdot]
        exact leaving_expr r _ (leaving_expr l s hs h.1) h.2
  | .range _ a b inclusive, s, hs, h => by
    rw [Expr.makesRound, Bool.or_eq_false_iff] at h
    rw [expr]
    exact leaving_expr b _ (leaving_expr a s hs h.1) h.2
  | .array _ es, s, hs, h => by
    rw [expr]
    exact leaving_exprs es s hs h
  | .pair _ (.mk k e), s, hs, h => by
    rw [expr]
    exact leaving_expr e s hs h
  | .object _ fs, s, hs, h => by
    rw [expr]
    exact leaving_fields fs s hs h
  | .block _ b, s, hs, h => by
    rw [expr]
    exact leaving_sequence b .nil s hs h
  | .format _ ps, s, hs, h => by
    rw [expr]
    exact leaving_exprs ps s hs h
  | .call _ c as, s, hs, h => by
    rw [Expr.makesRound, Bool.or_eq_false_iff] at h
    have hargs := leaving_exprs as _ (leaving_expr c s hs h.1) h.2
    rw [expr]
    -- printing changes nothing but what was printed
    change ((if _ then (print _ >>= fun _ => pure .void : Eval Value) else pure .nil).run
      ((exprs as).run ((expr c).run s).2).2).2.leaving = true
    split
    · exact hargs
    · exact hargs
  | .index _ a i, s, hs, h => by
    rw [Expr.makesRound, Bool.or_eq_false_iff] at h
    rw [expr]
    exact leaving_expr i _ (leaving_expr a s hs h.1) h.2
  | .cond _ t y (some n), s, hs, h => by
    rw [Expr.makesRound, Bool.or_eq_false_iff] at h
    have ht := leaving_expr t s hs h.1
    rw [expr]
    refine leaving_cond (fun hyes => ?_) fun hno => ?_
    · rw [hyes, if_pos rfl] at h
      exact leaving_expr y _ ht h.2
    · rw [hno, if_neg Bool.false_ne_true] at h
      exact leaving_expr n _ ht h.2
  | .cond _ t y none, s, hs, h => by
    rw [Expr.makesRound, Bool.or_eq_false_iff] at h
    have ht := leaving_expr t s hs h.1
    rw [expr]
    refine leaving_cond (fun hyes => ?_) fun _ => ht
    rw [hyes, Bool.true_and] at h
    exact leaving_expr y _ ht h.2

theorem leaving_exprs : (es : List Expr) → (s : EvalState) → s.leaving = true →
    exprsMakeRound es s = false → ((exprs es).run s).2.leaving = true
  | [], s, hs, _ => by
    rw [exprs]
    exact hs
  | e :: es, s, hs, h => by
    rw [exprsMakeRound, Bool.or_eq_false_iff] at h
    rw [exprs]
    exact leaving_exprs es _ (leaving_expr e s hs h.1) h.2

theorem leaving_fields : (fs : List Field) → (s : EvalState) → s.leaving = true →
    fieldsMakeRound fs s = false → ((fields fs).run s).2.leaving = true
  | [], s, hs, _ => by
    rw [fields]
    exact hs
  | .mk k e :: fs, s, hs, h => by
    rw [fieldsMakeRound, Bool.or_eq_false_iff] at h
    rw [fields]
    exact leaving_fields fs _ (leaving_expr e s hs h.1) h.2

theorem leaving_stmt : (x : Stmt) → (s : EvalState) → s.leaving = true → x.makesRound s = false →
    ((stmt x).run s).2.leaving = true
  | .expr _ e, s, hs, h => by
    rw [stmt]
    exact leaving_expr e s hs h
  | .store _ n ty e, s, hs, h => by
    rw [stmt]
    cases ty with
    | none => exact leaving_expr e s hs h
    | some ty => exact leaving_expr e s hs h
  | .block _ b, s, hs, h => by
    rw [stmt]
    exact leaving_sequence b .void { s with scopes := s.scopes.enter .block } hs h
  | .cond _ t y (some n), s, hs, h => by
    rw [Stmt.makesRound, Bool.or_eq_false_iff] at h
    have ht := leaving_expr t s hs h.1
    rw [stmt]
    refine leaving_cond (fun hyes => ?_) fun hno => ?_
    · rw [hyes, if_pos rfl] at h
      exact leaving_stmt y _ ht h.2
    · rw [hno, if_neg Bool.false_ne_true] at h
      exact leaving_stmt n _ ht h.2
  | .cond _ t y none, s, hs, h => by
    rw [Stmt.makesRound, Bool.or_eq_false_iff] at h
    have ht := leaving_expr t s hs h.1
    rw [stmt]
    refine leaving_cond (fun hyes => ?_) fun _ => ht
    rw [hyes, Bool.true_and] at h
    exact leaving_stmt y _ ht h.2
  | .loop p n e b, s, hs, h => by
    rw [Stmt.makesRound, Bool.or_eq_false_iff, Bool.not_eq_false'] at h
    rw [leaving_loop, h.2, Bool.and_true]
    exact leaving_expr e s hs h.1
  | .leave _, s, _, _ => by
    rw [stmt]
    rfl
  | .function _ _ _ _ _, s, hs, _ => by
    rw [stmt]
    exact hs
  | .blank _, s, hs, _ => by
    rw [stmt]
    exact hs

theorem leaving_sequence : (xs : List Stmt) → (last : Value) → (s : EvalState) → s.leaving = true →
    stmtsMakeRound xs s = false → ((sequence xs last).run s).2.leaving = true
  | [], last, s, hs, _ => by
    rw [sequence]
    exact hs
  | x :: xs, last, s, hs, h => by
    rw [stmtsMakeRound, Bool.or_eq_false_iff] at h
    have hx := leaving_stmt x s hs h.1
    rw [sequence]
    change ((if ((stmt x).run s).2.leaving then pure ((stmt x).run s).1
      else sequence xs ((stmt x).run s).1).run ((stmt x).run s).2).2.leaving = true
    rw [if_pos hx]
    exact hx

end

/-- a first round that ends with a break is the only one -/
theorem run_loop_once {p : Span} {n : String} {e : Expr} {b : Stmt} {s : EvalState} {v : Value}
    {vs : List Value} (hitems : ((expr e).run s).1.items = v :: vs)
    (hb : ((stmt b).run (((expr e).run s).2.enterRound n v)).2.leaving = true) :
    (stmt (.loop p n e b)).run s =
      (((stmt b).run (((expr e).run s).2.enterRound n v)).1,
        ((stmt b).run (((expr e).run s).2.enterRound n v)).2.exitLoop) := by
  let inner : EvalState :=
    { ((expr e).run s).2 with scopes := ((expr e).run s).2.scopes.enter .block }
  have hrounds : (overItems n (stmt b) (v :: vs) .void).run inner = _ :=
    run_overItems_cons v vs .void inner
  have hblock := congrArg
    (fun r : Value × EvalState => (r.1, { r.2 with scopes := r.2.scopes.exit }))
    (hrounds.trans (if_pos hb))
  rw [← hitems] at hblock
  rw [stmt_loop]
  exact hblock

end Eval

open Eval

/-- A pending break stays pending until a loop makes a round, whatever else is run. A loop that makes a
round takes every break it meets, also one that was pending before it or was met in its source; such a
break ends the loop after the first round, unless a loop in the body takes it before. A loop without a
round takes none. -/
theorem pending_break_until_round (s : EvalState) :
    (s.leaving = true →
      (∀ e : Expr, e.makesRound s = false → ((expr e).run s).2.leaving = true) ∧
        ∀ x : Stmt, x.makesRound s = false → ((stmt x).run s).2.leaving = true) ∧
      ∀ (p : Span) (n : String) (e : Expr) (b : Stmt),
        let source := (expr e).run s
        let loop := (stmt (.loop p n e b)).run s
        loop.2.leaving = (source.2.leaving && source.1.items.isEmpty) ∧
          ∀ v vs, source.1.items = v :: vs → source.2.leaving = true →
            b.makesRound (source.2.enterRound n v) = false →
              let first := (stmt b).run (source.2.enterRound n v)
              loop = (first.1, first.2.exitLoop) := by
  refine ⟨fun hs => ⟨fun e => leaving_expr e s hs, fun x => leaving_stmt x s hs⟩, ?_⟩
  intro p n e b source loop
  refine ⟨leaving_loop p n e b s, ?_⟩
  intro v vs hitems hsource hb first
  exact run_loop_once hitems (leaving_stmt b _ hsource hb)

namespace Samples

def number (v : Int32) : Expr := .literal .nowhere (.int v)

/-- `[1, if true { break } else { 2 }]` -/
def breakingItems : Expr :=
  .array .nowhere [number 1, .cond .nowhere (.literal .nowhere (.bool true))
    (.block .nowhere [.leave .nowhere]) (some (.block .nowhere [.expr .nowhere (number 2)]))]

/-- `for j in [1, if true { break } else { 2 }] { j }` -/
def loopOverBreak : Stmt :=
  .loop .nowhere "j" breakingItems (.block .nowhere [.expr .nowhere (.ident .nowhere "j")])

/-- `for i in 0..3 { for j in [1, if true { break } else { 2 }] { j } print(i) }` -/
def loopAroundBreak : Stmt :=
  .loop .nowhere "i" (.range .nowhere (number 0) (number 3) false)
    (.block .nowhere [loopOverBreak,
      .expr .nowhere (.call .nowhere (.ident .nowhere "print") [.ident .nowhere "i"])])

end Samples

open Samples

/-- the break in the source ends the loop over it after one of two rounds -/
theorem pending_break_until_round_in_source :
    let s : EvalState := ⟨.empty, "", false⟩
    ((expr breakingItems).run s).2.leaving = true ∧
      ((stmt loopOverBreak).run s).2.leaving = false ∧
      ((stmt loopOverBreak).run s).1 == .int 1 ∧
      ((expr breakingItems).run ((expr breakingItems).run s).2).2.leaving = true := by
  intro s
  have hbreak : ((expr breakingItems).run s).2.leaving = true := rfl
  have hitems : ((expr breakingItems).run s).1.items = [.int 1, .void] := rfl
  obtain ⟨htaken, honce⟩ := (pending_break_until_round s).2 .nowhere "j" breakingItems
    (.block .nowhere [.expr .nowhere (.ident .nowhere "j")])
  have hrun := honce (.int 1) [.void] hitems hbreak rfl
  refine ⟨hbreak, ?_, ?_, ?_⟩
  · rw [loopOverBreak, htaken, hitems, List.isEmpty_cons, Bool.and_false]
  · rw [loopOverBreak, hrun]
    decide
  · exact ((pending_break_until_round ((expr breakingItems).run s).2).1 hbreak).1 breakingItems rfl

/-- a loop takes the break that was pending before it, and the loop around the break goes on -/
theorem break_in_source_misses_outer_loop :
    ¬ (∀ s : EvalState, s.leaving = true → ∀ x : Stmt, ((stmt x).run s).2.leaving = true) ∧
      ((stmt loopAroundBreak).run ⟨.empty, "", false⟩).2.output = "0\n1\n2\n" := by
  refine ⟨fun h => ?_, rfl⟩
  have hkept := h ⟨.empty, "", true⟩ rfl loopOverBreak
  cases hkept

end AutoLang
