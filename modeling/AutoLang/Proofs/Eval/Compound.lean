import AutoLang.Proofs.Eval.Scopes
import Mathlib

/-! Compound assignments. `x op= e` and `x = x op e` both run `e` once and then give `x` a value; they
differ in when `x` is read. The first reads it after `e` was run, the second before. So they are the
same for every `e` that does not write `x`, and not for every `e`. -/

namespace AutoLang

namespace Eval

/-- the value of a name where it stands in an expression -/
def valueOf (x : String) (s : EvalState) : Value := (s.scopes.lookup? x).getD .nil

/-- a run that ends by giving `x` the value `w` -/
def settle (x : String) (w : Value) (s : EvalState) : Value × EvalState :=
  (w, { s with scopes := s.scopes.assign x w })

@[simp] theorem output_settle (x : String) (w : Value) (s : EvalState) :
    (settle x w s).2.output = s.output := rfl

variable {op base : BinaryOp}

theorem run_compound (hop : op.compoundBase? = some base) (p q : Span) (x : String) (e : Expr)
    (s : EvalState) : (expr (.binary p (.ident q x) op e)).run s =
      settle x (base.apply (valueOf x ((expr e).run s).2) ((expr e).run s).1)
        ((expr e).run s).2 := by
  rw [expr_compound p _ e hop]
  rfl

/-- the operator of a compound assignment works on two values -/
theorem isAssignment_of_compoundBase? (hop : op.compoundBase? = some base) :
    base.isAssignment = false ∧ base ≠ .dot := by
  cases op <;> cases hop <;> decide

theorem run_expanded (hop : op.compoundBase? = some base) (p q p' q' : Span) (x : String)
    (e : Expr) (s : EvalState) :
    (expr (.binary p (.ident q x) .assign (.binary p' (.ident q' x) base e))).run s =
      settle x (base.apply (valueOf x s) ((expr e).run s).1) ((expr e).run s).2 := by
  obtain ⟨hassign, hdot⟩ := isAssignment_of_compoundBase? hop
  rw [expr, expr_operands p' _ e hassign hdot, expr]
  rfl

end Eval

open Eval

/-- `x op= e` is run like `x = x op e` exactly if the operator gives the same on the value that `x` has
before `e` and on the one it has after; so it is if `e` does not write `x`. What is printed is always
the same. -/
theorem compound_expands_iff (s : EvalState) (x : String) (op base : BinaryOp)
    (hop : op.compoundBase? = some base) (e : Expr) (p q p' q' : Span) :
    let compound := expr (.binary p (.ident q x) op e)
    let expanded := expr (.binary p (.ident q x) .assign (.binary p' (.ident q' x) base e))
    let v := ((expr e).run s).1
    let s' := ((expr e).run s).2
    (compound.run s = expanded.run s ↔
        base.apply (valueOf x s') v = base.apply (valueOf x s) v) ∧
      (s.scopes.Reachable → x ∉ e.targets → compound.run s = expanded.run s) ∧
      (compound.run s).2.output = (expanded.run s).2.output := by
  intro compound expanded v s'
  have hcompound : compound.run s = settle x (base.apply (valueOf x s') v) s' :=
    run_compound hop p q x e s
  have hexpanded : expanded.run s = settle x (base.apply (valueOf x s) v) s' :=
    run_expanded hop p q p' q' x e s
  refine ⟨⟨fun h => ?_, fun h => ?_⟩, fun hs hx => ?_, ?_⟩
  · rw [hcompound, hexpanded] at h
    exact congrArg Prod.fst h
  · rw [hcompound, hexpanded, h]
  · -- a name that is not written has the same value before and after
    have hkept : s'.scopes.lookup? x = s.scopes.lookup? x :=
      (writes_expr (· ∈ e.targets) e (fun _ hn => hn) s).lookup?_eq hs.wellFormed hx
    rw [hcompound, hexpanded, valueOf, valueOf, hkept]
  · rw [hcompound, hexpanded, output_settle, output_settle]

namespace Samples

/-- scopes in which `x` is bound to one -/
def xIsOne : List ScopeOp := [.enter .block, .define "x" (.int 1)]

def writeTo (x : String) (v : Int32) : Expr :=
  .binary .nowhere (.ident .nowhere x) .assign (.literal .nowhere (.int v))

end Samples

open Samples

/-- `x -= (y = 5)` -/
theorem compound_expands_iff_other_name :
    let s : EvalState := ⟨.run xIsOne, "", false⟩
    let compound := Expr.binary .nowhere (.ident .nowhere "x") .subAssign (writeTo "y" 5)
    let expanded := Expr.binary .nowhere (.ident .nowhere "x") .assign
      (.binary .nowhere (.ident .nowhere "x") .sub (writeTo "y" 5))
    s.scopes.Reachable ∧ (expr compound).run s = (expr expanded).run s ∧
      ((expr compound).run s).1 = .int (-4) := by
  intro s compound expanded
  have hs : s.scopes.Reachable := ⟨xIsOne, rfl⟩
  have := (compound_expands_iff s "x" .subAssign .sub rfl (writeTo "y" 5) .nowhere .nowhere .nowhere
    .nowhere).2.1 hs (by decide)
  exact ⟨hs, this, rfl⟩

/-- `x += (x = 5)` reads the five, `x = x + (x = 5)` the one before it -/
theorem compound_rereads_name :
    let s : EvalState := ⟨.run xIsOne, "", false⟩
    let compound := Expr.binary .nowhere (.ident .nowhere "x") .addAssign (writeTo "x" 5)
    let expanded := Expr.binary .nowhere (.ident .nowhere "x") .assign
      (.binary .nowhere (.ident .nowhere "x") .add (writeTo "x" 5))
    ((expr compound).run s).1 = .int 10 ∧ ((expr expanded).run s).1 = .int 6 ∧
      ((expr compound).run s).2.scopes.lookup? "x" = some (.int 10) ∧
      ((expr expanded).run s).2.scopes.lookup? "x" = some (.int 6) :=
  ⟨rfl, rfl, rfl, rfl⟩

end AutoLang
