import AutoLang.C.Compile
import AutoLang.Proofs.C.Fragment
import Mathlib

/-! What stands in braces. A block that is the body of a branch or a loop gives up its own braces to
those around it, and the compiler opens one scope for both; the equations here say so for each
construct with a body. -/

namespace AutoLang.C.Compile

variable {α β : Type} {sp : Span} {n : String} {t : AutoLang.Expr} {y : AutoLang.Stmt}
  {no : Option AutoLang.Stmt}

/-- compiling what stands in braces; a block gives up its own -/
def body : AutoLang.Stmt → Compile (List Stmt)
  | .block _ b => stmts b
  | y => stmt y

theorem body_of_stmt (h : isBlock y = false) : body y = stmt y := by
  cases y with
  | block _ _ => cases h
  | _ => rfl

theorem stmt_cond : stmt (.cond sp t y no) = (do
    let test ← expr t
    let yes ← inScope .block (body y)
    return [.cond test yes (← rest no)]) := by
  cases y <;> simp only [stmt, body]

theorem stmt_loop {sp' : Span} {a b : AutoLang.Expr} {inclusive : Bool} :
    stmt (.loop sp n (.range sp' a b inclusive) y) = (do
    let start ← expr a
    let stop ← expr b
    let inner ← inScope .block do
      declareTy n (.simple .int)
      body y
    return [.loop n start stop inclusive inner]) := by
  cases y <;> simp only [stmt, body]

theorem rest_cond : rest (some (.cond sp t y no)) = (do
    let test ← expr t
    let yes ← inScope .block (body y)
    return .orIf test yes (← rest no)) := by
  cases y <;> simp only [rest, body]

theorem rest_some (h : isCond y = false) : rest (some y) = (do
    return .orElse (← inScope .block (body y))) := by
  cases y with
  | cond _ _ _ _ => cases h
  | _ => simp only [rest, body]

theorem functions_other {code : Code} (h : isFunction y = false) :
    functions (y :: code) = functions code := by
  cases y with
  | function _ _ _ _ _ => cases h
  | _ => rfl

/-- a result is the last expression; anything else is a statement with more behind it -/
theorem resultStmts_cases (y : AutoLang.Stmt) (ys : List AutoLang.Stmt) :
    (∃ sp e, y = .expr sp e ∧ ys = [] ∧
      resultStmts (y :: ys) = (do return [.result (← expr e)])) ∨
    resultStmts (y :: ys) = (do
      let first ← stmt y
      return first ++ (← resultStmts ys)) := by
  cases ys with
  | nil =>
    cases y with
    | expr sp e => exact .inl ⟨sp, e, rfl, rfl, rfl⟩
    | _ => exact .inr rfl
  | cons y' ys => cases y <;> exact .inr rfl

/-- a failure ends the work, and the scopes stay as they are then -/
theorem run_bind (x : Compile α) (g : α → Compile β) (t : ScopeTree) :
    (x >>= g).run.run t =
      match x.run.run t with
      | (.ok a, t') => (g a).run.run t'
      | (.error u, t') => (.error u, t') := by
  change (ExceptT.bindCont g (x.run.run t).1).run (x.run.run t).2 = _
  obtain ⟨r, t'⟩ := x.run.run t
  cases r <;> rfl

end AutoLang.C.Compile
