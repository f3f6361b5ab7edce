import AutoLang.Tree.Basic
import Mathlib

/-! Trees without the places they were read from. Two trees with the same placeless form differ in
places only. -/

namespace AutoLang

mutual

/-- the tree with every place forgotten -/
def Expr.placeless : Expr → Expr
  | .literal _ v => .literal .nowhere v
  | .ident _ n => .ident .nowhere n
  | .ref _ n => .ref .nowhere n
  | .unary _ op e => .unary .nowhere op e.placeless
  | .binary _ l op r => .binary .nowhere l.placeless op r.placeless
  | .range _ a b i => .range .nowhere a.placeless b.placeless i
  | .array _ es => .array .nowhere (placelessExprs es)
  | .pair _ f => .pair .nowhere f.placeless
  | .object _ fs => .object .nowhere (placelessFields fs)
  | .block _ b => .block .nowhere (placelessStmts b)
  | .format _ ps => .format .nowhere (placelessExprs ps)
  | .call _ c as => .call .nowhere c.placeless (placelessExprs as)
  | .index _ a i => .index .nowhere a.placeless i.placeless
  | .cond _ t y n => .cond .nowhere t.placeless y.placeless (placelessExpr? n)

def Field.placeless : Field → Field
  | .mk k e => .mk k e.placeless

def Stmt.placeless : Stmt → Stmt
  | .expr _ e => .expr .nowhere e.placeless
  | .cond _ t y n => .cond .nowhere t.placeless y.placeless (placelessStmt? n)
  | .loop _ n e b => .loop .nowhere n e.placeless b.placeless
  | .store _ n ty e => .store .nowhere n ty e.placeless
  | .block _ b => .block .nowhere (placelessStmts b)
  | .function _ n ps r b => .function .nowhere n ps r (placelessStmts b)
  | .blank _ => .blank .nowhere
  | .leave _ => .leave .nowhere

def placelessExpr? : Option Expr → Option Expr
  | none => none
  | some e => some e.placeless

def placelessStmt? : Option Stmt → Option Stmt
  | none => none
  | some s => some s.placeless

def placelessExprs : List Expr → List Expr
  | [] => []
  | e :: es => e.placeless :: placelessExprs es

def placelessFields : List Field → List Field
  | [] => []
  | f :: fs => f.placeless :: placelessFields fs

def placelessStmts : List Stmt → List Stmt
  | [] => []
  | s :: ss => s.placeless :: placelessStmts ss

end

@[simp] theorem Expr.placeless_withSpan (s : Span) (e : Expr) :
    (e.withSpan s).placeless = e.placeless := by
  cases e <;> rfl

theorem Expr.placeless_unary (s : Span) (op : UnaryOp) (e : Expr) :
    (unary s op e).placeless = unary .nowhere op e.placeless := by
  rw [placeless]

theorem Field.placeless_mk (k : String) (e : Expr) : (mk k e).placeless = mk k e.placeless := by
  rw [placeless]

theorem Stmt.placeless_expr (s : Span) (e : Expr) :
    (expr s e).placeless = expr .nowhere e.placeless := by
  rw [placeless]

theorem placelessExpr?_eq (e : Option Expr) : placelessExpr? e = e.map Expr.placeless := by
  cases e <;> rfl

theorem placelessStmt?_eq (x : Option Stmt) : placelessStmt? x = x.map Stmt.placeless := by
  cases x <;> rfl

theorem placelessExprs_eq (es : List Expr) : placelessExprs es = es.map Expr.placeless := by
  induction es with
  | nil => rfl
  | cons e es ih => rw [placelessExprs, ih, List.map_cons]

theorem placelessFields_eq (fs : List Field) : placelessFields fs = fs.map Field.placeless := by
  induction fs with
  | nil => rfl
  | cons f fs ih => rw [placelessFields, ih, List.map_cons]

theorem placelessStmts_eq (xs : List Stmt) : placelessStmts xs = xs.map Stmt.placeless := by
  induction xs with
  | nil => rfl
  | cons x xs ih => rw [placelessStmts, ih, List.map_cons]

end AutoLang
