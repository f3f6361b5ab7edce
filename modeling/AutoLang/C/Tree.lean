import AutoLang.Tree.Basic
/-! C programs, as far as the compiler writes them. -/

namespace AutoLang.C

/-- a `printf` conversion -/
inductive Conversion where
  | decimal | unsigned | general | character | string
deriving DecidableEq, Repr, Inhabited

/-- constants are those of the source language -/
inductive Expr where
  | literal (value : Literal)
  | name (n : String)
  | unary (op : UnaryOp) (operand : Expr)
  | binary (left : Expr) (op : BinaryOp) (right : Expr)
  | member (object field : Expr)
  /-- an initializer with items -/
  | items (es : List Expr)
  /-- an initializer with named fields -/
  | fields (fs : List (String × Expr))
  | call (callee : Expr) (args : List Expr)
  | printf (conversions : List Conversion) (args : List Expr)
  | index (array position : Expr)
  | choice (test yes no : Expr)
  /-- an expression that is never put in parentheses -/
  | bare (e : Expr)

mutual

inductive Stmt where
  | expr (e : Expr)
  | declare (ty : Ty) (name : String) (value : Expr)
  | block (body : List Stmt)
  | cond (test : Expr) (yes : List Stmt) (rest : Rest)
  /-- a counting loop -/
  | loop (name : String) (start stop : Expr) (inclusive : Bool) (body : List Stmt)
  | leave
  | result (e : Expr)

/-- what follows the first branch of a conditional -/
inductive Rest where
  | done
  | orElse (no : List Stmt)
  | orIf (test : Expr) (yes : List Stmt) (rest : Rest)

end

structure Function where
  result : Option Ty
  name : String
  params : List (Ty × String)
  body : List Stmt

/-- a whole program; `main` is there if any statement stands outside of functions -/
structure Program where
  functions : List Function
  main : Option (List Stmt)

end AutoLang.C
