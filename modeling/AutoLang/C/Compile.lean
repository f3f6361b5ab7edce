import AutoLang.C.Ty
import AutoLang.Eval.Basic
/-! From syntax trees to C programs. Functions become C functions, and all other statements at the top
go into `main`. The scopes only keep the types that names were declared with. -/

namespace AutoLang.C

/-- what has no counterpart in C -/
inductive Construct where
  | statementInBlock | longBlock | looseRange | formatString | loopSource | nestedFunction
deriving DecidableEq, Repr

def Construct.text : Construct → String
  | statementInBlock => "statement block in expression position"
  | longBlock => "multi-statement block expression"
  | looseRange => "range outside a for loop"
  | formatString => "format string"
  | loopSource => "for over a non-range iterable"
  | nestedFunction => "nested function"

/-- a construct that cannot be compiled, and where it stands -/
structure Unsupported where
  construct : Construct
  span : Span
deriving DecidableEq, Repr

def Unsupported.message (u : Unsupported) : String :=
  s!"{u.construct.text} is not supported by the c backend (at {u.span.place})"

/-- the scopes outlive a failure -/
abbrev Compile := ExceptT Unsupported (StateM ScopeTree)

namespace Compile

/-- work inside a new scope, which is left also after a failure -/
def inScope {α : Type} (kind : ScopeKind) (work : Compile α) : Compile α := ExceptT.mk do
  modify (·.enter kind)
  let r ← work.run
  modify (·.exit)
  return r

def declareTy (name : String) (ty : Ty) : Compile Unit := modify (·.declare name ty)

mutual

def expr : AutoLang.Expr → Compile Expr
  | .literal _ v => return .literal v
  | .ident _ n => return .name n
  | .ref _ n => return .name n
  | .unary _ op e => return .unary op (← expr e)
  | .binary _ l op r => do
    let left ← expr l
    let right ← expr r
    return if op == .dot then .member left right else .binary left op right
  | .array _ es => return .items (← exprs es)
  | .pair _ (.mk k e) => return .fields [(k, ← expr e)]
  | .object _ fs => return .fields (← fields fs)
  | .call _ c as => do
    if c.name? == some Eval.printName then
      let scopes ← get
      let args ← exprs as
      return .printf (as.map fun e => .ofTy? (e.ty? scopes)) args
    let callee ← expr c
    return .call callee (← exprs as)
  | .index _ a i => do
    let array ← expr a
    return .index array (← expr i)
  | .cond _ t y (some n) => do
    let test ← expr t
    let yes ← expr y
    return .choice test yes (← expr n)
  | .cond _ t y none => do
    let test ← expr t
    return .choice test (← expr y) (.literal .null)
  | .block _ [.expr _ e] => return .bare (← expr e)
  | .block s [_] => throw ⟨.statementInBlock, s⟩
  | .block s _ => throw ⟨.longBlock, s⟩
  | .range s _ _ _ => throw ⟨.looseRange, s⟩
  | .format s _ => throw ⟨.formatString, s⟩

def exprs : List AutoLang.Expr → Compile (List Expr)
  | [] => return []
  | e :: es => do
    let x ← expr e
    return x :: (← exprs es)

def fields : List Field → Compile (List (String × Expr))
  | [] => return []
  | .mk k e :: fs => do
    let x ← expr e
    return (k, x) :: (← fields fs)

end

mutual

/-- a statement; an empty line becomes nothing. A block inside a braced construct gives up its own
braces. -/
def stmt : AutoLang.Stmt → Compile (List Stmt)
  | .expr _ e => return [.expr (← expr e)]
  | .store _ n ty e => do
    let declared := (ty.or (e.ty? (← get))).getD (.simple .int)
    let value ← expr e
    declareTy n declared
    return [.declare declared n value]
  | .block _ b => return [.block (← inScope .block (stmts b))]
  | .cond _ t y no => do
    let test ← expr t
    let yes ← inScope .block (match y with
      | .block _ b => stmts b
      | y => stmt y)
    return [.cond test yes (← rest no)]
  | .loop _ n e body =>
    match e with
    | .range _ a c inclusive => do
      let start ← expr a
      let stop ← expr c
      let inner ← inScope .block do
        declareTy n (.simple .int)
        match body with
        | .block _ b => stmts b
        | body => stmt body
      return [.loop n start stop inclusive inner]
    | e => throw ⟨.loopSource, e.span⟩
  | .function s _ _ _ _ => throw ⟨.nestedFunction, s⟩
  | .leave _ => return [.leave]
  | .blank _ => return []

def stmts : List AutoLang.Stmt → Compile (List Stmt)
  | [] => return []
  | s :: ss => do
    let first ← stmt s
    return first ++ (← stmts ss)

/-- the part of a conditional after its first branch -/
def rest : Option AutoLang.Stmt → Compile Rest
  | none => return .done
  | some (.cond _ t y no) => do
    let test ← expr t
    let yes ← inScope .block (match y with
      | .block _ b => stmts b
      | y => stmt y)
    return .orIf test yes (← rest no)
  | some (.block _ b) => return .orElse (← inScope .block (stmts b))
  | some s => return .orElse (← inScope .block (stmt s))

end

/-- statements of which the last, if it is an expression, gives the result -/
def resultStmts : List AutoLang.Stmt → Compile (List Stmt)
  | [] => return []
  | [.expr _ e] => return [.result (← expr e)]
  | s :: ss => do
    let first ← stmt s
    return first ++ (← resultStmts ss)

/-- a function; a parameter without a type is an integer. With a result type, an expression at the end
is the result. -/
def function (name : String) (params : List Param) (result : Option Ty)
    (body : List AutoLang.Stmt) : Compile Function := do
  let typed := params.map fun p => (p.ty.getD (.simple .int), p.name)
  let inner ← inScope .function do
    typed.forM fun (ty, n) => declareTy n ty
    if result.any (·.kind != .void) then resultStmts body else stmts body
  return ⟨result, name, typed, inner⟩

/-- the functions of a program -/
def functions : Code → Compile (List Function)
  | [] => return []
  | .function _ n ps r b :: ss => do
    let f ← function n ps r b
    return f :: (← functions ss)
  | _ :: ss => functions ss

def isFunction : AutoLang.Stmt → Bool
  | .function _ _ _ _ _ => true
  | _ => false

/-- a whole program, its functions first -/
def program (code : Code) : Compile Program := do
  let fs ← functions code
  let others := code.filter (!isFunction ·)
  if others.isEmpty then return ⟨fs, none⟩
  return ⟨fs, some (← stmts others)⟩

end Compile

end AutoLang.C
