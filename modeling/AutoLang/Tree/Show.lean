import AutoLang.Decimal.Significant
import AutoLang.Tree.Basic
/-! Trees as text. A node is its name, then its fields in parentheses if it has any, then its
children in braces if it has any. -/

namespace AutoLang

namespace Literal

/-- the node name of a constant -/
def nodeName : Literal → String
  | byte _ => "expr.byte" | int _ => "expr.int" | uint _ => "expr.uint" | i8 _ => "expr.i8"
  | u8 _ => "expr.u8" | i64 _ => "expr.i64" | double _ => "expr.double" | bool _ => "expr.bool"
  | char _ => "expr.char" | str _ => "expr.str" | cstr _ => "expr.cstr" | nil => "expr.nil"
  | null => "expr.null"

/-- the value field of a constant; `nil` and `null` have none -/
def valueText? : Literal → Option String
  | byte v => some (toString v.toNat)
  | int v => some (toString v.toInt)
  | uint v => some (toString v.toNat)
  | i8 v => some (toString v.toInt)
  | u8 v => some (toString v.toNat)
  | i64 v => some (toString v.toInt)
  | double v => some (Decimal.text v)
  | bool v => some (if v then "true" else "false")
  | char v => some ("'" ++ v.toString ++ "'")
  | str v => some ("\"" ++ v ++ "\"")
  | cstr v => some ("\"" ++ v ++ "\"")
  | nil => none
  | null => none

end Literal

def Expr.nodeName : Expr → String
  | literal _ v => v.nodeName
  | ident _ _ => "expr.ident"
  | ref _ _ => "expr.ref"
  | unary _ _ _ => "expr.unary"
  | binary _ _ _ _ => "expr.binary"
  | range _ _ _ _ => "expr.range"
  | array _ _ => "expr.array"
  | pair _ _ => "expr.pair"
  | object _ _ => "expr.object"
  | block _ _ => "expr.block"
  | format _ _ => "expr.fstr"
  | call _ _ _ => "expr.call"
  | index _ _ _ => "expr.index"
  | cond _ _ _ _ => "expr.if"

def Stmt.nodeName : Stmt → String
  | expr _ _ => "stmt.expr"
  | cond _ _ _ _ => "stmt.if"
  | loop _ _ _ _ => "stmt.for"
  | store _ _ _ _ => "stmt.store"
  | block _ _ => "stmt.block"
  | function _ _ _ _ _ => "stmt.fn"
  | blank _ => "stmt.empty_line"
  | leave _ => "stmt.break"

namespace Show

def labeled (label text : String) : String := label ++ ": " ++ text

def node (name : String) (fields : List (String × String)) (children : List String) : String :=
  let inner := fields.map fun (k, v) => labeled k v
  name
    ++ (if fields.isEmpty then "" else "(" ++ ", ".intercalate inner ++ ")")
    ++ (if children.isEmpty then "" else " \x7b " ++ ", ".intercalate children ++ " \x7d")

def literal (v : Literal) : String :=
  node v.nodeName (v.valueText?.toList.map (("value", ·))) []

def param (p : Param) : String :=
  match p.ty with
  | some ty => labeled p.name ty.shown
  | none => p.name

mutual

def expr : Expr → String
  | .literal _ v => literal v
  | .ident _ n => node "expr.ident" [("name", n)] []
  | .ref _ n => node "expr.ref" [("name", n)] []
  | .unary _ op e => node "expr.unary" [("op", op.symbol)] [expr e]
  | .binary _ l op r => node "expr.binary" [("op", op.symbol)] [expr l, expr r]
  | .range _ a b inclusive =>
    node "expr.range" [("eq", if inclusive then "true" else "false")]
      [labeled "start" (expr a), labeled "end" (expr b)]
  | .array _ es => node "expr.array" [("count", toString es.length)] (exprs es)
  | .pair _ (.mk k v) => node "expr.pair" [("key", "\"" ++ k ++ "\"")] [expr v]
  | .object _ fs => node "expr.object" [("count", toString fs.length)] (fields fs)
  | .block _ b => node "expr.block" [("count", toString b.length)] (stmts b)
  | .format _ ps => node "expr.fstr" [("count", toString ps.length)] (exprs ps)
  | .call _ c as =>
    node "expr.call" [("args", toString as.length)] (labeled "callee" (expr c) :: exprs as)
  | .index _ a i => node "expr.index" [] [labeled "array" (expr a), labeled "index" (expr i)]
  | .cond _ t y no =>
    let last := match no with
      | some n => [labeled "else" (expr n)]
      | none => []
    node "expr.if" [] (labeled "cond" (expr t) :: labeled "then" (expr y) :: last)

def exprs : List Expr → List String
  | [] => []
  | e :: es => expr e :: exprs es

def fields : List Field → List String
  | [] => []
  | .mk k v :: fs => labeled ("\"" ++ k ++ "\"") (expr v) :: fields fs

def stmt : Stmt → String
  | .expr _ e => node "stmt.expr" [] [expr e]
  | .cond _ t y no =>
    let last := match no with
      | some n => [labeled "else" (stmt n)]
      | none => []
    node "stmt.if" [] (labeled "cond" (expr t) :: labeled "then" (stmt y) :: last)
  | .loop _ n e b => node "stmt.for" [("var", n)] [labeled "iter" (expr e), labeled "body" (stmt b)]
  | .store _ n ty e =>
    node "stmt.store" (("name", n) :: (ty.map fun t => ("type", t.shown)).toList) [expr e]
  | .block _ b => node "stmt.block" [("count", toString b.length)] (stmts b)
  | .function _ n ps result b =>
    let head := [("name", n), ("params", "[" ++ ", ".intercalate (ps.map param) ++ "]")]
    node "stmt.fn" (head ++ (result.map fun t => ("ret", t.shown)).toList) (stmts b)
  | .blank _ => "stmt.empty_line"
  | .leave _ => "stmt.break"

def stmts : List Stmt → List String
  | [] => []
  | s :: ss => stmt s :: stmts ss

end

def code (c : Code) : String := node "Code" [("count", toString c.length)] (stmts c)

end Show

end AutoLang
