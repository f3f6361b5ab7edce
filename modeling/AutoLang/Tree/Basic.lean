import AutoLang.Span
import AutoLang.Tree.Operator
import AutoLang.Tree.Ty
/-! Syntax trees. Every node holds the stretch of text it was read from. -/

namespace AutoLang

/-- a constant; doubles stand for every number with a point or a floating suffix -/
inductive Literal where
  | byte (v : UInt8)
  | int (v : Int32)
  | uint (v : UInt32)
  | i8 (v : Int8)
  | u8 (v : UInt8)
  | i64 (v : Int64)
  | double (v : Float)
  | bool (v : Bool)
  | char (v : Char)
  | str (v : String)
  | cstr (v : String)
  | nil
  | null
deriving Repr, Inhabited

/-- a parameter of a function -/
structure Param where
  name : String
  ty : Option Ty
deriving Repr, Inhabited

mutual

inductive Expr where
  | literal (span : Span) (value : Literal)
  | ident (span : Span) (name : String)
  | ref (span : Span) (name : String)
  | unary (span : Span) (op : UnaryOp) (operand : Expr)
  | binary (span : Span) (left : Expr) (op : BinaryOp) (right : Expr)
  | range (span : Span) (start stop : Expr) (inclusive : Bool)
  | array (span : Span) (items : List Expr)
  | pair (span : Span) (field : Field)
  | object (span : Span) (fields : List Field)
  | block (span : Span) (body : List Stmt)
  /-- a format string: string literals for its text, and the interpolated expressions -/
  | format (span : Span) (parts : List Expr)
  | call (span : Span) (callee : Expr) (args : List Expr)
  | index (span : Span) (array position : Expr)
  | cond (span : Span) (test yes : Expr) (no : Option Expr)

/-- an entry of an object -/
inductive Field where
  | mk (key : String) (value : Expr)

inductive Stmt where
  | expr (span : Span) (value : Expr)
  | cond (span : Span) (test : Expr) (yes : Stmt) (no : Option Stmt)
  | loop (span : Span) (name : String) (source : Expr) (body : Stmt)
  | store (span : Span) (name : String) (ty : Option Ty) (value : Expr)
  | block (span : Span) (body : List Stmt)
  /-- a function; evaluation passes it over -/
  | function (span : Span) (name : String) (params : List Param) (result : Option Ty)
      (body : List Stmt)
  | blank (span : Span)
  | leave (span : Span)

end

instance : Inhabited Expr := ⟨.literal .nowhere .nil⟩

instance : Inhabited Stmt := ⟨.blank .nowhere⟩

def Field.key : Field → String
  | mk k _ => k

def Field.value : Field → Expr
  | mk _ v => v

/-- a whole program -/
abbrev Code := List Stmt

namespace Expr

def span : Expr → Span
  | literal s _ | ident s _ | ref s _ | unary s _ _ | binary s _ _ _ | range s _ _ _ | array s _
  | pair s _ | object s _ | block s _ | format s _ | call s _ _ | index s _ _ | cond s _ _ _ => s

/-- the same node at another place -/
def withSpan (s : Span) : Expr → Expr
  | literal _ v => literal s v
  | ident _ n => ident s n
  | ref _ n => ref s n
  | unary _ op e => unary s op e
  | binary _ l op r => binary s l op r
  | range _ a b i => range s a b i
  | array _ es => array s es
  | pair _ f => pair s f
  | object _ fs => object s fs
  | block _ b => block s b
  | format _ ps => format s ps
  | call _ c as => call s c as
  | index _ a i => index s a i
  | cond _ t y n => cond s t y n

def nil (s : Span) : Expr := literal s .nil

end Expr

def Stmt.span : Stmt → Span
  | expr s _ | cond s _ _ _ | loop s _ _ _ | store s _ _ _ | block s _ | function s _ _ _ _
  | blank s | leave s => s

end AutoLang
