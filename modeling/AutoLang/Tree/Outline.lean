import AutoLang.Tree.Show
/-! The nodes of a tree in reading order, each with its place. -/

namespace AutoLang.Outline

/-- one node: its name and where it stands -/
def entry (name : String) (s : Span) : String := name ++ " " ++ s.exact

mutual

def expr (e : Expr) : List String :=
  entry e.nodeName e.span :: match e with
  | .literal _ _ => []
  | .ident _ _ => []
  | .ref _ _ => []
  | .unary _ _ e => expr e
  | .binary _ l _ r => expr l ++ expr r
  | .range _ a b _ => expr a ++ expr b
  | .array _ es => exprs es
  | .pair _ (.mk _ v) => expr v
  | .object _ fs => fields fs
  | .block _ b => stmts b
  | .format _ ps => exprs ps
  | .call _ c as => expr c ++ exprs as
  | .index _ a i => expr a ++ expr i
  | .cond _ t y (some n) => expr t ++ expr y ++ expr n
  | .cond _ t y none => expr t ++ expr y

def exprs : List Expr → List String
  | [] => []
  | e :: es => expr e ++ exprs es

def fields : List Field → List String
  | [] => []
  | .mk _ v :: fs => expr v ++ fields fs

def stmt (s : Stmt) : List String :=
  entry s.nodeName s.span :: match s with
  | .expr _ e => expr e
  | .cond _ t y (some n) => expr t ++ stmt y ++ stmt n
  | .cond _ t y none => expr t ++ stmt y
  | .loop _ _ e b => expr e ++ stmt b
  | .store _ _ _ e => expr e
  | .block _ b => stmts b
  | .function _ _ _ _ b => stmts b
  | .blank _ => []
  | .leave _ => []

def stmts : List Stmt → List String
  | [] => []
  | s :: ss => stmt s ++ stmts ss

end

end AutoLang.Outline
