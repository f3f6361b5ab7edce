import AutoLang.Tree.Basic
/-! Equality of trees, places included. Doubles are compared as numbers, so a tree that holds a NaN
does not equal itself. -/

namespace AutoLang

def Literal.beq : Literal → Literal → Bool
  | byte v, byte w => v == w
  | int v, int w => v == w
  | uint v, uint w => v == w
  | i8 v, i8 w => v == w
  | u8 v, u8 w => v == w
  | i64 v, i64 w => v == w
  | double v, double w => v == w
  | bool v, bool w => v == w
  | char v, char w => v == w
  | str v, str w => v == w
  | cstr v, cstr w => v == w
  | nil, nil => true
  | null, null => true
  | _, _ => false

def Param.beq (p q : Param) : Bool := p.name == q.name && p.ty == q.ty

instance : BEq Param := ⟨Param.beq⟩

mutual

def Expr.beq : Expr → Expr → Bool
  | .literal s v, .literal t w => s == t && v.beq w
  | .ident s n, .ident t m => s == t && n == m
  | .ref s n, .ref t m => s == t && n == m
  | .unary s op e, .unary t op' f => s == t && op == op' && e.beq f
  | .binary s l op r, .binary t l' op' r' => s == t && l.beq l' && op == op' && r.beq r'
  | .range s a b i, .range t a' b' i' => s == t && a.beq a' && b.beq b' && i == i'
  | .array s es, .array t fs => s == t && exprsBeq es fs
  | .pair s (.mk k e), .pair t (.mk l f) => s == t && k == l && e.beq f
  | .object s es, .object t fs => s == t && fieldsBeq es fs
  | .block s b, .block t c => s == t && stmtsBeq b c
  | .format s es, .format t fs => s == t && exprsBeq es fs
  | .call s c es, .call t d fs => s == t && c.beq d && exprsBeq es fs
  | .index s a i, .index t b j => s == t && a.beq b && i.beq j
  | .cond s c y (some n), .cond t d z (some m) => s == t && c.beq d && y.beq z && n.beq m
  | .cond s c y none, .cond t d z none => s == t && c.beq d && y.beq z
  | _, _ => false

def exprsBeq : List Expr → List Expr → Bool
  | [], [] => true
  | e :: es, f :: fs => e.beq f && exprsBeq es fs
  | _, _ => false

def fieldsBeq : List Field → List Field → Bool
  | [], [] => true
  | .mk k e :: es, .mk l f :: fs => k == l && e.beq f && fieldsBeq es fs
  | _, _ => false

def Stmt.beq : Stmt → Stmt → Bool
  | .expr s e, .expr t f => s == t && e.beq f
  | .cond s c y (some n), .cond t d z (some m) => s == t && c.beq d && y.beq z && n.beq m
  | .cond s c y none, .cond t d z none => s == t && c.beq d && y.beq z
  | .loop s n e b, .loop t m f c => s == t && n == m && e.beq f && b.beq c
  | .store s n ty e, .store t m uy f => s == t && n == m && ty == uy && e.beq f
  | .block s b, .block t c => s == t && stmtsBeq b c
  | .function s n ps r b, .function t m qs q c =>
    s == t && n == m && ps == qs && r == q && stmtsBeq b c
  | .blank s, .blank t => s == t
  | .leave s, .leave t => s == t
  | _, _ => false

def stmtsBeq : List Stmt → List Stmt → Bool
  | [], [] => true
  | s :: ss, t :: ts => s.beq t && stmtsBeq ss ts
  | _, _ => false

end

instance : BEq Expr := ⟨Expr.beq⟩

instance : BEq Stmt := ⟨Stmt.beq⟩

def Code.beq (c d : Code) : Bool := stmtsBeq c d

end AutoLang
