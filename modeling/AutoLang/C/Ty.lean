import AutoLang.C.Tree
import AutoLang.Scope.Tree
/-! Types in C, and the types of expressions as far as they show without running them. -/

namespace AutoLang

namespace C

/-- the system headers that spelling a type needs -/
def tyHeaders : Ty → List String
  | .mk .byte _ _ => ["<stdint.h>"]
  | .mk .bool _ _ => ["<stdbool.h>"]
  | .mk .array _ (some e) => tyHeaders e
  | .mk .ptr _ (some e) => tyHeaders e
  | _ => []

/-- a type as C spells it -/
def tyName : Ty → String
  | .mk .byte _ _ => "uint8_t"
  | .mk .int _ _ => "int"
  | .mk .uint _ _ => "unsigned int"
  | .mk .float _ _ => "float"
  | .mk .double _ _ => "double"
  | .mk .bool _ _ => "bool"
  | .mk .char _ _ => "char"
  | .mk .str _ _ => "char*"
  | .mk .cstr _ _ => "char*"
  | .mk .array _ (some e) => tyName e ++ "*"
  | .mk .array _ none => "void*"
  | .mk .ptr _ (some e) => tyName e ++ "*"
  | .mk .ptr _ none => "void*"
  | .mk .void _ _ => "void"
  | .mk .unknown _ _ => "void"
  | .mk .user name _ => name.getD "void"

/-- a type with the name it declares; arrays have their brackets behind it -/
def declarator (ty : Ty) (name : String) : String :=
  match ty.kind, ty.elem with
  | .array, some e => tyName e ++ " " ++ name ++ "[]"
  | _, _ => tyName ty ++ " " ++ name

/-- how a value of a type is printed -/
def Conversion.ofTy? (ty : Option Ty) : Conversion :=
  match ty.map Ty.kind with
  | some .str | some .cstr => .string
  | some .float | some .double => .general
  | some .uint => .unsigned
  | some .char => .character
  | _ => .decimal

end C

def Literal.ty : Literal → Ty
  | int _ | i8 _ | i64 _ => .simple .int
  | uint _ => .simple .uint
  | byte _ | u8 _ => .simple .byte
  | double _ => .simple .double
  | bool _ => .simple .bool
  | char _ => .simple .char
  | str _ => .simple .str
  | cstr _ => .simple .cstr
  | nil | null => .ptrTo (.simple .void)

/-- the type of a sum or product: a double takes the other operand with it -/
def C.arithmeticTy? (left right : Option Ty) : Option Ty :=
  if left.any (·.kind == .double) || right.any (·.kind == .double) then some (.simple .double)
  else left.or right

/-- the type of an expression, where names have the types declared for them -/
def Expr.ty? (scopes : ScopeTree) : Expr → Option Ty
  | .literal _ v => some v.ty
  | .ident _ n => scopes.ty? n
  | .ref _ n => scopes.ty? n
  | .unary _ .not _ => some (.simple .bool)
  | .unary _ _ e => e.ty? scopes
  | .binary _ l op r =>
    match op with
    | .eq | .ne | .lt | .gt | .le | .ge => some (.simple .bool)
    | .add | .sub | .mul | .div => C.arithmeticTy? (l.ty? scopes) (r.ty? scopes)
    | .assign | .addAssign | .subAssign | .mulAssign | .divAssign =>
      (l.ty? scopes).or (r.ty? scopes)
    | .dot => none
  | .array _ [] => some (.arrayOf (.simple .int))
  | .array _ (e :: _) => some (.arrayOf ((e.ty? scopes).getD (.simple .int)))
  | .format _ _ => some (.simple .str)
  | .index _ a _ => (a.ty? scopes).bind (·.elem)
  | .cond _ _ y _ => y.ty? scopes
  | .block _ [.expr _ e] => e.ty? scopes
  | _ => none

end AutoLang
