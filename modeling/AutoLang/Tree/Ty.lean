/-! Declared types. Values carry their own types, so a declared type only serves the declaration
and the C output. -/

namespace AutoLang

inductive TyKind where
  | byte | int | uint | float | double | bool | char | str | cstr | array | ptr | void | unknown
  | user
deriving DecidableEq, Repr, Inhabited

namespace TyKind

def name : TyKind → String
  | byte => "byte" | int => "int" | uint => "uint" | float => "float" | double => "double"
  | bool => "bool" | char => "char" | str => "str" | cstr => "cstr" | array => "array"
  | ptr => "ptr" | void => "void" | unknown => "unknown" | user => "user"

/-- the kinds that a source text can name -/
def builtin : List TyKind := [byte, int, uint, float, double, bool, char, str, cstr, void]

end TyKind

/-- `name` belongs to user types, `elem` to arrays and pointers -/
inductive Ty where
  | mk (kind : TyKind) (name : Option String) (elem : Option Ty)
deriving Repr, Inhabited

namespace Ty

def kind : Ty → TyKind
  | mk k _ _ => k

def name : Ty → Option String
  | mk _ n _ => n

def elem : Ty → Option Ty
  | mk _ _ e => e

def simple (kind : TyKind) : Ty := mk kind none none

def user (name : String) : Ty := mk .user (some name) none

def arrayOf (elem : Ty) : Ty := mk .array none (some elem)

def ptrTo (elem : Ty) : Ty := mk .ptr none (some elem)

/-- a type by its name: a built-in one, else one of the user -/
def ofName (name : String) : Ty :=
  match TyKind.builtin.find? (·.name == name) with
  | some kind => simple kind
  | none => user name

def shown : Ty → String
  | mk kind name elem =>
    let label := match kind, name with
      | .user, some n => s!", name: {n}"
      | _, _ => ""
    let inner := match elem with
      | some e => s!", elem: {e.shown}"
      | none => ""
    s!"Type(kind: {kind.name}{label}{inner})"

def beq : Ty → Ty → Bool
  | mk k n none, mk k' n' none => k == k' && n == n'
  | mk k n (some e), mk k' n' (some e') => k == k' && n == n' && e.beq e'
  | _, _ => false

instance : BEq Ty := ⟨beq⟩

end Ty

end AutoLang
