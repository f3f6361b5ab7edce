import AutoLang.Tree.Ty
import AutoLang.Value.Basic
/-! One scope: where it stands in the tree of scopes, and the names it binds. -/

namespace AutoLang

/-- what opens a scope -/
inductive ScopeKind where
  | global | module | type | function | block
deriving DecidableEq, Repr, Inhabited

def ScopeKind.name : ScopeKind → String
  | global => "global"
  | module => "mod"
  | type => "type"
  | function => "fn"
  | block => "block"

/-- the binding of a name replaced, or added at the end -/
def bind {α : Type} (name : String) (a : α) : List (String × α) → List (String × α)
  | [] => [(name, a)]
  | (n, b) :: rest => if n == name then (n, a) :: rest else (n, b) :: bind name a rest

structure Scope where
  kind : ScopeKind
  /-- the names of the scopes around it and its own, with points between them -/
  path : String
  parent : Option Nat
  /-- the scopes opened inside it, oldest first -/
  kids : Array Nat
  /-- values by name, oldest first -/
  vars : List (String × Value)
  /-- declared types by name, oldest first -/
  types : List (String × Ty)
deriving Inhabited

namespace Scope

def empty (kind : ScopeKind) (path : String) (parent : Option Nat) : Scope :=
  ⟨kind, path, parent, #[], [], []⟩

def get? (s : Scope) (name : String) : Option Value := s.vars.lookup name

def has (s : Scope) (name : String) : Bool := (s.get? name).isSome

def put (s : Scope) (name : String) (v : Value) : Scope := { s with vars := bind name v s.vars }

def ty? (s : Scope) (name : String) : Option Ty := s.types.lookup name

def putTy (s : Scope) (name : String) (t : Ty) : Scope := { s with types := bind name t s.types }

end Scope

end AutoLang
