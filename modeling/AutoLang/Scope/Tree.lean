import AutoLang.Scope.Basic
/-! All scopes of a run. A scope that was left stays in the tree and can be looked at; it is found by
its number or its path. Names are looked up from the current scope outward. -/

namespace AutoLang

structure ScopeTree where
  /-- scopes by number; the outermost is number zero -/
  scopes : Array Scope
  current : Nat
  /-- how many scopes were opened; it numbers their names -/
  counter : Nat
  /-- the number of each scope by its path; what was noted last comes first -/
  index : List (String × Nat)
deriving Inhabited

namespace ScopeTree

def empty : ScopeTree := ⟨#[.empty .global "" none], 0, 0, [("", 0)]⟩

def size (t : ScopeTree) : Nat := t.scopes.size

def get (t : ScopeTree) (id : Nat) : Scope := t.scopes.getD id default

def currentScope (t : ScopeTree) : Scope := t.get t.current

/-- the number of the scope with a path -/
def find? (t : ScopeTree) (path : String) : Option Nat := t.index.lookup path

/-- the path of a scope called `name` inside the current one -/
def pathOf (t : ScopeTree) (name : String) : String :=
  let outer := t.currentScope.path
  if outer.isEmpty then name else outer ++ "." ++ name

/-- open a scope inside the current one and make it current -/
def enter (t : ScopeTree) (kind : ScopeKind) : ScopeTree :=
  let label := if kind == .block then "block" else "scope"
  let id := t.scopes.size
  let path := t.pathOf s!"{label}_{t.counter}"
  let opened := t.scopes.modify t.current fun s => { s with kids := s.kids.push id }
  ⟨opened.push (.empty kind path (some t.current)), id, t.counter + 1, (path, id) :: t.index⟩

/-- go back to the scope around the current one; the outermost is never left -/
def exit (t : ScopeTree) : ScopeTree :=
  match t.currentScope.parent with
  | some p => { t with current := p }
  | none => t

/-- a scope and those around it, inner ones first; a scope is opened after those around it, so `id`
steps lead outside -/
def chainFrom (t : ScopeTree) : Nat → Nat → List Nat
  | 0, _ => []
  | fuel + 1, id =>
    id :: match (t.get id).parent with
      | some p => chainFrom t fuel p
      | none => []

def chain (t : ScopeTree) : List Nat := t.chainFrom (t.current + 1) t.current

/-- the nearest value of a name -/
def lookup? (t : ScopeTree) (name : String) : Option Value :=
  t.chain.findSome? fun id => (t.get id).get? name

/-- bind a name in the current scope -/
def define (t : ScopeTree) (name : String) (v : Value) : ScopeTree :=
  { t with scopes := t.scopes.modify t.current (·.put name v) }

/-- the nearest scope that binds a name, else the current one -/
def owner (t : ScopeTree) (name : String) : Nat :=
  (t.chain.find? fun id => (t.get id).has name).getD t.current

/-- give a new value to the nearest binding of a name, or bind it in the current scope -/
def assign (t : ScopeTree) (name : String) (v : Value) : ScopeTree :=
  { t with scopes := t.scopes.modify (t.owner name) (·.put name v) }

/-- declare the type of a name in the current scope -/
def declare (t : ScopeTree) (name : String) (ty : Ty) : ScopeTree :=
  { t with scopes := t.scopes.modify t.current (·.putTy name ty) }

/-- the nearest declared type of a name -/
def ty? (t : ScopeTree) (name : String) : Option Ty :=
  t.chain.findSome? fun id => (t.get id).ty? name

end ScopeTree

end AutoLang
