import AutoLang.Scope.Tree
/-! What a running program changes: its scopes, the text it printed, and whether it is leaving a
loop. -/

namespace AutoLang

structure EvalState where
  scopes : ScopeTree
  output : String
  /-- `break` was met and no loop has taken it yet -/
  leaving : Bool
deriving Inhabited

abbrev Eval := StateM EvalState

namespace Eval

/-- the value of a name; an unbound one has none -/
def lookup? (name : String) : Eval (Option Value) := do return (← get).scopes.lookup? name

def assign (name : String) (v : Value) : Eval Unit :=
  modify fun s => { s with scopes := s.scopes.assign name v }

def define (name : String) (v : Value) : Eval Unit :=
  modify fun s => { s with scopes := s.scopes.define name v }

def declare (name : String) (ty : Ty) : Eval Unit :=
  modify fun s => { s with scopes := s.scopes.declare name ty }

/-- print one line -/
def print (line : String) : Eval Unit :=
  modify fun s => { s with output := s.output ++ line ++ "\n" }

def leave : Eval Unit := modify fun s => { s with leaving := true }

def isLeaving : Eval Bool := do return (← get).leaving

/-- whether `break` was met; it is taken by asking -/
def takeLeave : Eval Bool := do
  let s ← get
  set { s with leaving := false }
  return s.leaving

/-- run inside a new block scope -/
def inBlock (body : Eval Value) : Eval Value := do
  modify fun s => { s with scopes := s.scopes.enter .block }
  let v ← body
  modify fun s => { s with scopes := s.scopes.exit }
  return v

/-- run `body` with `name` at the members of a range from position `i` on, until it leaves; the value
is that of the last round -/
def overRange (name : String) (r : IntRange) (body : Eval Value) :
    (count i : Nat) → (last : Value) → Eval Value
  | 0, _, last => return last
  | count + 1, i, _ => do
    assign name (.int (r.get i))
    let v ← body
    if ← takeLeave then return v
    overRange name r body count (i + 1) v

/-- run `body` with `name` at each item, until it leaves; the value is that of the last round -/
def overItems (name : String) (body : Eval Value) : List Value → (last : Value) → Eval Value
  | [], last => return last
  | item :: items, _ => do
    assign name item
    let v ← body
    if ← takeLeave then return v
    overItems name body items v

end Eval

end AutoLang
