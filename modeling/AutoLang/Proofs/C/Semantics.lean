import AutoLang.C.Tree
import AutoLang.Scope.Basic
import Mathlib

/-! What a C program over `int` variables does, with the scopes of C: every pair of braces is a block, a
variable is in scope from its declarator on, its own initializer included, and a counting loop tests its
condition anew before every round. Whatever C leaves undefined, and whatever is not in this part of C,
is a fault. -/

namespace AutoLang.C

/-- the variables of one block; one without a value was declared but not initialized -/
abbrev Frame := List (String × Option Int32)

/-- the blocks around the current point, inner ones first, and what was printed -/
structure Memory where
  frames : List Frame
  output : String
deriving DecidableEq, Repr

inductive Fault where
  /-- a result that is no `int` -/
  | overflow
  | undeclared (name : String)
  | uninitialized (name : String)
  | redeclared (name : String)
  /-- a construct that this part of C does not have -/
  | foreign
  /-- more rounds of a loop than were granted -/
  | rounds
deriving DecidableEq, Repr

namespace Memory

def start : Memory := ⟨[[]], ""⟩

def push (m : Memory) : Memory := { m with frames := [] :: m.frames }

def pop (m : Memory) : Memory := { m with frames := m.frames.tail }

/-- the innermost variable with a name -/
def find? (m : Memory) (n : String) : Option (Option Int32) := m.frames.findSome? (·.lookup n)

def read (m : Memory) (n : String) : Except Fault Int32 :=
  match m.find? n with
  | none => .error (.undeclared n)
  | some none => .error (.uninitialized n)
  | some (some v) => .ok v

/-- the innermost variable with a name set -/
def setIn (n : String) (v : Int32) : List Frame → List Frame
  | [] => []
  | f :: fs => if (f.lookup n).isSome then bind n (some v) f :: fs else f :: setIn n v fs

def write (m : Memory) (n : String) (v : Int32) : Except Fault Memory :=
  match m.find? n with
  | none => .error (.undeclared n)
  | some _ => .ok { m with frames := setIn n v m.frames }

/-- a new variable in the innermost block, without a value -/
def declare (m : Memory) (n : String) : Except Fault Memory :=
  match m.frames with
  | [] => .error .foreign
  | f :: fs =>
    if (f.lookup n).isSome then .error (.redeclared n)
    else .ok { m with frames := bind n none f :: fs }

def print (m : Memory) (text : String) : Memory := { m with output := m.output ++ text }

end Memory

/-- an integer as an `int` -/
def toInt (n : Int) : Except Fault Int32 :=
  if -2147483648 ≤ n ∧ n ≤ 2147483647 then .ok (Int32.ofInt n) else .error .overflow

def ofBool (b : Bool) : Int32 := if b then 1 else 0

def arithmetic (op : BinaryOp) (a b : Int32) : Except Fault Int32 :=
  match op with
  | .add => toInt (a.toInt + b.toInt)
  | .sub => toInt (a.toInt - b.toInt)
  | .mul => toInt (a.toInt * b.toInt)
  | .eq => .ok (ofBool (a == b))
  | .ne => .ok (ofBool (a != b))
  | .lt => .ok (ofBool (a < b))
  | .gt => .ok (ofBool (a > b))
  | .le => .ok (ofBool (a ≤ b))
  | .ge => .ok (ofBool (a ≥ b))
  | _ => .error .foreign

/-- the value of an expression. A constant is written with its sign before its digits, so the digits
must fit. -/
def value (m : Memory) : Expr → Except Fault Int32
  | .literal (.int v) => if v = Int32.minValue then .error .overflow else .ok v
  | .name n => m.read n
  | .binary l op r => do
    let a ← value m l
    let b ← value m r
    arithmetic op a b
  | _ => .error .foreign

def values (m : Memory) : List Expr → Except Fault (List Int32)
  | [] => return []
  | e :: es => do
    let v ← value m e
    let vs ← values m es
    return v :: vs

/-- what `printf` makes of its conversions, each for an `int`, with spaces between them -/
def formatted (conversions : List Conversion) (vs : List Int32) : Except Fault String :=
  if conversions = vs.map fun _ => .decimal then
    .ok (" ".intercalate (vs.map fun v => toString v.toInt) ++ "\n")
  else .error .foreign

/-- rounds as long as `test` holds -/
def iterate (test : Memory → Except Fault Bool) (round : Memory → Except Fault Memory) :
    Nat → Memory → Except Fault Memory
  | 0, _ => .error .rounds
  | rounds + 1, m => do
    if ← test m then iterate test round rounds (← round m) else return m

/-- the condition of a counting loop -/
def holds (n : String) (stop : Expr) (inclusive : Bool) (m : Memory) : Except Fault Bool := do
  let v ← m.read n
  let last ← value m stop
  return if inclusive then v ≤ last else v < last

def increment (n : String) (m : Memory) : Except Fault Memory := do
  let v ← m.read n
  let next ← toInt (v.toInt + 1)
  m.write n next

mutual

/-- run a statement; no loop may make more than `rounds` tests -/
@[simp]
def runStmt (rounds : Nat) : Stmt → Memory → Except Fault Memory
  | .expr (.binary (.name n) .assign e), m => do
    let v ← value m e
    m.write n v
  | .expr (.printf conversions args), m => do
    let vs ← values m args
    let text ← formatted conversions vs
    return m.print text
  | .declare (.mk .int _ _) n e, m => do
    let m ← m.declare n
    let v ← value m e
    m.write n v
  | .block b, m => do return (← runStmts rounds b m.push).pop
  | .cond t y r, m => do
    if (← value m t) ≠ 0 then return (← runStmts rounds y m.push).pop else runRest rounds r m
  | .loop n a b inclusive body, m => do
    let m ← m.push.declare n
    let first ← value m a
    let m ← m.write n first
    let m ← iterate (holds n b inclusive)
      (fun m => do increment n (← runStmts rounds body m.push).pop) rounds m
    return m.pop
  | _, _ => .error .foreign

@[simp]
def runStmts (rounds : Nat) : List Stmt → Memory → Except Fault Memory
  | [], m => return m
  | s :: ss, m => do runStmts rounds ss (← runStmt rounds s m)

@[simp]
def runRest (rounds : Nat) : Rest → Memory → Except Fault Memory
  | .done, m => return m
  | .orElse b, m => do return (← runStmts rounds b m.push).pop
  | .orIf t y r, m => do
    if (← value m t) ≠ 0 then return (← runStmts rounds y m.push).pop else runRest rounds r m

end

section Sequences

variable {rounds : Nat} {m : Memory}

theorem runStmts_singleton (s : Stmt) : runStmts rounds [s] m = runStmt rounds s m := by
  rw [runStmts]
  change (runStmt rounds s m >>= pure) = _
  exact bind_pure _

theorem runStmts_append {ss ss' : List Stmt} : runStmts rounds (ss ++ ss') m =
    (do runStmts rounds ss' (← runStmts rounds ss m)) := by
  induction ss generalizing m with
  | nil => rfl
  | cons s ss ih =>
    rw [List.cons_append, runStmts, runStmts, bind_assoc]
    exact bind_congr fun m => ih

end Sequences

/-- what `main` prints -/
def printed (rounds : Nat) (main : List Stmt) : Except Fault String := do
  return (← runStmts rounds main .start).output

end AutoLang.C
