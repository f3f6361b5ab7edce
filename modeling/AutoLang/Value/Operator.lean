import AutoLang.Tree.Operator
import AutoLang.Value.Basic
/-! Operators on values. Arithmetic takes two numbers of one kind, or an integer with a double;
integers wrap around. Order is defined within a kind of number only. -/

namespace AutoLang

namespace Value

/-- an integer as a double -/
def toDouble (n : Int32) : Float := Float.ofInt n.toInt

/-- an arithmetic operator in its three kinds -/
structure Arithmetic where
  symbol : String
  ints : Int32 → Int32 → Int32
  uints : UInt32 → UInt32 → UInt32
  doubles : Float → Float → Float

def Arithmetic.apply (op : Arithmetic) : Value → Value → Value
  | int a, int b => int (op.ints a b)
  | uint a, uint b => uint (op.uints a b)
  | double a, double b => double (op.doubles a b)
  | int a, double b => double (op.doubles (toDouble a) b)
  | double a, int b => double (op.doubles a (toDouble b))
  | _, _ => ofError (.type op.symbol)

/-- numbers add, strings join -/
def add : Value → Value → Value
  | str a, str b => str (a ++ b)
  | a, b => Arithmetic.apply ⟨"+", (· + ·), (· + ·), (· + ·)⟩ a b

def sub (a b : Value) : Value := Arithmetic.apply ⟨"-", (· - ·), (· - ·), (· - ·)⟩ a b

def mul (a b : Value) : Value := Arithmetic.apply ⟨"*", (· * ·), (· * ·), (· * ·)⟩ a b

/-- whether arithmetic is defined on two values -/
def arithmeticPair : Value → Value → Bool
  | int _, int _ | uint _, uint _ | double _, double _ | int _, double _ | double _, int _ => true
  | _, _ => false

def isZero : Value → Bool
  | int n => n == 0
  | uint n => n == 0
  | double d => d == 0.0
  | _ => false

/-- division toward zero; no number, not even a double, is divided by zero -/
def div (a b : Value) : Value :=
  if arithmeticPair a b && isZero b then ofError .divisionByZero
  else Arithmetic.apply ⟨"/", (· / ·), (· / ·), (· / ·)⟩ a b

/-- equality as a program sees it: an integer and a double are compared as numbers -/
def equal : Value → Value → Bool
  | int a, double b => toDouble a == b
  | double a, int b => a == toDouble b
  | a, b => a == b

/-- an order in its three kinds -/
structure Order where
  symbol : String
  ints : Int32 → Int32 → Bool
  uints : UInt32 → UInt32 → Bool
  doubles : Float → Float → Bool

def Order.apply (op : Order) : Value → Value → Value
  | int a, int b => bool (op.ints a b)
  | uint a, uint b => bool (op.uints a b)
  | double a, double b => bool (op.doubles a b)
  | _, _ => ofError (.type op.symbol)

def lt (a b : Value) : Value :=
  Order.apply ⟨"<", (decide <| · < ·), (decide <| · < ·), (decide <| · < ·)⟩ a b

def gt (a b : Value) : Value :=
  Order.apply ⟨">", (decide <| · > ·), (decide <| · > ·), (decide <| · > ·)⟩ a b

def le (a b : Value) : Value :=
  Order.apply ⟨"<=", (decide <| · ≤ ·), (decide <| · ≤ ·), (decide <| · ≤ ·)⟩ a b

def ge (a b : Value) : Value :=
  Order.apply ⟨">=", (decide <| · ≥ ·), (decide <| · ≥ ·), (decide <| · ≥ ·)⟩ a b

end Value

/-- the result of an operator on two values; assignments and member access look at the operands'
syntax, so they have none here -/
def BinaryOp.apply (op : BinaryOp) (a b : Value) : Value :=
  match op with
  | .add => a.add b
  | .sub => a.sub b
  | .mul => a.mul b
  | .div => a.div b
  | .eq => .bool (a.equal b)
  | .ne => .bool (!a.equal b)
  | .lt => a.lt b
  | .gt => a.gt b
  | .le => a.le b
  | .ge => a.ge b
  | .assign | .addAssign | .subAssign | .mulAssign | .divAssign | .dot => .nil

def UnaryOp.apply (op : UnaryOp) (v : Value) : Value :=
  match op, v with
  | .neg, .int n => .int (-n)
  | .neg, .double d => .double (-d)
  | .neg, _ => .ofError (.type "unary -")
  | .not, v => .bool (!v.isTrue)
  | .plus, .int n => .int n
  | .plus, .uint n => .uint n
  | .plus, .byte b => .byte b
  | .plus, .double d => .double d
  | .plus, _ => .ofError (.type "unary +")

end AutoLang
