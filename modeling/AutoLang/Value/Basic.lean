import AutoLang.Decimal.Significant
import AutoLang.Value.Range
/-! The values of a running program. An error is a value like any other: it is stored, compared and
printed. -/

namespace AutoLang

inductive Value where
  | nil
  /-- what statements and calls without a result give -/
  | void
  | bool (v : Bool)
  | byte (v : UInt8)
  | int (v : Int32)
  | uint (v : UInt32)
  | double (v : Float)
  | char (v : Char)
  | str (v : String)
  | array (items : List Value)
  /-- fields in the order they were written -/
  | object (fields : List (String × Value))
  | range (r : IntRange)
  | error (message : String)
deriving Inhabited

/-- what can go wrong while a program runs -/
inductive EvalError where
  /-- an operator on kinds it is not defined for -/
  | type (operator : String)
  | divisionByZero
  | indexOutOfBounds
  | assignmentTarget
  /-- the value of `null` -/
  | null
deriving DecidableEq, Repr

def EvalError.message : EvalError → String
  | type operator => s!"type error in {operator}"
  | divisionByZero => "division by zero"
  | indexOutOfBounds => "index out of bounds"
  | assignmentTarget => "invalid assignment target"
  | null => "null"

namespace Value

def ofError (e : EvalError) : Value := error e.message

/-- what a condition makes of a value: `nil`, `false`, zero and the empty string are false -/
def isTrue : Value → Bool
  | nil => false
  | bool b => b
  | int n => n != 0
  | uint n => n != 0
  | double d => d != 0.0
  | str s => !s.isEmpty
  | _ => true

def isNil : Value → Bool
  | nil => true
  | _ => false

def isVoid : Value → Bool
  | void => true
  | _ => false

def error? : Value → Option String
  | error message => some message
  | _ => none

/-- the field of an object; of two with one key the first -/
def field? : Value → String → Option Value
  | object fields, key => fields.lookup key
  | _, _ => none

def typeName : Value → String
  | nil => "nil" | void => "void" | bool _ => "bool" | byte _ => "byte" | int _ => "int"
  | uint _ => "uint" | double _ => "double" | char _ => "char" | str _ => "str"
  | array _ => "array" | object _ => "object" | range _ => "range" | error _ => "error"

/-- two upper-case hexadecimal digits -/
def hexByte (b : UInt8) : String :=
  let digits := (Nat.toDigits 16 b.toNat).map Char.toUpper
  String.ofList (Decimal.leftPad 2 digits)

mutual

/-- the text that `print` shows -/
def shown : Value → String
  | nil => "nil"
  | void => "void"
  | bool b => if b then "true" else "false"
  | byte b => "0x" ++ hexByte b
  | int n => toString n.toInt
  | uint n => toString n.toNat ++ "u"
  | double d => Decimal.text d
  | char c => "'" ++ c.toString ++ "'"
  | str s => s
  | array items => "[" ++ ", ".intercalate (shownItems items) ++ "]"
  | object fields => "\x7b" ++ ", ".intercalate (shownFields fields) ++ "\x7d"
  | range r => r.shown
  | error message => message

def shownItems : List Value → List String
  | [] => []
  | v :: vs => shown v :: shownItems vs

def shownFields : List (String × Value) → List String
  | [] => []
  | (k, v) :: fs => (k ++ ": " ++ shown v) :: shownFields fs

end

mutual

/-- equality of values of one kind; values of two kinds differ, and so does a NaN from itself -/
def beq : Value → Value → Bool
  | nil, nil => true
  | void, void => true
  | bool a, bool b => a == b
  | byte a, byte b => a == b
  | int a, int b => a == b
  | uint a, uint b => a == b
  | double a, double b => a == b
  | char a, char b => a == b
  | str a, str b => a == b
  | array a, array b => beqItems a b
  | object a, object b => beqFields a b
  | range a, range b => a == b
  | error a, error b => a == b
  | _, _ => false

def beqItems : List Value → List Value → Bool
  | [], [] => true
  | v :: vs, w :: ws => beq v w && beqItems vs ws
  | _, _ => false

def beqFields : List (String × Value) → List (String × Value) → Bool
  | [], [] => true
  | (k, v) :: fs, (l, w) :: gs => k == l && beq v w && beqFields fs gs
  | _, _ => false

end

instance : BEq Value := ⟨beq⟩

end Value

end AutoLang
