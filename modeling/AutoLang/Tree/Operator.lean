import AutoLang.Token.Kind
/-! Operators. The range operators are not among them: a range is a node of its own. -/

namespace AutoLang

inductive BinaryOp where
  | add | sub | mul | div
  | eq | ne | lt | gt | le | ge
  | assign | addAssign | subAssign | mulAssign | divAssign
  | dot
deriving DecidableEq, Repr, Inhabited

namespace BinaryOp

def ofToken? : TokenKind → Option BinaryOp
  | .plus => some add | .minus => some sub | .star => some mul | .slash => some div
  | .equal => some eq | .notEqual => some ne | .less => some lt | .greater => some gt
  | .lessEq => some le | .greaterEq => some ge
  | .assign => some assign | .plusAssign => some addAssign | .minusAssign => some subAssign
  | .starAssign => some mulAssign | .slashAssign => some divAssign
  | .dot => some dot
  | _ => none

def symbol : BinaryOp → String
  | add => "+" | sub => "-" | mul => "*" | div => "/"
  | eq => "==" | ne => "!=" | lt => "<" | gt => ">" | le => "<=" | ge => ">="
  | assign => "=" | addAssign => "+=" | subAssign => "-=" | mulAssign => "*=" | divAssign => "/="
  | dot => "."

def all : List BinaryOp :=
  [add, sub, mul, div, eq, ne, lt, gt, le, ge, assign, addAssign, subAssign, mulAssign, divAssign,
    dot]

def ofSymbol? (s : String) : Option BinaryOp := all.find? (·.symbol == s)

/-- the operator that a compound assignment applies before it stores -/
def compoundBase? : BinaryOp → Option BinaryOp
  | addAssign => some add
  | subAssign => some sub
  | mulAssign => some mul
  | divAssign => some div
  | _ => none

def isAssignment (op : BinaryOp) : Bool := op == assign || op.compoundBase?.isSome

end BinaryOp

inductive UnaryOp where
  | neg | not | plus
deriving DecidableEq, Repr, Inhabited

namespace UnaryOp

def ofToken? : TokenKind → Option UnaryOp
  | .minus => some neg
  | .bang => some not
  | .plus => some plus
  | _ => none

def symbol : UnaryOp → String
  | neg => "-"
  | not => "!"
  | plus => "+"

def ofSymbol? (s : String) : Option UnaryOp := [neg, not, plus].find? (·.symbol == s)

end UnaryOp

end AutoLang
