import AutoLang.Eval.State
import AutoLang.Tree.Basic
import AutoLang.Value.Operator
/-! Running a tree. Every expression and statement has a value; an error is a value too, so nothing
stops a run but `break`, which ends the statements and the loop around it. -/

namespace AutoLang

def Literal.value : Literal → Value
  | byte v => .byte v
  | int v => .int v
  | uint v => .uint v
  | i8 v => .int (Int32.ofInt v.toInt)
  | u8 v => .byte v
  | i64 v => .int (Int32.ofInt v.toInt)
  | double v => .double v
  | bool v => .bool v
  | char v => .char v
  | str v => .str v
  | cstr v => .str v
  | nil => .nil
  | null => .ofError .null

/-- the name of an identifier -/
def Expr.name? : Expr → Option String
  | ident _ n => some n
  | _ => none

namespace Eval

/-- the one function there is -/
def printName : String := "print"

def rangeOf (a b : Value) (inclusive : Bool) : Value :=
  match a, b with
  | .int start, .int stop => .range ⟨start, stop, inclusive⟩
  | _, _ => .ofError (.type "range")

/-- an item of an array by its position from zero; anything else has none -/
def itemOf (array position : Value) : Value :=
  match array, position with
  | .array items, .int i =>
    if i < 0 then .ofError .indexOutOfBounds
    else items[i.toInt.toNat]?.getD (.ofError .indexOutOfBounds)
  | _, _ => .nil

mutual

def expr : Expr → Eval Value
  | .literal _ v => return v.value
  | .ident _ n => return (← lookup? n).getD .nil
  | .ref _ n => return (← lookup? n).getD .nil
  | .unary _ op e => return op.apply (← expr e)
  | .binary _ l op r =>
    match op with
    | .assign => do
      let v ← expr r
      match l.name? with
      | some n =>
        assign n v
        return v
      | none => return .ofError .assignmentTarget
    | .dot => do
      let v ← expr l
      return (r.name?.bind v.field?).getD .nil
    | op =>
      match op.compoundBase? with
      | some base =>
        match l.name? with
        | some n => do
          let v ← expr r
          let result := base.apply ((← lookup? n).getD .nil) v
          assign n result
          return result
        | none => return .ofError .assignmentTarget
      | none => do
        let a ← expr l
        let b ← expr r
        return op.apply a b
  | .range _ a b inclusive => do
    let start ← expr a
    let stop ← expr b
    return rangeOf start stop inclusive
  | .array _ es => return .array (← exprs es)
  | .pair _ (.mk k e) => return .object [(k, ← expr e)]
  | .object _ fs => return .object (← fields fs)
  | .block _ b => sequence b .nil
  | .format _ ps => return .str (String.join ((← exprs ps).map (·.shown)))
  | .call _ c as => do
    -- a variable called `print` hides the function
    let unbound := c.name? == some printName && (← lookup? printName).isNone
    let callee ← expr c
    let args ← exprs as
    if unbound || callee == .str printName then
      print (" ".intercalate (args.map (·.shown)))
      return .void
    else return .nil
  | .index _ a i => do
    let array ← expr a
    let position ← expr i
    return itemOf array position
  | .cond _ t y (some n) => do
    if (← expr t).isTrue then expr y else expr n
  | .cond _ t y none => do
    if (← expr t).isTrue then expr y else return .void

def exprs : List Expr → Eval (List Value)
  | [] => return []
  | e :: es => do
    let v ← expr e
    let vs ← exprs es
    return v :: vs

def fields : List Field → Eval (List (String × Value))
  | [] => return []
  | .mk k e :: fs => do
    let v ← expr e
    let vs ← fields fs
    return (k, v) :: vs

def stmt : Stmt → Eval Value
  | .expr _ e => expr e
  | .store _ n ty e => do
    let v ← expr e
    match ty with
    | some t => declare n t
    | none => pure ()
    define n v
    return v
  | .block _ b => inBlock (sequence b .void)
  | .cond _ t y (some n) => do
    if (← expr t).isTrue then stmt y else stmt n
  | .cond _ t y none => do
    if (← expr t).isTrue then stmt y else return .void
  | .loop _ n e b => do
    let source ← expr e
    inBlock (match source with
      | .range r => overRange n r (stmt b) r.count 0 .void
      | .array items => overItems n (stmt b) items .void
      | _ => return .void)
  | .leave _ => do
    leave
    return .void
  | .function _ _ _ _ _ => return .void
  | .blank _ => return .void

/-- statements in order, until one leaves; the value is that of the last one run, or `last` -/
def sequence : List Stmt → (last : Value) → Eval Value
  | [], last => return last
  | s :: ss, _ => do
    let v ← stmt s
    if ← isLeaving then return v
    sequence ss v

end

/-- run a whole program; a `break` outside of loops ends it and is forgotten -/
def code (c : Code) : Eval Value := do
  let v ← sequence c .void
  let _ ← takeLeave
  return v

end Eval

end AutoLang
