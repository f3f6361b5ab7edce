import AutoLang.Parse.Grammar
import AutoLang.Parse.Literal
/-! Expressions by precedence climbing. A higher level binds tighter: assignments 1, comparisons 4,
ranges 9, sums 10, products 11, signs 12, calls and indices 15, member access 17. Assignments and
comparisons group to the right, the others to the left. -/

namespace AutoLang

/-- what stands between two operands -/
inductive Link where
  | binary (op : BinaryOp)
  | range (inclusive : Bool)
deriving DecidableEq, Repr

namespace Link

def ofToken? : TokenKind → Option Link
  | .dotDot => some (.range false)
  | .dotDotEq => some (.range true)
  | k => (BinaryOp.ofToken? k).map .binary

def level : Link → Nat
  | range _ => 9
  | binary op =>
    match op with
    | .assign | .addAssign | .subAssign | .mulAssign | .divAssign => 1
    | .eq | .ne | .lt | .gt | .le | .ge => 4
    | .add | .sub => 10
    | .mul | .div => 11
    | .dot => 17

/-- the level that the operators of the right operand must exceed -/
def rightLevel (l : Link) : Nat := if l.level = 1 ∨ l.level = 4 then l.level - 1 else l.level

def join (l : Link) (left right : Expr) : Expr :=
  let span := left.span.merge right.span
  match l with
  | binary op => .binary span left op right
  | range inclusive => .range span left right inclusive

end Link

namespace Parse

def signLevel : Nat := 12

def callLevel : Nat := 15

/-- an expression in parentheses, which belong to its span -/
def group (g : Grammar) : Parser Expr := do
  let opened := (← Parser.advance).span
  Parser.skipNewlines
  let e ← g.expr 0
  Parser.skipNewlines
  if !(← Parser.eat .closeParen) then
    Parser.reportHere fun s => .unclosedDelimiter opened s.current.span '('
  return e.withSpan (opened.merge (← Parser.previousSpan))

def array (g : Grammar) : Parser Expr := do
  let opened := (← Parser.advance).span
  let items ← series g opened .closeSquare '[' (g.expr 0)
  return .array (opened.merge (← Parser.previousSpan)) items

/-- the key of an object entry: a name or a string -/
def fieldKey : Parser String := do
  let s ← get
  if s.kind == .ident || s.kind == .str then return (← Parser.advance).text
  Parser.report (.expectedName s.current.span "object key" s.current.lexeme)
  if s.kind != .eof then let _ ← Parser.advance
  return ""

def field (g : Grammar) : Parser Field := do
  let key ← fieldKey
  let _ ← Parser.expect .colon
  Parser.skipNewlines
  return .mk key (← g.expr 0)

def object (g : Grammar) : Parser Expr := do
  let opened := (← Parser.advance).span
  let fields ← series g opened .closeBrace '{' (field g)
  return .object (opened.merge (← Parser.previousSpan)) fields

def blockExpr (g : Grammar) : Parser Expr := do
  let start ← Parser.currentSpan
  let body ← blockBody g
  return .block (start.merge (← Parser.previousSpan)) body

/-- a conditional expression; its branches are blocks, or another condition after `else` -/
def condExpr (g : Grammar) : Parser Expr := do
  let start := (← Parser.advance).span
  let test ← g.expr 0
  let yes ← blockExpr g
  let no ←
    if ← eatElse then
      if ← Parser.check .ifKw then some <$> g.cond else some <$> blockExpr g
    else pure none
  return .cond (start.merge (← Parser.previousSpan)) test yes no

/-- what follows the marker in a format string: a name, or an expression in braces -/
def interpolation (g : Grammar) : Parser Expr := do
  let s ← get
  if s.kind == .openBrace then
    let opened := (← Parser.advance).span
    let e ← g.expr 0
    if !(← Parser.eat .closeBrace) then
      Parser.reportHere fun s => .unclosedDelimiter opened s.current.span '{'
    return e
  if s.kind == .ident then return .ident s.current.span (← Parser.advance).text
  return .ident s.current.span ""

/-- the parts of a format string; `read` holds those before, backwards. One that is not closed ends
with the text. -/
def formatFrom (g : Grammar) : Nat → List Expr → Parser (List Expr)
  | 0, read => return read.reverse
  | rounds + 1, read => do
    let s ← get
    match s.kind with
    | .formatText =>
      let t ← Parser.advance
      formatFrom g rounds (.literal t.span (.str t.text) :: read)
    | .formatMark =>
      let _ ← Parser.advance
      let e ← interpolation g
      formatFrom g rounds (e :: read)
    | .formatClose =>
      let _ ← Parser.advance
      return read.reverse
    | .eof => return read.reverse
    | _ =>
      Parser.report (.expectedExpression s.current.span s.current.lexeme)
      let _ ← Parser.advance
      formatFrom g rounds read

def format (g : Grammar) : Parser Expr := do
  let start := (← Parser.advance).span
  let parts ← formatFrom g g.rounds []
  return .format (start.merge (← Parser.previousSpan)) parts

/-- a literal, a name, or a phrase that its first token opens; any other token is reported and
passed -/
def primary (g : Grammar) : Parser Expr := do
  let s ← get
  match s.kind with
  | .openParen => group g
  | .openSquare => array g
  | .openBrace => object g
  | .ifKw => condExpr g
  | .formatOpen => format g
  | .ident => return .ident s.current.span (← Parser.advance).text
  | k =>
    match literal? s.current with
    | some v =>
      let _ ← Parser.advance
      return .literal s.current.span v
    | none =>
      Parser.report (.expectedExpression s.current.span s.current.lexeme)
      if k != .eof then let _ ← Parser.advance
      return .nil s.current.span

/-- arguments after a callee -/
def call (g : Grammar) (callee : Expr) : Parser Expr := do
  let opened := (← Parser.advance).span
  let args ← series g opened .closeParen '(' (g.expr 0)
  return .call (callee.span.merge (← Parser.previousSpan)) callee args

/-- an index after an array; exactly one expression belongs in the brackets -/
def index (g : Grammar) (array : Expr) : Parser Expr := do
  let opened := (← Parser.advance).span
  let items ← series g opened .closeSquare '[' (g.expr 0)
  let closed ← Parser.previousSpan
  if items.length ≠ 1 then Parser.report (.malformedIndex (opened.merge closed))
  return .index (array.span.merge closed) array (items.head?.getD (.nil opened))

/-- an operand with the signs before it -/
def operand (g : Grammar) : Parser Expr := do
  match UnaryOp.ofToken? (← Parser.kind) with
  | some op =>
    let start := (← Parser.advance).span
    let e ← g.expr signLevel
    return .unary (start.merge e.span) op e
  | none => primary g

/-- join operands to `left` as long as the operators bind tighter than `floor` -/
def climb (g : Grammar) (floor : Nat) : Nat → Expr → Parser Expr
  | 0, left => return left
  | rounds + 1, left => do
    let k ← Parser.kind
    if k == .openParen && floor < callLevel then
      climb g floor rounds (← call g left)
    else if k == .openSquare && floor < callLevel then
      climb g floor rounds (← index g left)
    else match Link.ofToken? k with
      | none => return left
      | some link =>
        if link.level ≤ floor then return left
        let _ ← Parser.advance
        Parser.skipNewlines
        let right ← g.expr link.rightLevel
        climb g floor rounds (link.join left right)

/-- an expression whose operators bind tighter than `floor` -/
def expr (g : Grammar) (floor : Nat) : Parser Expr := do
  climb g floor g.rounds (← operand g)

end Parse

end AutoLang
