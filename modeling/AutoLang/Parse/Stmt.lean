import AutoLang.Parse.Expr
import AutoLang.Parse.Ty
/-! Statements. -/

namespace AutoLang.Parse

/-- the tokens that end a statement -/
def endsStmt : TokenKind → Bool
  | .newline | .semicolon | .closeBrace | .eof => true
  | _ => false

/-- the tokens that stand after a name, so that a missing name does not take them -/
def followsName : TokenKind → Bool
  | .assign | .inKw | .openParen | .closeParen | .openBrace | .comma => true
  | _ => false

/-- a name for `what`; another token is reported, and passed unless the phrase goes on with it -/
def name (what : String) : Parser String := do
  let s ← get
  if s.kind == .ident then return (← Parser.advance).text
  Parser.report (.expectedName s.current.span what s.current.lexeme)
  if !followsName s.kind && !endsStmt s.kind then let _ ← Parser.advance
  return ""

/-- the statement after a head; a missing one is reported -/
def body (g : Grammar) (construct : String) : Parser Stmt := do
  Parser.skipNewlines
  let stmt ← if ← Parser.check .closeBrace then pure none else g.stmt
  match stmt with
  | some s => return s
  | none =>
    Parser.reportHere fun s => .missingBody s.previous construct
    return .blank (← Parser.currentSpan)

/-- a variable with its first value -/
def store (g : Grammar) : Parser Stmt := do
  let start := (← Parser.advance).span
  let n ← name "variable name"
  let t ← if ← Parser.check .assign then pure none else ty
  let assigned ← Parser.expect .assign
  let e ←
    if assigned || !endsStmt (← Parser.kind) then
      Parser.skipNewlines
      g.expr 0
    else pure (.nil (← Parser.currentSpan))
  return .store (start.merge e.span) n t e

def condStmt (g : Grammar) : Parser Stmt := do
  let start := (← Parser.advance).span
  let test ← g.expr 0
  let yes ← body g "if"
  let no ← if ← eatElse then some <$> body g "else" else pure none
  return .cond (start.merge (← Parser.previousSpan)) test yes no

def loop (g : Grammar) : Parser Stmt := do
  let start := (← Parser.advance).span
  let n ← name "loop variable"
  let _ ← Parser.expect .inKw
  let source ← g.expr 0
  let b ← body g "for"
  return .loop (start.merge (← Parser.previousSpan)) n source b

def blockStmt (g : Grammar) : Parser Stmt := do
  let start ← Parser.currentSpan
  let b ← blockBody g
  return .block (start.merge (← Parser.previousSpan)) b

/-- a parameter with its type, if it has one -/
def param : Parser Param := do
  let n ← name "parameter name"
  let k ← Parser.kind
  if k == .comma || k == .closeParen then return ⟨n, none⟩
  return ⟨n, ← ty⟩

def function (g : Grammar) : Parser Stmt := do
  let start := (← Parser.advance).span
  let n ← name "function name"
  let params ←
    if ← Parser.check .openParen then
      let opened := (← Parser.advance).span
      series g opened .closeParen '(' param
    else
      let _ ← Parser.expect .openParen
      pure []
  let result ← if ← Parser.check .openBrace then pure none else ty
  let b ← blockBody g
  return .function (start.merge (← Parser.previousSpan)) n params result b

/-- a statement after the separators before it, or nothing at the end of the text; `whole` reads an
expression that stands as a statement -/
def stmt (g : Grammar) (whole : Parser Expr) : Parser (Option Stmt) := do
  Parser.skipSeparators
  match ← Parser.kind with
  | .eof => return none
  | .varKw | .letKw | .mutKw => some <$> store g
  | .ifKw => some <$> condStmt g
  | .forKw => some <$> loop g
  | .openBrace => some <$> blockStmt g
  | .fnKw => some <$> function g
  | .breakKw => return some (.leave (← Parser.advance).span)
  | _ =>
    let e ← whole
    return some (.expr e.span e)

end AutoLang.Parse
