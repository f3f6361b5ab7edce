import AutoLang.Parse.Stmt
import AutoLang.Token.Lexer
/-! Programs. Every phrase inside another begins at least one token later, so a grammar as deep as
the text has tokens reads the whole text. -/

namespace AutoLang

namespace Grammar

/-- the phrases of texts of at most `depth` tokens -/
def ofDepth : Nat → Grammar
  | 0 =>
    { rounds := 1
      expr := fun _ => return .nil (← Parser.currentSpan)
      cond := return .nil (← Parser.currentSpan)
      stmt := return none }
  | depth + 1 =>
    let inner := ofDepth depth
    { rounds := depth + 2
      expr := Parse.expr inner
      cond := Parse.condExpr inner
      stmt := Parse.stmt inner (Parse.expr inner 0) }

end Grammar

/-- a tree and the problems found on the way to it, each list in the order of the text -/
structure Parsed where
  code : Code
  tokenErrors : List Diagnostic
  errors : List Diagnostic

namespace Parsed

/-- the problems with tokens, then those with phrases -/
def diagnostics (p : Parsed) : List Diagnostic := p.tokenErrors ++ p.errors

end Parsed

namespace Parse

def nextExpr : Parser Expr := do (Grammar.ofDepth (← get).remaining).expr 0

def nextStmt : Parser (Option Stmt) := do (Grammar.ofDepth (← get).remaining).stmt

/-- statements to the end of the text; `read` holds those before, backwards -/
def codeFrom (stmt : Parser (Option Stmt)) : Nat → List Stmt → Parser Code
  | 0, read => return read.reverse
  | rounds + 1, read => do
    match ← stmt with
    | none => return read.reverse
    | some s => codeFrom stmt rounds (s :: read)

def code : Parser Code := do
  let n := (← get).remaining
  codeFrom (Grammar.ofDepth n).stmt n []

/-- read what is left and hand out the problems -/
def finish (s : ParseState) (tokenErrors : List Diagnostic) : Parsed :=
  let (c, after) := code.run s
  ⟨c, tokenErrors, after.problems.flush.1⟩

/-- parse from a lexer -/
def ofLexer (l : Lexer) : Parsed :=
  let (tokens, after) := l.drain #[]
  finish (.ofTokens tokens.toList) after.errors

end Parse

/-- parse a source text -/
def parse (source : String) : Parsed := Parse.ofLexer (.ofSource source)

end AutoLang
