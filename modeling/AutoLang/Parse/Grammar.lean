import AutoLang.Parse.State
import AutoLang.Tree.Basic
/-! The productions that the others are built over. Phrases nest, so a production is given the
grammar of the phrases inside it; `Grammar.ofDepth` ties the knot. -/

namespace AutoLang

/-- the phrases inside a phrase -/
structure Grammar where
  /-- no loop needs more rounds than there are tokens left -/
  rounds : Nat
  /-- an expression whose operators bind tighter than a level -/
  expr : Nat → Parser Expr
  /-- a conditional expression; the current token is its keyword -/
  cond : Parser Expr
  /-- a statement, or nothing at the end of the text -/
  stmt : Parser (Option Stmt)

namespace Parse

/-- items up to `close`, with commas between them; `read` holds those before, backwards. A missing
comma is reported and the token begins the next item. -/
def seriesFrom {α : Type} (opened : Span) (close : TokenKind) (delimiter : Char)
    (item : Parser α) : Nat → List α → Parser (List α)
  | 0, read => return read.reverse
  | rounds + 1, read => do
    Parser.skipNewlines
    if ← Parser.eat close then return read.reverse
    if ← Parser.atEnd then
      Parser.reportHere fun s => .unclosedDelimiter opened s.current.span delimiter
      return read.reverse
    let before ← Parser.currentSpan
    let x ← item
    let s ← get
    -- an item that reads nothing must not hold up the others
    if s.current.span == before && s.kind != .comma && s.kind != close then set s.advance
    Parser.skipNewlines
    if ← Parser.eat .comma then
      return ← seriesFrom opened close delimiter item rounds (x :: read)
    if ← Parser.eat close then return (x :: read).reverse
    if ← Parser.atEnd then
      Parser.reportHere fun s => .unclosedDelimiter opened s.current.span delimiter
      return (x :: read).reverse
    Parser.reportHere fun s =>
      .expectedToken s.current.span s!"`,` or `{close.name}`" s.current.lexeme
    seriesFrom opened close delimiter item rounds (x :: read)

/-- items up to `close`; the opening delimiter was passed -/
def series {α : Type} (g : Grammar) (opened : Span) (close : TokenKind) (delimiter : Char)
    (item : Parser α) : Parser (List α) :=
  seriesFrom opened close delimiter item g.rounds []

/-- statements up to a closing brace; `read` holds those before, backwards -/
def blockFrom (stmt : Parser (Option Stmt)) (opened : Span) :
    Nat → List Stmt → Parser (List Stmt)
  | 0, read => return read.reverse
  | rounds + 1, read => do
    Parser.skipSeparators
    if ← Parser.eat .closeBrace then return read.reverse
    if ← Parser.atEnd then
      Parser.reportHere fun s => .unclosedDelimiter opened s.current.span '{'
      return read.reverse
    match ← stmt with
    | some s => blockFrom stmt opened rounds (s :: read)
    | none => blockFrom stmt opened rounds read

/-- statements in braces; without the opening brace there are none -/
def blockBody (g : Grammar) : Parser (List Stmt) := do
  let opened ← Parser.currentSpan
  if ← Parser.expect .openBrace then blockFrom g.stmt opened g.rounds []
  else return []

/-- pass `else`, also at the beginning of the next line -/
def eatElse : Parser Bool := do
  let s ← get
  if s.kind == .newline && s.nextKind == .elseKw then set s.advance
  Parser.eat .elseKw

end Parse

end AutoLang
