import AutoLang.Diagnostic.Queue
import AutoLang.Token.Basic
/-! What a parser works on: the current token, those after it, and the problems found so far. The
last token is the end token, which is never passed. Reading never fails; a problem is reported and
reading goes on. -/

namespace AutoLang

structure ParseState where
  current : Token
  upcoming : List Token
  /-- the place of the last token passed -/
  previous : Span
  problems : DiagnosticQueue

abbrev Parser := StateM ParseState

namespace ParseState

/-- the state before a token list; comments are left out -/
def ofTokens (tokens : List Token) : ParseState :=
  match tokens.filter (!·.kind.isTrivia) with
  | [] => ⟨default, [], .nowhere, .empty DiagnosticQueue.defaultLimit⟩
  | t :: ts => ⟨t, ts, .nowhere, .empty DiagnosticQueue.defaultLimit⟩

def kind (s : ParseState) : TokenKind := s.current.kind

/-- how many tokens are left, the current one included -/
def remaining (s : ParseState) : Nat := s.upcoming.length + 1

/-- the kind of the token after the current one -/
def nextKind (s : ParseState) : TokenKind := (s.upcoming.head?.getD s.current).kind

def advance (s : ParseState) : ParseState :=
  match s.upcoming with
  | [] => { s with previous := s.current.span }
  | t :: ts => { s with current := t, upcoming := ts, previous := s.current.span }

def report (s : ParseState) (d : Diagnostic) : ParseState :=
  { s with problems := (s.problems.push d).2 }

/-- pass tokens as long as their kinds satisfy `p` -/
def skipFrom (p : TokenKind → Bool) (s : ParseState) : List Token → ParseState
  | [] => { s with upcoming := [] }
  | t :: ts =>
    if p s.kind then skipFrom p { s with current := t, previous := s.current.span } ts
    else { s with upcoming := t :: ts }

def skip (p : TokenKind → Bool) (s : ParseState) : ParseState := skipFrom p s s.upcoming

end ParseState

namespace Parser

/-- pass the current token and return it -/
def advance : Parser Token := do
  let s ← get
  set s.advance
  return s.current

def report (d : Diagnostic) : Parser Unit := modify (·.report d)

/-- report a problem that is described by the state -/
def reportHere (describe : ParseState → Diagnostic) : Parser Unit :=
  modify fun s => s.report (describe s)

def kind : Parser TokenKind := do return (← get).kind

def currentSpan : Parser Span := do return (← get).current.span

def previousSpan : Parser Span := do return (← get).previous

def check (k : TokenKind) : Parser Bool := do return (← get).kind == k

def atEnd : Parser Bool := check .eof

/-- pass the current token if it is of kind `k` -/
def eat (k : TokenKind) : Parser Bool := do
  let s ← get
  if s.kind == k then
    set s.advance
    return true
  else return false

/-- pass a token of kind `k`, or report that it is missing -/
def expect (k : TokenKind) : Parser Bool := do
  if ← eat k then return true
  reportHere fun s => .expectedToken s.current.span s!"`{k.name}`" s.current.lexeme
  return false

def skipNewlines : Parser Unit := modify (·.skip (· == .newline))

/-- pass newlines and semicolons -/
def skipSeparators : Parser Unit := modify (·.skip fun k => k == .newline || k == .semicolon)

end Parser

end AutoLang
