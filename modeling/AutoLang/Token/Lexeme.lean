import AutoLang.Token.Kind
/-! The lexemes of a text. A lexeme is cut from the front of the remaining characters as a list of
pieces; every piece keeps the characters it stands for, so nothing of the text is lost. A format
string only announces itself here: its inside is read frame by frame (`Token.Frame`). -/

namespace AutoLang

/-- characters of the text and the token they make; blanks make none -/
structure Piece where
  kind : Option TokenKind
  raw : List Char
  text : String
deriving DecidableEq, Repr

namespace Piece

/-- a token whose text is its characters -/
def plain (kind : TokenKind) (raw : List Char) : Piece := ⟨some kind, raw, String.ofList raw⟩

def blank (raw : List Char) : Piece := ⟨none, raw, ""⟩

@[simp] theorem raw_plain (kind : TokenKind) (raw : List Char) : (plain kind raw).raw = raw := rfl

@[simp] theorem raw_blank (raw : List Char) : (blank raw).raw = raw := rfl

end Piece

/-- the characters of the pieces, in order -/
def rawOf (ps : List Piece) : List Char := ps.flatMap (·.raw)

@[simp] theorem rawOf_nil : rawOf [] = [] := rfl

@[simp] theorem rawOf_cons (p : Piece) (ps : List Piece) : rawOf (p :: ps) = p.raw ++ rawOf ps := rfl

@[simp] theorem rawOf_append (ps qs : List Piece) : rawOf (ps ++ qs) = rawOf ps ++ rawOf qs :=
  List.flatMap_append

/-- why no further token comes -/
inductive Halt where
  | finished
  | invalid (c : Char)
  | openComment
deriving DecidableEq, Repr

inductive Lexeme where
  | whole (pieces : List Piece)
  /-- the start of a format string, which ends at `close` -/
  | format (opening : Piece) (close : Char)
  | halt (why : Halt)
deriving DecidableEq, Repr

namespace Lexeme

def isBlank (c : Char) : Bool := c == ' ' || c == '\t' || c == '\r'

def isWordStart (c : Char) : Bool := c.isAlpha || c == '_'

def isWordChar (c : Char) : Bool := c.isAlphanum || c == '_'

def isHexDigit (c : Char) : Bool :=
  c.isDigit || ('a' ≤ c && c ≤ 'f') || ('A' ≤ c && c ≤ 'F')

/-- the digits of a number, separators included, and whether they hold a point; a point counts only
before a digit, and only the first one -/
def digitRun (hex dotted : Bool) : List Char → List Char × Bool
  | [] => ([], dotted)
  | c :: cs =>
    if c == '_' || c.isDigit || (hex && isHexDigit c) then
      let (run, d) := digitRun hex dotted cs
      (c :: run, d)
    else if c == '.' && !dotted && cs.head?.any Char.isDigit then
      let (run, d) := digitRun hex true cs
      (c :: run, d)
    else ([], dotted)

/-- the type suffix of a number -/
def suffix : List Char → List Char × TokenKind
  | 'f' :: _ => (['f'], .float)
  | 'd' :: _ => (['d'], .double)
  | 'u' :: '8' :: _ => (['u', '8'], .u8)
  | 'u' :: _ => (['u'], .uint)
  | 'i' :: '8' :: _ => (['i', '8'], .i8)
  | 'i' :: _ => (['i'], .int)
  | _ => ([], .int)

/-- a number that begins with the digit `c`; with a point it is a float whatever its suffix -/
def number (c : Char) (cs : List Char) : Piece :=
  let hex := c == '0' && cs.head? == some 'x'
  let start := if hex then [c, 'x'] else [c]
  let (run, dotted) := digitRun hex false ((c :: cs).drop start.length)
  let (tail, kind) := suffix ((c :: cs).drop (start.length + run.length))
  .plain (if dotted then .float else kind) (start ++ run ++ tail)

/-- a word that begins with `c` -/
def word (c : Char) (cs : List Char) : Piece :=
  let raw := c :: cs.takeWhile isWordChar
  .plain ((TokenKind.keyword? (String.ofList raw)).getD .ident) raw

/-- the body of a string and whether a quote ends it; a backslash takes the next character along -/
def stringBody : List Char → List Char × Bool
  | [] => ([], false)
  | '"' :: _ => ([], true)
  | '\\' :: c :: cs =>
    let (body, closed) := stringBody cs
    ('\\' :: c :: body, closed)
  | c :: cs =>
    let (body, closed) := stringBody cs
    (c :: body, closed)

/-- a string; without a closing quote it takes the rest of the text -/
def string (kind : TokenKind) (opening cs : List Char) : Piece :=
  let (body, closed) := stringBody cs
  ⟨some kind, opening ++ body ++ (if closed then ['"'] else []), String.ofList body⟩

/-- what a character stands for after a backslash -/
def unescape : Char → Char
  | 'n' => '\n'
  | 't' => '\t'
  | 'r' => '\r'
  | '0' => '\x00'
  | c => c

/-- the characters of a character literal's body and the character it denotes -/
def charBody : List Char → List Char × Option Char
  | [] => ([], none)
  | '\\' :: c :: _ => (['\\', c], some (unescape c))
  | c :: _ => ([c], some c)

/-- a character literal; the closing quote may be missing -/
def character (cs : List Char) : Piece :=
  let (body, value) := charBody cs
  let closing := (cs.drop body.length).take 1
  ⟨some .char, '\'' :: body ++ (if closing == ['\''] then closing else []),
    (value.map toString).getD ""⟩

/-- the text of a block comment up to its end -/
def commentBody : List Char → Option (List Char)
  | [] => none
  | '*' :: '/' :: _ => some []
  | c :: cs => (commentBody cs).map (c :: ·)

/-- a block comment, after its opening -/
def blockComment (cs : List Char) : Lexeme :=
  match commentBody cs with
  | none => .halt .openComment
  | some body =>
    .whole [.plain .openComment ['/', '*'], .plain .commentText body,
      .plain .closeComment ['*', '/']]

/-- the lexeme at the front of a text without leading blanks -/
def ofText : List Char → Lexeme
  | [] => .halt .finished
  | '\n' :: _ => .whole [.plain .newline ['\n']]
  | 'c' :: '"' :: cs => .whole [string .cstr ['c', '"'] cs]
  | 'f' :: '"' :: _ => .format (.plain .formatOpen ['f', '"']) '"'
  | '\x60' :: _ => .format (.plain .formatOpen ['\x60']) '\x60'
  | '"' :: cs => .whole [string .str ['"'] cs]
  | '\'' :: cs => .whole [character cs]
  | '/' :: '/' :: cs =>
    .whole [.plain .lineComment ['/', '/'], .plain .commentText (cs.takeWhile (· != '\n'))]
  | '/' :: '*' :: cs => blockComment cs
  | c :: cs =>
    if c.isDigit then .whole [number c cs]
    else if isWordStart c then .whole [word c cs]
    else match TokenKind.symbol? (c :: cs) with
      | some k => .whole [.plain k k.name.toList]
      | none => .halt (.invalid c)

end Lexeme

end AutoLang
