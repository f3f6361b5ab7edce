/-! The kinds of tokens. The name of a keyword or symbol is its spelling, so the same table
reads them and names them in messages. -/

namespace AutoLang

inductive TokenKind where
  | int | uint | u8 | i8 | float | double | str | cstr | char | ident
  | openParen | closeParen | openSquare | closeSquare | openBrace | closeBrace
  | comma | semicolon | newline
  | plus | minus | star | slash | bang | less | greater | lessEq | greaterEq
  | assign | equal | notEqual | plusAssign | minusAssign | starAssign | slashAssign
  | dot | dotDot | dotDotEq | colon | bar | arrow | fatArrow | question | atSign | hash
  | lineComment | commentText | openComment | closeComment
  | trueKw | falseKw | nilKw | nullKw | ifKw | elseKw | forKw | whenKw | breakKw | isKw | varKw
  | inKw | fnKw | typeKw | unionKw | tagKw | letKw | mutKw | hasKw | useKw | asKw | enumKw | onKw
  | aliasKw | gridKw
  | formatOpen | formatText | formatClose | formatMark
  | eof
deriving DecidableEq, Repr, Inhabited

namespace TokenKind

def name : TokenKind → String
  | int => "int" | uint => "uint" | u8 => "u8" | i8 => "i8" | float => "float"
  | double => "double" | str => "string" | cstr => "c-string" | char => "char"
  | ident => "identifier"
  | openParen => "(" | closeParen => ")" | openSquare => "[" | closeSquare => "]"
  | openBrace => "\x7b" | closeBrace => "\x7d"
  | comma => "," | semicolon => ";" | newline => "newline"
  | plus => "+" | minus => "-" | star => "*" | slash => "/" | bang => "!"
  | less => "<" | greater => ">" | lessEq => "<=" | greaterEq => ">="
  | assign => "=" | equal => "==" | notEqual => "!="
  | plusAssign => "+=" | minusAssign => "-=" | starAssign => "*=" | slashAssign => "/="
  | dot => "." | dotDot => ".." | dotDotEq => "..=" | colon => ":" | bar => "|"
  | arrow => "->" | fatArrow => "=>" | question => "?" | atSign => "@" | hash => "#"
  | lineComment => "//" | commentText => "comment" | openComment => "/*" | closeComment => "*/"
  | trueKw => "true" | falseKw => "false" | nilKw => "nil" | nullKw => "null"
  | ifKw => "if" | elseKw => "else" | forKw => "for" | whenKw => "when" | breakKw => "break"
  | isKw => "is" | varKw => "var" | inKw => "in" | fnKw => "fn" | typeKw => "type"
  | unionKw => "union" | tagKw => "tag" | letKw => "let" | mutKw => "mut" | hasKw => "has"
  | useKw => "use" | asKw => "as" | enumKw => "enum" | onKw => "on" | aliasKw => "alias"
  | gridKw => "grid"
  | formatOpen => "f-string start" | formatText => "f-string text"
  | formatClose => "f-string end" | formatMark => "f-string marker"
  | eof => "end of file"

def keywords : List TokenKind :=
  [trueKw, falseKw, nilKw, nullKw, ifKw, elseKw, forKw, whenKw, breakKw, isKw, varKw, inKw, fnKw,
    typeKw, unionKw, tagKw, letKw, mutKw, hasKw, useKw, asKw, enumKw, onKw, aliasKw, gridKw]

/-- the keyword with this spelling -/
def keyword? (word : String) : Option TokenKind := keywords.find? (·.name == word)

/-- the symbols, every one after those it begins -/
def symbols : List TokenKind :=
  [dotDotEq, dotDot, dot, arrow, minusAssign, minus, fatArrow, equal, assign, plusAssign, plus,
    starAssign, star, slashAssign, slash, notEqual, bang, lessEq, less, greaterEq, greater,
    openParen, closeParen, openSquare, closeSquare, openBrace, closeBrace, comma, semicolon, colon,
    bar, question, atSign, hash]

/-- the longest symbol that a text begins with -/
def symbol? (cs : List Char) : Option TokenKind := symbols.find? (·.name.toList.isPrefixOf cs)

/-- comments, which no phrase is built from -/
def isTrivia : TokenKind → Bool
  | lineComment | commentText | openComment | closeComment => true
  | _ => false

/-- kinds with many spellings, whose text is shown beside the name -/
def carriesText : TokenKind → Bool
  | int | uint | u8 | i8 | float | double | str | cstr | char | ident | commentText
  | formatText => true
  | _ => false

end TokenKind

end AutoLang
