import AutoLang.Token.Lexeme
/-! Format strings hold code and code holds format strings. What a reader is inside of is a stack of
frames: the text of a format string, the braces of an interpolation, or neither. One move reads a
stretch of characters for the top frame and says which frames take its place. -/

namespace AutoLang

inductive Frame where
  /-- outside of every format string; one lexeme is read -/
  | outside
  /-- the text of a format string that ends at `close` -/
  | text (close : Char)
  /-- the code of an interpolation, inside `outer` further braces -/
  | braces (outer : Nat)
deriving DecidableEq, Repr

inductive Move where
  /-- the pieces read and the frames that take the place of the top one -/
  | go (pieces : List Piece) (frames : List Frame)
  | halt (pieces : List Piece) (why : Halt)
deriving DecidableEq, Repr

namespace Move

/-- an interpolation begins with the marker before a brace or a name -/
def opensInterpolation (marker : Char) : List Char → Bool
  | m :: c :: _ => m == marker && (c == '{' || Lexeme.isWordStart c)
  | _ => false

/-- literal text up to the closing quote or an interpolation -/
def textRun (marker close : Char) : List Char → List Char
  | [] => []
  | c :: cs =>
    if c == close || opensInterpolation marker (c :: cs) then []
    else c :: textRun marker close cs

/-- read literal text and what ends it -/
def ofFormatText (marker close : Char) (cs : List Char) : Move :=
  let run := textRun marker close cs
  let part := if run.isEmpty then [] else [Piece.plain .formatText run]
  match cs.drop run.length with
  | [] => .go part []
  | c :: after =>
    if c == close then .go (part ++ [.plain .formatClose [c]]) []
    else match after with
      | '{' :: _ =>
        .go (part ++ [.plain .formatMark [c], .plain .openBrace ['{']]) [.braces 0, .text close]
      | _ =>
        .go (part ++ [.plain .formatMark [c], .plain .ident (after.takeWhile Lexeme.isWordChar)])
          [.text close]

/-- skip blanks and read one lexeme, after which `frames` go on -/
def ofLexeme (frames : List Frame) (cs : List Char) : Move :=
  let blank := Piece.blank (cs.takeWhile Lexeme.isBlank)
  match Lexeme.ofText (cs.dropWhile Lexeme.isBlank) with
  | .whole ps => .go (blank :: ps) frames
  | .format opening close => .go [blank, opening] (.text close :: frames)
  | .halt why => .halt [blank] why

/-- the frames after a lexeme inside an interpolation that begins with this character -/
def bracesAfter (outer : Nat) : Option Char → List Frame
  | some '{' => [.braces (outer + 1)]
  | some '}' => if outer = 0 then [] else [.braces (outer - 1)]
  | _ => [.braces outer]

def ofFrame (marker : Char) (frame : Frame) (cs : List Char) : Move :=
  match frame with
  | .outside => ofLexeme [] cs
  | .text close => ofFormatText marker close cs
  | .braces outer =>
    match cs.dropWhile Lexeme.isBlank with
    | [] => .go [.blank cs] []
    | c :: _ => ofLexeme (bracesAfter outer (some c)) cs

end Move

/-- a whole lexeme: its pieces, the characters after it, and the halt if reading stops there -/
structure Scan where
  pieces : List Piece
  rest : List Char
  halt : Option Halt
deriving DecidableEq, Repr

end AutoLang
