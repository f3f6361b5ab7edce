import AutoLang.Span
import AutoLang.Token.Kind
/-! Tokens: a kind, a place and a text. The text of a string or character is its body without the
quotes. -/

namespace AutoLang

structure Token where
  kind : TokenKind
  span : Span
  text : String
deriving DecidableEq, Repr, Inhabited

namespace Token

/-- the form shown in a token listing -/
def shown (t : Token) : String :=
  match t.kind with
  | .newline => "<nl>"
  | .eof => "<eof>"
  | k => if k.carriesText then s!"<{k.name}:{t.text}>" else s!"<{k.name}>"

/-- how a message quotes the token -/
def lexeme (t : Token) : String :=
  match t.kind with
  | .newline | .eof => t.kind.name
  | k => if t.text.isEmpty then k.name else t.text

end Token

end AutoLang
