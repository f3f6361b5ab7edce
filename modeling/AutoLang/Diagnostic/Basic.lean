import AutoLang.Span
import AutoLang.Text.Escape
/-! Reported problems: a code, a severity, a message, labelled places and notes. -/

namespace AutoLang

/-- what went wrong; the first digit of the code names the stage that saw it -/
inductive ProblemCode where
  | invalidCharacter | unterminatedComment
  | unexpectedToken | expectedExpression | unclosedDelimiter | expectedName | missingBody
  | evaluation
deriving DecidableEq, Repr, Inhabited

namespace ProblemCode

def text : ProblemCode → String
  | invalidCharacter => "E0002"
  | unterminatedComment => "E0006"
  | unexpectedToken => "E1001"
  | expectedExpression => "E1002"
  | unclosedDelimiter => "E1003"
  | expectedName => "E1004"
  | missingBody => "E1007"
  | evaluation => "E6001"

/-- the codes of phrases that could not be read -/
def isGrammatical : ProblemCode → Bool
  | unexpectedToken | expectedExpression | unclosedDelimiter | expectedName | missingBody => true
  | _ => false

end ProblemCode

inductive Severity where
  | error | warning | note
deriving DecidableEq, Repr, Inhabited

def Severity.text : Severity → String
  | error => "error"
  | warning => "warning"
  | note => "note"

/-- a place with a remark; the primary labels say where the problem is -/
structure Label where
  span : Span
  message : String
  primary : Bool
deriving DecidableEq, Repr, Inhabited

structure Diagnostic where
  code : ProblemCode
  severity : Severity
  message : String
  labels : List Label
  notes : List String
deriving DecidableEq, Repr, Inhabited

namespace Diagnostic

/-- the place of the first primary label -/
def primarySpan? (d : Diagnostic) : Option Span :=
  (d.labels.find? (·.primary)).map (·.span)

def isError (d : Diagnostic) : Bool := d.severity == .error

/-- the plain form: a line for the message, each label and each note -/
def shown (d : Diagnostic) : String :=
  let labels := d.labels.map fun l =>
    let arrow := if l.primary then "-->" else "   "
    s!"\n  {arrow} {l.span.place}: {l.message}"
  let notes := d.notes.map fun n => s!"\n  = note: {n}"
  s!"{d.severity.text} [{d.code.text}]: {d.message}"
    ++ String.join labels ++ String.join notes

/-- an error with one primary label -/
def errorAt (code : ProblemCode) (span : Span) (message label : String)
    (notes : List String) : Diagnostic :=
  ⟨code, .error, message, [⟨span, label, true⟩], notes⟩

/-- no token begins with this character -/
def invalidCharacter (span : Span) (c : Char) : Diagnostic :=
  errorAt .invalidCharacter span s!"invalid character `{Text.escaped c}`" "not valid here" []

/-- a block comment with no end -/
def unterminatedComment (span : Span) : Diagnostic :=
  errorAt .unterminatedComment span "unterminated block comment" "comment starts here"
    ["block comments end with `*/`"]

/-- one token was needed and another stands there -/
def expectedToken (span : Span) (expected found : String) : Diagnostic :=
  errorAt .unexpectedToken span s!"unexpected token: expected {expected}, found `{found}`"
    s!"expected {expected}" []

def expectedExpression (span : Span) (found : String) : Diagnostic :=
  errorAt .expectedExpression span s!"expected expression, found `{found}`"
    "expected expression here" []

/-- the closing partner of an opening delimiter -/
def partner : Char → Char
  | '(' => ')'
  | '[' => ']'
  | '{' => '}'
  | c => c

/-- the end of the text, or a stray token, came before the closing delimiter -/
def unclosedDelimiter (opened stopped : Span) (delimiter : Char) : Diagnostic :=
  { code := .unclosedDelimiter
    severity := .error
    message := s!"unclosed delimiter `{delimiter}`"
    labels := [⟨stopped, s!"expected `{partner delimiter}`", true⟩,
      ⟨opened, "unclosed delimiter opened here", false⟩]
    notes := [] }

/-- a name was needed for `what` -/
def expectedName (span : Span) (what found : String) : Diagnostic :=
  errorAt .expectedName span s!"expected {what}, found `{found}`" s!"expected {what}" []

/-- the head of a statement with nothing after it -/
def missingBody (span : Span) (construct : String) : Diagnostic :=
  errorAt .missingBody span s!"`{construct}` has no body" "statement expected after this" []

/-- square brackets after an operand that do not hold exactly one expression -/
def malformedIndex (span : Span) : Diagnostic :=
  errorAt .unexpectedToken span "an index takes exactly one expression" "in this index"
    ["write `a[i]`; array literals cannot follow an expression"]

end Diagnostic

end AutoLang
