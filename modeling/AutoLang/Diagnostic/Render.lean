import AutoLang.Diagnostic.Basic
import AutoLang.Text.Lines
/-! Diagnostics drawn for a terminal: a heading, then each label with the source line it points at
and an underline below it, then the notes and an empty line. Without a source the labels are one
line each. -/

namespace AutoLang.Diagnostic

/-- when to use colours -/
inductive ColorMode where
  | auto | always | never
deriving DecidableEq, Repr, Inhabited

def ColorMode.decide (mode : ColorMode) (terminal : Bool) : Bool :=
  match mode with
  | auto => terminal
  | always => true
  | never => false

inductive Ink where
  | error | warning | note | bold | secondary

/-- the escape sequence that begins a colour -/
def Ink.start : Ink → String
  | error => "\x1b[1;31m"
  | warning => "\x1b[1;33m"
  | note => "\x1b[1;36m"
  | bold => "\x1b[1m"
  | secondary => "\x1b[1;34m"

structure Canvas where
  colors : Bool
  source : Option String

namespace Canvas

def paint (c : Canvas) (ink : Ink) (text : String) : String :=
  if c.colors then ink.start ++ text ++ "\x1b[0m" else text

def inkOf : Severity → Ink
  | .error => .error
  | .warning => .warning
  | .note => .note

def labelInk (l : Label) : Ink := if l.primary then .error else .secondary

/-- how wide the underline of a span is; a span without text still gets one mark -/
def underline (l : Label) : String :=
  "".pushn (if l.primary then '^' else '-') (max l.span.length 1)

/-- the source line under a label; nothing when there is no such line -/
def snippet (c : Canvas) (source : String) (l : Label) : String :=
  match Text.line? source l.span.line with
  | none => ""
  | some text =>
    let number := toString l.span.line
    let pad := "".pushn ' ' number.length
    let indent := "".pushn ' ' l.span.column
    s!" {pad} |\n {number} | {text}\n {pad} | {indent}"
      ++ c.paint (labelInk l) s!"{underline l} {l.message}" ++ "\n"

def label (c : Canvas) (l : Label) : String :=
  match c.source with
  | some source =>
    (if l.primary then s!"  --> {l.span.place}\n" else "") ++ c.snippet source l
  | none =>
    let arrow := if l.primary then "-->" else "   "
    s!"  {arrow} {l.span.place}: " ++ c.paint (labelInk l) l.message ++ "\n"

def heading (c : Canvas) (d : Diagnostic) : String :=
  c.paint (inkOf d.severity) d.severity.text ++ c.paint .bold s!"[{d.code.text}]"
    ++ s!": {d.message}\n"

def note (c : Canvas) (text : String) : String := "  = " ++ c.paint .bold "note" ++ s!": {text}\n"

def draw (c : Canvas) (d : Diagnostic) : String :=
  c.heading d ++ String.join (d.labels.map c.label) ++ String.join (d.notes.map c.note) ++ "\n"

def drawAll (c : Canvas) (ds : List Diagnostic) : String := String.join (ds.map c.draw)

def plural (n : Nat) : String := if n = 1 then "" else "s"

/-- the closing line; nothing when there were neither errors nor warnings -/
def summary (c : Canvas) (errors warnings : Nat) : String :=
  let warned := s!"{warnings} warning{plural warnings} emitted\n"
  if 0 < errors then
    let cause := if errors = 1 then "previous error" else s!"{errors} previous errors"
    c.paint .error "error" ++ s!": aborting due to {cause}"
      ++ (if 0 < warnings then s!"; {warned}" else "\n")
  else if 0 < warnings then c.paint .warning "warning" ++ s!": {warned}"
  else ""

end Canvas

end AutoLang.Diagnostic
