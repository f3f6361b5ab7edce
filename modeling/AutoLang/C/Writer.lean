/-! Indented text, and the system headers that it needs in the order of their first use. -/

namespace AutoLang.C

structure Writer where
  depth : Nat
  output : String
  headers : List String
deriving DecidableEq, Repr, Inhabited

namespace Writer

def empty : Writer := ⟨0, "", []⟩

def indent (w : Writer) : Writer := { w with depth := w.depth + 1 }

def dedent (w : Writer) : Writer := { w with depth := w.depth - 1 }

/-- the blanks at the beginning of a line -/
def margin (w : Writer) : Writer := { w with output := w.output.pushn ' ' (4 * w.depth) }

def write (w : Writer) (text : String) : Writer := { w with output := w.output ++ text }

def newline (w : Writer) : Writer := w.write "\n"

/-- a line with its margin -/
def line (w : Writer) (text : String) : Writer := (w.margin.write text).newline

/-- ask for a header; one that is there already is not asked for again -/
def require (w : Writer) (header : String) : Writer :=
  if header ∈ w.headers then w else { w with headers := w.headers ++ [header] }

/-- hand the text over -/
def take (w : Writer) : String × Writer := (w.output, { w with output := "" })

end Writer

end AutoLang.C
