/-! The lines of a text. A line ends before a newline, with a carriage return just before it left
out; a newline at the very end begins no further line. -/

namespace AutoLang.Text

section

variable {α : Type} [DecidableEq α] (newline ret : α)

/-- a line without the carriage return at its end; `rev` is the line backwards -/
def endLine (rev : List α) : List α :=
  if rev.head? = some ret then rev.tail.reverse else rev.reverse

/-- `rev` holds the line so far, backwards -/
def linesFrom (rev : List α) : List α → List (List α)
  | [] => if rev.isEmpty then [] else [rev.reverse]
  | c :: cs => if c = newline then endLine ret rev :: linesFrom [] cs else linesFrom (c :: rev) cs

end

def lines (text : String) : List String :=
  (linesFrom '\n' '\r' [] text.toList).map String.ofList

/-- the lines of bytes -/
def byteLines (bytes : List UInt8) : List (List UInt8) := linesFrom 10 13 [] bytes

/-- line number `n`, counted from one -/
def line? (text : String) (n : Nat) : Option String :=
  if n = 0 then none else (lines text)[n - 1]?

end AutoLang.Text
