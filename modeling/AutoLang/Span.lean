/-! Places in a source text. Lines count from one; columns, offsets and lengths count UTF-8
bytes, columns and offsets from zero. A `Mark` is a point, a `Span` a stretch of text. -/

namespace AutoLang

structure Span where
  line : Nat
  column : Nat
  offset : Nat
  length : Nat
deriving DecidableEq, Repr, Inhabited

namespace Span

/-- the span of a node that was not read from a text -/
def nowhere : Span := ⟨0, 0, 0, 0⟩

/-- the offset just past the stretch -/
def stop (s : Span) : Nat := s.offset + s.length

/-- the least stretch over both, with the line and column of the earlier one -/
def merge (s t : Span) : Span :=
  let first := if s.offset ≤ t.offset then s else t
  { first with length := max s.stop t.stop - first.offset }

/-- line and column as a reader counts them, both from one -/
def place (s : Span) : String := s!"{s.line}:{s.column + 1}"

/-- all four numbers -/
def exact (s : Span) : String := s!"{s.line}:{s.column}@{s.offset}+{s.length}"

end Span

/-- a point in the text, before the character at `offset` -/
structure Mark where
  line : Nat
  column : Nat
  offset : Nat
deriving DecidableEq, Repr, Inhabited

namespace Mark

/-- the beginning of a text -/
def origin : Mark := ⟨1, 0, 0⟩

/-- the point after one more character -/
def past (m : Mark) (c : Char) : Mark :=
  if c = '\n' then ⟨m.line + 1, 0, m.offset + c.utf8Size⟩
  else ⟨m.line, m.column + c.utf8Size, m.offset + c.utf8Size⟩

def pastAll (m : Mark) (cs : List Char) : Mark := cs.foldl past m

/-- the stretch of `length` bytes that begins here -/
def span (m : Mark) (length : Nat) : Span := ⟨m.line, m.column, m.offset, length⟩

end Mark

end AutoLang
