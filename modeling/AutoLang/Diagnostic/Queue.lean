import AutoLang.Diagnostic.Basic
/-! Diagnostics collected while a text is read. Reading goes on after a mistake and may trip over
the same mistake again, so the queue keeps one grammatical error per line in a row, and no more
errors than its limit. Flushing hands the diagnostics out in the order of the text. -/

namespace AutoLang

structure DiagnosticQueue where
  kept : List Diagnostic
  errorCount : Nat
  /-- the line of the last grammatical error that was kept -/
  lastLine : Option Nat
  /-- how many errors are kept; zero for all of them -/
  limit : Nat
deriving DecidableEq, Repr, Inhabited

namespace DiagnosticQueue

def defaultLimit : Nat := 32

def empty (limit : Nat) : DiagnosticQueue := ⟨[], 0, none, limit⟩

def limitReached (q : DiagnosticQueue) : Bool := 0 < q.limit && q.limit ≤ q.errorCount

/-- whether an error repeats the line of the last one -/
def repeats (q : DiagnosticQueue) (d : Diagnostic) : Bool :=
  let line := d.primarySpan?.map (·.line)
  d.code.isGrammatical && line.isSome && line == q.lastLine

/-- the queue after `d`, and whether `d` was kept -/
def push (q : DiagnosticQueue) (d : Diagnostic) : Bool × DiagnosticQueue :=
  if !d.isError then (true, { q with kept := q.kept ++ [d] })
  else if q.limitReached || q.repeats d then (false, q)
  else
    let line := d.primarySpan?.map (·.line)
    (true, { q with
      kept := q.kept ++ [d]
      errorCount := q.errorCount + 1
      lastLine := if d.code.isGrammatical then line else q.lastLine })

/-- order by line and column; what has no place comes first -/
def notAfter (d e : Diagnostic) : Bool :=
  match d.primarySpan?, e.primarySpan? with
  | none, _ => true
  | some _, none => false
  | some s, some t => s.line < t.line || (s.line == t.line && s.column ≤ t.column)

/-- everything kept, in the order of the text, and the queue emptied -/
def flush (q : DiagnosticQueue) : List Diagnostic × DiagnosticQueue :=
  (q.kept.mergeSort notAfter, empty q.limit)

end DiagnosticQueue

end AutoLang
