import AutoLang.Diagnostic.Basic
import AutoLang.Token.Basic
import AutoLang.Token.Scan
/-! Tokens on demand. A lexer holds the rest of the text and the tokens of the last lexeme that were
not handed out yet; a new lexeme is read only when none are left. After the end of the text, or after
an error, it hands out the end token for ever. -/

namespace AutoLang

/-- the tokens of the pieces, the first of which begins at `m` -/
def locate (m : Mark) : List Piece → List Token
  | [] => []
  | p :: ps =>
    let after := locate (m.pastAll p.raw) ps
    match p.kind with
    | none => after
    | some kind => ⟨kind, m.span (p.raw.foldr (fun c n => c.utf8Size + n) 0), p.text⟩ :: after

structure Lexer where
  rest : List Char
  mark : Mark
  pending : List Token
  /-- the character before an interpolation -/
  marker : Char
  errors : List Diagnostic
  finished : Bool

namespace Lexer

def defaultMarker : Char := '$'

def ofSource (source : String) : Lexer :=
  ⟨source.toList, .origin, [], defaultMarker, [], false⟩

def endToken (m : Mark) : Token := ⟨.eof, m.span 0, ""⟩

/-- queue the end token here and read no further -/
def finish (l : Lexer) : Lexer :=
  { l with pending := l.pending ++ [endToken l.mark], finished := true }

def halt (l : Lexer) : Halt → Lexer
  | .finished => l.finish
  | .invalid c =>
    finish { l with errors := l.errors ++ [.invalidCharacter (l.mark.span c.utf8Size) c] }
  | .openComment =>
    -- the comment reaches to the end of the text
    finish { l with
      errors := l.errors ++ [.unterminatedComment (l.mark.span 2)]
      mark := l.mark.pastAll l.rest
      rest := [] }

/-- read one lexeme -/
def refill (l : Lexer) : Lexer :=
  let scan := Scan.ofText l.marker l.rest
  let read := { l with
    rest := scan.rest
    mark := l.mark.pastAll (rawOf scan.pieces)
    pending := locate l.mark scan.pieces }
  match scan.halt with
  | none => read
  | some why => read.halt why

/-- hand out a queued token -/
def pop (l : Lexer) : Token × Lexer :=
  match l.pending with
  | [] => (endToken l.mark, l)
  | t :: ts => (t, { l with pending := ts })

def next (l : Lexer) : Token × Lexer :=
  if l.pending.isEmpty && !l.finished then l.refill.pop else l.pop

/-- hand the errors over -/
def takeErrors (l : Lexer) : List Diagnostic × Lexer := (l.errors, { l with errors := [] })

/-- how much text and how many queued tokens are left -/
def size (l : Lexer) : Nat × Nat := (if l.finished then 0 else l.rest.length + 1, l.pending.length)

theorem finished_halt (l : Lexer) (why : Halt) : (l.halt why).finished = true := by
  cases why <;> rfl

/-- a new lexeme shortens the text, or is the last -/
theorem size_refill {l : Lexer} (h : l.finished = false) :
    (l.refill.size).1 < (l.size).1 := by
  unfold refill
  dsimp only
  split
  · rename_i hn
    have := Scan.rest_ofText_lt hn
    simpa [size, h] using this
  · simp [size, finished_halt, h]

theorem size_pop {l : Lexer} (h : l.pop.1.kind ≠ .eof) :
    l.pop.2.size.1 = l.size.1 ∧ l.pop.2.size.2 < l.size.2 := by
  unfold pop at h ⊢
  split <;> simp_all [endToken, size]

/-- a token other than the end leaves less to do -/
theorem size_next {l : Lexer} (h : l.next.1.kind ≠ .eof) :
    Prod.Lex (· < ·) (· < ·) l.next.2.size l.size := by
  unfold next at h ⊢
  split at h
  · have := size_refill (l := l) (by grind)
    have := size_pop h
    simp only [Prod.lex_def]
    grind
  · have := size_pop h
    simp only [Prod.lex_def]
    grind

/-- all tokens to the end token, after those in `read`, and the lexer after them -/
def drain (l : Lexer) (read : Array Token) : Array Token × Lexer :=
  match _made : l.next with
  | (t, l') => if _h : t.kind = .eof then (read.push t, l') else l'.drain (read.push t)
termination_by l.size
decreasing_by
  have := size_next (l := l) (by rw [_made]; exact _h)
  rwa [_made] at this

/-- all tokens of the text, the end token last -/
def tokens (l : Lexer) : List Token := (l.drain #[]).1.toList

/-- the errors of the whole text -/
def allErrors (l : Lexer) : List Diagnostic := (l.drain #[]).2.errors

end Lexer

end AutoLang
