import AutoLang.Parse.State
import AutoLang.Tree.Ty
/-! Types in a source text: a name, `[]` before the type of the elements, or `*` before the type
that is pointed at. -/

namespace AutoLang.Parse

/-- a type, if one begins here; an element type that is missing is unknown -/
def tyWithin : Nat → Parser (Option Ty)
  | 0 => return none
  | depth + 1 => do
    match ← Parser.kind with
    | .ident => return some (.ofName (← Parser.advance).text)
    | .openSquare =>
      let _ ← Parser.advance
      let _ ← Parser.expect .closeSquare
      return some (.arrayOf ((← tyWithin depth).getD (.simple .unknown)))
    | .star =>
      let _ ← Parser.advance
      return some (.ptrTo ((← tyWithin depth).getD (.simple .unknown)))
    | _ => return none

def ty : Parser (Option Ty) := do tyWithin (← get).remaining

end AutoLang.Parse
