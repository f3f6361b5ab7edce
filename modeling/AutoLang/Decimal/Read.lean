/-! Decimal numerals read as doubles, rounded to the nearest one. -/

namespace AutoLang.Decimal

/-- the value of a run of decimal digits -/
def ofDigits (cs : List Char) : Nat := cs.foldl (fun n c => 10 * n + (c.toNat - '0'.toNat)) 0

/-- digits with at most one point among them -/
def read? (cs : List Char) : Option Float :=
  let whole := cs.takeWhile Char.isDigit
  let fraction := match cs.drop whole.length with
    | [] => some []
    | '.' :: ds => if ds.all Char.isDigit then some ds else none
    | _ => none
  match fraction with
  | none => none
  | some ds =>
    if whole.isEmpty && ds.isEmpty then none
    else some (Float.ofScientific (ofDigits (whole ++ ds)) true ds.length)

end AutoLang.Decimal
