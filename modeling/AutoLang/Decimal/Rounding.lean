/-! Rounding a quotient of natural numbers to the nearest whole number, a half to the even one. -/

namespace AutoLang.Decimal

/-- `num / den` rounded; the quotient's remainder decides, and on a tie the quotient's parity -/
def nearest (num den : Nat) : Nat :=
  let q := num / den
  let r := num % den
  if 2 * r < den then q
  else if den < 2 * r then q + 1
  else q + q % 2

end AutoLang.Decimal
