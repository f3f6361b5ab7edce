import AutoLang.Decimal.Rounding
/-! Doubles written with a fixed number of significant decimal digits. The value is taken apart into
`m * 2 ^ q` and rounded exactly; numbers far from one get an exponent, and zeros at the end of a
fraction are dropped. -/

namespace AutoLang.Decimal

/-- a double taken apart; a finite one is `m * 2 ^ q` with its sign -/
inductive Parts where
  | nan
  | infinite (negative : Bool)
  | finite (negative : Bool) (m : Nat) (q : Int)
deriving DecidableEq, Repr

def Parts.ofBits (bits : Nat) : Parts :=
  let negative := decide (bits / Nat.pow 2 63 % 2 = 1)
  let exponent : Nat := bits / Nat.pow 2 52 % 2048
  let fraction : Nat := bits % Nat.pow 2 52
  if exponent = 2047 then (if fraction = 0 then .infinite negative else .nan)
  else if exponent = 0 then .finite negative fraction (-1074)
  else .finite negative (Nat.pow 2 52 + fraction) ((exponent : Int) - 1075)

def Parts.ofFloat (x : Float) : Parts := .ofBits x.toBits.toNat

/-- `digits` is a whole number whose first digit counts `10 ^ exponent` -/
structure Scientific where
  digits : Nat
  exponent : Int
deriving DecidableEq, Repr

def digitCount (n : Nat) : Nat := (Nat.toDigits 10 n).length

/-- the exponent of the first digit of a positive quotient `num / den` -/
def leadingExponent (num den : Nat) : Int :=
  if den ≤ num then (digitCount (num / den) : Int) - 1
  -- the least `k` with `den ≤ num * 10 ^ k` is the number of digits of the whole part below it
  else -(digitCount ((den - 1) / num) : Int)

/-- `num / den` rounded to `places` significant digits -/
def Scientific.ofQuotient (places num den : Nat) : Scientific :=
  let e := leadingExponent num den
  let shift := (places : Int) - 1 - e
  let digits := nearest (num * Nat.pow 10 shift.toNat) (den * Nat.pow 10 (-shift).toNat)
  -- rounding up may reach the next power of ten
  if digits < Nat.pow 10 places then ⟨digits, e⟩ else ⟨digits / 10, e + 1⟩

/-- how numbers are written -/
structure NumberFormat where
  places : Nat
  /-- exponents below this one are written out -/
  leastPlain : Int
  /-- exponents from this one on are written out -/
  leastLarge : Int
  exponentWidth : Nat

def leftPad (width : Nat) (cs : List Char) : List Char :=
  List.replicate (width - cs.length) '0' ++ cs

/-- `digits / 10 ^ decimals`, without zeros at the end of the fraction -/
def fixedPoint (digits decimals : Nat) : List Char :=
  let whole := Nat.toDigits 10 (digits / Nat.pow 10 decimals)
  let fraction := leftPad decimals (Nat.toDigits 10 (digits % Nat.pow 10 decimals))
  let kept := (fraction.reverse.dropWhile (· == '0')).reverse
  if decimals = 0 || kept.isEmpty then whole else whole ++ '.' :: kept

def NumberFormat.write (f : NumberFormat) (s : Scientific) : List Char :=
  if s.exponent < f.leastPlain || f.leastLarge ≤ s.exponent then
    let sign := if s.exponent < 0 then '-' else '+'
    fixedPoint s.digits (f.places - 1)
      ++ 'e' :: sign :: leftPad f.exponentWidth (Nat.toDigits 10 s.exponent.natAbs)
  else fixedPoint s.digits ((f.places : Int) - 1 - s.exponent).toNat

/-- the text of a double taken apart -/
def NumberFormat.writeParts (f : NumberFormat) : Parts → String
  | .nan => "nan"
  | .infinite negative => if negative then "-inf" else "inf"
  | .finite negative m q =>
    let magnitude :=
      if m = 0 then ['0']
      else f.write (.ofQuotient f.places (m * Nat.pow 2 q.toNat) (Nat.pow 2 (-q).toNat))
    String.ofList (if negative then '-' :: magnitude else magnitude)

/-- six significant digits, plain from `10 ^ -4` up to below `10 ^ 6` -/
def general : NumberFormat := ⟨6, -4, 6, 2⟩

def text (x : Float) : String := general.writeParts (.ofFloat x)

end AutoLang.Decimal
