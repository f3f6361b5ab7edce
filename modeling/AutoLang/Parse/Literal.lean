import AutoLang.Decimal.Read
import AutoLang.Token.Basic
import AutoLang.Tree.Basic
/-! The values of literal tokens. A token keeps its spelling; separators, the hexadecimal mark and
the type suffix are taken off here. -/

namespace AutoLang.Parse

/-- drop `suffix` from the end of a text that ends with it -/
def dropSuffix (suffix cs : List Char) : List Char :=
  if suffix.isSuffixOf cs then cs.take (cs.length - suffix.length) else cs

def digitValue (c : Char) : Nat :=
  if c.isDigit then c.toNat - '0'.toNat
  else if 'a' ≤ c && c ≤ 'f' then c.toNat - 'a'.toNat + 10
  else c.toNat - 'A'.toNat + 10

/-- the number that digits denote in a radix -/
def ofRadix (radix : Nat) (cs : List Char) : Nat :=
  cs.foldl (fun n c => radix * n + digitValue c) 0

/-- the number an integer token denotes; one that does not fit in 63 bits reads as zero -/
def natOfText (suffix text : String) : Nat :=
  let cs := text.toList
  let hex := ['0', 'x'].isPrefixOf cs
  let body := dropSuffix suffix.toList (if hex then cs.drop 2 else cs)
  let n := ofRadix (if hex then 16 else 10) (body.filter (· != '_'))
  if n < Nat.pow 2 63 then n else 0

/-- the double a token denotes; a spelling that is no decimal numeral reads as zero -/
def floatOfText (text : String) : Float :=
  let cs := text.toList.filter (· != '_')
  let body := if ['f'].isSuffixOf cs then dropSuffix ['f'] cs else dropSuffix ['d'] cs
  (Decimal.read? body).getD 0.0

/-- the constant a token denotes; an integer that is too large for its type wraps around -/
def literal? (t : Token) : Option Literal :=
  match t.kind with
  | .int => some (.int (Int32.ofNat (natOfText "i" t.text)))
  | .uint => some (.uint (UInt32.ofNat (natOfText "u" t.text)))
  | .u8 => some (.u8 (UInt8.ofNat (natOfText "u8" t.text)))
  | .i8 => some (.i8 (Int8.ofNat (natOfText "i8" t.text)))
  | .float | .double => some (.double (floatOfText t.text))
  | .trueKw => some (.bool true)
  | .falseKw => some (.bool false)
  | .nilKw => some .nil
  | .nullKw => some .null
  | .str => some (.str t.text)
  | .cstr => some (.cstr t.text)
  | .char => some (.char (t.text.toList.head?.getD '\x00'))
  | _ => none

end AutoLang.Parse
