/-! Characters as they are quoted in a message. -/

namespace AutoLang.Text

/-- printable ASCII as it is, other characters by escape or code point -/
def escaped (c : Char) : String :=
  match c with
  | '\t' => "\\t"
  | '\r' => "\\r"
  | '\n' => "\\n"
  | '\'' => "\\'"
  | '"' => "\\\""
  | '\\' => "\\\\"
  | c =>
    if 0x20 ≤ c.toNat ∧ c.toNat ≤ 0x7e then c.toString
    else "\\u\x7b" ++ String.ofList (Nat.toDigits 16 c.toNat) ++ "\x7d"

end AutoLang.Text
