import AutoLang.Proofs.Parse.Decimals
import Mathlib

/-! The constants that tokens spell, told from their spelling alone: a number by its digits, a text or a
character by what the token holds, and four words by their kinds. Not every token of a constant spells
one that can be had: the parser has no problem with an integer that is too large, with a fraction that it
cannot read and with a character that is missing, and goes on with a stopgap. -/

namespace AutoLang

namespace Token

/-- the constant that a token spells, an integer reduced to the width of its type -/
inductive Denotes (t : Token) : Literal → Prop where
  | integer {n : Numeral} {v : Literal} : t.text.toList = n.chars → n.IsKind t.kind →
    Wraps n.value t.kind v → Denotes t v
  | decimal {n : Numeral} {x : Float} : t.kind = .float ∨ t.kind = .double →
    t.text.toList = n.chars → n.IsKind t.kind → n.hex = false → Decimal.IsNearest n.quantity x →
    Denotes t (.double x)
  | yes : t.kind = .trueKw → Denotes t (.bool true)
  | no : t.kind = .falseKw → Denotes t (.bool false)
  | nil : t.kind = .nilKw → Denotes t .nil
  | null : t.kind = .nullKw → Denotes t .null
  | str : t.kind = .str → Denotes t (.str t.text)
  | cstr : t.kind = .cstr → Denotes t (.cstr t.text)
  | char {c : Char} : t.kind = .char → t.text = c.toString → Denotes t (.char c)

/-- the constant that stands in for what a token spells -/
inductive FallsBack (t : Token) : Literal → Prop where
  | tooLarge {n : Numeral} {v : Literal} : t.text.toList = n.chars → n.IsKind t.kind →
    2 ^ 63 ≤ n.value → Wraps 0 t.kind v → FallsBack t v
  /-- behind a fraction an integer's suffix is not taken off -/
  | integerSuffix {n : Numeral} : t.kind = .float ∨ t.kind = .double → t.text.toList = n.chars →
    n.IsKind t.kind → n.hex = false → n.suffix ∉ [[], ['f'], ['d']] → FallsBack t (.double 0.0)
  | hexFraction {n : Numeral} : t.kind = .float ∨ t.kind = .double → t.text.toList = n.chars →
    n.IsKind t.kind → n.hex = true → FallsBack t (.double 0.0)
  /-- the text ends with the opening quote -/
  | noCharacter : t.kind = .char → t.text = "" → FallsBack t (.char '\x00')

end Token

namespace Parse

/-- one letter at the end is all that is taken off behind the hexadecimal mark -/
theorem dropSuffix_mark {c : Char} (hc : c ≠ 'x') (cs : List Char) :
    ∃ more, dropSuffix [c] ('0' :: 'x' :: cs) = '0' :: 'x' :: more := by
  unfold dropSuffix
  split
  · rename_i hends
    obtain ⟨before, hbefore⟩ := List.isSuffixOf_iff_suffix.1 hends
    cases cs with
    | nil =>
      have hlast := congrArg List.getLast? hbefore
      simp [hc] at hlast
    | cons d ds => exact ⟨(d :: ds).take ds.length, by simp⟩
  · exact ⟨cs, rfl⟩

/-- behind the hexadecimal mark no fraction is read -/
theorem floatOfText_mark {text : String} {cs : List Char} (h : text.toList = '0' :: 'x' :: cs) :
    floatOfText text = 0.0 := by
  unfold floatOfText
  dsimp only
  rw [h, List.filter_cons_of_pos (by decide), List.filter_cons_of_pos (by decide)]
  obtain ⟨more, hbody⟩ : ∃ more, (if ['f'].isSuffixOf ('0' :: 'x' :: cs.filter (· != '_'))
      then dropSuffix ['f'] ('0' :: 'x' :: cs.filter (· != '_'))
      else dropSuffix ['d'] ('0' :: 'x' :: cs.filter (· != '_'))) = '0' :: 'x' :: more := by
    split
    · exact dropSuffix_mark (by decide) _
    · exact dropSuffix_mark (by decide) _
  rw [hbody]
  rfl

end Parse

/-- a character token holds one character, or none at the end of a text -/
theorem Piece.Made.character_text {p : Piece} (h : p.Made) (hp : p.kind = some .char) :
    p.text = "" ∨ ∃ c : Char, p.text = c.toString := by
  cases h with
  | blank => cases hp
  | number cs hc =>
    obtain ⟨n, k, hn, hkind⟩ := Lexeme.number_parts hc cs
    obtain ⟨k', hsuffix, hk⟩ := hkind.suffix
    rw [hn] at hp
    obtain rfl := Option.some.inj hp
    have each : ∀ p ∈ Numeral.suffixes, p.2 ≠ .char := by decide
    split at hk
    · cases hk
    · exact absurd hk.symm (each _ hsuffix)
  | string cs hopening =>
    obtain rfl := Option.some.inj hp
    cases hopening
  | character cs =>
    unfold Lexeme.character
    dsimp only
    cases (Lexeme.charBody cs).2 with
    | none => exact .inl rfl
    | some c => exact .inr ⟨c, rfl⟩
  | plain raw hplain =>
    obtain rfl := Option.some.inj hp
    cases hplain

section Values

variable {source : String} {marker : Char} {t : Token} {v : Literal}

theorem Lexer.character_of_token (ht : t ∈ { ofSource source with marker := marker }.tokens)
    (hk : t.kind = .char) : t.text = "" ∨ ∃ c : Char, t.text = c.toString := by
  obtain ⟨p, -, -, hmade, hkind, htext, -⟩ := piece_of_token ht (by rw [hk]; decide)
  rw [← htext]
  exact hmade.character_text (hkind.trans (congrArg some hk))

namespace Token

theorem value_of_integer (ht : t ∈ { Lexer.ofSource source with marker := marker }.tokens)
    (hk : t.kind.isInteger) (hv : Parse.literal? t = some v) : t.Denotes v ∨ t.FallsBack v := by
  obtain ⟨n, hchars, hkind⟩ := Lexer.numeral_of_token ht (TokenKind.isNumber_of_isInteger hk)
  obtain ⟨w, hw, hwraps⟩ := Numeral.wraps_literal? hchars hkind hk
  obtain rfl : v = w := Option.some.inj (hv.symm.trans hw)
  split at hwraps
  · exact .inl (.integer hchars hkind hwraps)
  · exact .inr (.tooLarge hchars hkind (by omega) hwraps)

theorem value_of_float (ht : t ∈ { Lexer.ofSource source with marker := marker }.tokens)
    (hk : t.kind = .float ∨ t.kind = .double) :
    t.Denotes (.double (Parse.floatOfText t.text)) ∨
      t.FallsBack (.double (Parse.floatOfText t.text)) := by
  have hnumber : t.kind.isNumber := by rcases hk with hk | hk <;> rw [hk] <;> rfl
  obtain ⟨n, hchars, hkind⟩ := Lexer.numeral_of_token ht hnumber
  cases hhex : n.hex with
  | true =>
    have hmark : t.text.toList = '0' :: 'x' :: (n.whole ++ n.behindPoint ++ n.suffix) := by
      rw [hchars, Numeral.chars, Numeral.mark, hhex, if_pos rfl]
      simp only [List.append_assoc, List.cons_append, List.nil_append]
    rw [Parse.floatOfText_mark hmark]
    exact .inr (.hexFraction hk hchars hkind hhex)
  | false =>
    have hread := Numeral.floatOfText_eq hchars hkind hk hhex
    split at hread
    · exact .inl (.decimal hk hchars hkind hhex hread)
    · rename_i hsuffix
      rw [hread]
      exact .inr (.integerSuffix hk hchars hkind hhex hsuffix)

theorem value_of_character (ht : t ∈ { Lexer.ofSource source with marker := marker }.tokens)
    (hk : t.kind = .char) : t.Denotes (.char (t.text.toList.head?.getD '\x00')) ∨
      t.FallsBack (.char (t.text.toList.head?.getD '\x00')) := by
  rcases Lexer.character_of_token ht hk with htext | ⟨c, htext⟩
  · rw [htext]
    exact .inr (.noCharacter hk htext)
  · have hhead : t.text.toList.head?.getD '\x00' = c := by rw [htext]; simp
    rw [hhead]
    exact .inl (.char hk htext)

/-- what the parser takes a token of a text for is what the token spells, or the stopgap for it -/
theorem value_of_literal? (ht : t ∈ { Lexer.ofSource source with marker := marker }.tokens)
    (hv : Parse.literal? t = some v) : t.Denotes v ∨ t.FallsBack v := by
  have hread := hv
  unfold Parse.literal? at hread
  split at hread
  case h_1 hk | h_2 hk | h_3 hk | h_4 hk => exact value_of_integer ht (by rw [hk]; rfl) hv
  case h_5 hk =>
    cases hread
    exact value_of_float ht (.inl hk)
  case h_6 hk =>
    cases hread
    exact value_of_float ht (.inr hk)
  case h_7 hk =>
    cases hread
    exact .inl (.yes hk)
  case h_8 hk =>
    cases hread
    exact .inl (.no hk)
  case h_9 hk =>
    cases hread
    exact .inl (.nil hk)
  case h_10 hk =>
    cases hread
    exact .inl (.null hk)
  case h_11 hk =>
    cases hread
    exact .inl (.str hk)
  case h_12 hk =>
    cases hread
    exact .inl (.cstr hk)
  case h_13 hk =>
    cases hread
    exact value_of_character ht hk
  case h_14 => cases hread

end Token

end Values

end AutoLang
