import AutoLang.Proofs.Token.Written
import Mathlib

/-! Numbers as they are written: the hexadecimal mark, digits with separators among them, perhaps a
fraction, and a suffix for the type. Every token of a number, wherever in a text it stands, is spelled
like that, and its kind follows from the suffix and from whether there is a fraction. -/

namespace AutoLang

/-- the kinds of numbers -/
def TokenKind.isNumber : TokenKind → Bool
  | int | uint | u8 | i8 | float | double => true
  | _ => false

theorem TokenKind.isConstant_of_isNumber {k : TokenKind} (h : k.isNumber) :
    k.isConstant = true ∧ k.opening? = none := by
  cases k <;> first | exact ⟨rfl, rfl⟩ | cases h

/-- the parts of a number as they are written; digits may have separators between them -/
structure Numeral where
  hex : Bool
  whole : List Char
  fraction : Option (List Char)
  suffix : List Char

namespace Numeral

def isDigit (hex : Bool) (c : Char) : Bool := c.isDigit || (hex && Lexeme.isHexDigit c)

/-- digits and separators -/
def IsRun (hex : Bool) (cs : List Char) : Prop := ∀ c ∈ cs, c = '_' ∨ isDigit hex c

def mark (n : Numeral) : List Char := if n.hex then ['0', 'x'] else []

/-- the fraction, with the point before it -/
def behindPoint (n : Numeral) : List Char := (n.fraction.map ('.' :: ·)).getD []

def chars (n : Numeral) : List Char := n.mark ++ n.whole ++ n.behindPoint ++ n.suffix

/-- the suffixes that a number may have, and the kinds they stand for -/
def suffixes : List (List Char × TokenKind) :=
  [([], .int), (['i'], .int), (['u'], .uint), (['u', '8'], .u8), (['i', '8'], .i8), (['f'], .float),
    (['d'], .double)]

/-- a number of kind `k`: a decimal one begins with a digit, and a fraction makes a float -/
structure IsKind (n : Numeral) (k : TokenKind) : Prop where
  whole : IsRun n.hex n.whole
  starts : n.hex = false → ∃ c ∈ n.whole.head?, c.isDigit
  fraction : ∀ f ∈ n.fraction, IsRun n.hex f ∧ ∃ c ∈ f.head?, c.isDigit
  suffix : ∃ k', (n.suffix, k') ∈ suffixes ∧ k = if n.fraction.isSome then .float else k'

end Numeral

namespace Lexeme

open Numeral (IsRun)

variable {hex : Bool} {c : Char} {cs : List Char}

theorem isRun_cons (hc : c = '_' ∨ Numeral.isDigit hex c) (hcs : IsRun hex cs) :
    IsRun hex (c :: cs) :=
  List.forall_mem_cons.2 ⟨hc, hcs⟩

/-- what the reader of digits takes -/
theorem isDigit_of_digitRun (h : (c == '_' || c.isDigit || (hex && isHexDigit c)) = true) :
    c = '_' ∨ Numeral.isDigit hex c := by
  rw [Bool.or_assoc, Bool.or_eq_true, beq_iff_eq] at h
  exact h

/-- behind the point there are digits only -/
theorem digitRun_behind (hex : Bool) (cs : List Char) :
    IsRun hex (digitRun hex true cs).1 ∧ (digitRun hex true cs).2 = true := by
  induction cs with
  | nil => exact ⟨List.forall_mem_nil _, rfl⟩
  | cons c cs ih =>
    rw [digitRun]
    split
    · rename_i hc
      exact ⟨isRun_cons (isDigit_of_digitRun hc) ih.1, ih.2⟩
    · rw [Bool.not_true, Bool.and_false, Bool.false_and, if_neg Bool.false_ne_true]
      exact ⟨List.forall_mem_nil _, rfl⟩

/-- digits, and perhaps a point and a fraction that begins with a digit -/
theorem digitRun_parts (hex : Bool) (cs : List Char) : ∃ whole fraction,
    digitRun hex false cs =
        (whole ++ (Option.map ('.' :: ·) fraction).getD [], fraction.isSome) ∧
      IsRun hex whole ∧ ∀ f ∈ fraction, IsRun hex f ∧ ∃ c ∈ f.head?, c.isDigit := by
  induction cs with
  | nil => exact ⟨[], none, rfl, List.forall_mem_nil _, nofun⟩
  | cons c cs ih =>
    rw [digitRun]
    split
    · rename_i hc
      obtain ⟨whole, fraction, hrun, hwhole, hfraction⟩ := ih
      rw [hrun]
      exact ⟨c :: whole, fraction, rfl, isRun_cons (isDigit_of_digitRun hc) hwhole, hfraction⟩
    · split
      · rename_i hpoint
        simp only [Bool.not_false, Bool.and_true, Bool.and_eq_true, beq_iff_eq] at hpoint
        obtain ⟨rfl, hnext⟩ := hpoint
        obtain ⟨hrun, hdotted⟩ := digitRun_behind hex cs
        refine ⟨[], some (digitRun hex true cs).1, ?_, List.forall_mem_nil _, ?_⟩
        · change ('.' :: (digitRun hex true cs).1, (digitRun hex true cs).2) = _
          rw [hdotted]
          rfl
        · rintro f ⟨⟩
          refine ⟨hrun, ?_⟩
          -- the digit behind the point is taken
          cases cs with
          | nil => cases hnext
          | cons d ds =>
            have hd : d.isDigit = true := hnext
            refine ⟨d, ?_, hd⟩
            rw [digitRun, hd, Bool.or_true, Bool.true_or, if_pos rfl]
            rfl
      · exact ⟨[], none, rfl, List.forall_mem_nil _, nofun⟩

theorem suffix_mem (cs : List Char) : ((suffix cs).1, (suffix cs).2) ∈ Numeral.suffixes := by
  unfold suffix
  split <;> decide

/-- what is read from a digit on is a number of the kind it gets -/
theorem number_parts (hc : c.isDigit) (cs : List Char) :
    ∃ (n : Numeral) (k : TokenKind), number c cs = .plain k n.chars ∧ n.IsKind k := by
  obtain ⟨whole, fraction, hrun, hwhole, hfraction⟩ := digitRun_parts
    (c == '0' && cs.head? == some 'x')
    ((c :: cs).drop (if (c == '0' && cs.head? == some 'x') = true then [c, 'x'] else [c]).length)
  unfold number
  dsimp only
  rw [hrun]
  dsimp only
  generalize (c :: cs).drop (_ + _) = after
  have hsuffix := suffix_mem after
  generalize suffix after = tail at hsuffix
  cases hhex : c == '0' && cs.head? == some 'x' with
  | true =>
    rw [hhex] at hwhole hfraction
    rw [Bool.and_eq_true, beq_iff_eq] at hhex
    refine ⟨⟨true, whole, fraction, tail.1⟩, _, ?_, hwhole, nofun, hfraction, _, hsuffix, rfl⟩
    rw [hhex.1, Numeral.chars, Numeral.mark, Numeral.behindPoint, if_pos rfl, if_pos rfl]
    simp only [List.append_assoc]
  | false =>
    rw [hhex] at hwhole hfraction
    have hdigit : c = '_' ∨ Numeral.isDigit false c := .inr (by rw [Numeral.isDigit, hc]; rfl)
    refine ⟨⟨false, c :: whole, fraction, tail.1⟩, _, ?_, isRun_cons hdigit hwhole,
      fun _ => ⟨c, rfl, hc⟩, hfraction, _, hsuffix, rfl⟩
    rw [Numeral.chars, Numeral.mark, Numeral.behindPoint, if_neg Bool.false_ne_true,
      if_neg Bool.false_ne_true]
    simp only [List.append_assoc, List.nil_append, List.cons_append]

end Lexeme

/-- a piece of a number is written as one -/
theorem Piece.Made.numeral {p : Piece} {k : TokenKind} (h : p.Made) (hp : p.kind = some k)
    (hk : k.isNumber) : ∃ n : Numeral, p.text.toList = n.chars ∧ n.IsKind k := by
  cases h with
  | blank raw => cases hp
  | number cs hc =>
    obtain ⟨n, k', hn, hkind⟩ := Lexeme.number_parts hc cs
    rw [hn] at hp ⊢
    obtain rfl := Option.some.inj hp
    exact ⟨n, String.toList_ofList, hkind⟩
  | string cs hopening =>
    obtain rfl := Option.some.inj hp
    rw [(TokenKind.isConstant_of_isNumber hk).2] at hopening
    cases hopening
  | character cs =>
    obtain rfl := Option.some.inj hp
    cases hk
  | plain raw hplain =>
    obtain rfl := Option.some.inj hp
    rw [(TokenKind.isConstant_of_isNumber hk).1] at hplain
    cases hplain

/-- a token of a number spells one, and it is of the kind that its parts ask for -/
theorem Lexer.numeral_of_token {source : String} {marker : Char} {t : Token}
    (ht : t ∈ { ofSource source with marker := marker }.tokens) (hk : t.kind.isNumber) :
    ∃ n : Numeral, t.text.toList = n.chars ∧ n.IsKind t.kind := by
  obtain ⟨p, -, -, hmade, hkind, htext, -⟩ := piece_of_token ht (by rintro he; rw [he] at hk; cases hk)
  rw [← htext]
  exact hmade.numeral hkind hk

end AutoLang
