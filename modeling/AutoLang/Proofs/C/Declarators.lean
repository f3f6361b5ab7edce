import AutoLang.Proofs.C.Indentation
import Mathlib

/-! The names that the lines of a C program declare. A reader takes a line for a declaration if it begins
with two words between which nothing stands but stars and a blank; the name is the last word before the
equals sign. No line that the compiler writes for anything else looks like that: an operand is followed
by an operator, and `return` is not taken for a type. -/

namespace AutoLang.C

/-- the last word of a text -/
def lastWord (text : List Char) : String :=
  String.ofList ((text.reverse.dropWhile (!Lexeme.isWordChar ·)).takeWhile Lexeme.isWordChar).reverse

/-- the name that a line declares -/
def declared? (line : List Char) : Option String :=
  let word := line.takeWhile Lexeme.isWordChar
  match (line.dropWhile Lexeme.isWordChar).dropWhile (· == '*') with
  | ' ' :: c :: more =>
    if word.head?.any Lexeme.isWordStart ∧ word ≠ "return".toList ∧ Lexeme.isWordStart c then
      some (lastWord ((c :: more).takeWhile (· != '=')))
    else none
  | _ => none

/-- the names of the parameters in the first line of a function -/
def parameters (line : List Char) : List String :=
  let inner := ((line.dropWhile (· != '(')).drop 1).takeWhile (· != ')')
  if inner = "void".toList then [] else (inner.splitOn ',').map lastWord

section Words

variable {n : String} {front tail more : List Char} {c : Char}

theorem isWordChar_of_isIdentifier (hn : isIdentifier n = true) : ∀ c ∈ n.toList, Lexeme.isWordChar c := by
  obtain ⟨x, xs, hx, hstart, hxs⟩ := exists_cons_of_isIdentifier hn
  rw [hx]
  exact List.forall_mem_cons.2 ⟨Lexeme.isWordChar_of_isWordStart hstart, hxs⟩

/-- where a word ends -/
theorem takeWhile_word (hn : ∀ c ∈ front, Lexeme.isWordChar c)
    (hmore : ∀ c ∈ more.head?, Lexeme.isWordChar c = false) :
    (front ++ more).takeWhile Lexeme.isWordChar = front ∧
      (front ++ more).dropWhile Lexeme.isWordChar = more := by
  rw [List.takeWhile_append_of_pos hn, List.dropWhile_append_of_pos hn]
  cases more with
  | nil => simp
  | cons c cs => simp [hmore c rfl]

/-- a word between other characters -/
theorem lastWord_eq (hn : isIdentifier n = true) (hfront : ∀ c ∈ front.getLast?, Lexeme.isWordChar c = false)
    (htail : ∀ c ∈ tail, Lexeme.isWordChar c = false) : lastWord (front ++ (n.toList ++ tail)) = n := by
  have hall : ∀ c ∈ n.toList.reverse, Lexeme.isWordChar c :=
    fun c hc => isWordChar_of_isIdentifier hn c (List.mem_reverse.1 hc)
  have hdrop : ∀ c ∈ tail.reverse, (!Lexeme.isWordChar c) = true := by
    intro c hc
    rw [htail c (List.mem_reverse.1 hc)]
    rfl
  obtain ⟨x, xs, hx, -⟩ := exists_cons_of_isIdentifier hn
  have hne : n.toList.reverse ≠ [] := by simp [hx]
  obtain ⟨y, ys, hy⟩ := List.exists_cons_of_ne_nil hne
  have hfirst : Lexeme.isWordChar y := hall y (hy ▸ List.mem_cons_self)
  have hword : (front ++ (n.toList ++ tail)).reverse.dropWhile (!Lexeme.isWordChar ·) =
      n.toList.reverse ++ front.reverse := by
    rw [List.reverse_append, List.reverse_append, List.append_assoc, List.dropWhile_append_of_pos hdrop, hy,
      List.cons_append, List.dropWhile_cons_of_neg (by simp [hfirst])]
  have hstop : ∀ c ∈ front.reverse.head?, Lexeme.isWordChar c = false :=
    fun c hc => hfront c (List.head?_reverse ▸ hc)
  rw [lastWord, hword, (takeWhile_word hall hstop).1, List.reverse_reverse, String.ofList_toList]

theorem dropWhile_stars (stars : ℕ) (hc : c ≠ '*') (cs : List Char) :
    (List.replicate stars '*' ++ c :: cs).dropWhile (· == '*') = c :: cs := by
  induction stars with
  | zero => simp [hc]
  | succ stars ih => simpa [List.replicate_succ] using ih

end Words

section Undeclaring

variable {text n : String} {more : List Char} {c : Char} {cs : List Char}

/-- what does not begin with a word -/
theorem declared?_of_head (hc : Lexeme.isWordStart c = false) (cs : List Char) :
    declared? (c :: cs) = none := by
  have hword : ((c :: cs).takeWhile Lexeme.isWordChar).head?.any Lexeme.isWordStart = false := by
    rw [List.takeWhile_cons]
    split
    · exact hc
    · rfl
  unfold declared?
  dsimp only
  split
  · rw [if_neg (by simp [hword])]
  · rfl

/-- a word, and what stands behind it -/
theorem declared?_word (hn : isIdentifier n = true) (hmore : ∀ c ∈ more.head?, Lexeme.isWordChar c = false) :
    declared? (n.toList ++ more) = match more.dropWhile (· == '*') with
      | ' ' :: c :: more =>
        if n ≠ "return" ∧ Lexeme.isWordStart c then some (lastWord ((c :: more).takeWhile (· != '=')))
        else none
      | _ => none := by
  obtain ⟨x, xs, hx, hstart, -⟩ := exists_cons_of_isIdentifier hn
  obtain ⟨htake, hdrop⟩ := takeWhile_word (isWordChar_of_isIdentifier hn) hmore
  have hfirst : n.toList.head?.any Lexeme.isWordStart = true := by simp [hx, hstart]
  unfold declared?
  rw [htake, hdrop]
  simp only [hfirst, true_and, ne_eq, String.toList_inj]

/-- what may stand behind an operand: no word, no star, and no word behind a blank -/
def IsBehind (more : List Char) : Prop :=
  (∀ c ∈ more.head?, Lexeme.isWordChar c = false ∧ c ≠ '*') ∧
    (more.head? = some ' ' → ∀ c ∈ more[1]?, Lexeme.isWordStart c = false)

theorem IsBehind.mark (hc : Lexeme.isWordChar c = false ∧ c ≠ '*' ∧ c ≠ ' ') (cs : List Char) :
    IsBehind (c :: cs) := by
  constructor
  · rintro d ⟨⟩
    exact ⟨hc.1, hc.2.1⟩
  · rintro ⟨⟩
    exact absurd rfl hc.2.2

theorem IsBehind.blank (hc : Lexeme.isWordStart c = false) (cs : List Char) : IsBehind (' ' :: c :: cs) := by
  constructor
  · rintro d ⟨⟩
    exact ⟨rfl, by decide⟩
  · rintro - d ⟨⟩
    exact hc

/-- whatever stands behind it as behind an operand, the text begins no declaration -/
def Undeclaring (text : String) : Prop :=
  ∀ more, IsBehind more → declared? (text.toList ++ more) = none

namespace Undeclaring

theorem of_cons (htext : text.toList = c :: cs) (hc : Lexeme.isWordStart c = false) : Undeclaring text :=
  fun more _ => htext ▸ declared?_of_head hc (cs ++ more)

theorem word (hn : isIdentifier text = true) : Undeclaring text := by
  intro more hmore
  rw [declared?_word hn fun c hc => (hmore.1 c hc).1]
  cases more with
  | nil => rfl
  | cons c cs =>
    have hstar := (hmore.1 c rfl).2
    rw [List.dropWhile_cons_of_neg (by simp [hstar])]
    split
    · rename_i d ds heq
      obtain ⟨rfl, rfl⟩ := List.cons.inj heq
      have hd := hmore.2 rfl d rfl
      rw [if_neg (by simp [hd])]
    · rfl

theorem append (h : Undeclaring text) {tail : String} (htail : ∀ more, IsBehind (tail.toList ++ more)) :
    Undeclaring (text ++ tail) := by
  intro more _
  rw [String.toList_append, List.append_assoc]
  exact h _ (htail more)

theorem inParens (text : String) : Undeclaring (inParens text) := by
  have htext : (C.inParens text).toList = '(' :: (text ++ ")").toList := by
    simp [C.inParens, String.toList_append]
  exact of_cons htext rfl

theorem inBraces (text : String) : Undeclaring (inBraces text) := by
  have htext : (C.inBraces text).toList = '\x7b' :: (text ++ "\x7d").toList := by
    simp [C.inBraces, String.toList_append]
  exact of_cons htext rfl

theorem asOperand (h : Undeclaring text) (e : Expr) : Undeclaring (asOperand e text) := by
  unfold C.asOperand
  split
  · exact inParens text
  · exact h

end Undeclaring

end Undeclaring

section Constants

theorem isWordStart_of_isDigit {c : Char} (h : c.isDigit) : Lexeme.isWordStart c = false := by
  by_contra hstart
  rw [Bool.not_eq_false] at hstart
  rw [isDigit_of_isWordStart hstart] at h
  cases h

theorem exists_digit (n : ℕ) : ∃ c cs, (toString n).toList = c :: cs ∧ c.isDigit := by
  have hdigits : (toString n).toList = Nat.toDigits 10 n := String.toList_ofList
  obtain ⟨c, cs, hcs⟩ := List.exists_cons_of_ne_nil (Nat.toDigits_ne_nil (n := n) (b := 10))
  exact ⟨c, cs, hdigits.trans hcs, Decimal.isDigit_toDigits n c (hcs ▸ List.mem_cons_self)⟩

theorem undeclaring_int (n : ℤ) : Undeclaring (toString n) := by
  cases n with
  | ofNat n =>
    obtain ⟨c, cs, hcs, hc⟩ := exists_digit n
    exact .of_cons hcs (isWordStart_of_isDigit hc)
  | negSucc n =>
    have htext : (toString (Int.negSucc n)).toList = '-' :: (toString (n + 1)).toList :=
      String.toList_append
    exact .of_cons htext rfl

theorem undeclaring_byte (b : UInt8) : Undeclaring ("0x" ++ Value.hexByte b) := by
  have htext : ("0x" ++ Value.hexByte b).toList = '0' :: 'x' :: (Value.hexByte b).toList :=
    String.toList_append
  exact .of_cons htext rfl

theorem undeclaring_parts (f : Decimal.NumberFormat) (p : Decimal.Parts) : Undeclaring (f.writeParts p) := by
  cases p with
  | nan => exact (.word (by decide) : Undeclaring "nan")
  | infinite negative =>
    cases negative with
    | false => exact (.word (by decide) : Undeclaring "inf")
    | true =>
      have htext : "-inf".toList = '-' :: "inf".toList := by decide
      exact (.of_cons htext rfl : Undeclaring "-inf")
  | finite negative m q =>
    have hmagnitude {c : Char} {cs : List Char} (hc : c.isDigit) :
        Undeclaring (String.ofList (if negative then '-' :: c :: cs else c :: cs)) := by
      cases negative with
      | false => exact .of_cons String.toList_ofList (isWordStart_of_isDigit hc)
      | true => exact .of_cons String.toList_ofList rfl
    unfold Decimal.NumberFormat.writeParts
    dsimp only
    by_cases hm : m = 0
    · rw [if_pos hm]
      exact hmagnitude rfl
    · rw [if_neg hm, ← f.chars_spelling]
      have hproper := (f.isTidy_spelling
        (.ofQuotient f.places (m * Nat.pow 2 q.toNat) (Nat.pow 2 (-q).toNat))).toIsProper
      obtain ⟨c, cs, hcs⟩ := List.exists_cons_of_ne_nil hproper.whole.1
      rw [Decimal.Spelling.chars, hcs]
      exact hmagnitude (hproper.whole.2 c (hcs ▸ List.mem_cons_self))

theorem undeclaring_double (d : Float) : Undeclaring (doubleText d) := by
  unfold doubleText
  dsimp only
  split
  · rename_i hall
    obtain ⟨c, cs, hcs, -⟩ := (inline_text d).exists_cons
    rw [hcs] at hall
    have hc : c.isDigit ∨ c = '-' := by
      have := List.all_eq_true.1 hall c List.mem_cons_self
      simpa using this
    have htext : (Decimal.text d ++ ".0").toList = c :: (cs ++ ['.', '0']) := by
      rw [String.toList_append, hcs]
      rfl
    refine .of_cons htext ?_
    rcases hc with hc | rfl
    · exact isWordStart_of_isDigit hc
    · rfl
  · exact undeclaring_parts _ _

theorem undeclaring_char (c : Char) : Undeclaring (charText c) := by
  have htext : ∃ cs, (charText c).toList = '\'' :: cs := by
    unfold charText
    split
    · exact ⟨_, rfl⟩
    · exact ⟨_, rfl⟩
    · rw [String.append_assoc, String.toList_append]
      exact ⟨_, rfl⟩
  obtain ⟨cs, hcs⟩ := htext
  exact .of_cons hcs rfl

theorem undeclaring_literal (v : Literal) : Undeclaring (literalText v) := by
  cases v with
  | byte b | u8 b => exact undeclaring_byte b
  | int n | i8 n | i64 n => exact undeclaring_int n.toInt
  | uint n =>
    obtain ⟨c, cs, hcs, hc⟩ := exists_digit n.toNat
    have htext : (toString n.toNat ++ "u").toList = c :: (cs ++ ['u']) := by
      rw [String.toList_append, hcs]
      rfl
    exact .of_cons htext (isWordStart_of_isDigit hc)
  | double d => exact undeclaring_double d
  | bool b => cases b <;> exact .word (by decide)
  | char c => exact undeclaring_char c
  | str s | cstr s =>
    obtain ⟨⟨cs, hcs⟩, -⟩ := quoted_stringText s
    exact .of_cons hcs rfl
  | nil | null => exact .word (by decide)

end Constants

section Names

variable {ok : String → Prop} {ty : Ty} {n text : String}

theorem undeclaring_exprText (hok : OfWords ok) : (e : Expr) → e.Named ok → Undeclaring (exprText e)
  | .literal v, _ => undeclaring_literal v
  | .name n, h => .word (hok n h)
  | .unary op e, _ => by
    have htext : (exprText (.unary op e)).toList = signChar op :: (asOperand e (exprText e)).toList := by
      rw [exprText, String.toList_append]
      cases op <;> rfl
    exact .of_cons htext (by cases op <;> rfl)
  | .items es, _ | .fields fs, _ => by
    rw [exprText]
    exact .inBraces _
  | .choice t y n, _ => by
    rw [exprText]
    simp only [String.append_assoc, inParens]
    exact .of_cons String.toList_append rfl
  | .binary l op r, h => by
    rw [exprText]
    simp only [String.append_assoc]
    refine ((undeclaring_exprText hok l h.1).asOperand l).append fun more => ?_
    rw [String.toList_append, String.toList_append]
    cases op <;> exact .blank rfl _
  | .member o f, h => by
    rw [exprText, String.append_assoc]
    refine ((undeclaring_exprText hok o h.1).asOperand o).append fun more => ?_
    rw [String.toList_append]
    exact .mark (by decide) _
  | .call c as, h => by
    rw [exprText, inParens, String.append_assoc]
    refine ((undeclaring_exprText hok c h.1).asOperand c).append fun more => ?_
    rw [String.toList_append]
    exact .mark (by decide) _
  | .printf conversions as, _ => by
    rw [exprText, inParens, String.append_assoc]
    refine (Undeclaring.word (by decide)).append fun more => ?_
    rw [String.toList_append]
    exact .mark (by decide) _
  | .index a i, h => by
    rw [exprText, String.append_assoc, String.append_assoc]
    refine ((undeclaring_exprText hok a h.1).asOperand a).append fun more => ?_
    rw [String.toList_append]
    exact .mark (by decide) _
  | .bare e, h => by
    rw [exprText]
    exact undeclaring_exprText hok e h

/-- a type and a name, in the order in which they are written, and the brackets of an array -/
theorem declarator_eq (hty : ∀ m ∈ ty.names, ok m) (n : String) : ∃ text brackets, IsSpelling ok text ∧
    (brackets = [] ∨ brackets = ['[', ']']) ∧
    (declarator ty n).toList = text.toList ++ ' ' :: (n.toList ++ brackets) := by
  unfold declarator
  split
  · rename_i e _ he
    refine ⟨_, _, IsSpelling.tyName e (TypeNamed.elem (TypeNamed.some hty) e he), .inr rfl, ?_⟩
    simp [String.toList_append]
  · refine ⟨_, _, IsSpelling.tyName ty hty, .inl rfl, ?_⟩
    simp [String.toList_append]

theorem IsSpelling.mem (hok : OfWords ok) (h : IsSpelling ok text) :
    ∀ c ∈ text.toList, Lexeme.isWordChar c ∨ c ∈ [' ', '*'] := by
  obtain ⟨w, more, stars, hw, hmore, htext⟩ := h
  have hword := isWordChar_of_isIdentifier (isIdentifier_of_typeWords hok hw)
  rw [htext]
  simp only [List.forall_mem_append]
  refine ⟨fun c hc => .inl (hword c hc), ?_, fun c hc => ?_⟩
  · rcases hmore with rfl | rfl
    · exact List.forall_mem_nil _
    · have hint : ∀ c ∈ [' ', 'i', 'n', 't'], Lexeme.isWordChar c ∨ c ∈ [' ', '*'] := by simp; decide
      exact hint
  · rw [List.eq_of_mem_replicate hc]
    exact .inr (by decide)

/-- the name stands before the equals sign, with a word before it -/
theorem lastWord_before {front brackets : List Char} (hn : isIdentifier n = true)
    (hbrackets : brackets = [] ∨ brackets = ['[', ']'])
    (hlast : ∀ c ∈ front.getLast?, Lexeme.isWordChar c = false) (hfront : ∀ c ∈ front, c ≠ '=')
    (value : List Char) :
    lastWord ((front ++ (n.toList ++ (brackets ++ ' ' :: '=' :: value))).takeWhile (· != '=')) = n := by
  have htail : ∀ c ∈ brackets ++ [' '], Lexeme.isWordChar c = false ∧ c ≠ '=' := by
    rcases hbrackets with rfl | rfl <;> simp <;> decide
  have hsplit : front ++ (n.toList ++ (brackets ++ ' ' :: '=' :: value)) =
      front ++ (n.toList ++ (brackets ++ [' '])) ++ '=' :: value := by simp
  have hplain : ∀ c ∈ front ++ (n.toList ++ (brackets ++ [' '])), (c != '=') = true := by
    simp only [List.forall_mem_append, bne_iff_ne]
    refine ⟨hfront, fun c hc => ?_, List.forall_mem_append.1 fun c hc => (htail c hc).2⟩
    intro heq
    have hword := isWordChar_of_isIdentifier hn c hc
    rw [heq] at hword
    cases hword
  rw [hsplit, List.takeWhile_append_of_pos hplain, List.takeWhile_cons_of_neg (by decide), List.append_nil]
  exact lastWord_eq hn hlast fun c hc => (htail c hc).1

/-- what a declaration declares -/
theorem declared?_declarator (hok : OfWords ok) (hreturn : ¬ ok "return") (hty : ∀ m ∈ ty.names, ok m)
    (hn : isIdentifier n = true) (value : List Char) :
    declared? ((declarator ty n).toList ++ ' ' :: '=' :: value) = some n := by
  obtain ⟨text, brackets, ⟨w, more, stars, hw, hmore, htext⟩, hbrackets, heq⟩ := declarator_eq hty n
  have hword := isIdentifier_of_typeWords hok hw
  have htype : w ≠ "return" := by
    rintro rfl
    exact hw.elim (by simp [typeWords]) hreturn
  have hstars : ∀ c ∈ List.replicate stars '*' ++ [' '], c ≠ '=' := by
    intro c hc
    rcases List.mem_append.1 hc with hc | hc
    · rw [List.eq_of_mem_replicate hc]
      decide
    · rw [List.mem_singleton.1 hc]
      decide
  rw [heq, htext]
  rcases hmore with rfl | rfl
  · -- the name is the next word
    obtain ⟨x, xs, hx, hstart, -⟩ := exists_cons_of_isIdentifier hn
    have hline : w.toList ++ ([] ++ List.replicate stars '*') ++ ' ' :: (n.toList ++ brackets) ++
        ' ' :: '=' :: value = w.toList ++ (List.replicate stars '*' ++
          ' ' :: x :: (xs ++ (brackets ++ ' ' :: '=' :: value))) := by simp [hx]
    have hhead : ∀ c ∈ (List.replicate stars '*' ++
        ' ' :: x :: (xs ++ (brackets ++ ' ' :: '=' :: value))).head?, Lexeme.isWordChar c = false := by
      cases stars <;> rintro c ⟨⟩ <;> rfl
    rw [hline, declared?_word hword hhead, dropWhile_stars stars (by decide)]
    have htwo : w ≠ "return" ∧ Lexeme.isWordStart x = true := ⟨htype, hstart⟩
    refine (if_pos htwo).trans ?_
    rw [← List.cons_append, ← hx]
    have hname := lastWord_before hn hbrackets
      (by simp : ∀ c ∈ ([] : List Char).getLast?, Lexeme.isWordChar c = false) (by simp) value
    exact congrArg some hname
  · -- another word stands before it
    have hline : w.toList ++ (" int".toList ++ List.replicate stars '*') ++ ' ' :: (n.toList ++ brackets) ++
        ' ' :: '=' :: value = w.toList ++ ' ' :: 'i' :: ('n' :: 't' :: (List.replicate stars '*' ++ [' ']) ++
          (n.toList ++ (brackets ++ ' ' :: '=' :: value))) := by simp
    rw [hline, declared?_word hword (by rintro c ⟨⟩; rfl), List.dropWhile_cons_of_neg (by decide)]
    have htwo : w ≠ "return" ∧ Lexeme.isWordStart 'i' = true := ⟨htype, rfl⟩
    refine (if_pos htwo).trans ?_
    rw [← List.cons_append]
    refine congrArg some (lastWord_before hn hbrackets ?_ ?_ value)
    · rw [← List.cons_append, ← List.cons_append, ← List.cons_append, List.getLast?_concat]
      rintro c ⟨⟩
      rfl
    · simp only [List.forall_mem_cons]
      exact ⟨by decide, by decide, by decide, hstars⟩

/-- a declarator ends with the name, whatever stands before it -/
theorem lastWord_declarator (hty : ∀ m ∈ ty.names, ok m) (hn : isIdentifier n = true) (front : List Char) :
    lastWord (front ++ (declarator ty n).toList) = n := by
  obtain ⟨text, brackets, -, hbrackets, heq⟩ := declarator_eq hty n
  have htail : ∀ c ∈ brackets, Lexeme.isWordChar c = false := by
    rcases hbrackets with rfl | rfl
    · exact List.forall_mem_nil _
    · simp
      decide
  have hsplit : front ++ (text.toList ++ ' ' :: (n.toList ++ brackets)) =
      front ++ text.toList ++ [' '] ++ (n.toList ++ brackets) := by simp
  rw [heq, hsplit]
  refine lastWord_eq hn ?_ htail
  rw [List.getLast?_concat]
  rintro c ⟨⟩
  rfl

theorem mem_declarator (hok : OfWords ok) (hty : ∀ m ∈ ty.names, ok m) (hn : isIdentifier n = true) :
    ∀ c ∈ (declarator ty n).toList, Lexeme.isWordChar c ∨ c ∈ [' ', '*', '[', ']'] := by
  obtain ⟨text, brackets, htext, hbrackets, heq⟩ := declarator_eq hty n
  have hspelling : ∀ c ∈ text.toList, Lexeme.isWordChar c ∨ c ∈ [' ', '*', '[', ']'] :=
    fun c hc => (htext.mem hok c hc).imp_right fun hmem => by
      rcases List.mem_pair.1 hmem with rfl | rfl <;> decide
  have htail : ∀ c ∈ brackets, c ∈ [' ', '*', '[', ']'] := by
    rcases hbrackets with rfl | rfl <;> simp
  rw [heq]
  simp only [List.forall_mem_append, List.forall_mem_cons]
  exact ⟨hspelling, .inr (by decide), fun c hc => .inl (isWordChar_of_isIdentifier hn c hc),
    fun c hc => .inr (htail c hc)⟩

/-- no mark of another kind occurs in a declarator -/
theorem not_mem_declarator (hok : OfWords ok) (hty : ∀ m ∈ ty.names, ok m) (hn : isIdentifier n = true)
    {c : Char} (hc : c ∈ ['(', ')', ',']) : c ∉ (declarator ty n).toList := by
  have hall : ∀ c ∈ ['(', ')', ','], ¬ (Lexeme.isWordChar c ∨ c ∈ [' ', '*', '[', ']']) := by
    simp
    decide
  exact fun hmem => hall c hc (mem_declarator hok hty hn c hmem)

/-- a list is cut at its commas; a blank stands behind each -/
theorem splitOn_commaList {text : String} {texts : List String} {front : List Char} (hfront : ',' ∉ front)
    (h : ∀ t ∈ text :: texts, ',' ∉ t.toList) :
    (front ++ (commaList (text :: texts)).toList).splitOn ',' =
      (front ++ text.toList) :: texts.map fun t => ' ' :: t.toList := by
  induction texts generalizing front text with
  | nil =>
    have htext := h text List.mem_cons_self
    exact List.splitOnP_eq_singleton fun c hc => beq_eq_false_iff_ne.2 fun heq =>
      (List.mem_append.1 (heq ▸ hc)).elim hfront htext
  | cons next texts ih =>
    obtain ⟨htext, hrest⟩ := List.forall_mem_cons.1 h
    have hsplit : front ++ (commaList (text :: next :: texts)).toList =
        (front ++ text.toList) ++ ',' :: ([' '] ++ (commaList (next :: texts)).toList) := by
      simp [commaList, String.intercalate_cons_cons, String.toList_append]
    have hall : ',' ∉ front ++ text.toList := by
      rw [List.mem_append]
      exact not_or.2 ⟨hfront, htext⟩
    rw [hsplit, splitOn_append_cons hall]
    exact congrArg _ (ih (by decide) hrest)

theorem parameters_eq {front inner : List Char} (hfront : '(' ∉ front) (hinner : ')' ∉ inner) :
    parameters (front ++ '(' :: (inner ++ [')'])) =
      if inner = "void".toList then [] else (inner.splitOn ',').map lastWord := by
  have hopening : ∀ c ∈ front, (c != '(') = true := fun c hc => bne_iff_ne.2 fun heq => hfront (heq ▸ hc)
  have hclosing : ∀ c ∈ inner, (c != ')') = true := fun c hc => bne_iff_ne.2 fun heq => hinner (heq ▸ hc)
  unfold parameters
  rw [List.dropWhile_append_of_pos hopening, List.dropWhile_cons_of_neg (by decide), List.drop_one,
    List.tail_cons, List.takeWhile_append_of_pos hclosing, List.takeWhile_cons_of_neg (by decide),
    List.append_nil]

/-- the parameters are read off the first line of a function -/
theorem parameters_prototype (hok : OfWords ok) {f : Function} (h : f.Announced ok) :
    parameters f.prototype.toList = f.params.map (·.2) := by
  have hwords : ∀ c ∈ f.name.toList, Lexeme.isWordChar c := isWordChar_of_isIdentifier (hok _ h.name)
  have hfront : '(' ∉ ((f.result.map tyName).getD "void" ++ " " ++ f.name).toList := by
    rw [String.toList_append, String.toList_append, List.append_assoc]
    intro hmem
    rcases List.mem_append.1 hmem with hmem | hmem
    · exact absurd ((IsSpelling.result h).mem hok _ hmem) (by decide)
    rcases List.mem_cons.1 hmem with hblank | hmem
    · cases hblank
    · exact absurd (hwords _ hmem) (by decide)
  have hplain {c : Char} (hc : c ∈ ['(', ')', ',']) :
      ∀ t ∈ f.params.map (fun p => declarator p.1 p.2), c ∉ t.toList := by
    intro t ht
    obtain ⟨p, hp, rfl⟩ := List.mem_map.1 ht
    exact not_mem_declarator hok (h.params p hp).1 (hok _ (h.params p hp).2) hc
  have hlast (p : Ty × String) (hp : p ∈ f.params) (front : List Char) :
      lastWord (front ++ (declarator p.1 p.2).toList) = p.2 :=
    lastWord_declarator (h.params p hp).1 (hok _ (h.params p hp).2) front
  have hprototype (inner : String) (hinner : ')' ∉ inner.toList) : parameters
      ((f.result.map tyName).getD "void" ++ " " ++ f.name ++ inParens inner).toList =
        if inner.toList = "void".toList then [] else (inner.toList.splitOn ',').map lastWord := by
    have hsplit : ((f.result.map tyName).getD "void" ++ " " ++ f.name ++ inParens inner).toList =
        ((f.result.map tyName).getD "void" ++ " " ++ f.name).toList ++ '(' :: (inner.toList ++ [')']) := by
      simp [inParens, String.toList_append]
    rw [hsplit, parameters_eq hfront hinner]
  obtain ⟨result, name, params, body⟩ := f
  cases params with
  | nil => exact hprototype "void" (by decide)
  | cons q qs =>
    have hinner : ')' ∉ (commaList ((q :: qs).map fun p => declarator p.1 p.2)).toList :=
      not_mem_intercalate (by decide) (hplain (by decide))
    have hblank : ' ' ∈ (commaList ((q :: qs).map fun p => declarator p.1 p.2)).toList := by
      obtain ⟨text, brackets, -, -, heq⟩ := declarator_eq (h.params q List.mem_cons_self).1 q.2
      have hfirst : ' ' ∈ (declarator q.1 q.2).toList := by simp [heq]
      cases qs with
      | nil => exact hfirst
      | cons q' qs => simp [commaList, String.intercalate_cons_cons, String.toList_append, hfirst]
    have hnamed : (commaList ((q :: qs).map fun p => declarator p.1 p.2)).toList ≠ "void".toList :=
      fun heq => absurd (heq ▸ hblank) (by decide)
    have hcut := splitOn_commaList (by simp : ',' ∉ ([] : List Char)) (hplain (by decide))
    refine (hprototype _ hinner).trans ?_
    rw [if_neg hnamed]
    refine (congrArg (List.map lastWord) hcut).trans ?_
    rw [List.map_cons, List.map_map, List.map_map]
    have hfirst := hlast q List.mem_cons_self []
    refine congrArg₂ List.cons hfirst (List.map_congr_left fun p hp => ?_)
    exact hlast p (List.mem_cons_of_mem q hp) [' ']

end Names

end AutoLang.C
