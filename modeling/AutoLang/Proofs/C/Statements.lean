import AutoLang.Proofs.C.Indentation
import Mathlib

/-! How C reads the `main` of a program of the common part. Lines and blocks are taken from the outline
of the text. A line is a declaration of an `int`, an expression, or a `printf`; the head of a block says
which statement the block belongs to. In an expression every operand that is an operation stands in
parentheses, so no operator has to wait for another one; a text that leaves them out reads as nothing.
The preprocessor is left out: a word is a name unless it is a keyword. -/

namespace AutoLang.C

/-- a word that C takes for a variable -/
def isVariable (n : String) : Bool := isIdentifier n && !keywords.contains n

/-- what stands around the operand that is read next -/
inductive Around where
  | group
  | between (left : Expr) (op : BinaryOp)

/-- how far an expression has been read; what is around the place is listed from the inside -/
inductive Grouping where
  /-- an operand comes next -/
  | operand (around : List Around)
  /-- the digits of a number with a sign come next -/
  | digits (around : List Around)
  /-- an operand was read, and an operator may follow -/
  | operator (around : List Around) (e : Expr)
  /-- an operation was read, so its parentheses end here -/
  | operation (around : List Around) (e : Expr)

namespace Grouping

/-- an operand was read -/
def put : List Around → Expr → Grouping
  | .between l op :: around, e => operation around (.binary l op e)
  | around, e => operator around e

/-- the parentheses around what was read end -/
def close? : List Around → Expr → Option Grouping
  | .group :: around, e => some (put around e)
  | _, _ => none

def constant? (i : ℤ) : Option Expr :=
  if -2147483648 ≤ i ∧ i < 2147483648 then some (.literal (.int (Int32.ofInt i))) else none

def next : Grouping → Lexical → Option Grouping
  | operand around, .number n => (constant? n).map (put around)
  | operand around, .word w => if isVariable w then some (put around (.name w)) else none
  | operand around, .mark s =>
    if s = "(" then some (operand (.group :: around))
    else if s = "-" then some (digits around)
    else none
  | digits around, .number n => (constant? (-n)).map (put around)
  | operator around e, .mark s =>
    if s = ")" then close? around e
    else (linkOf? s).map fun op => operand (.between e op :: around)
  | operation around e, .mark s => if s = ")" then close? around e else none
  | _, _ => none

def finish : Grouping → Option Expr
  | operator [] e | operation [] e => some e
  | _ => none

end Grouping

/-- the expression that tokens make -/
def expr? (ts : List Lexical) : Option Expr :=
  (ts.foldlM Grouping.next (.operand [])).bind Grouping.finish

/-- what stands before a mark at the end -/
def before? (s : String) (ts : List Lexical) : Option (List Lexical) :=
  if ts.getLast? = some (.mark s) then some ts.dropLast else none

/-- what stands between parentheses -/
def inside? : List Lexical → Option (List Lexical)
  | .mark s :: ts => if s = "(" then before? ")" ts else none
  | _ => none

/-- a line without text constants: two words at the front are those of a declaration -/
def simple? (ts : List Lexical) : Option Stmt := do
  match ← before? ";" ts with
  | .word w :: .word n :: .mark s :: ts =>
    if w = "int" ∧ isVariable n ∧ s = "=" then return .declare (.simple .int) n (← expr? ts) else none
  | ts => return .expr (← expr? ts)

def conversion? : List Char → Option Conversion
  | ['%', 'd'] => some .decimal
  | ['%', 'u'] => some .unsigned
  | ['%', 'g'] => some .general
  | ['%', 'c'] => some .character
  | ['%', 's'] => some .string
  | _ => none

/-- the conversions of a format, with blanks between them and a line break behind them -/
def conversions? (format : List Char) : Option (List Conversion) :=
  if format.drop (format.length - 2) = ['\\', 'n'] then
    ((format.take (format.length - 2)).splitOn ' ').mapM conversion?
  else none

/-- the arguments behind a format, with commas before them -/
def arguments? (ts : List Lexical) : Option (List Expr) := do
  match (← before? ")" (← before? ";" ts)).splitOn (.mark ",") with
  | [] :: parts => parts.mapM expr?
  | _ => none

/-- a `printf`, read behind its first quotation mark -/
def printf? (text : List Char) : Option Expr := do
  let format := text.takeWhile (· != '"')
  let args ← arguments? (← lex 0 (text.drop (format.length + 1)))
  return .printf (← conversions? format) args

/-- a line that prints -/
def printing? (text : List Char) : Option Stmt :=
  let front := "printf(\"".toList
  if front.isPrefixOf text then (printf? (text.drop front.length)).map .expr else none

/-- the statement on a line; only what prints has quotation marks, which are not read as tokens -/
def line? (text : List Char) : Option Stmt :=
  match lex 0 text with
  | some ts => simple? ts
  | none => printing? text

/-- what a block belongs to -/
inductive Head where
  | bare
  | test (e : Expr)
  | count (n : String) (start stop : Expr) (inclusive : Bool)
  | otherwise
  | otherwiseTest (e : Expr)

/-- whether an expression binds tighter than a comparison -/
def isSum : Expr → Bool
  | .binary _ op _ => isArithmetic op
  | _ => true

/-- a counting loop: its variable, what it is compared with, and the step to the next number -/
def count? (ts : List Lexical) : Option Head := do
  match (← inside? ts).splitOn (.mark ";") with
  | [.word w :: .word n :: .mark s :: start, .word n' :: .mark op :: stop, [.word n'', .mark step]] =>
    if w = "int" ∧ isVariable n ∧ s = "=" ∧ n' = n ∧ (op = "<" ∨ op = "<=") ∧ n'' = n ∧ step = "++" then
      let last ← expr? stop
      if isSum last then return .count n (← expr? start) last (op = "<=") else none
    else none
  | _ => none

def test? (ts : List Lexical) : Option Expr := (inside? ts).bind expr?

def head? (text : List Char) : Option Head := do
  match ← lex 0 text with
  | [] => return .bare
  | .word w :: ts =>
    if w = "if" then return .test (← test? ts)
    else if w = "for" then count? ts
    else if w = "else" then
      match ts with
      | [] => return .otherwise
      | .word w :: ts => if w = "if" then return .otherwiseTest (← test? ts) else none
      | _ => none
    else none
  | _ => none

/-- a block before what was read behind it: branches, then statements -/
def prepend? (body : List Stmt) : Head → Rest × List Stmt → Option (Rest × List Stmt)
  | .bare, (.done, ss) => some (.done, .block body :: ss)
  | .test e, (r, ss) => some (.done, .cond e body r :: ss)
  | .count n a b inclusive, (.done, ss) => some (.done, .loop n a b inclusive body :: ss)
  | .otherwise, (.done, ss) => some (.orElse body, ss)
  | .otherwiseTest e, (r, ss) => some (.orIf e body r, ss)
  | _, _ => none

/-- statements, with no branch before the first -/
def only? : Rest × List Stmt → Option (List Stmt)
  | (.done, ss) => some ss
  | _ => none

mutual

/-- a line or a block before what was read behind it -/
def Outline.read? : Outline → Rest × List Stmt → Option (Rest × List Stmt)
  | .line text, behind => do return (.done, (← line? text) :: (← only? behind))
  | .block head body, behind => do prepend? (← only? (← items? body)) (← head? head) behind

/-- what is written in a block: the branches that belong to a statement before it, then statements -/
def items? : List Outline → Option (Rest × List Stmt)
  | [] => some (.done, [])
  | item :: items => do item.read? (← items? items)

end

/-- the statements of `main`, if the text is that of `main` alone; its last line says that all went
well -/
def main? (text : String) : Option (List Stmt) := do
  match ← outline? text with
  | [.block head items] =>
    match items.getLast? with
    | some (.line last) =>
      if head = "int main(void)".toList ∧ last = "return 0;".toList then
        only? (← items? items.dropLast)
      else none
    | _ => none
  | _ => none

/-- the tokens of a number -/
def intTokens : ℤ → List Lexical
  | .ofNat n => [.number n]
  | .negSucc n => [.mark "-", .number (n + 1)]

/-- the tokens of an operand -/
def grouped (e : Expr) (ts : List Lexical) : List Lexical :=
  if e.isCompound then .mark "(" :: (ts ++ [.mark ")"]) else ts

def Expr.tokens : Expr → List Lexical
  | .literal (.int v) => intTokens v.toInt
  | .name n => [.word n]
  | .binary l op r => grouped l l.tokens ++ .mark op.symbol :: grouped r r.tokens
  | _ => []

/-- constants, names and operations on them -/
def Expr.IsPlain : Expr → Prop
  | .literal (.int _) | .name _ => True
  | .binary l op r => op ≠ .dot ∧ l.IsPlain ∧ r.IsPlain
  | _ => False

section Lexing

variable {c : Char} {cs rest : List Char} {e : Expr} {ts : List Lexical}

theorem lex_mark (s : String) (hc : c.isWhitespace = false)
    (ht : tokenAt? (c :: rest) = some (.mark s, 1)) :
    lex 0 (c :: rest) = (lex 0 rest).map (.mark s :: ·) := by
  rw [← List.singleton_append] at ht ⊢
  exact Reading.lex_token hc ht

theorem lex_opening (rest : List Char) : lex 0 ('(' :: rest) = (lex 0 rest).map (.mark "(" :: ·) :=
  lex_mark "(" rfl rfl

theorem lex_closing (rest : List Char) : lex 0 (')' :: rest) = (lex 0 rest).map (.mark ")" :: ·) :=
  lex_mark ")" rfl rfl

theorem lex_blank (rest : List Char) : lex 0 (' ' :: rest) = lex 0 rest := rfl

/-- nothing of a text that begins with a mark but a point belongs to what stands before it -/
theorem Apart.mark (hc : Lexeme.isWordChar c = false ∧ c ≠ '.') : Apart false (c :: rest) := by
  rintro d ⟨⟩
  exact ⟨hc.1, fun _ => hc.2⟩

theorem lex_link {op : BinaryOp} (hop : op ≠ .dot) (rest : List Char) :
    lex 0 (op.symbol.toList ++ ' ' :: rest) = (lex 0 rest).map (.mark op.symbol :: ·) := by
  obtain ⟨c, cs, hs, hc⟩ : ∃ c cs, op.symbol.toList = c :: cs ∧ c.isWhitespace = false := by
    cases op <;> exact ⟨_, _, rfl, rfl⟩
  have htoken : tokenAt? (op.symbol.toList ++ ' ' :: rest) = _ := tokenAt?_link hop
  rw [hs] at htoken ⊢
  exact Reading.lex_token hc htoken

theorem lex_identifier {w : String} (hw : isIdentifier w = true) (hr : Apart false rest) :
    lex 0 (w.toList ++ rest) = (lex 0 rest).map (.word w :: ·) := by
  obtain ⟨c, cs, hcs, hstart, hword⟩ := exists_cons_of_isIdentifier hw
  exact Reading.lex_word hcs hstart hword hr

theorem lex_name {n : String} (hn : isVariable n = true) (hr : Apart false rest) :
    lex 0 (n.toList ++ rest) = (lex 0 rest).map (.word n :: ·) :=
  lex_identifier (Bool.and_eq_true_iff.1 hn).1 hr

theorem lex_int (i : ℤ) (hr : Apart false rest) :
    lex 0 ((toString i).toList ++ rest) = (lex 0 rest).map (intTokens i ++ ·) := by
  cases i with
  | ofNat n =>
    have htext : (toString (Int.ofNat n)).toList = Nat.toDigits 10 n := toList_repr n
    rw [htext, Reading.lex_number n hr]
    rfl
  | negSucc n =>
    have htext : (toString (Int.negSucc n)).toList = '-' :: Nat.toDigits 10 (n + 1) := by
      rw [← toList_repr]
      exact String.toList_append
    obtain ⟨d, ds, hd⟩ := List.exists_cons_of_ne_nil (Nat.toDigits_ne_nil (b := 10) (n := n + 1))
    have hdigit : d.isDigit :=
      Nat.isDigit_of_mem_toDigits (b := 10) (n := n + 1) (by omega) (by omega) (by simp [hd])
    have hsign : tokenAt? (signChar .neg :: d :: (ds ++ rest)) =
        some (.mark UnaryOp.neg.symbol, 1) := by
      refine tokenAt?_sign ?_ ?_ (.inr ?_) <;>
      · rintro rfl
        cases hdigit
    have hnumber := Reading.lex_number (n + 1) hr
    rw [hd] at hnumber htext
    rw [htext, List.cons_append, List.cons_append, lex_mark (c := '-') "-" rfl hsign,
      ← List.cons_append, hnumber, Option.map_map]
    rfl

/-- an operand is lexed as what it is, in parentheses if it is an operation -/
theorem lex_operand (h : ∀ rest, Apart false rest →
      lex 0 (chars e ++ rest) = (lex 0 rest).map (ts ++ ·)) (hr : Apart false rest) :
    lex 0 (operandChars e ++ rest) = (lex 0 rest).map (grouped e ts ++ ·) := by
  cases hc : e.isCompound with
  | false =>
    rw [operandChars_of_not_isCompound hc, grouped, hc]
    exact h rest hr
  | true =>
    have happend : operandChars e ++ rest = '(' :: (chars e ++ ')' :: rest) := by
      simp [operandChars_of_isCompound hc]
    rw [happend, lex_opening, h _ (.mark (by decide)), lex_closing, Option.map_map, Option.map_map,
      grouped, if_pos hc]
    congr 1
    funext ts'
    simp

/-- the text of an expression is lexed as its tokens -/
theorem lex_expr : (e : Expr) → e.IsPlain → e.Named (isVariable · = true) → ∀ {rest}, Apart false rest →
    lex 0 (chars e ++ rest) = (lex 0 rest).map (e.tokens ++ ·)
  | .literal (.int v), _, _, _, hr => lex_int v.toInt hr
  | .name n, _, hn, _, hr => lex_name hn hr
  | .binary l op r, hp, hn, rest, hr => by
    have hl (cs : List Char) :
        lex 0 (operandChars l ++ ' ' :: cs) = (lex 0 cs).map (grouped l l.tokens ++ ·) :=
      lex_operand (fun _ => lex_expr l hp.2.1 hn.1) (.mark (by decide))
    have hright := lex_operand (fun _ => lex_expr r hp.2.2 hn.2) hr
    have happend : chars (.binary l op r) ++ rest =
        operandChars l ++ ' ' :: (op.symbol.toList ++ ' ' :: (operandChars r ++ rest)) := by
      simp [chars_binary]
    rw [happend, hl, lex_link hp.1, hright, Option.map_map, Option.map_map, Expr.tokens]
    congr 1
    funext ts'
    simp

end Lexing

namespace Grouping

/-- what is read next is no right side -/
def Free (around : List Around) : Prop := ∀ e, put around e = operator around e

theorem free_nil : Free [] := fun _ => rfl

theorem free_group (around : List Around) : Free (.group :: around) := fun _ => rfl

/-- where a reader is behind an expression -/
def behind (around : List Around) (e : Expr) : Grouping :=
  if e.isCompound then operation around e else put around e

theorem constant?_toInt (v : Int32) : constant? v.toInt = some (.literal (.int v)) := by
  have hlow := v.le_toInt
  have hhigh := v.toInt_lt
  rw [constant?, if_pos (by omega), Int32.ofInt_toInt]

theorem next_number {v : Int32} {n : ℕ} (h : v.toInt = n) (around : List Around) :
    next (operand around) (.number n) = some (put around (.literal (.int v))) := by
  rw [next, ← h, constant?_toInt, Option.map_some]

theorem next_digits {v : Int32} {n : ℕ} (h : v.toInt = -n) (around : List Around) :
    next (digits around) (.number n) = some (put around (.literal (.int v))) := by
  rw [next, ← h, constant?_toInt, Option.map_some]

theorem foldlM_int (around : List Around) (v : Int32) :
    (intTokens v.toInt).foldlM next (operand around) = some (put around (.literal (.int v))) := by
  cases hi : v.toInt with
  | ofNat n =>
    rw [intTokens, List.foldlM_cons, next_number hi]
    rfl
  | negSucc n =>
    have hsign : next (operand around) (.mark "-") = some (digits around) := by simp [next]
    rw [intTokens, List.foldlM_cons, hsign, Option.bind_eq_bind, Option.bind_some, List.foldlM_cons,
      next_digits hi]
    rfl

theorem next_link {op : BinaryOp} (hop : op ≠ .dot) (around : List Around) (e : Expr) :
    next (operator around e) (.mark op.symbol) = some (operand (.between e op :: around)) := by
  cases op with
  | dot => exact absurd rfl hop
  | _ => rfl

/-- an operand is read, whatever is around it -/
theorem foldlM_grouped {e : Expr} {ts : List Lexical} (h : ∀ around, (e.isCompound → Free around) →
      ts.foldlM next (operand around) = some (behind around e)) (around : List Around) :
    (grouped e ts).foldlM next (operand around) = some (put around e) := by
  unfold behind at h
  unfold grouped
  by_cases hc : e.isCompound
  · have hopening : next (operand around) (.mark "(") = some (operand (.group :: around)) := by
      simp [next]
    have hclosing : next (operation (.group :: around) e) (.mark ")") = some (put around e) := by
      simp [next, close?]
    have hinner := h (.group :: around) fun _ => free_group around
    rw [if_pos hc] at hinner ⊢
    simp [List.foldlM_append, hopening, hinner, hclosing]
  · have hall := h around fun hc' => absurd hc' hc
    rwa [if_neg hc] at hall ⊢

/-- the tokens of an expression are read as the expression -/
theorem foldlM_tokens : (e : Expr) → e.IsPlain → e.Named (isVariable · = true) → ∀ around,
    (e.isCompound → Free around) → e.tokens.foldlM next (operand around) = some (behind around e)
  | .literal (.int v), _, _, around, _ => foldlM_int around v
  | .name n, _, hn, around, _ => by
    have hnext : next (operand around) (.word n) = some (put around (.name n)) := if_pos hn
    simp [Expr.tokens, hnext, behind, Expr.isCompound]
  | .binary l op r, hp, hn, around, hfree => by
    have hl := foldlM_grouped (foldlM_tokens l hp.2.1 hn.1) around
    have hr := foldlM_grouped (foldlM_tokens r hp.2.2 hn.2) (.between l op :: around)
    rw [hfree rfl l] at hl
    rw [Expr.tokens, List.foldlM_append, hl]
    simp [next_link hp.1, hr, behind, put, Expr.isCompound]

end Grouping

theorem expr?_tokens {e : Expr} (hp : e.IsPlain) (hn : e.Named (isVariable · = true)) :
    expr? e.tokens = some e := by
  have hread := Grouping.foldlM_tokens e hp hn [] fun _ => Grouping.free_nil
  rw [expr?, hread, Option.bind_some, Grouping.behind]
  split <;> rfl

theorem before?_append (s : String) (ts : List Lexical) : before? s (ts ++ [.mark s]) = some ts := by
  rw [before?, List.getLast?_concat, if_pos rfl, List.dropLast_concat]

theorem inside?_parens (ts : List Lexical) : inside? (.mark "(" :: (ts ++ [.mark ")"])) = some ts := by
  rw [inside?, if_pos rfl, before?_append]

/-- commas and semicolons stand in no expression -/
theorem not_mem_tokens {s : String} (hs : s = "," ∨ s = ";") :
    (e : Expr) → e.IsPlain → .mark s ∉ e.tokens
  | .literal (.int v), _ => by
    rw [Expr.tokens]
    cases v.toInt with
    | ofNat n => simp [intTokens]
    | negSucc n => rcases hs with rfl | rfl <;> simp [intTokens]
  | .name n, _ => by simp [Expr.tokens]
  | .binary l op r, hp => by
    have outside {e : Expr} (h : .mark s ∉ e.tokens) : .mark s ∉ grouped e e.tokens := by
      unfold grouped
      rcases hs with rfl | rfl <;> split <;> simp [h]
    have hsymbol : s ≠ op.symbol := by rcases hs with rfl | rfl <;> cases op <;> decide
    have hl := outside (not_mem_tokens hs l hp.2.1)
    have hr := outside (not_mem_tokens hs r hp.2.2)
    simp [Expr.tokens, hl, hr, hsymbol]

/-- no expression begins with two words -/
theorem tokens_ne_words {e : Expr} (hp : e.IsPlain) (w n : String) (ts : List Lexical) :
    e.tokens ≠ .word w :: .word n :: ts := by
  intro h
  match e, hp with
  | .literal (.int v), _ =>
    rw [Expr.tokens] at h
    cases hi : v.toInt <;> simp [hi, intTokens] at h
  | .name _, _ => simp [Expr.tokens] at h
  | .binary l op r, hp =>
    rw [Expr.tokens, grouped] at h
    match l, hp.2.1 with
    | .literal (.int v), _ =>
      rw [Expr.tokens] at h
      cases hi : v.toInt <;> simp [hi, intTokens, Expr.isCompound] at h
    | .name _, _ => simp [Expr.tokens, Expr.isCompound] at h
    | .binary _ _ _, _ => simp [Expr.isCompound] at h

section Lines

variable {e : Expr} {n : String}

/-- an expression with a semicolon behind it is all that is left of a line -/
theorem lex_last (hp : e.IsPlain) (hn : e.Named (isVariable · = true)) :
    lex 0 (chars e ++ [';']) = some (e.tokens ++ [.mark ";"]) := by
  rw [lex_expr e hp hn (.mark (by decide))]
  rfl

theorem line?_expr (hp : e.IsPlain) (hn : e.Named (isVariable · = true)) :
    line? (exprText e ++ ";").toList = some (.expr e) := by
  have hlex : lex 0 (exprText e ++ ";").toList = some (e.tokens ++ [.mark ";"]) := by
    rw [String.toList_append]
    exact lex_last hp hn
  rw [line?, hlex]
  dsimp only
  rw [simple?, before?_append, Option.bind_eq_bind, Option.bind_some]
  split
  · rename_i w n s ts heq
    exact absurd heq (tokens_ne_words hp w n _)
  · rw [expr?_tokens hp hn]
    rfl

theorem lex_equals (rest : List Char) :
    lex 0 ('=' :: ' ' :: rest) = (lex 0 rest).map (.mark "=" :: ·) := lex_mark "=" rfl rfl

/-- a variable and its first value -/
theorem lex_declaration (hv : isVariable n = true) (rest : List Char) :
    lex 0 ("int".toList ++ ' ' :: (n.toList ++ ' ' :: '=' :: ' ' :: rest)) =
      (lex 0 rest).map ([.word "int", .word n, .mark "="] ++ ·) := by
  rw [lex_identifier (by decide) (.mark (by decide)), lex_blank, lex_name hv (.mark (by decide)),
    lex_blank, lex_equals, Option.map_map, Option.map_map]
  rfl

theorem line?_declare (hv : isVariable n = true) (hp : e.IsPlain) (hn : e.Named (isVariable · = true)) :
    line? (declarator (.simple .int) n ++ " = " ++ exprText e ++ ";").toList =
      some (.declare (.simple .int) n e) := by
  have htext : (declarator (.simple .int) n ++ " = " ++ exprText e ++ ";").toList =
      "int".toList ++ ' ' :: (n.toList ++ ' ' :: '=' :: ' ' :: (chars e ++ [';'])) := by
    have hdeclarator : declarator (.simple .int) n = "int " ++ n := rfl
    simp [hdeclarator, chars, String.toList_append]
  have hbefore := before?_append ";" (.word "int" :: .word n :: .mark "=" :: e.tokens)
  rw [line?, htext, lex_declaration hv, lex_last hp hn]
  simp only [Option.map_some, List.cons_append, List.nil_append] at hbefore ⊢
  rw [simple?, hbefore]
  simp [hv, expr?_tokens hp hn]

section Printing

variable {conversions : List Conversion} {es : List Expr}

theorem conversion?_text (c : Conversion) : conversion? c.text.toList = some c := by
  cases c <;> rfl

theorem conversions?_format (h : conversions ≠ []) :
    conversions? ((" ".intercalate (conversions.map (·.text))).toList ++ ['\\', 'n']) =
      some conversions := by
  have hparts : (" ".intercalate (conversions.map (·.text))).toList.splitOn ' ' =
      conversions.map (·.text.toList) := by
    have hblank : ∀ text ∈ conversions.map (·.text.toList), ' ' ∉ text := by
      intro text htext
      obtain ⟨c, -, rfl⟩ := List.mem_map.1 htext
      cases c <;> decide
    rw [String.toList_intercalate, List.map_map]
    exact List.splitOn_intercalate ' ' hblank (by simpa using h)
  have hread (cs : List Conversion) : (cs.map (·.text.toList)).mapM conversion? = some cs := by
    induction cs with
    | nil => rfl
    | cons c cs ih =>
      rw [List.map_cons, List.mapM_cons, ih, conversion?_text]
      rfl
  rw [conversions?, List.length_append, List.length_cons, List.length_singleton, Nat.add_sub_cancel,
    List.drop_left, List.take_left, if_pos rfl, hparts, hread]

/-- the arguments of `printf` behind its format -/
def argumentChars (es : List Expr) : List Char := es.flatMap fun e => ',' :: ' ' :: chars e

theorem toList_commaList (text : String) (es : List Expr) :
    (commaList (text :: exprTexts es)).toList = text.toList ++ argumentChars es := by
  induction es generalizing text with
  | nil => simp [commaList, exprTexts, argumentChars]
  | cons e es ih =>
    have hrest := ih (exprText e)
    unfold commaList at hrest ⊢
    rw [exprTexts, String.intercalate_cons_cons, String.toList_append, hrest, argumentChars]
    simp [chars, argumentChars]

theorem lex_arguments (hp : ∀ e ∈ es, e.IsPlain) (hn : ExprsNamed (isVariable · = true) es)
    {rest : List Char} (hr : Apart false rest) : lex 0 (argumentChars es ++ rest) =
      (lex 0 rest).map ((es.flatMap fun e => .mark "," :: e.tokens) ++ ·) := by
  induction es with
  | nil => simp [argumentChars]
  | cons e es ih =>
    obtain ⟨hpe, hpes⟩ := List.forall_mem_cons.1 hp
    have happend : argumentChars (e :: es) ++ rest =
        ',' :: ' ' :: (chars e ++ (argumentChars es ++ rest)) := by
      simp [argumentChars]
    have hcomma : ∀ cs, lex 0 (',' :: ' ' :: cs) = (lex 0 cs).map (.mark "," :: ·) :=
      fun cs => lex_mark "," rfl rfl
    have hapart : Apart false (argumentChars es ++ rest) := by
      cases es with
      | nil => exact hr
      | cons e' es => exact .mark (by decide)
    rw [happend, hcomma, lex_expr e hpe hn.1 hapart, ih hpes hn.2, Option.map_map, Option.map_map]
    congr 1
    funext ts
    simp

/-- arguments are cut at the commas before them -/
theorem splitOn_arguments (hp : ∀ e ∈ es, e.IsPlain) {front : List Lexical}
    (hfront : .mark "," ∉ front) :
    (front ++ es.flatMap fun e => .mark "," :: e.tokens).splitOn (.mark ",") =
      front :: es.map Expr.tokens := by
  induction es generalizing front with
  | nil =>
    rw [List.flatMap_nil, List.append_nil]
    exact List.splitOnP_eq_singleton fun t ht => beq_eq_false_iff_ne.2 fun heq => hfront (heq ▸ ht)
  | cons e es ih =>
    obtain ⟨hpe, hpes⟩ := List.forall_mem_cons.1 hp
    rw [List.flatMap_cons, List.cons_append, splitOn_append_cons hfront,
      ih hpes (not_mem_tokens (.inl rfl) e hpe), List.map_cons]

theorem mapM_tokens (hp : ∀ e ∈ es, e.IsPlain) (hn : ExprsNamed (isVariable · = true) es) :
    (es.map Expr.tokens).mapM expr? = some es := by
  induction es with
  | nil => rfl
  | cons e es ih =>
    obtain ⟨hpe, hpes⟩ := List.forall_mem_cons.1 hp
    rw [List.map_cons, List.mapM_cons, expr?_tokens hpe hn.1, ih hpes hn.2]
    rfl

/-- what stands behind the format -/
theorem arguments?_tokens (hp : ∀ e ∈ es, e.IsPlain) (hn : ExprsNamed (isVariable · = true) es) :
    (lex 0 (argumentChars es ++ [')', ';'])).bind arguments? = some es := by
  have hlex : lex 0 (argumentChars es ++ [')', ';']) =
      some ((es.flatMap fun e => .mark "," :: e.tokens) ++ [.mark ")"] ++ [.mark ";"]) := by
    rw [lex_arguments hp hn (.mark (by decide)), List.append_assoc]
    rfl
  have hsplit : (es.flatMap fun e => .mark "," :: e.tokens).splitOn (.mark ",") =
      [] :: es.map Expr.tokens := splitOn_arguments hp List.not_mem_nil
  rw [hlex, Option.bind_some, arguments?, before?_append, Option.bind_eq_bind, Option.bind_some,
    before?_append, Option.bind_some, hsplit]
  exact mapM_tokens hp hn

theorem printf?_chars (hc : conversions ≠ []) (hp : ∀ e ∈ es, e.IsPlain)
    (hn : ExprsNamed (isVariable · = true) es) :
    printf? ((" ".intercalate (conversions.map (·.text))).toList ++ ['\\', 'n'] ++
      '"' :: (argumentChars es ++ [')', ';'])) = some (.printf conversions es) := by
  have hquote : ∀ text ∈ conversions.map (·.text), '"' ∉ text.toList := by
    intro text htext
    obtain ⟨c, -, rfl⟩ := List.mem_map.1 htext
    cases c <;> decide
  have hplain : '"' ∉ (" ".intercalate (conversions.map (·.text))).toList ++ ['\\', 'n'] := by
    rw [List.mem_append]
    exact not_or.2 ⟨not_mem_intercalate (by decide) hquote, by decide⟩
  have hread := conversions?_format hc
  generalize (" ".intercalate (conversions.map (·.text))).toList ++ ['\\', 'n'] = format at *
  have htake (cs : List Char) : (format ++ '"' :: cs).takeWhile (· != '"') = format := by
    rw [List.takeWhile_append_of_pos fun c hc => bne_iff_ne.2 (ne_of_mem_of_not_mem hc hplain)]
    exact List.append_nil _
  have hdrop (cs : List Char) : (format ++ '"' :: cs).drop (format.length + 1) = cs := by simp
  have hargs := arguments?_tokens hp hn
  rw [printf?, htake, hdrop]
  cases hlex : lex 0 (argumentChars es ++ [')', ';']) with
  | none => simp [hlex] at hargs
  | some ts =>
    rw [hlex, Option.bind_some] at hargs
    simp [hargs, hread]

theorem line?_printf (hc : conversions ≠ []) (hp : ∀ e ∈ es, e.IsPlain)
    (hn : ExprsNamed (isVariable · = true) es) :
    line? (exprText (.printf conversions es) ++ ";").toList =
      some (.expr (.printf conversions es)) := by
  have htext : (exprText (.printf conversions es) ++ ";").toList = "printf".toList ++ '(' :: '"' ::
      ((" ".intercalate (conversions.map (·.text))).toList ++ ['\\', 'n'] ++
        '"' :: (argumentChars es ++ [')', ';'])) := by
    rw [exprText, inParens]
    simp [String.toList_append, toList_commaList]
  -- the quotation mark is no token of C by itself
  have hlex (cs : List Char) : lex 0 ("printf".toList ++ '(' :: '"' :: cs) = none := by
    rw [lex_identifier (by decide) (.mark (by decide)), lex_opening]
    rfl
  have hprinting (cs : List Char) :
      printing? ("printf".toList ++ '(' :: '"' :: cs) = (printf? cs).map .expr := rfl
  rw [line?, htext, hlex]
  dsimp only
  rw [hprinting, printf?_chars hc hp hn, Option.map_some]

end Printing

end Lines

section Heads

variable {e a b : Expr} {n : String}

/-- a condition with its parentheses -/
theorem lex_parens (hp : e.IsPlain) (hn : e.Named (isVariable · = true)) :
    lex 0 ('(' :: (chars e ++ [')'])) = some (.mark "(" :: (e.tokens ++ [.mark ")"])) := by
  rw [lex_opening, lex_expr e hp hn (.mark (by decide))]
  rfl

theorem test?_parens (hp : e.IsPlain) (hn : e.Named (isVariable · = true)) :
    test? (.mark "(" :: (e.tokens ++ [.mark ")"])) = some e := by
  rw [test?, inside?_parens, Option.bind_some, expr?_tokens hp hn]

theorem head?_bare : head? [] = some .bare := rfl

theorem head?_otherwise : head? "else".toList = some .otherwise := rfl

theorem head?_test (hp : e.IsPlain) (hn : e.Named (isVariable · = true)) :
    head? ("if " ++ inParens (exprText e)).toList = some (.test e) := by
  have htext : ("if " ++ inParens (exprText e)).toList =
      "if".toList ++ ' ' :: '(' :: (chars e ++ [')']) := by
    simp [inParens, chars, String.toList_append]
  rw [head?, htext, lex_identifier (by decide) (.mark (by decide)), lex_blank, lex_parens hp hn]
  simp [test?_parens hp hn]

theorem head?_otherwiseTest (hp : e.IsPlain) (hn : e.Named (isVariable · = true)) :
    head? ("else if " ++ inParens (exprText e)).toList = some (.otherwiseTest e) := by
  have htext : ("else if " ++ inParens (exprText e)).toList =
      "else".toList ++ ' ' :: ("if".toList ++ ' ' :: '(' :: (chars e ++ [')'])) := by
    simp [inParens, chars, String.toList_append]
  rw [head?, htext, lex_identifier (by decide) (.mark (by decide)), lex_blank,
    lex_identifier (by decide) (.mark (by decide)), lex_blank, lex_parens hp hn]
  simp [test?_parens hp hn]

/-- the tokens of a counting loop between its parentheses, part by part -/
def countTokens (n : String) (a b : Expr) (op : String) : List (List Lexical) :=
  [[.word "int", .word n, .mark "="] ++ a.tokens, [.word n, .mark op] ++ b.tokens,
    [.word n, .mark "++"]]

theorem count?_tokens {op : String} (hop : op = "<" ∨ op = "<=") (hv : isVariable n = true)
    (ha : a.IsPlain) (hb : b.IsPlain) (hna : a.Named (isVariable · = true))
    (hnb : b.Named (isVariable · = true)) (hsum : isSum b) :
    count? (.mark "(" :: ([Lexical.mark ";"].intercalate (countTokens n a b op) ++ [.mark ")"])) =
      some (.count n a b (op = "<=")) := by
  have hparts : ([Lexical.mark ";"].intercalate (countTokens n a b op)).splitOn (.mark ";") =
      countTokens n a b op := by
    have hsymbol : op ≠ ";" := by rcases hop with rfl | rfl <;> decide
    have hsa := not_mem_tokens (.inr rfl) a ha
    have hsb := not_mem_tokens (.inr rfl) b hb
    refine List.splitOn_intercalate _ ?_ (List.cons_ne_nil _ _)
    simp [countTokens, hsa, hsb, hsymbol.symm]
  rw [count?, inside?_parens, Option.bind_eq_bind, Option.bind_some, hparts, countTokens]
  simp [hv, hop, expr?_tokens ha hna, expr?_tokens hb hnb, hsum]

theorem lex_semicolon (rest : List Char) :
    lex 0 (';' :: ' ' :: rest) = (lex 0 rest).map (.mark ";" :: ·) := lex_mark ";" rfl rfl

theorem head?_count {inclusive : Bool} (hv : isVariable n = true) (ha : a.IsPlain) (hb : b.IsPlain)
    (hna : a.Named (isVariable · = true)) (hnb : b.Named (isVariable · = true)) (hsum : isSum b) :
    head? (loopHead n a b inclusive).toList = some (.count n a b inclusive) := by
  let op := if inclusive then BinaryOp.le else .lt
  have hop : op ≠ .dot := by cases inclusive <;> decide
  have hsymbol : op.symbol = "<" ∨ op.symbol = "<=" := by cases inclusive <;> decide
  have htext : (loopHead n a b inclusive).toList = "for".toList ++ ' ' :: '(' :: ("int".toList ++ ' ' ::
      (n.toList ++ ' ' :: '=' :: ' ' :: (chars a ++ ';' :: ' ' :: (n.toList ++ ' ' ::
        (op.symbol.toList ++ ' ' :: (chars b ++ ';' :: ' ' :: (n.toList ++ ['+', '+', ')']))))))) := by
    cases inclusive <;> simp [loopHead, inParens, chars, String.toList_append, BinaryOp.symbol, op]
  have hstep : lex 0 ['+', '+', ')'] = some [.mark "++", .mark ")"] := rfl
  have hlex : lex 0 (loopHead n a b inclusive).toList = some (.word "for" :: .mark "(" ::
      ([Lexical.mark ";"].intercalate (countTokens n a b op.symbol) ++ [.mark ")"])) := by
    rw [htext, lex_identifier (by decide) (.mark (by decide)), lex_blank, lex_opening, lex_declaration hv,
      lex_expr a ha hna (.mark (by decide)), lex_semicolon, lex_name hv (.mark (by decide)), lex_blank,
      lex_link hop, lex_expr b hb hnb (.mark (by decide)), lex_semicolon,
      lex_name hv (.mark (by decide)), hstep]
    simp [countTokens, List.intercalate]
  have hinclusive : decide (op.symbol = "<=") = inclusive := by cases inclusive <;> decide
  have hread := count?_tokens hsymbol hv ha hb hna hnb hsum
  rw [hinclusive] at hread
  rw [head?, hlex]
  simpa using hread

end Heads

mutual

/-- statements of the common part, as they are emitted -/
def Stmt.IsPlain : Stmt → Prop
  | .expr (.printf conversions es) => conversions ≠ [] ∧ ∀ e ∈ es, e.IsPlain
  | .expr e => e.IsPlain
  | .declare ty _ e => ty = .simple .int ∧ e.IsPlain
  | .block b => StmtsPlain b
  | .cond t y r => t.IsPlain ∧ StmtsPlain y ∧ r.IsPlain
  | .loop _ a b _ body => a.IsPlain ∧ b.IsPlain ∧ isSum b = true ∧ StmtsPlain body
  | _ => False

def StmtsPlain : List Stmt → Prop
  | [] => True
  | s :: ss => s.IsPlain ∧ StmtsPlain ss

def Rest.IsPlain : Rest → Prop
  | .done => True
  | .orElse b => StmtsPlain b
  | .orIf t y r => t.IsPlain ∧ StmtsPlain y ∧ r.IsPlain

end

/-- a line before statements -/
theorem items?_line {text : List Char} {s : Stmt} {items : List Outline} {ss : List Stmt}
    (hline : line? text = some s) (h : items? items = some (.done, ss)) :
    items? (.line text :: items) = some (.done, s :: ss) := by
  rw [items?, h, Option.bind_eq_bind, Option.bind_some, Outline.read?, hline]
  rfl

/-- a block before what is written behind it -/
theorem items?_block {head : List Char} {body items : List Outline} {inner : List Stmt} {h : Head}
    {behind : Rest × List Stmt} (hhead : head? head = some h)
    (hbody : items? body = some (.done, inner)) (hbehind : items? items = some behind) :
    items? (.block head body :: items) = prepend? inner h behind := by
  rw [items?, hbehind, Option.bind_eq_bind, Option.bind_some, Outline.read?, hbody, hhead]
  rfl

/-- what is written of statements is read as the statements, before whatever others -/
def ReadBack (ss : List Stmt) : Prop :=
  ∀ items behind, items? items = some (.done, behind) →
    items? (outlines ss ++ items) = some (.done, ss ++ behind)

theorem ReadBack.whole {ss : List Stmt} (h : ReadBack ss) :
    items? (outlines ss) = some (.done, ss) := by
  have hall := h [] [] rfl
  rwa [List.append_nil, List.append_nil] at hall

mutual

theorem items?_outline : (s : Stmt) → s.IsPlain → s.Named (isVariable · = true) →
    ∀ {items ss}, items? items = some (.done, ss) →
      items? (s.outline ++ items) = some (.done, s :: ss)
  | .expr e, hp, hn, _, _, h => by
    cases e with
    | printf conversions es => exact items?_line (line?_printf hp.1 hp.2 hn) h
    | literal _ | name _ | binary _ _ _ => exact items?_line (line?_expr hp hn) h
    | _ => exact hp.elim
  | .declare ty n e, hp, hn, _, _, h => by
    obtain ⟨rfl, hp⟩ := hp
    exact items?_line (line?_declare hn.2.1 hp hn.2.2) h
  | .block b, hp, hn, _, _, h => items?_block head?_bare (readBack b hp hn).whole h
  | .cond t y r, hp, hn, _, _, h =>
    items?_block (head?_test hp.1 hn.1) (readBack y hp.2.1 hn.2.1).whole
      (items?_restOutline r hp.2.2 hn.2.2 h)
  | .loop n a b inclusive body, hp, hn, _, _, h =>
    items?_block (head?_count hn.1 hp.1 hp.2.1 hn.2.1 hn.2.2.1 hp.2.2.1)
      (readBack body hp.2.2.2 hn.2.2.2).whole h

theorem readBack : (ss : List Stmt) → StmtsPlain ss → StmtsNamed (isVariable · = true) ss → ReadBack ss
  | [], _, _ => fun _ _ h => h
  | s :: ss, hp, hn => fun _ _ h => by
    rw [outlines, List.append_assoc]
    exact items?_outline s hp.1 hn.1 (readBack ss hp.2 hn.2 _ _ h)

/-- branches are read with the statements behind them -/
theorem items?_restOutline : (r : Rest) → r.IsPlain → r.Named (isVariable · = true) →
    ∀ {items ss}, items? items = some (.done, ss) → items? (r.outline ++ items) = some (r, ss)
  | .done, _, _, _, _, h => h
  | .orElse b, hp, hn, _, _, h => items?_block head?_otherwise (readBack b hp hn).whole h
  | .orIf _ y r, hp, hn, _, _, h =>
    items?_block (head?_otherwiseTest hp.1 hn.1) (readBack y hp.2.1 hn.2.1).whole
      (items?_restOutline r hp.2.2 hn.2.2 h)

end

theorem ofWords_isVariable : OfWords (isVariable · = true) := fun _ h => (Bool.and_eq_true_iff.1 h).1

/-- `main` is read off the text of a program without functions -/
theorem Program.main?_body {p : Program} (hfunctions : p.functions = [])
    (hplain : ∀ b ∈ p.main, StmtsPlain b) (h : p.Named (isVariable · = true)) :
    main? ("\n" ++ p.body) = p.main := by
  rw [main?, p.outline?_body ofWords_isVariable h, outline, hfunctions]
  cases hmain : p.main with
  | none => rfl
  | some b =>
    have hread := (readBack b (hplain b hmain) (h.main b hmain)).whole
    have hitems : outlines (b ++ [.result (.literal (.int 0))]) =
        outlines b ++ [.line "return 0;".toList] := outlines_append _ _
    simp only [List.map_nil, List.nil_append, Option.toList_some, List.map_cons, Option.bind_eq_bind,
      Option.bind_some, hitems, List.getLast?_concat, List.dropLast_concat]
    rw [if_pos ⟨rfl, trivial⟩, hread]
    rfl

end AutoLang.C
