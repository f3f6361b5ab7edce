import AutoLang.Proofs.C.Fragment
import AutoLang.Proofs.Token.Words
import Mathlib

/-! How C reads an expression. A text is cut into tokens, always the longest that fits, and the tokens are
read one after the other. What has been read but waits for its right side is kept on a stack; an operator
first settles what binds tighter than itself. The result is a tree of the source language without places.
Only what such trees can say is read: a text with any other operator of C reads as nothing. -/

namespace AutoLang.C

/-- the tokens of C that expressions are made of -/
inductive Lexical where
  | number (n : Nat)
  | word (w : String)
  | mark (s : String)
deriving DecidableEq, Repr

/-- the punctuation of C, every mark after those it begins -/
def punctuation : List String :=
  ["%:%:", "...", "<<=", ">>=", "->", "++", "--", "<<", ">>", "<=", ">=", "==", "!=", "&&", "||", "*=",
    "/=", "%=", "+=", "-=", "&=", "^=", "|=", "##", "<:", ":>", "<%", "%>", "%:", "[", "]", "(", ")",
    "\x7b", "\x7d", ".", "&", "*", "+", "-", "~", "!", "/", "%", "<", ">", "^", "|", "?", ":", ";", "=",
    ",", "#"]

/-- what goes on with a number that was read up to `last`; this may be more than any constant -/
def numberRun (last : Char) : List Char → List Char
  | [] => []
  | c :: cs =>
    let signed := (c == '+' || c == '-') && ['e', 'E', 'p', 'P'].contains last
    if Lexeme.isWordChar c || c == '.' || signed then c :: numberRun c cs else []

/-- the value of a decimal constant -/
def decimal? (run : List Char) : Option Nat :=
  if run.all Char.isDigit && (run.head? != some '0' || run.length == 1) then
    some (Nat.ofDigitChars 10 run 0)
  else none

/-- the longest token at the front of a text, and its length; comments are not read -/
def tokenAt? : List Char → Option (Lexical × Nat)
  | [] => none
  | c :: cs =>
    if Lexeme.isWordStart c then
      let run := c :: cs.takeWhile Lexeme.isWordChar
      some (.word (String.ofList run), run.length)
    else if c.isDigit || (c == '.' && cs.head?.any Char.isDigit) then
      let run := c :: numberRun c cs
      (decimal? run).map fun n => (.number n, run.length)
    else if c == '/' && (cs.head? == some '/' || cs.head? == some '*') then none
    else
      (punctuation.find? fun s => s.toList.isPrefixOf (c :: cs)).map fun s => (.mark s, s.toList.length)

/-- the tokens of a text, of which the first `skip` characters were read already -/
def lex : Nat → List Char → Option (List Lexical)
  | _, [] => some []
  | skip + 1, _ :: cs => lex skip cs
  | 0, c :: cs =>
    if c.isWhitespace then lex 0 cs
    else do
      let (t, n) ← tokenAt? (c :: cs)
      return t :: (← lex (n - 1) cs)

/-- the operator that a mark stands for between two operands -/
def linkOf? : String → Option BinaryOp
  | "*" => some .mul
  | "/" => some .div
  | "+" => some .add
  | "-" => some .sub
  | "<" => some .lt
  | ">" => some .gt
  | "<=" => some .le
  | ">=" => some .ge
  | "==" => some .eq
  | "!=" => some .ne
  | "=" => some .assign
  | "+=" => some .addAssign
  | "-=" => some .subAssign
  | "*=" => some .mulAssign
  | "/=" => some .divAssign
  | _ => none

/-- the operator that a mark stands for before an operand -/
def signOf? : String → Option UnaryOp
  | "-" => some .neg
  | "!" => some .not
  | "+" => some .plus
  | _ => none

/-- how tight an infix operator binds -/
def tightness : BinaryOp → Nat
  | .mul | .div => 13
  | .add | .sub => 12
  | .lt | .gt | .le | .ge => 10
  | .eq | .ne => 9
  | .assign | .addAssign | .subAssign | .mulAssign | .divAssign => 2
  | .dot => 15

/-- what waits for the expression that is read next -/
inductive Pending where
  | sign (op : UnaryOp)
  | between (left : AutoLang.Expr) (op : BinaryOp)
  /-- the last part of a conditional -/
  | otherwise (test yes : AutoLang.Expr)
  | group
  | position (array : AutoLang.Expr)
  | arguments (callee : AutoLang.Expr) (read : List AutoLang.Expr)
  /-- the middle part of a conditional -/
  | middle (test : AutoLang.Expr)

namespace Pending

/-- brackets do not bind -/
def tightness : Pending → Nat
  | sign _ => 14
  | between _ op => C.tightness op
  | otherwise _ _ => 3
  | _ => 0

def apply (e : AutoLang.Expr) : Pending → AutoLang.Expr
  | sign op => .unary .nowhere op e
  | between l op => .binary .nowhere l op e
  | otherwise t y => .cond .nowhere t y (some e)
  | _ => e

end Pending

/-- settle what binds at least this tight -/
def settle (least : Nat) : List Pending → AutoLang.Expr → List Pending × AutoLang.Expr
  | [], e => ([], e)
  | p :: ps, e => if least ≤ p.tightness then settle least ps (p.apply e) else (p :: ps, e)

inductive Reading where
  /-- an operand comes next -/
  | operand (pending : List Pending)
  /-- an operand was read -/
  | operator (pending : List Pending) (e : AutoLang.Expr)
  /-- the name of a field comes next -/
  | field (pending : List Pending) (object : AutoLang.Expr)

/-- a word as an expression; keywords are none -/
def ofWord? (w : String) : Option AutoLang.Expr :=
  if keywords.contains w then none
  else some (if w == "NULL" then .literal .nowhere .null else .ident .nowhere w)

namespace Reading

/-- a mark that ends an expression, after which nothing but brackets is pending -/
def close : String → List Pending × AutoLang.Expr → Option Reading
  | ")", (.group :: ps, e) => some (.operator ps e)
  | ")", (.arguments f es :: ps, e) => some (.operator ps (.call .nowhere f (es ++ [e])))
  | ",", (.arguments f es :: ps, e) => some (.operand (.arguments f (es ++ [e]) :: ps))
  | "]", (.position a :: ps, e) => some (.operator ps (.index .nowhere a e))
  | ":", (.middle t :: ps, e) => some (.operand (.otherwise t e :: ps))
  | _, _ => none

/-- an infix operator; what is assigned to binds tighter than every other infix operator -/
def link (op : BinaryOp) (ps : List Pending) (e : AutoLang.Expr) : Option Reading :=
  if op.isAssignment then
    let (ps, e) := settle 14 ps e
    if ps.head?.all (·.tightness ≤ 2) then some (.operand (.between e op :: ps)) else none
  else
    let (ps, e) := settle (tightness op) ps e
    some (.operand (.between e op :: ps))

def next : Reading → Lexical → Option Reading
  | operand ps, .number n =>
    if n < 2147483648 then some (operator ps (.literal .nowhere (.int (Int32.ofNat n)))) else none
  | operand ps, .word w => (ofWord? w).map (operator ps)
  | operand ps, .mark s =>
    match signOf? s with
    | some op => some (operand (.sign op :: ps))
    | none =>
      match s, ps with
      | "(", ps => some (operand (.group :: ps))
      | ")", .arguments f [] :: ps => some (operator ps (.call .nowhere f []))
      | _, _ => none
  | operator ps e, .mark s =>
    match s with
    | "." => some (field ps e)
    | "[" => some (operand (.position e :: ps))
    | "(" => some (operand (.arguments e [] :: ps))
    | "?" =>
      let (ps, e) := settle 4 ps e
      some (operand (.middle e :: ps))
    | s =>
      match linkOf? s with
      | some op => link op ps e
      | none => close s (settle 1 ps e)
  | operator _ _, _ => none
  | field ps e, .word w => (ofWord? w).map fun f => operator ps (.binary .nowhere e .dot f)
  | field _ _, _ => none

/-- the expression that was read, if nothing is missing -/
def finish : Reading → Option AutoLang.Expr
  | operator ps e =>
    match settle 1 ps e with
    | ([], e) => some e
    | _ => none
  | _ => none

/-- read on from here -/
def run (r : Reading) (cs : List Char) : Option AutoLang.Expr := do
  let ts ← lex 0 cs
  (← ts.foldlM next r).finish

end Reading

/-- the expression that a text denotes in C -/
def read? (text : String) : Option AutoLang.Expr := (Reading.operand []).run text.toList

section Tokens

variable {c x : Char} {cs rest : List Char}

/-- a mark of one character is read where no longer one begins like the text -/
theorem find?_punctuation (x c : Char) (cs : List Char) (hx : String.ofList [x] ∈ punctuation)
    (h : ∀ s ∈ punctuation, s.toList.head? = some x → s.toList[1]? ≠ some c) :
    (punctuation.find? fun s => s.toList.isPrefixOf (x :: c :: cs)) = some (String.ofList [x]) := by
  have hproper : ∀ s ∈ punctuation, s.toList ≠ [] := by decide
  cases hs : punctuation.find? fun s => s.toList.isPrefixOf (x :: c :: cs) with
  | none =>
    have := List.find?_eq_none.1 hs _ hx
    simp at this
  | some s =>
    have hmem := List.mem_of_find?_eq_some hs
    have hfront : s.toList <+: x :: c :: cs := by
      have := List.find?_some hs
      exact List.isPrefixOf_iff_prefix.1 this
    match hl : s.toList with
    | [] => exact absurd hl (hproper s hmem)
    | [y] =>
      rw [hl] at hfront
      rw [← (List.cons_prefix_cons.1 hfront).1, ← hl, String.ofList_toList]
    | y :: z :: _ =>
      rw [hl] at hfront
      obtain ⟨hy, hfront⟩ := List.cons_prefix_cons.1 hfront
      obtain ⟨hz, -⟩ := List.cons_prefix_cons.1 hfront
      exact absurd (by simp [hl, hz]) (h s hmem (by simp [hl, hy]))

theorem tokenAt?_dot (hc : Lexeme.isWordStart c) :
    tokenAt? ('.' :: c :: cs) = some (.mark ".", 1) := by
  have longer : ∀ s ∈ punctuation, s.toList.head? = some '.' → s.toList[1]? ∈ [none, some '.'] := by
    decide
  have hd := isDigit_of_isWordStart hc
  change (if c.isDigit = true then _ else Option.map _ (punctuation.find? _)) = _
  rw [hd, find?_punctuation '.' c cs (by decide)]
  · rfl
  · intro s hs hx hc'
    obtain rfl : c = '.' := by simpa [hc'] using longer s hs hx
    cases hc

def signChar : UnaryOp → Char
  | .neg => '-'
  | .not => '!'
  | .plus => '+'

theorem symbol_eq (op : UnaryOp) : op.symbol = String.ofList [signChar op] := by
  cases op <;> rfl

/-- a sign is read alone before anything but the same sign; no mark is made of two `!` -/
theorem tokenAt?_sign {op : UnaryOp} (he : c ≠ '=') (hg : c ≠ '>') (hop : op = .not ∨ c ≠ signChar op) :
    tokenAt? (signChar op :: c :: cs) = some (.mark op.symbol, 1) := by
  have longer : ∀ s ∈ punctuation, s.toList.head? = some (signChar op) →
      s.toList[1]? = none ∨ s.toList[1]? = some '=' ∨ s.toList[1]? = some '>' ∨
        op ≠ .not ∧ s.toList[1]? = some (signChar op) := by
    cases op <;> decide
  have hfind := find?_punctuation (signChar op) c cs (by cases op <;> decide)
    fun s hs hx hc => by
      have := longer s hs hx
      rw [hc] at this
      simp only [Option.some.injEq, reduceCtorEq, he, hg, false_or] at this
      rcases hop with hop | hop
      · exact this.1 hop
      · exact hop this.2
  rw [symbol_eq]
  cases op <;>
  · change Option.map _ (punctuation.find? _) = _
    erw [hfind]
    rfl

theorem tokenAt?_link {op : BinaryOp} (hop : op ≠ .dot) :
    tokenAt? (op.symbol.toList ++ ' ' :: rest) = some (.mark op.symbol, op.symbol.toList.length) := by
  cases op with
  | dot => exact absurd rfl hop
  | _ => rfl

/-- nothing of the text after it belongs to a word before it; a point belongs to a number before it -/
def Apart (dotted : Bool) (rest : List Char) : Prop :=
  ∀ c ∈ rest.head?, Lexeme.isWordChar c = false ∧ (dotted = false → c ≠ '.')

theorem takeWhile_append_apart {dotted : Bool} (h : ∀ c ∈ cs, Lexeme.isWordChar c)
    (hr : Apart dotted rest) : (cs ++ rest).takeWhile Lexeme.isWordChar = cs := by
  rw [List.takeWhile_append_of_pos h]
  cases rest with
  | nil => simp
  | cons c rest => simp [(hr c rfl).1]

theorem tokenAt?_word {dotted : Bool} (hc : Lexeme.isWordStart c) (h : ∀ c ∈ cs, Lexeme.isWordChar c)
    (hr : Apart dotted rest) : tokenAt? (c :: cs ++ rest) =
      some (.word (String.ofList (c :: cs)), (c :: cs).length) := by
  rw [List.cons_append, tokenAt?, if_pos hc, takeWhile_append_apart h hr]

theorem numberRun_digits {last : Char} (hl : last.isDigit) (h : ∀ c ∈ cs, c.isDigit)
    (hr : Apart false rest) : numberRun last (cs ++ rest) = cs := by
  have unsigned (d : Char) (hd : d.isDigit) : ['e', 'E', 'p', 'P'].contains d = false := by
    rw [Bool.eq_false_iff, ne_eq, List.contains_iff_mem]
    intro hm
    simp only [List.mem_cons, List.not_mem_nil, or_false] at hm
    rcases hm with rfl | rfl | rfl | rfl <;> cases hd
  induction cs generalizing last with
  | nil =>
    cases rest with
    | nil => rfl
    | cons c rest =>
      obtain ⟨hw, hp⟩ := hr c rfl
      rw [List.nil_append, numberRun, hw, unsigned last hl]
      simp [hp rfl]
  | cons c cs ih =>
    rw [List.forall_mem_cons] at h
    have hw : Lexeme.isWordChar c = true := by simp [Lexeme.isWordChar, Char.isAlphanum, h.1]
    rw [List.cons_append, numberRun, hw, ih h.1 h.2]
    rfl

theorem tokenAt?_number (hc : c.isDigit) (h : ∀ c ∈ cs, c.isDigit) (h0 : c ≠ '0' ∨ cs = [])
    (hr : Apart false rest) : tokenAt? (c :: cs ++ rest) =
      some (.number (Nat.ofDigitChars 10 (c :: cs) 0), (c :: cs).length) := by
  have hw : ¬ Lexeme.isWordStart c := fun hw => by
    rw [isDigit_of_isWordStart hw] at hc
    cases hc
  have hv : decimal? (c :: cs) = some (Nat.ofDigitChars 10 (c :: cs) 0) := by
    have hall : (c :: cs).all Char.isDigit := by simpa [hc] using h
    have hhead : ((c :: cs).head? != some '0' || (c :: cs).length == 1) = true := by
      simpa [Bool.or_eq_true] using h0
    rw [decimal?, hall, hhead]
    rfl
  rw [List.cons_append, tokenAt?, if_neg hw, numberRun_digits hc h hr, hc]
  dsimp only
  rw [hv]
  rfl

theorem head?_toDigits {n : Nat} (hn : 0 < n) : (Nat.toDigits 10 n).head? ≠ some '0' := by
  induction n using Nat.strongRecOn with
  | ind n ih =>
    by_cases h : n < 10
    · interval_cases n <;> decide
    · rw [Nat.toDigits_of_base_le (by omega) (by omega),
        List.head?_append_of_ne_nil _ Nat.toDigits_ne_nil]
      exact ih (n / 10) (by omega) (by omega)

/-- no number but zero begins with a zero -/
theorem toDigits_zero (n : Nat) :
    (Nat.toDigits 10 n).head? ≠ some '0' ∨ (Nat.toDigits 10 n).tail = [] := by
  rcases Nat.eq_zero_or_pos n with rfl | hn
  · exact .inr rfl
  · exact .inl (head?_toDigits hn)

theorem isWhitespace_of_isWordChar (h : Lexeme.isWordChar c) : c.isWhitespace = false := by
  by_contra hw
  simp only [Char.isWhitespace, Bool.not_eq_false, Bool.or_eq_true, decide_eq_true_eq] at hw
  rcases hw with ((rfl | rfl) | rfl) | rfl <;> exact absurd h (by decide)

end Tokens

namespace Reading

variable {r : Reading} {rest : List Char}

theorem lex_skip (n : Nat) (cs : List Char) : lex n cs = lex 0 (cs.drop n) := by
  induction n generalizing cs with
  | zero => rfl
  | succ n ih =>
    cases cs with
    | nil => rfl
    | cons c cs => exact ih cs

/-- the token at the front of a text comes first -/
theorem lex_token {c : Char} {cs : List Char} {t : Lexical} (hc : c.isWhitespace = false)
    (ht : tokenAt? (c :: cs ++ rest) = some (t, (c :: cs).length)) :
    lex 0 (c :: cs ++ rest) = (lex 0 rest).map (t :: ·) := by
  rw [List.cons_append] at ht ⊢
  rw [lex, hc, ht]
  simp only [Bool.false_eq_true, if_false, Option.bind_eq_bind, Option.bind_some,
    List.length_cons, Nat.add_sub_cancel]
  rw [lex_skip, List.drop_left]
  cases lex 0 rest <;> rfl

theorem lex_word {n : String} {c : Char} {cs : List Char} {dotted : Bool} (hn : n.toList = c :: cs)
    (hc : Lexeme.isWordStart c) (hcs : ∀ c ∈ cs, Lexeme.isWordChar c) (hr : Apart dotted rest) :
    lex 0 (n.toList ++ rest) = (lex 0 rest).map (.word n :: ·) := by
  have hblank := isWhitespace_of_isWordChar (Lexeme.isWordChar_of_isWordStart hc)
  have hlex := lex_token hblank (tokenAt?_word hc hcs hr)
  rwa [← hn, String.ofList_toList] at hlex

theorem lex_number (n : Nat) (hr : Apart false rest) :
    lex 0 (Nat.toDigits 10 n ++ rest) = (lex 0 rest).map (.number n :: ·) := by
  have hdigits : ∀ c ∈ Nat.toDigits 10 n, c.isDigit := fun c =>
    Nat.isDigit_of_mem_toDigits (by omega) (by omega)
  have hvalue : Nat.ofDigitChars 10 (Nat.toDigits 10 n) 0 = n := Nat.ofDigitChars_ten_toDigits
  have hzero := toDigits_zero n
  cases hd : Nat.toDigits 10 n with
  | nil => exact absurd hd Nat.toDigits_ne_nil
  | cons c cs =>
    rw [hd] at hdigits hvalue hzero
    rw [List.forall_mem_cons] at hdigits
    have hblank : c.isWhitespace = false :=
      isWhitespace_of_isWordChar (by simp [Lexeme.isWordChar, Char.isAlphanum, hdigits.1])
    have hlex := lex_token hblank (tokenAt?_number hdigits.1 hdigits.2 (by simpa using hzero) hr)
    rwa [hvalue] at hlex

theorem run_blank (r : Reading) (cs : List Char) : r.run (' ' :: cs) = r.run cs := rfl

/-- what is read first -/
theorem run_of_lex {cs : List Char} {t : Lexical} (h : lex 0 cs = (lex 0 rest).map (t :: ·)) :
    r.run cs = (r.next t).bind (·.run rest) := by
  unfold run
  rw [h]
  cases lex 0 rest with
  | none => cases r.next t <;> rfl
  | some ts =>
    cases hn : r.next t with
    | none => simp [hn]
    | some r' => simp [hn]

/-- the token at the front of a text is read first -/
theorem run_token {c : Char} {cs : List Char} {t : Lexical} (hc : c.isWhitespace = false)
    (ht : tokenAt? (c :: cs ++ rest) = some (t, (c :: cs).length)) :
    r.run (c :: cs ++ rest) = (r.next t).bind (·.run rest) := run_of_lex (lex_token hc ht)

/-- a mark of one character -/
theorem run_mark {c : Char} (s : String) (hc : c.isWhitespace = false)
    (ht : tokenAt? (c :: rest) = some (.mark s, 1)) :
    r.run (c :: rest) = (r.next (.mark s)).bind (·.run rest) := by
  rw [← List.singleton_append] at ht ⊢
  exact run_token hc ht

section Steps

variable {ps : List Pending} {e : AutoLang.Expr}

theorem run_group (rest : List Char) :
    (operand ps).run ('(' :: rest) = (operand (.group :: ps)).run rest :=
  run_mark "(" rfl rfl

theorem run_sign {op : UnaryOp} {c : Char} {cs : List Char} (he : c ≠ '=') (hg : c ≠ '>')
    (hop : op = .not ∨ c ≠ signChar op) :
    (operand ps).run (signChar op :: c :: cs) = (operand (.sign op :: ps)).run (c :: cs) := by
  have hw : (signChar op).isWhitespace = false := by cases op <;> rfl
  refine (run_mark op.symbol hw (tokenAt?_sign he hg hop)).trans ?_
  cases op <;> rfl

theorem run_word {n : String} {c : Char} {cs : List Char} {dotted : Bool} (hn : n.toList = c :: cs)
    (hc : Lexeme.isWordStart c) (hcs : ∀ c ∈ cs, Lexeme.isWordChar c) (hr : Apart dotted rest)
    (r : Reading) : r.run (n.toList ++ rest) = (r.next (.word n)).bind (·.run rest) :=
  run_of_lex (lex_word hn hc hcs hr)

theorem run_number {n : Nat} (h : n < 2147483648) (hr : Apart false rest) :
    (operand ps).run (Nat.toDigits 10 n ++ rest) =
      (operator ps (.literal .nowhere (.int (Int32.ofNat n)))).run rest := by
  rw [run_of_lex (lex_number n hr), next, if_pos h]
  rfl

theorem run_dot {c : Char} {cs : List Char} (hc : Lexeme.isWordStart c) :
    (operator ps e).run ('.' :: c :: cs) = (field ps e).run (c :: cs) :=
  run_mark "." rfl (tokenAt?_dot hc)

theorem run_position (rest : List Char) :
    (operator ps e).run ('[' :: rest) = (operand (.position e :: ps)).run rest :=
  run_mark "[" rfl rfl

theorem run_arguments (rest : List Char) :
    (operator ps e).run ('(' :: rest) = (operand (.arguments e [] :: ps)).run rest :=
  run_mark "(" rfl rfl

theorem run_noArguments (rest : List Char) :
    (operand (.arguments e [] :: ps)).run (')' :: rest) =
      (operator ps (.call .nowhere e [])).run rest :=
  run_mark ")" rfl rfl

theorem run_middle (rest : List Char) : (operator ps e).run ('?' :: ' ' :: rest) =
    (operand (.middle (settle 4 ps e).2 :: (settle 4 ps e).1)).run (' ' :: rest) :=
  run_mark "?" rfl rfl

theorem run_close {c : Char} (hc : c ∈ [')', ']', ',']) (rest : List Char) :
    (operator ps e).run (c :: rest) =
      (close (String.ofList [c]) (settle 1 ps e)).bind (·.run rest) := by
  simp only [List.mem_cons, List.not_mem_nil, or_false] at hc
  rcases hc with rfl | rfl | rfl
  · exact run_mark ")" rfl rfl
  · exact run_mark "]" rfl rfl
  · exact run_mark "," rfl rfl

theorem run_otherwise (rest : List Char) : (operator ps e).run (':' :: ' ' :: rest) =
    (close ":" (settle 1 ps e)).bind (·.run (' ' :: rest)) :=
  run_mark ":" rfl rfl

theorem run_link {op : BinaryOp} (hop : op ≠ .dot) (rest : List Char) :
    (operator ps e).run (op.symbol.toList ++ ' ' :: rest) = (link op ps e).bind (·.run (' ' :: rest)) := by
  obtain ⟨c, cs, hs, hc⟩ : ∃ c cs, op.symbol.toList = c :: cs ∧ c.isWhitespace = false := by
    cases op <;> exact ⟨_, _, rfl, rfl⟩
  have htoken : tokenAt? (op.symbol.toList ++ ' ' :: rest) = _ := tokenAt?_link hop
  rw [hs] at htoken ⊢
  refine (run_token hc htoken).trans ?_
  cases op with
  | dot => exact absurd rfl hop
  | _ => rfl

end Steps

end Reading

/-- nothing pending is settled before the next bracket -/
def Open (ps : List Pending) : Prop := ∀ p ∈ ps.head?, p.tightness = 0

theorem settle_open {ps : List Pending} (h : Open ps) {least : Nat} (hl : 1 ≤ least)
    (e : AutoLang.Expr) : settle least ps e = (ps, e) := by
  cases ps with
  | nil => rfl
  | cons p ps => rw [settle, if_neg (by rw [h p rfl]; omega)]

end AutoLang.C
