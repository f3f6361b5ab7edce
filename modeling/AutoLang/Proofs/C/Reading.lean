import AutoLang.C.Compile
import AutoLang.C.Print
import AutoLang.Proofs.C.Reader
import AutoLang.Proofs.Tree.Placeless
import Mathlib

/-! The text of an expression is read back in C as the tree it was made from, with some care: what is
called, indexed or has a field is no signed expression, what has a field is no number, a field is a name,
no sign stands before the same sign, and no name is a word of C. -/

namespace AutoLang.C

section Fragment

def isOperand : AutoLang.Expr → Bool
  | .block _ _ => false
  | _ => true

def sign? : AutoLang.Expr → Option UnaryOp
  | .unary _ op _ => some op
  | _ => none

def isNumber : AutoLang.Expr → Bool
  | .literal _ _ => true
  | _ => false

def isName : AutoLang.Expr → Bool
  | .ident _ _ => true
  | _ => false

/-- the spelling of a name -/
def isIdentifier (n : String) : Bool :=
  match n.toList with
  | [] => false
  | c :: cs => Lexeme.isWordStart c && cs.all Lexeme.isWordChar

theorem exists_cons_of_isIdentifier {n : String} (h : isIdentifier n = true) :
    ∃ c cs, n.toList = c :: cs ∧ Lexeme.isWordStart c ∧ ∀ d ∈ cs, Lexeme.isWordChar d := by
  unfold isIdentifier at h
  split at h
  · cases h
  · rename_i c cs hn
    rw [Bool.and_eq_true, List.all_eq_true] at h
    exact ⟨c, cs, hn, h⟩

mutual

/-- expressions without text, floating numbers or more than one expression in a block; a block is no
operand -/
@[simp]
def isPlain : AutoLang.Expr → Bool
  | .literal _ (.int v) => 0 ≤ v
  | .ident _ n => isIdentifier n
  | .unary _ _ e => isOperand e && isPlain e
  | .binary _ l _ r => isOperand l && isPlain l && isOperand r && isPlain r
  | .index _ a i => isOperand a && isPlain a && isPlain i
  | .call _ f es => isOperand f && f.name? != some Eval.printName && isPlain f && arePlain es
  | .cond _ t y n => isPlain t && isPlain y && isPlain? n
  | .block _ [.expr _ e] => isPlain e
  | _ => false

@[simp]
def arePlain : List AutoLang.Expr → Bool
  | [] => true
  | e :: es => isPlain e && arePlain es

@[simp]
def isPlain? : Option AutoLang.Expr → Bool
  | none => true
  | some e => isPlain e

end

mutual

/-- what C reads as it was meant -/
@[simp]
def isClear : AutoLang.Expr → Bool
  | .ident _ n => !keywords.contains n && n != "NULL"
  | .unary _ op e => (op == .not || sign? e != some op) && isClear e
  | .binary _ l op r =>
    (op != .dot || (sign? l).isNone && !isNumber l && isName r) && isClear l && isClear r
  | .index _ a i => (sign? a).isNone && isClear a && isClear i
  | .call _ f es => (sign? f).isNone && isClear f && areClear es
  | .cond _ t y n => isClear t && isClear y && isClear? n
  | .block _ [.expr _ e] => isClear e
  | _ => true

@[simp]
def areClear : List AutoLang.Expr → Bool
  | [] => true
  | e :: es => isClear e && areClear es

@[simp]
def isClear? : Option AutoLang.Expr → Bool
  | none => true
  | some e => isClear e

end

mutual

/-- the tree without places and without the braces of its branches; a branch that is missing is null -/
@[simp]
def shape : AutoLang.Expr → AutoLang.Expr
  | .literal _ v => .literal .nowhere v
  | .ident _ n => .ident .nowhere n
  | .unary _ op e => .unary .nowhere op (shape e)
  | .binary _ l op r => .binary .nowhere (shape l) op (shape r)
  | .index _ a i => .index .nowhere (shape a) (shape i)
  | .call _ f es => .call .nowhere (shape f) (shapes es)
  | .cond _ t y n => .cond .nowhere (shape t) (shape y) (some (shape? n))
  | .block _ [.expr _ e] => shape e
  | e => e.placeless

@[simp]
def shapes : List AutoLang.Expr → List AutoLang.Expr
  | [] => []
  | e :: es => shape e :: shapes es

@[simp]
def shape? : Option AutoLang.Expr → AutoLang.Expr
  | none => .literal .nowhere .null
  | some e => shape e

end

end Fragment

/-- the compiler makes `a` and keeps the scopes as they are -/
def Makes {α : Type} (work : Compile α) (a : α) : Prop := ∀ t, work.run.run t = (.ok a, t)

namespace Makes

variable {α β : Type} {a : α} {b : β}

theorem pure : Makes (Pure.pure a) a := fun _ => rfl

theorem bind {x : Compile α} {g : α → Compile β} (hx : Makes x a) (hg : Makes (g a) b) :
    Makes (x >>= g) b := by
  intro t
  refine Eq.trans ?_ (hg t)
  change (ExceptT.bindCont g (x.run.run t).1).run (x.run.run t).2 = _
  rw [hx t]
  rfl

theorem unique {x : Compile α} {a' : α} (h : Makes x a) (h' : Makes x a') : a = a' := by
  have hsame := (h default).symm.trans (h' default)
  injection hsame with hok
  injection hok

end Makes

/-- the characters of an expression -/
def chars (c : Expr) : List Char := (exprText c).toList

/-- the characters of an expression where it is an operand -/
def operandChars (c : Expr) : List Char := (asOperand c (exprText c)).toList

theorem operandChars_of_not_isCompound {c : Expr} (h : c.isCompound = false) :
    operandChars c = chars c := by
  unfold operandChars asOperand
  rw [h]
  rfl

/-- an operation stands in parentheses where it is an operand -/
theorem operandChars_of_isCompound {c : Expr} (h : c.isCompound) :
    operandChars c = '(' :: (chars c ++ [')']) := by
  unfold operandChars asOperand inParens chars
  rw [h]
  simp

theorem chars_binary (l : Expr) (op : BinaryOp) (r : Expr) : chars (.binary l op r) =
    operandChars l ++ ' ' :: (op.symbol.toList ++ ' ' :: operandChars r) := by
  unfold chars operandChars
  rw [exprText]
  simp

/-- the characters of a number that is not below zero -/
theorem toList_repr (n : Nat) : n.repr.toList = Nat.toDigits 10 n :=
  (congrArg String.toList Nat.repr_eq_ofList_toDigits).trans String.toList_ofList

open AutoLang.C.Reading

/-- after a bracket, the characters are read as this expression -/
def Whole (cs : List Char) (e : AutoLang.Expr) : Prop :=
  ∀ ps rest, Open ps → Apart false rest → ∃ ps' e',
    (operand ps).run (cs ++ rest) = (operator ps' e').run rest ∧ settle 1 ps' e' = (ps, e)

namespace Whole

variable {cs : List Char} {e : AutoLang.Expr} {ps : List Pending}

theorem run_close (h : Whole cs e) (hps : Open ps) {c : Char} (hc : c ∈ [')', ']', ','])
    (rest : List Char) : (operand ps).run (cs ++ c :: rest) =
      (close (String.ofList [c]) (ps, e)).bind (·.run rest) := by
  have hapart : Apart false (c :: rest) := by
    simp only [List.mem_cons, List.not_mem_nil, or_false] at hc
    rintro d ⟨⟩
    rcases hc with rfl | rfl | rfl <;> exact ⟨rfl, fun _ => by decide⟩
  obtain ⟨ps', e', hrun, hsettle⟩ := h ps (c :: rest) hps hapart
  rw [hrun, Reading.run_close hc, hsettle]

theorem run_group (h : Whole cs e) (ps : List Pending) (rest : List Char) :
    (operand ps).run ('(' :: (cs ++ ')' :: rest)) = (operator ps e).run rest := by
  rw [Reading.run_group, h.run_close (by rintro p ⟨⟩; rfl) (by simp)]
  rfl

theorem null : Whole (chars (.literal .null)) (.literal .nowhere .null) := by
  intro ps rest hps hr
  have hword : ofWord? "NULL" = some (.literal .nowhere .null) := by
    rw [ofWord?, if_neg (by decide), if_pos (by decide)]
  refine ⟨ps, _, ?_, settle_open hps le_rfl _⟩
  have hword_run : ∀ r : Reading, r.run ("NULL".toList ++ rest) = (r.next (.word "NULL")).bind (·.run rest) :=
    run_word rfl rfl (by simp; decide) hr
  refine (hword_run _).trans ?_
  rw [next, hword]
  rfl

end Whole

/-- the text of `c` is read as the expression `e`: after a bracket, as an operand, and as an operand to
which a postfix operator applies -/
structure ReadsAs (e : AutoLang.Expr) (c : Expr) : Prop where
  whole : Whole (chars c) (shape e)
  operand : isOperand e → ∀ ps rest, Apart false rest → ∃ ps' e',
    (operand ps).run (operandChars c ++ rest) = (operator ps' e').run rest ∧
      ∀ least ≤ 14, settle least ps' e' = settle least ps (shape e)
  head : isOperand e → sign? e = none → ∀ ps rest, Apart (!isNumber e) rest →
    (Reading.operand ps).run (operandChars c ++ rest) = (operator ps (shape e)).run rest
  starts : isOperand e → ∃ x xs, operandChars c = x :: xs ∧
    (Lexeme.isWordChar x ∨ x = '(' ∨ ∃ op, x = signChar op ∧ sign? e = some op)

theorem Apart.weaken {b : Bool} {rest : List Char} (h : Apart false rest) : Apart b rest :=
  fun c hc => ⟨(h c hc).1, fun _ => (h c hc).2 rfl⟩

namespace ReadsAs

variable {e : AutoLang.Expr} {c : Expr}

/-- what a postfix operator may follow -/
theorem ofHead (hc : c.isCompound = false)
    (head : ∀ ps rest, Apart (!isNumber e) rest →
      (Reading.operand ps).run (chars c ++ rest) = (operator ps (shape e)).run rest)
    (starts : ∃ x xs, chars c = x :: xs ∧ (Lexeme.isWordChar x ∨ x = '(')) : ReadsAs e c := by
  have hchars := operandChars_of_not_isCompound hc
  obtain ⟨x, xs, hx, hstart⟩ := starts
  exact {
    whole := fun ps rest hps hr =>
      ⟨ps, shape e, head ps rest hr.weaken, settle_open hps le_rfl _⟩
    operand := fun _ ps rest hr => ⟨ps, shape e, hchars ▸ head ps rest hr.weaken, fun _ _ => rfl⟩
    head := fun _ _ ps rest hr => hchars ▸ head ps rest hr
    starts := fun _ => ⟨x, xs, hchars ▸ hx, hstart.imp_right .inl⟩ }

/-- an operation -/
theorem ofCompound (hc : c.isCompound) (whole : Whole (chars c) (shape e)) : ReadsAs e c := by
  have hchars := operandChars_of_isCompound hc
  have head (ps : List Pending) (rest : List Char) :
      (Reading.operand ps).run (operandChars c ++ rest) = (operator ps (shape e)).run rest := by
    rw [hchars, List.cons_append, List.append_assoc]
    exact whole.run_group ps rest
  exact {
    whole := whole
    operand := fun _ ps rest _ => ⟨ps, shape e, head ps rest, fun _ _ => rfl⟩
    head := fun _ _ ps rest _ => head ps rest
    starts := fun _ => ⟨'(', _, hchars, .inr (.inl rfl)⟩ }

variable {s s' : Span} {rest : List Char}

theorem ofBlock (h : ReadsAs e c) : ReadsAs (.block s [.expr s' e]) (.bare c) where
  whole ps rest hps hr := by
    rw [shape]
    exact h.whole ps rest hps hr
  operand := nofun
  head := nofun
  starts := nofun

theorem literal {v : Int32} (hv : 0 ≤ v) : ReadsAs (.literal s (.int v)) (.literal (.int v)) := by
  obtain ⟨n, hn, rfl⟩ : ∃ n < 2147483648, v = Int32.ofNat n :=
    ⟨v.toNatClampNeg, v.toNatClampNeg_lt, (v.ofNat_toNatClampNeg hv).symm⟩
  have hchars : chars (.literal (.int (Int32.ofNat n))) = Nat.toDigits 10 n := by
    unfold chars
    rw [exprText, literalText, Int32.toInt_ofNat_of_lt hn]
    exact toList_repr n
  refine ofHead rfl (fun ps rest hr => ?_) ?_
  · rw [hchars, shape]
    exact run_number hn hr
  · rw [hchars]
    cases hd : Nat.toDigits 10 n with
    | nil => exact absurd hd Nat.toDigits_ne_nil
    | cons x xs =>
      have hx : x.isDigit :=
        Nat.isDigit_of_mem_toDigits (b := 10) (n := n) (by omega) (by omega) (by simp [hd])
      exact ⟨x, xs, rfl, .inl (by simp [Lexeme.isWordChar, Char.isAlphanum, hx])⟩

theorem ident {n : String} (hn : isIdentifier n) (hk : ofWord? n = some (.ident .nowhere n)) :
    ReadsAs (.ident s n) (.name n) := by
  obtain ⟨x, xs, hx, hstart, hxs⟩ := exists_cons_of_isIdentifier hn
  refine ofHead rfl (fun ps rest hr => ?_)
    ⟨x, xs, hx, .inl (Lexeme.isWordChar_of_isWordStart hstart)⟩
  refine (run_word hx hstart hxs hr _).trans ?_
  rw [next, hk, shape]
  rfl

theorem unary {op : UnaryOp} (h : ReadsAs e c) (ho : isOperand e)
    (hsign : op = .not ∨ sign? e ≠ some op) : ReadsAs (.unary s op e) (.unary op c) := by
  obtain ⟨x, xs, hx, hstart⟩ := h.starts ho
  have hchars : chars (.unary op c) = signChar op :: operandChars c := by
    unfold chars operandChars
    rw [exprText, symbol_eq]
    simp
  -- no sign and no mark of two characters comes out of the sign and what follows it
  have hother : x ≠ '=' ∧ x ≠ '>' ∧ (op = .not ∨ x ≠ signChar op) := by
    rcases hstart with hw | rfl | ⟨op', rfl, hop'⟩
    · refine ⟨?_, ?_, .inr ?_⟩
      · rintro rfl
        cases hw
      · rintro rfl
        cases hw
      · rintro rfl
        cases op <;> cases hw
    · exact ⟨by decide, by decide, .inr (by cases op <;> decide)⟩
    · refine ⟨by cases op' <;> decide, by cases op' <;> decide, ?_⟩
      refine hsign.imp_right fun hne heq => hne ?_
      rw [hop']
      cases op <;> cases op' <;> first | rfl | cases heq
  have operand (ps : List Pending) (rest : List Char) (hr : Apart false rest) : ∃ ps' e',
      (Reading.operand ps).run (chars (.unary op c) ++ rest) = (operator ps' e').run rest ∧
        ∀ least ≤ 14, settle least ps' e' = settle least ps (shape (.unary s op e)) := by
    obtain ⟨ps', e', hrun, hsettle⟩ := h.operand ho (.sign op :: ps) rest hr
    refine ⟨ps', e', ?_, fun least hl => ?_⟩
    · rw [hchars, hx, List.cons_append, List.cons_append, run_sign hother.1 hother.2.1 hother.2.2,
        ← List.cons_append, ← hx, hrun]
    · rw [hsettle least hl, settle, if_pos (show least ≤ (Pending.sign op).tightness from hl), shape]
      rfl
  exact {
    whole := fun ps rest hps hr => by
      obtain ⟨ps', e', hrun, hsettle⟩ := operand ps rest hr
      exact ⟨ps', e', hrun, (hsettle 1 (by omega)).trans (settle_open hps le_rfl _)⟩
    operand := fun _ => operand
    head := fun _ hs => by cases hs
    starts := fun _ => ⟨_, _, hchars, .inr (.inr ⟨op, rfl, rfl⟩)⟩ }

theorem link_settled {op : BinaryOp} {ps ps' : List Pending} {e e' : AutoLang.Expr} (hps : Open ps)
    (h : ∀ least ≤ 14, settle least ps' e' = settle least ps e) (hop : op ≠ .dot) :
    link op ps' e' = some (.operand (.between e op :: ps)) := by
  have hopen : (ps.head?.all (·.tightness ≤ 2)) = true := by
    rw [Option.all_eq_true]
    intro p hp
    simp [hps p hp]
  have hlevel : 1 ≤ tightness op ∧ tightness op ≤ 14 := by
    cases op <;> first | exact absurd rfl hop | decide
  unfold link
  rw [h 14 le_rfl, settle_open hps (by omega), h _ hlevel.2, settle_open hps hlevel.1]
  simp [hopen]

theorem binary {op : BinaryOp} {l r : AutoLang.Expr} {x y : Expr} (hl : ReadsAs l x)
    (hr : ReadsAs r y) (hol : isOperand l) (hor : isOperand r) (hop : op ≠ .dot) :
    ReadsAs (.binary s l op r) (.binary x op y) := by
  refine ofCompound rfl fun ps rest hps hrest => ?_
  obtain ⟨ps₁, e₁, hrun₁, hsettle₁⟩ := hl.operand hol ps
    (' ' :: (op.symbol.toList ++ ' ' :: (operandChars y ++ rest)))
    (by rintro c ⟨⟩; exact ⟨rfl, fun _ => by decide⟩)
  obtain ⟨ps₂, e₂, hrun₂, hsettle₂⟩ := hr.operand hor (.between (shape l) op :: ps) rest hrest
  refine ⟨ps₂, e₂, ?_, ?_⟩
  · rw [chars_binary]
    simp only [List.append_assoc, List.cons_append]
    rw [hrun₁, run_blank, run_link hop, link_settled hps hsettle₁ hop, Option.bind_some, run_blank,
      hrun₂]
  · have hlevel : 1 ≤ tightness op := by cases op <;> decide
    rw [hsettle₂ 1 (by omega), settle, if_pos (by exact hlevel), settle_open hps le_rfl, shape]
    rfl

/-- an operation that begins with an operand may begin with the same character -/
theorem starts_append {ys : List Char} (h : ReadsAs e c) (ho : isOperand e) (hs : sign? e = none) :
    ∃ x xs, operandChars c ++ ys = x :: xs ∧ (Lexeme.isWordChar x ∨ x = '(') := by
  obtain ⟨x, xs, hx, hstart⟩ := h.starts ho
  refine ⟨x, xs ++ ys, by rw [hx, List.cons_append], ?_⟩
  rcases hstart with hw | rfl | ⟨op, -, hop⟩
  · exact .inl hw
  · exact .inr rfl
  · rw [hs] at hop
    cases hop

theorem member {n : String} (h : ReadsAs e c) (ho : isOperand e) (hs : sign? e = none)
    (hnum : isNumber e = false) (hn : isIdentifier n)
    (hk : ofWord? n = some (.ident .nowhere n)) :
    ReadsAs (.binary s e .dot (.ident s' n)) (.member c (.name n)) := by
  have hchars : chars (.member c (.name n)) = operandChars c ++ '.' :: n.toList := by
    unfold chars operandChars
    rw [exprText, exprText]
    simp
  obtain ⟨x, xs, hx, hstart, hxs⟩ := exists_cons_of_isIdentifier hn
  refine ofHead rfl (fun ps rest hr => ?_) (hchars ▸ h.starts_append ho hs)
  have hapart : Apart (!isNumber e) ('.' :: (n.toList ++ rest)) := by
    rw [hnum]
    rintro c ⟨⟩
    exact ⟨rfl, nofun⟩
  rw [hchars, List.append_assoc, List.cons_append, h.head ho hs _ _ hapart, hx, List.cons_append,
    run_dot hstart, ← List.cons_append, ← hx, run_word hx hstart hxs hr, next, hk, shape, shape]
  rfl

theorem index {a i : AutoLang.Expr} {x y : Expr} (ha : ReadsAs a x) (hi : ReadsAs i y)
    (ho : isOperand a) (hs : sign? a = none) : ReadsAs (.index s a i) (.index x y) := by
  have hchars : chars (.index x y) = operandChars x ++ '[' :: (chars y ++ [']']) := by
    unfold chars operandChars
    rw [exprText]
    simp
  refine ofHead rfl (fun ps rest _ => ?_) (hchars ▸ ha.starts_append ho hs)
  rw [hchars]
  simp only [List.append_assoc, List.cons_append, List.nil_append]
  rw [ha.head ho hs _ _ (by rintro c ⟨⟩; exact ⟨rfl, fun _ => by decide⟩), run_position,
    hi.whole.run_close (by rintro p ⟨⟩; rfl) (by simp), shape]
  rfl

/-- the characters of a list of expressions -/
theorem chars_commaList (c : Expr) (cs : List Expr) : (commaList (exprTexts (c :: cs))).toList =
    chars c ++ (if cs = [] then [] else ',' :: ' ' :: (commaList (exprTexts cs)).toList) := by
  unfold commaList chars
  cases cs with
  | nil => simp [exprTexts]
  | cons d ds => simp [exprTexts, String.intercalate_cons_cons]

/-- the arguments of a call, one after the other -/
theorem run_list {es : List AutoLang.Expr} {cs : List Expr} (h : List.Forall₂ ReadsAs es cs)
    (hne : es ≠ []) (f : AutoLang.Expr) (done : List AutoLang.Expr) (ps : List Pending)
    (rest : List Char) :
    (Reading.operand (.arguments f done :: ps)).run ((commaList (exprTexts cs)).toList ++ ')' :: rest) =
      (operator ps (.call .nowhere f (done ++ shapes es))).run rest := by
  have hopen (done : List AutoLang.Expr) : Open (.arguments f done :: ps) := by
    rintro p ⟨⟩
    rfl
  induction h generalizing done with
  | nil => exact absurd rfl hne
  | @cons e c es cs he hes ih =>
    rw [chars_commaList]
    cases hes with
    | nil =>
      rw [if_pos rfl, List.append_nil, he.whole.run_close (hopen done) (by simp)]
      rfl
    | cons he' hes' =>
      rw [if_neg (by simp), List.append_assoc, List.cons_append, List.cons_append,
        he.whole.run_close (hopen done) (by simp)]
      refine (ih (by simp) (done ++ [shape e])).trans ?_
      rw [List.append_assoc]
      rfl

theorem call {f : AutoLang.Expr} {es : List AutoLang.Expr} {x : Expr} {cs : List Expr}
    (hf : ReadsAs f x) (hes : List.Forall₂ ReadsAs es cs) (ho : isOperand f) (hs : sign? f = none) :
    ReadsAs (.call s f es) (.call x cs) := by
  have hchars : chars (.call x cs) =
      operandChars x ++ '(' :: ((commaList (exprTexts cs)).toList ++ [')']) := by
    unfold chars operandChars
    rw [exprText]
    simp [inParens]
  refine ofHead rfl (fun ps rest _ => ?_) (hchars ▸ hf.starts_append ho hs)
  rw [hchars]
  simp only [List.append_assoc, List.cons_append, List.nil_append]
  rw [hf.head ho hs _ _ (by rintro c ⟨⟩; exact ⟨rfl, fun _ => by decide⟩), run_arguments, shape]
  cases hes with
  | nil => exact run_noArguments rest
  | cons he hes => exact run_list (.cons he hes) (by simp) _ _ _ _

theorem cond {t y : AutoLang.Expr} {n : Option AutoLang.Expr} {a b d : Expr} (ht : ReadsAs t a)
    (hy : ReadsAs y b)
    (hn : Whole (chars d) (shape? n)) : ReadsAs (.cond s t y n) (.choice a b d) := by
  have hchars : chars (.choice a b d) = '(' :: (chars a ++ ')' :: ' ' :: '?' :: ' ' :: '(' ::
      (chars b ++ ')' :: ' ' :: ':' :: ' ' :: '(' :: (chars d ++ [')']))) := by
    unfold chars
    rw [exprText]
    simp [inParens]
  refine ofCompound rfl fun ps rest hps _ => ⟨.otherwise (shape t) (shape y) :: ps, shape? n, ?_, ?_⟩
  · rw [hchars]
    simp only [List.append_assoc, List.cons_append, List.nil_append]
    rw [ht.whole.run_group, run_blank, run_middle, run_blank, settle_open hps (by omega),
      hy.whole.run_group, run_blank, run_otherwise,
      settle_open (by rintro p ⟨⟩; rfl) le_rfl]
    exact hn.run_group _ rest
  · have hlevel : 1 ≤ (Pending.otherwise (shape t) (shape y)).tightness := Nat.succ_le_succ (Nat.zero_le 2)
    rw [settle, if_pos hlevel, settle_open hps le_rfl, shape]
    rfl

end ReadsAs

theorem ofWord?_of_isClear {s : Span} {n : String} (h : isClear (.ident s n)) :
    ofWord? n = some (.ident .nowhere n) := by
  simp only [isClear, Bool.and_eq_true, Bool.not_eq_true', bne_iff_ne] at h
  rw [ofWord?, h.1, if_neg (by decide), if_neg (by simpa using h.2)]

mutual

/-- the compiler makes a C expression that is read as the expression it was made of -/
theorem readsAs : (e : AutoLang.Expr) → isPlain e → isClear e →
    ∃ c, Makes (Compile.expr e) c ∧ ReadsAs e c
  | .literal _ (.int v), hp, _ => by
    rw [isPlain, decide_eq_true_eq] at hp
    exact ⟨_, .pure, .literal hp⟩
  | .ident _ n, hp, hc => by
    rw [isPlain] at hp
    exact ⟨_, .pure, .ident hp (ofWord?_of_isClear hc)⟩
  | .unary _ op e, hp, hc => by
    rw [isPlain, Bool.and_eq_true] at hp
    rw [isClear, Bool.and_eq_true] at hc
    obtain ⟨c, hmakes, hreads⟩ := readsAs e hp.2 hc.2
    refine ⟨_, hmakes.bind .pure, hreads.unary hp.1 ?_⟩
    simpa [Bool.or_eq_true] using hc.1
  | .binary _ l op r, hp, hc => by
    simp only [isPlain, Bool.and_eq_true] at hp
    simp only [isClear, Bool.and_eq_true] at hc
    obtain ⟨⟨⟨hol, hpl⟩, hor⟩, hpr⟩ := hp
    obtain ⟨⟨hdot, hcl⟩, hcr⟩ := hc
    obtain ⟨x, hmakes, hx⟩ := readsAs l hpl hcl
    by_cases hop : op = .dot
    · subst hop
      have hfield : (sign? l = none ∧ isNumber l = false) ∧ isName r := by simpa using hdot
      cases r with
      | ident _ n =>
        rw [isPlain] at hpr
        exact ⟨_, hmakes.bind (Makes.pure.bind .pure),
          hx.member hol hfield.1.1 hfield.1.2 hpr (ofWord?_of_isClear hcr)⟩
      | _ => cases hfield.2
    · obtain ⟨y, hmakes', hy⟩ := readsAs r hpr hcr
      refine ⟨_, hmakes.bind (hmakes'.bind .pure), ?_⟩
      rw [if_neg (by simpa using hop)]
      exact hx.binary hy hol hor hop
  | .index _ a i, hp, hc => by
    simp only [isPlain, Bool.and_eq_true] at hp
    simp only [isClear, Bool.and_eq_true, Option.isNone_iff_eq_none] at hc
    obtain ⟨x, hmakes, hx⟩ := readsAs a hp.1.2 hc.1.2
    obtain ⟨y, hmakes', hy⟩ := readsAs i hp.2 hc.2
    exact ⟨_, hmakes.bind (hmakes'.bind .pure), hx.index hy hp.1.1 hc.1.1⟩
  | .call _ f es, hp, hc => by
    simp only [isPlain, Bool.and_eq_true, bne_iff_ne] at hp
    simp only [isClear, Bool.and_eq_true, Option.isNone_iff_eq_none] at hc
    obtain ⟨⟨⟨hof, hprint⟩, hpf⟩, hpes⟩ := hp
    obtain ⟨x, hmakes, hx⟩ := readsAs f hpf hc.1.2
    obtain ⟨cs, hmakes', hcs⟩ := readAs_list es hpes hc.2
    refine ⟨.call x cs, ?_, hx.call hcs hof hc.1.1⟩
    rw [Compile.expr, if_neg (by simpa using hprint)]
    exact hmakes.bind (hmakes'.bind .pure)
  | .cond _ t y none, hp, hc => by
    simp only [isPlain, isPlain?, Bool.and_eq_true] at hp
    simp only [isClear, isClear?, Bool.and_eq_true] at hc
    obtain ⟨a, hmakes, ha⟩ := readsAs t hp.1.1 hc.1.1
    obtain ⟨b, hmakes', hb⟩ := readsAs y hp.1.2 hc.1.2
    exact ⟨_, hmakes.bind (hmakes'.bind .pure), ha.cond hb .null⟩
  | .cond _ t y (some n), hp, hc => by
    simp only [isPlain, isPlain?, Bool.and_eq_true] at hp
    simp only [isClear, isClear?, Bool.and_eq_true] at hc
    obtain ⟨a, hmakes, ha⟩ := readsAs t hp.1.1 hc.1.1
    obtain ⟨b, hmakes', hb⟩ := readsAs y hp.1.2 hc.1.2
    obtain ⟨d, hmakes'', hd⟩ := readsAs n hp.2 hc.2
    exact ⟨_, hmakes.bind (hmakes'.bind (hmakes''.bind .pure)), ha.cond hb hd.whole⟩
  | .block _ [.expr _ e], hp, hc => by
    rw [isPlain] at hp
    rw [isClear] at hc
    obtain ⟨c, hmakes, hreads⟩ := readsAs e hp hc
    exact ⟨_, hmakes.bind .pure, hreads.ofBlock⟩

theorem readAs_list : (es : List AutoLang.Expr) → arePlain es → areClear es →
    ∃ cs, Makes (Compile.exprs es) cs ∧ List.Forall₂ ReadsAs es cs
  | [], _, _ => ⟨[], .pure, .nil⟩
  | e :: es, hp, hc => by
    rw [arePlain, Bool.and_eq_true] at hp
    rw [areClear, Bool.and_eq_true] at hc
    obtain ⟨c, hmakes, hreads⟩ := readsAs e hp.1 hc.1
    obtain ⟨cs, hmakes', hreads'⟩ := readAs_list es hp.2 hc.2
    exact ⟨_, hmakes.bind (hmakes'.bind .pure), .cons hreads hreads'⟩

end

theorem read?_of_whole {c : Expr} {e : AutoLang.Expr} (h : Whole (chars c) e) :
    read? (exprText c) = some e := by
  obtain ⟨ps, e', hrun, hsettle⟩ := h [] [] nofun nofun
  have hfinish : (operator ps e').run [] = (operator ps e').finish := rfl
  rw [List.append_nil, hfinish, finish, hsettle] at hrun
  exact hrun

/-- C reads the text of a clear expression as the tree it was made from, so another tree has another
text -/
theorem emitted_read_back {e : AutoLang.Expr} (hp : isPlain e) (hc : isClear e) :
    ∃ c, Makes (Compile.expr e) c ∧ read? (exprText c) = some (shape e) ∧
      ∀ e' c', isPlain e' → isClear e' → Makes (Compile.expr e') c' → exprText c' = exprText c →
        shape e' = shape e := by
  obtain ⟨c, hmakes, hreads⟩ := readsAs e hp hc
  have hread := read?_of_whole hreads.whole
  refine ⟨c, hmakes, hread, fun e' c' hp' hc' hmakes' htext => ?_⟩
  obtain ⟨c'', hmakes'', hreads'⟩ := readsAs e' hp' hc'
  obtain rfl := hmakes'.unique hmakes''
  have hread' := read?_of_whole hreads'.whole
  rw [htext, hread] at hread'
  exact (Option.some.inj hread').symm

namespace Samples

def x : AutoLang.Expr := .ident .nowhere "x"

def minus (e : AutoLang.Expr) : AutoLang.Expr := .unary .nowhere .neg e

def first (e : AutoLang.Expr) : AutoLang.Expr := .index .nowhere e (.literal .nowhere (.int 0))

def dot (e f : AutoLang.Expr) : AutoLang.Expr := .binary .nowhere e .dot f

/-- `if x[0] < -x.f(x)`, with the branch `-x[0]` -/
def mixed : AutoLang.Expr :=
  .cond .nowhere (.binary .nowhere (first x) .lt (minus (.call .nowhere (dot x (.ident .nowhere "f")) [x])))
    (.block .nowhere [.expr .nowhere (minus (first x))]) none

end Samples

open Samples in
theorem emitted_read_back_conditional : isPlain mixed ∧ isClear mixed ∧
    ∃ c, Makes (Compile.expr mixed) c ∧ read? (exprText c) = some (shape mixed) ∧
      ∀ e' c', isPlain e' → isClear e' → Makes (Compile.expr e') c' → exprText c' = exprText c →
        shape e' = shape mixed :=
  ⟨by decide, by decide, emitted_read_back (by decide) (by decide)⟩

/-- the compiler's text for a plain expression is not read as that expression -/
def Misread (e : AutoLang.Expr) : Prop :=
  isPlain e ∧ ∃ c, Makes (Compile.expr e) c ∧ read? (exprText c) ≠ some (shape e)

theorem Misread.of_none {e : AutoLang.Expr} {c : Expr} (hp : isPlain e) (hm : Makes (Compile.expr e) c)
    (h : (read? (exprText c)).isNone) : Misread e := by
  refine ⟨hp, c, hm, ?_⟩
  rw [Option.isNone_iff_eq_none.1 h]
  nofun

theorem Misread.of_other {e e' : AutoLang.Expr} {c : Expr} (hp : isPlain e)
    (hm : Makes (Compile.expr e) c) (h : read? (exprText c) = some e') (hne : e' ≠ shape e) :
    Misread e :=
  ⟨hp, c, hm, h ▸ fun heq => hne (Option.some.inj heq)⟩

open Samples in
/-- a sign before the same sign; a sign before what is indexed, called or has a field; a number or an
operation around a point; and words of C. An element of a negated array is written like a negated
element. -/
theorem unclear_misread :
    (Misread (minus (minus x)) ∧ Misread (first (minus x)) ∧ Misread (.call .nowhere (minus x) []) ∧
      Misread (dot (minus x) x) ∧ Misread (dot (.literal .nowhere (.int 1)) x) ∧
      Misread (dot x (.binary .nowhere x .add x)) ∧ Misread (.ident .nowhere "int") ∧
      Misread (.ident .nowhere "NULL")) ∧
    ∃ c c', Makes (Compile.expr (first (minus x))) c ∧ Makes (Compile.expr (minus (first x))) c' ∧
      exprText c = exprText c' ∧ shape (first (minus x)) ≠ shape (minus (first x)) := by
  refine ⟨⟨?_, ?_, ?_, ?_, ?_, ?_, ?_, ?_⟩, _, _, fun _ => rfl, fun _ => rfl, rfl, nofun⟩
  · exact .of_none (by decide) (fun _ => rfl) (by decide)
  · exact .of_other (by decide) (fun _ => rfl) rfl nofun
  · exact .of_other (by decide) (fun _ => rfl) rfl nofun
  · exact .of_other (by decide) (fun _ => rfl) rfl nofun
  · exact .of_none (by decide) (fun _ => rfl) (by decide)
  · exact .of_other (by decide) (fun _ => rfl) rfl nofun
  · exact .of_none (by decide) (fun _ => rfl) (by decide)
  · exact .of_other (by decide) (fun _ => rfl) rfl nofun

end AutoLang.C
