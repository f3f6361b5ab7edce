import AutoLang.Parse.Expr
import AutoLang.Tree.Ty
import Mathlib

/-! Which tokens a tree may be read from, said by a grammar and not by a parser. `Derives r ts` holds
if the tokens `ts`, all of them and in this order, make the phrase `r`; the spans of the nodes are those
of the tokens. Precedence is left out: a row of operands and operators derives every tree over it. -/

namespace AutoLang

/-- the place of the last of some tokens that follow `before` -/
def lastSpan (before : Span) (ts : List Token) : Span := ts.foldl (fun _ t => t.span) before

@[simp] theorem lastSpan_nil (before : Span) : lastSpan before [] = before := rfl

@[simp] theorem lastSpan_cons (before : Span) (t : Token) (ts : List Token) :
    lastSpan before (t :: ts) = lastSpan t.span ts := rfl

theorem lastSpan_append (before : Span) (ts us : List Token) :
    lastSpan before (ts ++ us) = lastSpan (lastSpan before ts) us :=
  List.foldl_append

def Newlines (ts : List Token) : Prop := ∀ t ∈ ts, t.kind = .newline

/-- what may stand between statements -/
def Separators (ts : List Token) : Prop := ∀ t ∈ ts, t.kind = .newline ∨ t.kind = .semicolon

/-- the brackets that close others -/
def TokenKind.isCloser : TokenKind → Bool
  | closeParen | closeSquare | closeBrace => true
  | _ => false

/-- what tokens are read as -/
inductive Reading where
  /-- a type, or nothing where none begins -/
  | ty (y : Option Ty)
  | param (p : Param)
  | expr (e : Expr)
  /-- an expression that begins with `if` -/
  | choice (e : Expr)
  | field (f : Field)
  /-- a series with its closing token -/
  | items (close : TokenKind) (rs : List Reading)
  /-- the inside of a format string with its end, if it has one -/
  | parts (ps : List Expr)
  /-- what a marker in a format string announces -/
  | hole (e : Expr)
  /-- statements in braces, and where they stand -/
  | braces (span : Span) (body : List Stmt)
  /-- the other branch of a conditional expression, if it has one -/
  | otherwise (no : Option Expr)
  | stmt (x : Stmt)
  /-- a statement and the separators before it -/
  | body (x : Stmt)
  /-- the other branch of a conditional statement, if it has one -/
  | alternative (no : Option Stmt)
  | stmts (xs : List Stmt)

/-- the readings that a series is made of -/
def Reading.IsItem : Reading → Prop
  | expr _ | field _ | param _ => True
  | _ => False

inductive Derives : Reading → List Token → Prop
  | tyNone : Derives (.ty none) []
  | tyName {t : Token} : t.kind = .ident → Derives (.ty (some (.ofName t.text))) [t]
  | tyArray {o c : Token} {y : Option Ty} {ts : List Token} :
    o.kind = .openSquare → c.kind = .closeSquare → Derives (.ty y) ts →
    Derives (.ty (some (.arrayOf (y.getD (.simple .unknown))))) (o :: c :: ts)
  | tyPtr {t : Token} {y : Option Ty} {ts : List Token} : t.kind = .star → Derives (.ty y) ts →
    Derives (.ty (some (.ptrTo (y.getD (.simple .unknown))))) (t :: ts)
  | param {t : Token} {y : Option Ty} {ts : List Token} : t.kind = .ident → Derives (.ty y) ts →
    Derives (.param ⟨t.text, y⟩) (t :: ts)
  | literal {t : Token} {v : Literal} : Parse.literal? t = some v →
    Derives (.expr (.literal t.span v)) [t]
  | ident {t : Token} : t.kind = .ident → Derives (.expr (.ident t.span t.text)) [t]
  | group {o c : Token} {e : Expr} {ns ts ms : List Token} : o.kind = .openParen → Newlines ns →
    Derives (.expr e) ts → Newlines ms → c.kind = .closeParen →
    Derives (.expr (e.withSpan (o.span.merge c.span))) (o :: (ns ++ (ts ++ (ms ++ [c]))))
  | array {o : Token} {es : List Expr} {ts : List Token} : o.kind = .openSquare →
    Derives (.items .closeSquare (es.map .expr)) ts →
    Derives (.expr (.array (o.span.merge (lastSpan o.span ts)) es)) (o :: ts)
  | object {o : Token} {fs : List Field} {ts : List Token} : o.kind = .openBrace →
    Derives (.items .closeBrace (fs.map .field)) ts →
    Derives (.expr (.object (o.span.merge (lastSpan o.span ts)) fs)) (o :: ts)
  | cond {t : Token} {test : Expr} {place : Span} {yes : List Stmt} {no : Option Expr}
    {ts us vs : List Token} : t.kind = .ifKw → Derives (.expr test) ts →
    Derives (.braces place yes) us → Derives (.otherwise no) vs →
    Derives (.choice (.cond (t.span.merge (lastSpan t.span (ts ++ (us ++ vs)))) test
      (.block place yes) no)) (t :: (ts ++ (us ++ vs)))
  | choice {e : Expr} {ts : List Token} : Derives (.choice e) ts → Derives (.expr e) ts
  | format {o : Token} {ps : List Expr} {ts : List Token} : o.kind = .formatOpen →
    Derives (.parts ps) ts →
    Derives (.expr (.format (o.span.merge (lastSpan o.span ts)) ps)) (o :: ts)
  | sign {t : Token} {op : UnaryOp} {e : Expr} {ts : List Token} :
    UnaryOp.ofToken? t.kind = some op → Derives (.expr e) ts →
    Derives (.expr (.unary (t.span.merge e.span) op e)) (t :: ts)
  | link {t : Token} {l : Link} {a b : Expr} {ts ns us : List Token} :
    Derives (.expr a) ts → Link.ofToken? t.kind = some l → Newlines ns → Derives (.expr b) us →
    Derives (.expr (l.join a b)) (ts ++ t :: (ns ++ us))
  | call {o : Token} {f : Expr} {es : List Expr} {ts us : List Token} : Derives (.expr f) ts →
    o.kind = .openParen → Derives (.items .closeParen (es.map .expr)) us →
    Derives (.expr (.call (f.span.merge (lastSpan o.span us)) f es)) (ts ++ o :: us)
  | index {o : Token} {a i : Expr} {ts us : List Token} : Derives (.expr a) ts →
    o.kind = .openSquare → Derives (.items .closeSquare [.expr i]) us →
    Derives (.expr (.index (a.span.merge (lastSpan o.span us)) a i)) (ts ++ o :: us)
  | field {k c : Token} {e : Expr} {ns ts : List Token} : k.kind = .ident ∨ k.kind = .str →
    c.kind = .colon → Newlines ns → Derives (.expr e) ts →
    Derives (.field (.mk k.text e)) (k :: c :: (ns ++ ts))
  | itemsNone {close : TokenKind} {c : Token} {ns : List Token} : close.isCloser = true →
    Newlines ns → c.kind = close → Derives (.items close []) (ns ++ [c])
  | itemsLast {close : TokenKind} {c : Token} {r : Reading} {ns ts ms : List Token} :
    close.isCloser = true → r.IsItem → Newlines ns → Derives r ts → Newlines ms → c.kind = close →
    Derives (.items close [r]) (ns ++ (ts ++ (ms ++ [c])))
  | itemsMore {close : TokenKind} {t : Token} {r : Reading} {rs : List Reading}
    {ns ts ms us : List Token} : r.IsItem → Newlines ns → Derives r ts → Newlines ms →
    t.kind = .comma → Derives (.items close rs) us →
    Derives (.items close (r :: rs)) (ns ++ (ts ++ (ms ++ t :: us)))
  /-- a format string that is not closed ends with the text -/
  | partsOpen : Derives (.parts []) []
  | partsClose {c : Token} : c.kind = .formatClose → Derives (.parts []) [c]
  | partsText {t : Token} {ps : List Expr} {ts : List Token} : t.kind = .formatText →
    Derives (.parts ps) ts → Derives (.parts (.literal t.span (.str t.text) :: ps)) (t :: ts)
  | partsHole {m : Token} {e : Expr} {ps : List Expr} {ts us : List Token} :
    m.kind = .formatMark → Derives (.hole e) ts → Derives (.parts ps) us →
    Derives (.parts (e :: ps)) (m :: (ts ++ us))
  | holeName {t : Token} : t.kind = .ident → Derives (.hole (.ident t.span t.text)) [t]
  | holeCode {o c : Token} {e : Expr} {ts : List Token} : o.kind = .openBrace →
    Derives (.expr e) ts → c.kind = .closeBrace → Derives (.hole e) (o :: (ts ++ [c]))
  | braces {o c : Token} {xs : List Stmt} {ts : List Token} : o.kind = .openBrace →
    Derives (.stmts xs) ts → c.kind = .closeBrace →
    Derives (.braces (o.span.merge c.span) xs) (o :: (ts ++ [c]))
  | otherwiseNone : Derives (.otherwise none) []
  | otherwiseBlock {t : Token} {place : Span} {no : List Stmt} {ns ts : List Token} :
    Newlines ns → t.kind = .elseKw → Derives (.braces place no) ts →
    Derives (.otherwise (some (.block place no))) (ns ++ t :: ts)
  | otherwiseCond {t : Token} {e : Expr} {ns ts : List Token} :
    Newlines ns → t.kind = .elseKw → Derives (.choice e) ts →
    Derives (.otherwise (some e)) (ns ++ t :: ts)
  | exprStmt {e : Expr} {ts : List Token} : Derives (.expr e) ts →
    Derives (.stmt (.expr e.span e)) ts
  | store {t n a : Token} {y : Option Ty} {e : Expr} {ts ns us : List Token} :
    t.kind = .varKw ∨ t.kind = .letKw ∨ t.kind = .mutKw → n.kind = .ident → Derives (.ty y) ts →
    a.kind = .assign → Newlines ns → Derives (.expr e) us →
    Derives (.stmt (.store (t.span.merge e.span) n.text y e)) (t :: n :: (ts ++ a :: (ns ++ us)))
  | condStmt {t : Token} {test : Expr} {yes : Stmt} {no : Option Stmt} {ts us vs : List Token} :
    t.kind = .ifKw → Derives (.expr test) ts → Derives (.body yes) us →
    Derives (.alternative no) vs →
    Derives (.stmt (.cond (t.span.merge (lastSpan t.span (ts ++ (us ++ vs)))) test yes no))
      (t :: (ts ++ (us ++ vs)))
  | loop {t n i : Token} {source : Expr} {b : Stmt} {ts us : List Token} : t.kind = .forKw →
    n.kind = .ident → i.kind = .inKw → Derives (.expr source) ts → Derives (.body b) us →
    Derives (.stmt (.loop (t.span.merge (lastSpan i.span (ts ++ us))) n.text source b))
      (t :: n :: i :: (ts ++ us))
  | block {place : Span} {xs : List Stmt} {ts : List Token} : Derives (.braces place xs) ts →
    Derives (.stmt (.block place xs)) ts
  | function {t n o : Token} {ps : List Param} {y : Option Ty} {place : Span} {xs : List Stmt}
    {ts us vs : List Token} : t.kind = .fnKw → n.kind = .ident → o.kind = .openParen →
    Derives (.items .closeParen (ps.map .param)) ts → Derives (.ty y) us →
    Derives (.braces place xs) vs →
    Derives (.stmt (.function (t.span.merge (lastSpan o.span (ts ++ (us ++ vs)))) n.text ps y xs))
      (t :: n :: o :: (ts ++ (us ++ vs)))
  | leave {t : Token} : t.kind = .breakKw → Derives (.stmt (.leave t.span)) [t]
  | body {x : Stmt} {ns ts : List Token} : Separators ns → Derives (.stmt x) ts →
    Derives (.body x) (ns ++ ts)
  | alternativeNone : Derives (.alternative none) []
  | alternativeSome {t : Token} {x : Stmt} {ns ts : List Token} : Newlines ns → t.kind = .elseKw →
    Derives (.body x) ts → Derives (.alternative (some x)) (ns ++ t :: ts)
  | stmtsNone {ns : List Token} : Separators ns → Derives (.stmts []) ns
  | stmtsMore {x : Stmt} {xs : List Stmt} {ts us : List Token} : Derives (.body x) ts →
    Derives (.stmts xs) us → Derives (.stmts (x :: xs)) (ts ++ us)

/-- the phrases that no tokens cannot make -/
def Reading.IsProper : Reading → Prop
  | expr _ | choice _ | param _ | field _ | items _ _ | hole _ | braces _ _ | stmt _ | body _ => True
  | _ => False

theorem Reading.IsItem.isProper {r : Reading} (h : r.IsItem) : r.IsProper := by
  cases r with
  | expr | field | param => trivial
  | _ => cases h

theorem Derives.ne_nil {r : Reading} {ts : List Token} (h : Derives r ts) (hr : r.IsProper) :
    ts ≠ [] := by
  induction h with
  | tyNone | partsOpen | otherwiseNone | alternativeNone | stmtsNone | stmtsMore => cases hr
  | choice _ ih | exprStmt _ ih | block _ ih => exact ih trivial
  | body _ _ ih => exact List.append_ne_nil_of_right_ne_nil _ (ih trivial)
  | _ => simp

theorem TokenKind.ne_eof_of_isCloser {k : TokenKind} (h : k.isCloser = true) : k ≠ .eof := by
  rintro rfl
  cases h

theorem Newlines.separators {ns : List Token} (h : Newlines ns) : Separators ns :=
  fun t ht => .inl (h t ht)

/-- more separators may stand before a statement -/
theorem Derives.separate {x : Stmt} {ns ts : List Token} (hn : Separators ns)
    (h : Derives (.body x) ts) : Derives (.body x) (ns ++ ts) := by
  cases h with
  | body hm hx =>
    rw [← List.append_assoc]
    exact .body (List.forall_mem_append.2 ⟨hn, hm⟩) hx

end AutoLang
