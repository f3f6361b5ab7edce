import AutoLang.Parse.Expr
import AutoLang.Proofs.Token.Words
import Mathlib

/-! How an expression may be written. The table lists the infix operators with their level and their
side; an operand that binds less tightly than its place asks for stands in parentheses, any other may.
-/

namespace AutoLang

/-- the side on which operators of one level group -/
inductive Side where
  | left
  | right
deriving DecidableEq, Repr

/-- the infix operators by level -/
def precedence : List (Nat × Side × List String) :=
  [(1, .right, ["=", "+=", "-=", "*=", "/="]),
    (4, .right, ["==", "!=", "<", ">", "<=", ">="]),
    (9, .left, ["..", "..="]),
    (10, .left, ["+", "-"]),
    (11, .left, ["*", "/"]),
    (17, .left, ["."])]

/-- the level of prefix operators -/
def prefixLevel : Nat := 12

/-- the level of calls and indices -/
def postfixLevel : Nat := 15

/-- the level that only names, literals, arrays and parentheses reach -/
def atomLevel : Nat := 18

namespace Link

def symbol : Link → String
  | binary op => op.symbol
  | range false => ".."
  | range true => "..="

/-- the level and the side of an operator, by the table -/
def tier (l : Link) : Nat × Side :=
  ((precedence.find? fun row => l.symbol ∈ row.2.2).map fun row => (row.1, row.2.1)).getD (0, .left)

/-- the least level of a bare left operand; a call may stand bare before a member -/
def leftNeed (l : Link) : Nat :=
  if l.symbol = "." then postfixLevel
  else match l.tier with
    | (level, .left) => level
    | (level, .right) => level + 1

/-- the least level of a bare right operand -/
def rightNeed (l : Link) : Nat :=
  match l.tier with
  | (level, .left) => level + 1
  | (level, .right) => level

/-- an operator over two operands -/
def node (l : Link) (span : Span) (left right : Expr) : Expr :=
  match l with
  | binary op => .binary span left op right
  | range inclusive => .range span left right inclusive

end Link

/-- a name that is no keyword -/
structure IsName (w : String) : Prop where
  start : ∃ c cs, w.toList = c :: cs ∧ (c.isAlpha ∨ c = '_')
  rest : ∀ c ∈ w.toList, c.isAlphanum ∨ c = '_'
  free : w ∉ TokenKind.keywords.map TokenKind.name

/-- the digits of a number -/
structure IsNumeral (v : Int32) (w : String) : Prop where
  nonneg : 0 ≤ v
  proper : w.toList ≠ []
  digits : ∀ c ∈ w.toList, c.isDigit
  value : (Nat.ofDigitChars 10 w.toList 0 : Int) = v.toInt

/-- what is written: an operand in a place that asks for a level, or a series of expressions -/
inductive Phrase where
  | operand (least : Nat) (e : Expr)
  | items (es : List Expr)

/-- the words a phrase may be written with -/
inductive Renders : Phrase → List String → Prop
  | ident {least : Nat} {span : Span} {name : String} : IsName name →
    Renders (.operand least (.ident span name)) [name]
  | literal {least : Nat} {span : Span} {v : Int32} {w : String} : IsNumeral v w →
    Renders (.operand least (.literal span (.int v))) [w]
  | group {least : Nat} {e : Expr} {ws : List String} : Renders (.operand 0 e) ws →
    Renders (.operand least e) ("(" :: (ws ++ [")"]))
  | sign {least : Nat} {span : Span} {op : UnaryOp} {e : Expr} {ws : List String} :
    least ≤ prefixLevel → Renders (.operand prefixLevel e) ws →
    Renders (.operand least (.unary span op e)) (op.symbol :: ws)
  | link {least : Nat} {span : Span} {l : Link} {a b : Expr} {ws vs : List String} :
    least ≤ l.tier.1 → Renders (.operand l.leftNeed a) ws → Renders (.operand l.rightNeed b) vs →
    Renders (.operand least (l.node span a b)) (ws ++ l.symbol :: vs)
  | call {least : Nat} {span : Span} {c : Expr} {es : List Expr} {ws vs : List String} :
    least ≤ postfixLevel → Renders (.operand postfixLevel c) ws → Renders (.items es) vs →
    Renders (.operand least (.call span c es)) (ws ++ "(" :: (vs ++ [")"]))
  | index {least : Nat} {span : Span} {a i : Expr} {ws vs : List String} :
    least ≤ postfixLevel → Renders (.operand postfixLevel a) ws → Renders (.operand 0 i) vs →
    Renders (.operand least (.index span a i)) (ws ++ "[" :: (vs ++ ["]"]))
  | array {least : Nat} {span : Span} {es : List Expr} {ws : List String} : Renders (.items es) ws →
    Renders (.operand least (.array span es)) ("[" :: (ws ++ ["]"]))
  | none : Renders (.items []) []
  | one {e : Expr} {ws : List String} : Renders (.operand 0 e) ws → Renders (.items [e]) ws
  | more {e e' : Expr} {es : List Expr} {ws vs : List String} : Renders (.operand 0 e) ws →
    Renders (.items (e' :: es)) vs → Renders (.items (e :: e' :: es)) (ws ++ "," :: vs)

namespace Link

/-- the levels the parser works with are those of the table -/
theorem tier_fst (l : Link) : l.tier.1 = l.level := by
  rcases l with op | inclusive
  · cases op <;> decide
  · cases inclusive <;> decide

theorem rightNeed_eq (l : Link) : l.rightNeed = l.rightLevel + 1 := by
  rcases l with op | inclusive
  · cases op <;> decide
  · cases inclusive <;> decide

/-- the operators that group to the right, those that group to the left, and the member access -/
theorem grades (l : Link) :
    (l.level = 1 ∨ l.level = 4) ∧ l.rightLevel + 1 = l.level ∧ l.leftNeed = l.level + 1 ∨
    (l.level = 9 ∨ l.level = 10 ∨ l.level = 11) ∧ l.rightLevel = l.level ∧ l.leftNeed = l.level ∨
    l.level = 17 ∧ l.rightLevel = 17 ∧ l.leftNeed = 15 := by
  rcases l with op | inclusive
  · cases op <;> decide
  · cases inclusive <;> decide

/-- the token of an operator -/
def token : Link → TokenKind
  | range false => .dotDot
  | range true => .dotDotEq
  | binary op =>
    match op with
    | .add => .plus | .sub => .minus | .mul => .star | .div => .slash
    | .eq => .equal | .ne => .notEqual | .lt => .less | .gt => .greater
    | .le => .lessEq | .ge => .greaterEq
    | .assign => .assign | .addAssign => .plusAssign | .subAssign => .minusAssign
    | .mulAssign => .starAssign | .divAssign => .slashAssign
    | .dot => .dot

theorem token_spec (l : Link) :
    l.token.name = l.symbol ∧ l.token ∈ TokenKind.symbols ∧ ofToken? l.token = some l := by
  rcases l with op | inclusive
  · cases op <;> decide
  · cases inclusive <;> decide

theorem eq_token {k : TokenKind} {l : Link} (h : ofToken? k = some l) : k = l.token := by
  cases k <;> cases h <;> rfl

theorem isTrivia_token (l : Link) : l.token.isTrivia = false := by
  rcases l with op | inclusive
  · cases op <;> rfl
  · cases inclusive <;> rfl

end Link

namespace UnaryOp

def token : UnaryOp → TokenKind
  | neg => .minus
  | not => .bang
  | plus => .plus

theorem token_spec (op : UnaryOp) :
    op.token.name = op.symbol ∧ op.token ∈ TokenKind.symbols ∧ ofToken? op.token = some op := by
  cases op <;> decide

theorem eq_token {k : TokenKind} {op : UnaryOp} (h : ofToken? k = some op) : k = op.token := by
  cases k <;> cases h <;> rfl

end UnaryOp

section Words

theorem IsName.lexes {w : String} (h : IsName w) : Lexes w .ident := by
  obtain ⟨c, cs, hw, hc⟩ := h.start
  have hrest := h.rest
  rw [hw, List.forall_mem_cons] at hrest
  refine lexes_word hw ?_ (fun d hd => ?_) ?_
  · simpa [Lexeme.isWordStart] using hc
  · simpa [Lexeme.isWordChar] using hrest.2 d hd
  · refine List.find?_eq_none.2 fun k hk hname => h.free ?_
    rw [← beq_iff_eq.1 hname]
    exact List.mem_map_of_mem hk

theorem IsNumeral.lexes {v : Int32} {w : String} (h : IsNumeral v w) : Lexes w .int :=
  lexes_digits h.proper h.digits

theorem Link.lexes (l : Link) : Lexes l.symbol l.token := by
  obtain ⟨hname, hmem, -⟩ := l.token_spec
  rw [← hname]
  exact lexes_symbol hmem

theorem UnaryOp.lexes (op : UnaryOp) : Lexes op.symbol op.token := by
  obtain ⟨hname, hmem, -⟩ := op.token_spec
  rw [← hname]
  exact lexes_symbol hmem

theorem lexes_openParen : Lexes "(" .openParen := lexes_symbol (k := .openParen) (by decide)

theorem lexes_closeParen : Lexes ")" .closeParen := lexes_symbol (k := .closeParen) (by decide)

theorem lexes_openSquare : Lexes "[" .openSquare := lexes_symbol (k := .openSquare) (by decide)

theorem lexes_closeSquare : Lexes "]" .closeSquare := lexes_symbol (k := .closeSquare) (by decide)

theorem lexes_comma : Lexes "," .comma := lexes_symbol (k := .comma) (by decide)

/-- every word of a rendering makes a token, and none a comment -/
theorem Renders.lexes {p : Phrase} {ws : List String} (h : Renders p ws) :
    ∀ w ∈ ws, ∃ k, Lexes w k ∧ k.isTrivia = false := by
  induction h with
  | ident hn =>
    rw [List.forall_mem_singleton]
    exact ⟨_, hn.lexes, rfl⟩
  | literal hn =>
    rw [List.forall_mem_singleton]
    exact ⟨_, hn.lexes, rfl⟩
  | group _ ih =>
    rw [List.forall_mem_cons, List.forall_mem_append, List.forall_mem_singleton]
    exact ⟨⟨_, lexes_openParen, rfl⟩, ih, ⟨_, lexes_closeParen, rfl⟩⟩
  | @sign _ _ op _ _ _ _ ih =>
    rw [List.forall_mem_cons]
    exact ⟨⟨_, op.lexes, by cases op <;> rfl⟩, ih⟩
  | @link _ _ l _ _ _ _ _ _ _ iha ihb =>
    rw [List.forall_mem_append, List.forall_mem_cons]
    exact ⟨iha, ⟨_, l.lexes, l.isTrivia_token⟩, ihb⟩
  | call _ _ _ ihc ihs =>
    rw [List.forall_mem_append, List.forall_mem_cons, List.forall_mem_append,
      List.forall_mem_singleton]
    exact ⟨ihc, ⟨_, lexes_openParen, rfl⟩, ihs, ⟨_, lexes_closeParen, rfl⟩⟩
  | index _ _ _ iha ihi =>
    rw [List.forall_mem_append, List.forall_mem_cons, List.forall_mem_append,
      List.forall_mem_singleton]
    exact ⟨iha, ⟨_, lexes_openSquare, rfl⟩, ihi, ⟨_, lexes_closeSquare, rfl⟩⟩
  | array _ ih =>
    rw [List.forall_mem_cons, List.forall_mem_append, List.forall_mem_singleton]
    exact ⟨⟨_, lexes_openSquare, rfl⟩, ih, ⟨_, lexes_closeSquare, rfl⟩⟩
  | none => simp
  | one _ ih => exact ih
  | more _ _ ihe ihs =>
    rw [List.forall_mem_append, List.forall_mem_cons]
    exact ⟨ihe, ⟨_, lexes_comma, rfl⟩, ihs⟩

/-- the kinds of tokens that an operand begins with -/
def starters : List TokenKind := [.ident, .int, .openParen, .openSquare, .minus, .bang, .plus]

/-- an operand begins with one of the starters -/
def Phrase.Starts : Phrase → List String → Prop
  | .operand _ _, ws => ∃ w vs k, ws = w :: vs ∧ Lexes w k ∧ k ∈ starters
  | .items _, _ => True

theorem Renders.starts {p : Phrase} {ws : List String} (h : Renders p ws) : p.Starts ws := by
  induction h with
  | ident hn => exact ⟨_, _, _, rfl, hn.lexes, by decide⟩
  | literal hn => exact ⟨_, _, _, rfl, hn.lexes, by decide⟩
  | group => exact ⟨_, _, _, rfl, lexes_openParen, by decide⟩
  | @sign _ _ op => exact ⟨_, _, _, rfl, op.lexes, by cases op <;> decide⟩
  | link _ _ _ ih =>
    obtain ⟨w, vs, k, rfl, hk⟩ := ih
    exact ⟨w, _, k, rfl, hk⟩
  | call _ _ _ ih =>
    obtain ⟨w, vs, k, rfl, hk⟩ := ih
    exact ⟨w, _, k, rfl, hk⟩
  | index _ _ _ ih =>
    obtain ⟨w, vs, k, rfl, hk⟩ := ih
    exact ⟨w, _, k, rfl, hk⟩
  | array => exact ⟨_, _, _, rfl, lexes_openSquare, by decide⟩
  | none => trivial
  | one => trivial
  | more => trivial

end Words

end AutoLang
