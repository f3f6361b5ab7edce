import AutoLang.Proofs.Parse.Content
import AutoLang.Proofs.Parse.Spans
import Mathlib

/-! Nodes and what they say. A program without format strings says what its nodes say, and if it was read
without problems, a token of the text says it too. -/

namespace AutoLang

section Nodes

variable {code : Code} {a : Atom} {p c n : Node}

def Node.atoms : Node → List Atom
  | expr e => e.atoms
  | stmt x => x.atoms

def Node.isFormat : Node → Bool
  | expr (.format _ _) => true
  | _ => false

theorem mem_atomsOfStmts {a : Atom} {ys : List Stmt} :
    a ∈ atomsOfStmts ys ↔ ∃ y ∈ ys, a ∈ y.atoms := by
  induction ys with
  | nil => simp [atomsOfStmts]
  | cons y ys ih => simp [atomsOfStmts, ih]

theorem atoms_of_exprs {es : List Expr} (hc : c ∈ es.map .expr) (ha : a ∈ c.atoms) :
    a ∈ atomsOfExprs es := by
  induction es with
  | nil => cases hc
  | cons e es ih =>
    rw [atomsOfExprs]
    rcases List.mem_cons.1 hc with rfl | hc
    · exact List.mem_append_left _ ha
    · exact List.mem_append_right _ (ih hc)

theorem atoms_of_fields {fs : List Field} (hc : c ∈ fs.map (.expr ·.value)) (ha : a ∈ c.atoms) :
    a ∈ atomsOfFields fs := by
  induction fs with
  | nil => cases hc
  | cons f fs ih =>
    obtain ⟨k, e⟩ := f
    rw [atomsOfFields]
    rcases List.mem_cons.1 hc with rfl | hc
    · exact List.mem_append_left _ (List.mem_cons_of_mem _ ha)
    · exact List.mem_append_right _ (ih hc)

theorem atoms_of_stmts {xs : List Stmt} (hc : c ∈ xs.map .stmt) (ha : a ∈ c.atoms) :
    a ∈ atomsOfStmts xs := by
  obtain ⟨x, hx, rfl⟩ := List.mem_map.1 hc
  exact mem_atomsOfStmts.2 ⟨x, hx, ha⟩

theorem atoms_of_expr_child {e : Expr} (he : (Node.expr e).isFormat = false) (hc : c ∈ e.children)
    (ha : a ∈ c.atoms) : a ∈ e.atoms := by
  cases e with
  | literal | ident | ref => cases hc
  | unary _ op e =>
    obtain rfl := List.mem_singleton.1 hc
    exact List.mem_cons_of_mem _ ha
  | binary _ l op r | range _ l r inclusive =>
    rw [Expr.atoms]
    rcases List.mem_pair.1 hc with rfl | rfl
    · exact List.mem_append_left _ ha
    · exact List.mem_append_right _ (List.mem_cons_of_mem _ ha)
  | index _ l i =>
    rw [Expr.atoms]
    rcases List.mem_pair.1 hc with rfl | rfl
    · exact List.mem_append_left _ ha
    · exact List.mem_append_right _ ha
  | array _ es => exact atoms_of_exprs hc ha
  | pair _ f =>
    obtain ⟨k, e⟩ := f
    obtain rfl := List.mem_singleton.1 hc
    exact List.mem_cons_of_mem _ ha
  | object _ fs => exact atoms_of_fields hc ha
  | block _ b => exact atoms_of_stmts hc ha
  | format => cases he
  | call _ f es =>
    rw [Expr.atoms]
    rcases List.mem_cons.1 hc with rfl | hc
    · exact List.mem_append_left _ ha
    · exact List.mem_append_right _ (atoms_of_exprs hc ha)
  | cond _ t y no =>
    rw [Expr.atoms]
    rcases List.mem_cons.1 hc with rfl | hc
    · exact List.mem_append_left _ ha
    · refine List.mem_append_right _ ?_
      rcases List.mem_cons.1 hc with rfl | hc
      · exact List.mem_append_left _ ha
      · obtain ⟨e, he, rfl⟩ := List.mem_map.1 hc
        rw [Option.mem_toList.1 he]
        exact List.mem_append_right _ ha

theorem atoms_of_stmt_child {x : Stmt} (hc : c ∈ x.children) (ha : a ∈ c.atoms) : a ∈ x.atoms := by
  cases x with
  | blank | leave => cases hc
  | expr _ e =>
    obtain rfl := List.mem_singleton.1 hc
    exact ha
  | store _ n ty e =>
    obtain rfl := List.mem_singleton.1 hc
    exact List.mem_cons_of_mem _ (List.mem_append_right _ (List.mem_cons_of_mem _ ha))
  | cond _ t y no =>
    rw [Stmt.atoms]
    rcases List.mem_cons.1 hc with rfl | hc
    · exact List.mem_append_left _ ha
    · refine List.mem_append_right _ ?_
      rcases List.mem_cons.1 hc with rfl | hc
      · exact List.mem_append_left _ ha
      · obtain ⟨x, hx, rfl⟩ := List.mem_map.1 hc
        rw [Option.mem_toList.1 hx]
        exact List.mem_append_right _ ha
  | loop _ n e b =>
    refine List.mem_cons_of_mem _ ?_
    rcases List.mem_pair.1 hc with rfl | rfl
    · exact List.mem_append_left _ ha
    · exact List.mem_append_right _ ha
  | block _ b => exact atoms_of_stmts hc ha
  | function _ n ps r b =>
    refine List.mem_cons_of_mem _ (List.mem_append_right _ (List.mem_append_right _ ?_))
    exact atoms_of_stmts hc ha

/-- without format strings, whose texts are no constants, a program says what its nodes say -/
theorem NodeOf.atoms (hplain : ∀ p, NodeOf code p → p.isFormat = false) (h : NodeOf code n)
    (ha : a ∈ n.atoms) : a ∈ atomsOfStmts code := by
  induction h with
  | statement hx => exact mem_atomsOfStmts.2 ⟨_, hx, ha⟩
  | @child p c hp hc ih =>
    refine ih ?_
    cases p with
    | expr e => exact atoms_of_expr_child (hplain _ hp) hc ha
    | stmt x => exact atoms_of_stmt_child hc ha

end Nodes

section Source

variable {source : String} {marker : Char} {v : Literal}

/-- what a constant of a program was read from -/
theorem token_of_value
    (h : (Parse.ofLexer { Lexer.ofSource source with marker := marker }).diagnostics = [])
    (hv : .value v ∈ atomsOfStmts (Parse.ofLexer { Lexer.ofSource source with marker := marker }).code) :
    ∃ t ∈ { Lexer.ofSource source with marker := marker }.tokens, Parse.literal? t = some v := by
  obtain ⟨t, ht, hread⟩ := exists_of_mem_forall₂ (Parse.says_ofLexer h).content hv
  have hsignificant := (List.mem_filter.1 ht).1
  exact ⟨t, (List.mem_filter.1 hsignificant).1, hread.literal?⟩

end Source

end AutoLang
