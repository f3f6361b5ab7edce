import AutoLang.Parse.Expr
import Mathlib

/-! The same text further down in a longer one. Everything stands some lines and bytes further on; the
columns stay, as the text begins a line of its own. -/

namespace AutoLang

/-- how many lines and bytes stand in front -/
structure Shift where
  lines : Nat
  bytes : Nat

/-- nothing in front -/
def Shift.none : Shift := ⟨0, 0⟩

/-- a text in front, and a newline behind it -/
def Shift.past (text : String) : Shift := ⟨text.toList.count '\n' + 1, text.utf8ByteSize + 1⟩

variable (σ : Shift)

def Span.shift (s : Span) : Span := { s with line := s.line + σ.lines, offset := s.offset + σ.bytes }

def Token.shift (t : Token) : Token := { t with span := t.span.shift σ }

mutual

def Expr.shift : Expr → Expr
  | .literal s v => .literal (s.shift σ) v
  | .ident s n => .ident (s.shift σ) n
  | .ref s n => .ref (s.shift σ) n
  | .unary s op e => .unary (s.shift σ) op e.shift
  | .binary s l op r => .binary (s.shift σ) l.shift op r.shift
  | .range s a b i => .range (s.shift σ) a.shift b.shift i
  | .array s es => .array (s.shift σ) (shiftExprs es)
  | .pair s f => .pair (s.shift σ) f.shift
  | .object s fs => .object (s.shift σ) (shiftFields fs)
  | .block s b => .block (s.shift σ) (shiftStmts b)
  | .format s ps => .format (s.shift σ) (shiftExprs ps)
  | .call s c as => .call (s.shift σ) c.shift (shiftExprs as)
  | .index s a i => .index (s.shift σ) a.shift i.shift
  | .cond s t y n => .cond (s.shift σ) t.shift y.shift (shiftExpr? n)

def Field.shift : Field → Field
  | .mk k e => .mk k e.shift

def Stmt.shift : Stmt → Stmt
  | .expr s e => .expr (s.shift σ) e.shift
  | .cond s t y n => .cond (s.shift σ) t.shift y.shift (shiftStmt? n)
  | .loop s n e b => .loop (s.shift σ) n e.shift b.shift
  | .store s n ty e => .store (s.shift σ) n ty e.shift
  | .block s b => .block (s.shift σ) (shiftStmts b)
  | .function s n ps r b => .function (s.shift σ) n ps r (shiftStmts b)
  | .blank s => .blank (s.shift σ)
  | .leave s => .leave (s.shift σ)

def shiftExpr? : Option Expr → Option Expr
  | none => none
  | some e => some e.shift

def shiftStmt? : Option Stmt → Option Stmt
  | none => none
  | some s => some s.shift

def shiftExprs : List Expr → List Expr
  | [] => []
  | e :: es => e.shift :: shiftExprs es

def shiftFields : List Field → List Field
  | [] => []
  | f :: fs => f.shift :: shiftFields fs

def shiftStmts : List Stmt → List Stmt
  | [] => []
  | s :: ss => s.shift :: shiftStmts ss

end

@[simp] theorem shiftExpr?_eq (e : Option Expr) : shiftExpr? σ e = e.map (·.shift σ) := by
  cases e <;> simp [shiftExpr?]

@[simp] theorem shiftStmt?_eq (x : Option Stmt) : shiftStmt? σ x = x.map (·.shift σ) := by
  cases x <;> simp [shiftStmt?]

@[simp] theorem shiftExprs_eq (es : List Expr) : shiftExprs σ es = es.map (·.shift σ) := by
  induction es with
  | nil => simp [shiftExprs]
  | cons e es ih => simp [shiftExprs, ih]

@[simp] theorem shiftFields_eq (fs : List Field) : shiftFields σ fs = fs.map (·.shift σ) := by
  induction fs with
  | nil => simp [shiftFields]
  | cons f fs ih => simp [shiftFields, ih]

@[simp] theorem shiftStmts_eq (xs : List Stmt) : shiftStmts σ xs = xs.map (·.shift σ) := by
  induction xs with
  | nil => simp [shiftStmts]
  | cons x xs ih => simp [shiftStmts, ih]

/-- the earlier of two places stays the earlier one -/
theorem Span.shift_merge (s t : Span) : (s.merge t).shift σ = (s.shift σ).merge (t.shift σ) := by
  unfold Span.merge Span.stop Span.shift
  simp only [Nat.add_le_add_iff_right]
  split <;>
  · simp only [Span.mk.injEq, true_and]
    omega

@[simp] theorem Expr.span_shift (e : Expr) : (e.shift σ).span = e.span.shift σ := by
  cases e <;> simp [Expr.shift, Expr.span]

theorem Expr.shift_withSpan (s : Span) (e : Expr) :
    (e.withSpan s).shift σ = (e.shift σ).withSpan (s.shift σ) := by
  cases e <;> simp [Expr.shift, Expr.withSpan]

theorem Link.shift_join (l : Link) (a b : Expr) :
    (l.join a b).shift σ = l.join (a.shift σ) (b.shift σ) := by
  cases l <;> simp [Link.join, Expr.shift, Span.shift_merge]

section None

@[simp] theorem Span.shift_none (s : Span) : s.shift .none = s := rfl

mutual

@[simp] theorem Expr.shift_none : ∀ e : Expr, e.shift .none = e
  | .literal _ _ | .ident _ _ | .ref _ _ => by simp [Expr.shift]
  | .unary _ _ e => by simp [Expr.shift, e.shift_none]
  | .binary _ l _ r => by simp [Expr.shift, l.shift_none, r.shift_none]
  | .range _ a b _ => by simp [Expr.shift, a.shift_none, b.shift_none]
  | .array _ es => by rw [Expr.shift, shiftExprs_none es, Span.shift_none]
  | .pair _ f => by simp [Expr.shift, f.shift_none]
  | .object _ fs => by rw [Expr.shift, shiftFields_none fs, Span.shift_none]
  | .block _ b => by rw [Expr.shift, shiftStmts_none b, Span.shift_none]
  | .format _ ps => by rw [Expr.shift, shiftExprs_none ps, Span.shift_none]
  | .call _ c as => by rw [Expr.shift, c.shift_none, shiftExprs_none as, Span.shift_none]
  | .index _ a i => by simp [Expr.shift, a.shift_none, i.shift_none]
  | .cond _ t y n => by
    rw [Expr.shift, t.shift_none, y.shift_none, shiftExpr?_none n, Span.shift_none]

theorem Field.shift_none : ∀ f : Field, f.shift .none = f
  | .mk _ e => by simp [Field.shift, e.shift_none]

@[simp] theorem Stmt.shift_none : ∀ x : Stmt, x.shift .none = x
  | .expr _ e => by simp [Stmt.shift, e.shift_none]
  | .cond _ t y n => by
    rw [Stmt.shift, t.shift_none, y.shift_none, shiftStmt?_none n, Span.shift_none]
  | .loop _ _ e b => by simp [Stmt.shift, e.shift_none, b.shift_none]
  | .store _ _ _ e => by simp [Stmt.shift, e.shift_none]
  | .block _ b => by rw [Stmt.shift, shiftStmts_none b, Span.shift_none]
  | .function _ _ _ _ b => by rw [Stmt.shift, shiftStmts_none b, Span.shift_none]
  | .blank _ | .leave _ => by simp [Stmt.shift]

theorem shiftExpr?_none : ∀ e : Option Expr, shiftExpr? .none e = e
  | none => by simp [shiftExpr?]
  | some e => by rw [shiftExpr?, e.shift_none]

theorem shiftStmt?_none : ∀ x : Option Stmt, shiftStmt? .none x = x
  | none => by simp [shiftStmt?]
  | some x => by rw [shiftStmt?, x.shift_none]

theorem shiftExprs_none : ∀ es : List Expr, shiftExprs .none es = es
  | [] => by simp [shiftExprs]
  | e :: es => by rw [shiftExprs, e.shift_none, shiftExprs_none es]

theorem shiftFields_none : ∀ fs : List Field, shiftFields .none fs = fs
  | [] => by simp [shiftFields]
  | f :: fs => by rw [shiftFields, f.shift_none, shiftFields_none fs]

theorem shiftStmts_none : ∀ xs : List Stmt, shiftStmts .none xs = xs
  | [] => by simp [shiftStmts]
  | x :: xs => by rw [shiftStmts, x.shift_none, shiftStmts_none xs]

end

end None

end AutoLang
