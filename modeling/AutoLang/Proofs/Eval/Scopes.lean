import AutoLang.Eval.Basic
import AutoLang.Proofs.Scope.Discipline
import Mathlib

/-! What running a tree does to the scopes. A run leaves every scope it enters, whatever errors and
breaks it meets, and gives values only to the names that the tree assigns, declares or counts with.
One induction over the tree is enough for this and for whatever else the steps of a run hand on to the
whole of it; what a run leaves unchanged follows. -/

namespace AutoLang

mutual

/-- the names that running an expression may give a value to -/
def Expr.targets : Expr → List String
  | .literal _ _ | .ident _ _ | .ref _ _ => []
  | .unary _ _ e => e.targets
  | .binary _ l op r =>
    if op.isAssignment then l.name?.toList ++ r.targets else l.targets ++ r.targets
  | .range _ a b _ => a.targets ++ b.targets
  | .array _ es => targetsOfExprs es
  | .pair _ f => f.targets
  | .object _ fs => targetsOfFields fs
  | .block _ b => targetsOfStmts b
  | .format _ ps => targetsOfExprs ps
  | .call _ c as => c.targets ++ targetsOfExprs as
  | .index _ a i => a.targets ++ i.targets
  | .cond _ t y none => t.targets ++ y.targets
  | .cond _ t y (some n) => t.targets ++ y.targets ++ n.targets

def Field.targets : Field → List String
  | .mk _ e => e.targets

/-- the names that running a statement may give a value to; a function is not run -/
def Stmt.targets : Stmt → List String
  | .expr _ e => e.targets
  | .cond _ t y none => t.targets ++ y.targets
  | .cond _ t y (some n) => t.targets ++ y.targets ++ n.targets
  | .loop _ n e b => n :: (e.targets ++ b.targets)
  | .store _ n _ e => n :: e.targets
  | .block _ b => targetsOfStmts b
  | .function _ _ _ _ _ | .blank _ | .leave _ => []

def targetsOfExprs : List Expr → List String
  | [] => []
  | e :: es => e.targets ++ targetsOfExprs es

def targetsOfFields : List Field → List String
  | [] => []
  | f :: fs => f.targets ++ targetsOfFields fs

def targetsOfStmts : List Stmt → List String
  | [] => []
  | s :: ss => s.targets ++ targetsOfStmts ss

end

namespace Eval

variable {α β : Type} {W : String → Prop} {P : (α : Type) → Eval α → Prop} {n : String}

/-- a property that the steps of a run have, as long as values are given to names in `W` only, and
that whatever is made of such steps has too -/
structure Compositional (W : String → Prop) (P : (α : Type) → Eval α → Prop) : Prop where
  pure : ∀ {α : Type} (a : α), P α (pure a)
  bind : ∀ {α β : Type} {m : Eval α} {f : α → Eval β}, P α m → (∀ a, P β (f a)) → P β (m >>= f)
  lookup? : ∀ n, P _ (lookup? n)
  assign : ∀ {n}, W n → ∀ v, P _ (assign n v)
  define : ∀ {n}, W n → ∀ v, P _ (define n v)
  declare : ∀ n ty, P _ (declare n ty)
  print : ∀ line, P _ (print line)
  leave : P _ leave
  isLeaving : P _ isLeaving
  takeLeave : P _ takeLeave
  inBlock : ∀ {body : Eval Value}, P _ body → P _ (inBlock body)

namespace Compositional

theorem ite {c : Prop} [Decidable c] {m m' : Eval α} (hm : P α m) (hm' : P α m') :
    P α (if c then m else m') := by
  split
  · exact hm
  · exact hm'

theorem overRange {body : Eval Value} (hP : Compositional W P) (hn : W n) (h : P _ body)
    (r : IntRange) (count : Nat) : ∀ i last, P _ (overRange n r body count i last) := by
  induction count with
  | zero => exact fun _ last => hP.pure last
  | succ count ih =>
    intro i last
    refine hP.bind (hP.assign hn _) fun _ => hP.bind h fun v => hP.bind hP.takeLeave fun left => ?_
    exact ite (hP.pure v) (ih (i + 1) v)

theorem overItems {body : Eval Value} (hP : Compositional W P) (hn : W n) (h : P _ body)
    (items : List Value) : ∀ last, P _ (overItems n body items last) := by
  induction items with
  | nil => exact fun last => hP.pure last
  | cons item items ih =>
    intro last
    refine hP.bind (hP.assign hn _) fun _ => hP.bind h fun v => hP.bind hP.takeLeave fun left => ?_
    exact ite (hP.pure v) (ih v)

end Compositional

section Binary

variable {l r : Expr} {op base : BinaryOp}

/-- `x += e` and the like -/
theorem expr_compound (span : Span) (l r : Expr) (hop : op.compoundBase? = some base) :
    expr (.binary span l op r) =
      (match l.name? with
      | some n => do
        let v ← expr r
        let result := base.apply ((← lookup? n).getD .nil) v
        assign n result
        return result
      | none => return .ofError .assignmentTarget) := by
  rw [expr]
  · cases l.name? <;> simp only [hop]
  · rintro rfl
    cases hop
  · rintro rfl
    cases hop

/-- an operator on two values -/
theorem expr_operands (span : Span) (l r : Expr) (hop : op.isAssignment = false) (hdot : op ≠ .dot) :
    expr (.binary span l op r) = (do
      let a ← expr l
      let b ← expr r
      return op.apply a b) := by
  rw [BinaryOp.isAssignment, Bool.or_eq_false_iff, beq_eq_false_iff_ne,
    Option.isSome_eq_false_iff, Option.isNone_iff_eq_none] at hop
  rw [expr, hop.2]
  · exact hop.1
  · exact hdot

theorem holds_assign (hP : Compositional W P) (span : Span) (hn : ∀ n, l.name? = some n → W n)
    (hr : P _ (expr r)) : P _ (expr (.binary span l .assign r)) := by
  rw [expr]
  refine hP.bind hr fun v => ?_
  cases hname : l.name? with
  | none => exact hP.pure _
  | some n => exact hP.bind (hP.assign (hn n hname) v) fun _ => hP.pure v

theorem holds_compound (hP : Compositional W P) (span : Span) (hop : op.compoundBase? = some base)
    (hn : ∀ n, l.name? = some n → W n) (hr : P _ (expr r)) : P _ (expr (.binary span l op r)) := by
  rw [expr_compound span l r hop]
  cases hname : l.name? with
  | none => exact hP.pure _
  | some n =>
    refine hP.bind hr fun v => hP.bind (hP.lookup? n) fun old => ?_
    exact hP.bind (hP.assign (hn n hname) _) fun _ => hP.pure _

theorem holds_operands (hP : Compositional W P) (span : Span) (hop : op.isAssignment = false)
    (hl : P _ (expr l)) (hr : P _ (expr r)) : P _ (expr (.binary span l op r)) := by
  by_cases hdot : op = .dot
  · subst hdot
    rw [expr]
    exact hP.bind hl fun _ => hP.pure _
  · rw [expr_operands span l r hop hdot]
    exact hP.bind hl fun _ => hP.bind hr fun _ => hP.pure _

end Binary

mutual

theorem holds_expr (hP : Compositional W P) :
    (e : Expr) → (∀ n ∈ e.targets, W n) → P _ (expr e)
  | .literal _ v, _ => by
    rw [expr]
    exact hP.pure v.value
  | .ident _ n, _ => by
    rw [expr]
    exact hP.bind (hP.lookup? n) fun _ => hP.pure _
  | .ref _ n, _ => by
    rw [expr]
    exact hP.bind (hP.lookup? n) fun _ => hP.pure _
  | .unary _ op e, h => by
    rw [expr]
    exact hP.bind (holds_expr hP e h) fun _ => hP.pure _
  | .binary span l op r, h => by
    rw [Expr.targets] at h
    split at h
    · rename_i hop
      rw [List.forall_mem_append] at h
      have hr := holds_expr hP r h.2
      have hn (n : String) (hl : l.name? = some n) : W n := h.1 n (by simp [hl])
      rcases Bool.or_eq_true_iff.1 hop with hassign | hcompound
      · rw [beq_iff_eq.1 hassign]
        exact holds_assign hP span hn hr
      · obtain ⟨base, hbase⟩ := Option.isSome_iff_exists.1 hcompound
        exact holds_compound hP span hbase hn hr
    · rename_i hop
      rw [List.forall_mem_append] at h
      exact holds_operands hP span (by simpa using hop) (holds_expr hP l h.1) (holds_expr hP r h.2)
  | .range _ a b inclusive, h => by
    rw [Expr.targets, List.forall_mem_append] at h
    rw [expr]
    exact hP.bind (holds_expr hP a h.1) fun _ => hP.bind (holds_expr hP b h.2) fun _ => hP.pure _
  | .array _ es, h => by
    rw [expr]
    exact hP.bind (holds_exprs hP es h) fun _ => hP.pure _
  | .pair _ (.mk k e), h => by
    rw [expr]
    exact hP.bind (holds_expr hP e h) fun _ => hP.pure _
  | .object _ fs, h => by
    rw [expr]
    exact hP.bind (holds_fields hP fs h) fun _ => hP.pure _
  | .block _ b, h => by
    rw [expr]
    exact holds_sequence hP b .nil h
  | .format _ ps, h => by
    rw [expr]
    exact hP.bind (holds_exprs hP ps h) fun _ => hP.pure _
  | .call _ c as, h => by
    rw [Expr.targets, List.forall_mem_append] at h
    rw [expr]
    refine hP.bind (hP.lookup? _) fun _ => hP.bind (holds_expr hP c h.1) fun _ => ?_
    refine hP.bind (holds_exprs hP as h.2) fun _ => Compositional.ite ?_ (hP.pure _)
    exact hP.bind (hP.print _) fun _ => hP.pure _
  | .index _ a i, h => by
    rw [Expr.targets, List.forall_mem_append] at h
    rw [expr]
    exact hP.bind (holds_expr hP a h.1) fun _ => hP.bind (holds_expr hP i h.2) fun _ => hP.pure _
  | .cond _ t y (some n), h => by
    rw [Expr.targets, List.forall_mem_append, List.forall_mem_append] at h
    rw [expr]
    refine hP.bind (holds_expr hP t h.1.1) fun _ => ?_
    exact Compositional.ite (holds_expr hP y h.1.2) (holds_expr hP n h.2)
  | .cond _ t y none, h => by
    rw [Expr.targets, List.forall_mem_append] at h
    rw [expr]
    refine hP.bind (holds_expr hP t h.1) fun _ => ?_
    exact Compositional.ite (holds_expr hP y h.2) (hP.pure _)

theorem holds_exprs (hP : Compositional W P) :
    (es : List Expr) → (∀ n ∈ targetsOfExprs es, W n) → P _ (exprs es)
  | [], _ => by
    rw [exprs]
    exact hP.pure []
  | e :: es, h => by
    rw [targetsOfExprs, List.forall_mem_append] at h
    rw [exprs]
    exact hP.bind (holds_expr hP e h.1) fun _ => hP.bind (holds_exprs hP es h.2) fun _ => hP.pure _

theorem holds_fields (hP : Compositional W P) :
    (fs : List Field) → (∀ n ∈ targetsOfFields fs, W n) → P _ (fields fs)
  | [], _ => by
    rw [fields]
    exact hP.pure []
  | .mk k e :: fs, h => by
    rw [targetsOfFields, List.forall_mem_append] at h
    rw [fields]
    exact hP.bind (holds_expr hP e h.1) fun _ => hP.bind (holds_fields hP fs h.2) fun _ => hP.pure _

theorem holds_stmt (hP : Compositional W P) : (x : Stmt) → (∀ n ∈ x.targets, W n) → P _ (stmt x)
  | .expr _ e, h => by
    rw [stmt]
    exact holds_expr hP e h
  | .store _ n ty e, h => by
    rw [Stmt.targets, List.forall_mem_cons] at h
    have hdefine (v : Value) : P Value (do define n v; return v) :=
      hP.bind (hP.define h.1 v) fun _ => hP.pure v
    rw [stmt]
    refine hP.bind (holds_expr hP e h.2) fun v => ?_
    cases ty with
    | none => exact hdefine v
    | some ty => exact hP.bind (hP.declare n ty) fun _ => hdefine v
  | .block _ b, h => by
    rw [stmt]
    exact hP.inBlock (holds_sequence hP b .void h)
  | .cond _ t y (some n), h => by
    rw [Stmt.targets, List.forall_mem_append, List.forall_mem_append] at h
    rw [stmt]
    refine hP.bind (holds_expr hP t h.1.1) fun _ => ?_
    exact Compositional.ite (holds_stmt hP y h.1.2) (holds_stmt hP n h.2)
  | .cond _ t y none, h => by
    rw [Stmt.targets, List.forall_mem_append] at h
    rw [stmt]
    refine hP.bind (holds_expr hP t h.1) fun _ => ?_
    exact Compositional.ite (holds_stmt hP y h.2) (hP.pure _)
  | .loop _ n e b, h => by
    rw [Stmt.targets, List.forall_mem_cons, List.forall_mem_append] at h
    have hb := holds_stmt hP b h.2.2
    rw [stmt]
    refine hP.bind (holds_expr hP e h.2.1) fun source => hP.inBlock ?_
    split
    · exact hP.overRange h.1 hb _ _ 0 .void
    · exact hP.overItems h.1 hb _ .void
    · exact hP.pure _
  | .leave _, _ => by
    rw [stmt]
    exact hP.bind hP.leave fun _ => hP.pure _
  | .function _ _ _ _ _, _ => by
    rw [stmt]
    exact hP.pure _
  | .blank _, _ => by
    rw [stmt]
    exact hP.pure _

theorem holds_sequence (hP : Compositional W P) : (ss : List Stmt) → (last : Value) →
    (∀ n ∈ targetsOfStmts ss, W n) → P _ (sequence ss last)
  | [], last, _ => by
    rw [sequence]
    exact hP.pure last
  | s :: ss, last, h => by
    rw [targetsOfStmts, List.forall_mem_append] at h
    rw [sequence]
    refine hP.bind (holds_stmt hP s h.1) fun v => hP.bind hP.isLeaving fun left => ?_
    exact Compositional.ite (hP.pure v) (holds_sequence hP ss v h.2)

end

theorem holds_code (hP : Compositional (fun _ => True) P) (c : Code) : P _ (code c) :=
  hP.bind (holds_sequence hP c .void fun _ _ => trivial) fun v =>
    hP.bind hP.takeLeave fun _ => hP.pure v

open ScopeTree (Bracketed Disciplined)

/-- from any state, running `m` leaves every scope it enters and gives values to names in `W` only -/
def Writes (W : String → Prop) (m : Eval α) : Prop :=
  ∀ s : EvalState, Bracketed W s.scopes (m.run s).2.scopes

theorem writes_compositional (W : String → Prop) : Compositional W fun _ m => Writes W m where
  pure _ s := .refl s.scopes
  bind {_ _ m _} hm hf s := (hm s).trans (hf (m.run s).1 (m.run s).2)
  lookup? _ s := .refl s.scopes
  assign hn v s := (Bracketed.refl s.scopes).assign v hn
  define hn v s := (Bracketed.refl s.scopes).define v hn
  declare n ty s := (Bracketed.refl s.scopes).declare n ty
  print _ s := .refl s.scopes
  leave s := .refl s.scopes
  isLeaving s := .refl s.scopes
  takeLeave s := .refl s.scopes
  inBlock h s := (Bracketed.refl s.scopes).block .block (h { s with scopes := s.scopes.enter .block })

theorem writes_expr (W : String → Prop) (e : Expr) (h : ∀ n ∈ e.targets, W n) : Writes W (expr e) :=
  holds_expr (writes_compositional W) e h

theorem writes_stmt (W : String → Prop) (x : Stmt) (h : ∀ n ∈ x.targets, W n) : Writes W (stmt x) :=
  holds_stmt (writes_compositional W) x h

theorem writes_code (c : Code) : Writes (fun _ => True) (code c) :=
  holds_code (writes_compositional _) c

end Eval

/-- scopes that can be made from the outermost one alone -/
def ScopeTree.Reachable (t : ScopeTree) : Prop := ∃ ops, ScopeTree.run ops = t

theorem ScopeTree.Reachable.wellFormed {t : ScopeTree} (h : t.Reachable) : t.WellFormed := by
  obtain ⟨ops, rfl⟩ := h
  exact (represents_run ops).wellFormed

/-- whatever is run, from whatever state, scopes are left as they were entered -/
theorem evaluation_disciplined (s : EvalState) (h : s.scopes.Reachable) :
    (∀ c : Code, s.scopes.Disciplined ((Eval.code c).run s).2.scopes) ∧
      (∀ x : Stmt, s.scopes.Disciplined ((Eval.stmt x).run s).2.scopes) ∧
      ∀ e : Expr, s.scopes.Disciplined ((Eval.expr e).run s).2.scopes := by
  refine ⟨fun c => ?_, fun x => ?_, fun e => ?_⟩
  · exact (Eval.writes_code c s).disciplined h.wellFormed |>.2
  · exact (Eval.writes_stmt (fun _ => True) x (fun _ _ => trivial) s).disciplined h.wellFormed |>.2
  · exact (Eval.writes_expr (fun _ => True) e (fun _ _ => trivial) s).disciplined h.wellFormed |>.2

namespace Samples

/-- a block that was left, and a function scope that was not -/
def leftAndOpen : List ScopeOp :=
  [.define "x" (.int 1), .enter .block, .define "y" .nil, .exit, .enter .function,
    .declare "x" (.simple .int)]

/-- `for i in 0..3` with the body `var y int = x / 0; x = i; break` -/
def brokenLoop : Code :=
  [.loop .nowhere "i"
    (.range .nowhere (.literal .nowhere (.int 0)) (.literal .nowhere (.int 3)) false)
    (.block .nowhere [
      .store .nowhere "y" (some (.simple .int))
        (.binary .nowhere (.ident .nowhere "x") .div (.literal .nowhere (.int 0))),
      .expr .nowhere (.binary .nowhere (.ident .nowhere "x") .assign (.ident .nowhere "i")),
      .leave .nowhere])]

end Samples

open Samples

/-- an error, a break and a value that is given to an outer name; two scopes are opened -/
theorem evaluation_disciplined_broken_loop :
    let s : EvalState := ⟨.run leftAndOpen, "", false⟩
    let s' := ((Eval.code brokenLoop).run s).2
    s.scopes.Reachable ∧ s.scopes.Disciplined s'.scopes ∧ s.scopes.size = 3 ∧ s'.scopes.size = 5 ∧
      s.scopes.lookup? "x" == some (.int 1) ∧ s'.scopes.lookup? "x" == some (.int 0) := by
  intro s s'
  have hs : s.scopes.Reachable := ⟨leftAndOpen, rfl⟩
  refine ⟨hs, (evaluation_disciplined s hs).1 brokenLoop, ?_, ?_, ?_, ?_⟩ <;> decide

end AutoLang
