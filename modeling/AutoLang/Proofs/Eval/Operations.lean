import AutoLang.Proofs.Eval.Scopes
import AutoLang.Proofs.Scope.Frozen
import Mathlib

/-! The operations on scopes that a run performs, one after the other. Scopes are changed from outside
and by programs that run over them, and all of it is one long list of operations; what holds after any
operations therefore holds in the middle of a run as well as between runs. -/

namespace AutoLang

namespace Eval

variable {α : Type} {m : Eval α} {s : EvalState} {ops : List ScopeOp}

/-- the operations that running a computation from a state performs on the scopes, in order -/
inductive Performs : {α : Type} → Eval α → EvalState → List ScopeOp → Prop where
  | pure {α : Type} (a : α) (s : EvalState) : Performs (pure a) s []
  | lookup? (n : String) (s : EvalState) : Performs (lookup? n) s []
  | assign (n : String) (v : Value) (s : EvalState) : Performs (assign n v) s [.assign n v]
  | define (n : String) (v : Value) (s : EvalState) : Performs (define n v) s [.define n v]
  | declare (n : String) (ty : Ty) (s : EvalState) : Performs (declare n ty) s [.declare n ty]
  | print (line : String) (s : EvalState) : Performs (print line) s []
  | leave (s : EvalState) : Performs leave s []
  | isLeaving (s : EvalState) : Performs isLeaving s []
  | takeLeave (s : EvalState) : Performs takeLeave s []
  | bind {α β : Type} {m : Eval α} {f : α → Eval β} {s : EvalState} {ops ops' : List ScopeOp} :
    Performs m s ops → Performs (f (m.run s).1) (m.run s).2 ops' → Performs (m >>= f) s (ops ++ ops')
  | inBlock {body : Eval Value} {s : EvalState} {ops : List ScopeOp} :
    Performs body { s with scopes := s.scopes.enter .block } ops →
    Performs (inBlock body) s (.enter .block :: ops ++ [.exit])

/-- what a run performs is all that it does to the scopes -/
theorem Performs.scopes_eq (h : Performs m s ops) :
    (m.run s).2.scopes = ops.foldl ScopeTree.step s.scopes := by
  induction h with
  | pure | lookup? | print | leave | isLeaving | takeLeave => rfl
  | assign | define | declare => rfl
  | @bind α β m f s ops ops' _ _ ih ih' =>
    rw [List.foldl_append, ← ih, ← ih']
    rfl
  | @inBlock body s ops _ ih =>
    rw [List.cons_append, List.foldl_cons, List.foldl_append, ScopeTree.step, ← ih]
    rfl

theorem performs_compositional :
    Compositional (fun _ => True) fun _ m => ∀ s, ∃ ops, Performs m s ops where
  pure a s := ⟨_, .pure a s⟩
  bind {_ _ m _} hm hf s := by
    obtain ⟨ops, hops⟩ := hm s
    obtain ⟨ops', hops'⟩ := hf (m.run s).1 (m.run s).2
    exact ⟨_, hops.bind hops'⟩
  lookup? n s := ⟨_, .lookup? n s⟩
  assign _ v s := ⟨_, .assign _ v s⟩
  define _ v s := ⟨_, .define _ v s⟩
  declare n ty s := ⟨_, .declare n ty s⟩
  print line s := ⟨_, .print line s⟩
  leave s := ⟨_, .leave s⟩
  isLeaving s := ⟨_, .isLeaving s⟩
  takeLeave s := ⟨_, .takeLeave s⟩
  inBlock h s := by
    obtain ⟨ops, hops⟩ := h { s with scopes := s.scopes.enter .block }
    exact ⟨_, hops.inBlock⟩

end Eval

/-- what is done to scopes from outside: an operation, or a whole program that is run over them, with
what was printed before and whether a loop is being left -/
inductive Action where
  | perform (op : ScopeOp)
  | evaluate (code : Code) (output : String) (leaving : Bool)

namespace Action

def apply (t : ScopeTree) : Action → ScopeTree
  | perform op => t.step op
  | evaluate c output leaving => ((Eval.code c).run ⟨t, output, leaving⟩).2.scopes

/-- the operations that an action performs -/
inductive Performs (t : ScopeTree) : Action → List ScopeOp → Prop where
  | perform (op : ScopeOp) : Performs t (.perform op) [op]
  | evaluate {c : Code} {output : String} {leaving : Bool} {ops : List ScopeOp} :
    Eval.Performs (Eval.code c) ⟨t, output, leaving⟩ ops → Performs t (.evaluate c output leaving) ops

/-- the operations that actions in order perform -/
inductive PerformAll : ScopeTree → List Action → List ScopeOp → Prop where
  | nil (t : ScopeTree) : PerformAll t [] []
  | cons {t : ScopeTree} {a : Action} {as : List Action} {ops ops' : List ScopeOp} :
    Performs t a ops → PerformAll (a.apply t) as ops' → PerformAll t (a :: as) (ops ++ ops')

variable {t : ScopeTree} {a : Action} {as : List Action} {ops : List ScopeOp}

theorem Performs.apply_eq (h : Performs t a ops) : a.apply t = ops.foldl ScopeTree.step t := by
  cases h with
  | perform op => rfl
  | evaluate h => exact h.scopes_eq

theorem PerformAll.foldl_eq (h : PerformAll t as ops) :
    as.foldl apply t = ops.foldl ScopeTree.step t := by
  induction h with
  | nil t => rfl
  | cons ha _ ih => rw [List.foldl_cons, ih, List.foldl_append, ha.apply_eq]

theorem exists_performs (t : ScopeTree) (a : Action) : ∃ ops, Performs t a ops := by
  cases a with
  | perform op => exact ⟨_, .perform op⟩
  | evaluate c output leaving =>
    obtain ⟨ops, hops⟩ := Eval.holds_code Eval.performs_compositional c ⟨t, output, leaving⟩
    exact ⟨ops, .evaluate hops⟩

theorem exists_performAll (t : ScopeTree) (as : List Action) : ∃ ops, PerformAll t as ops := by
  induction as generalizing t with
  | nil => exact ⟨_, .nil t⟩
  | cons a as ih =>
    obtain ⟨ops, hops⟩ := exists_performs t a
    obtain ⟨ops', hops'⟩ := ih (a.apply t)
    exact ⟨_, .cons hops hops'⟩

end Action

/-- Whatever actions are taken on fresh scopes, they come down to operations one after the other; and if
one of these leaves a scope for the one around it, then after any more of them, be it between two
actions or in the middle of one, that scope is not current, holds what it held and is found by its
path. -/
theorem left_scopes_frozen (actions : List Action) :
    (∃ ops, Action.PerformAll .empty actions ops) ∧ ∀ ops, Action.PerformAll .empty actions ops →
      actions.foldl Action.apply .empty = ScopeTree.run ops ∧
      ∀ i j, i < j → ops[i]? = some .exit →
        (ScopeTree.run (ops.take i)).currentScope.parent.isSome →
        ScopeTree.Frozen (ScopeTree.run (ops.take i)).current (ScopeTree.run (ops.take i))
          (ScopeTree.run (ops.take j)) := by
  refine ⟨Action.exists_performAll _ _, fun ops hops => ⟨hops.foldl_eq, ?_⟩⟩
  intro i j hij hexit hparent
  -- the operations up to `j` are those up to `i`, the exit, and some more
  obtain ⟨more, hmore⟩ : ∃ more, ops.take j = ops.take i ++ .exit :: more := by
    obtain ⟨k, rfl⟩ := Nat.exists_eq_add_of_lt hij
    obtain ⟨hlt, hget⟩ := List.getElem?_eq_some_iff.1 hexit
    refine ⟨(ops.drop (i + 1)).take k, ?_⟩
    rw [Nat.add_assoc, List.take_add, List.drop_eq_getElem_cons hlt, hget, List.take_succ_cons]
  have hrun : ScopeTree.run (ops.take j) =
      more.foldl ScopeTree.step (ScopeTree.run (ops.take i)).exit := by
    rw [hmore, ScopeTree.run, List.foldl_append, List.foldl_cons]
    rfl
  have hconsistent := ScopeTree.consistent_foldl (ops.take i) ScopeTree.consistent_empty
  rw [hrun]
  exact ScopeTree.frozen_after_exit hconsistent hparent more

namespace Samples

/-- a block with an `x` of one is left, and then a loop runs that assigns an `x` of its own -/
def leftBeforeLoop : List Action :=
  [.perform (.enter .block), .perform (.define "x" (.int 1)), .perform .exit,
    .evaluate brokenLoop "" false]

end Samples

open Samples

theorem left_scopes_frozen_before_loop :
    let t := leftBeforeLoop.foldl Action.apply .empty
    ∃ ops, Action.PerformAll .empty leftBeforeLoop ops ∧ ops[2]? = some .exit ∧
      ScopeTree.Frozen 1 (ScopeTree.run (ops.take 2)) t ∧ t.size = 4 ∧
      (t.get 1).get? "x" == some (.int 1) ∧ t.find? "block_0" = some 1 := by
  intro t
  obtain ⟨⟨ops, hops⟩, hfrozen⟩ := left_scopes_frozen leftBeforeLoop
  obtain ⟨rest, hsplit⟩ :
      ∃ rest, ops = .enter .block :: .define "x" (.int 1) :: .exit :: rest := by
    obtain _ | ⟨⟨⟩, _ | ⟨⟨⟩, _ | ⟨⟨⟩, _⟩⟩⟩ := hops
    exact ⟨_, rfl⟩
  have htake : ops.take 2 = [.enter .block, .define "x" (.int 1)] := by rw [hsplit]; rfl
  have hexit : ops[2]? = some .exit := by rw [hsplit]; rfl
  have hlength : 2 < ops.length := by simp [hsplit]
  obtain ⟨hrun, hafter⟩ := hfrozen ops hops
  have hone := hafter 2 ops.length hlength hexit (by rw [htake]; rfl)
  rw [List.take_length, ← hrun] at hone
  have hcurrent : (ScopeTree.run (ops.take 2)).current = 1 := by rw [htake]; rfl
  rw [hcurrent] at hone
  refine ⟨ops, hops, hexit, hone, ?_, ?_, ?_⟩ <;> decide

end AutoLang
