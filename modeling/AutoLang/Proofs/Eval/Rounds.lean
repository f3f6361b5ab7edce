import AutoLang.Proofs.Eval.Leaving
import AutoLang.Proofs.Value.Ranges
import Mathlib

/-! The rounds of a loop. What a loop goes through is settled before its first round, so nothing that a body
assigns changes the items or how many there are; and before every round the item is assigned to the name of
the loop again, in whatever scope the name is bound by then. -/

namespace AutoLang

open Eval

theorem Value.items_range (r : IntRange) : (Value.range r).items = r.members.map .int := by
  rw [items, IntRange.members, List.map_map, List.range_eq_range']
  rfl

namespace Eval

variable {n : String} {body : Eval Value} {items : List Value} {last : Value} {s : EvalState}

/-- one more round: the item is assigned to the name, then the body is run -/
def round (n : String) (body : Eval Value) (r : Value × EvalState) (item : Value) : Value × EvalState :=
  body.run { r.2 with scopes := r.2.scopes.assign n item }

/-- a loop makes all its rounds if none of them ends with a break -/
theorem run_overItems_all
    (h : ∀ k < items.length, ((items.take (k + 1)).foldl (round n body) (last, s)).2.leaving = false) :
    (overItems n body items last).run s = items.foldl (round n body) (last, s) := by
  induction items generalizing last s with
  | nil => rfl
  | cons v vs ih =>
    have hfirst : (round n body (last, s) v).2.leaving = false := h 0 (by simp)
    rw [run_overItems_cons]
    change (if (round n body (last, s) v).2.leaving then _ else
      (overItems n body vs (round n body (last, s) v).1).run
        { (round n body (last, s) v).2 with leaving := false }) = _
    rw [hfirst, if_neg Bool.false_ne_true, ← hfirst]
    exact ih fun k hk => h (k + 1) (by simpa using hk)

theorem wellFormed_rounds {W : String → Prop} (hbody : Writes W body) {r : Value × EvalState}
    (h : r.2.scopes.WellFormed) (items : List Value) :
    (items.foldl (round n body) r).2.scopes.WellFormed := by
  induction items generalizing r with
  | nil => exact h
  | cons v vs ih => exact ih ((hbody _).wellFormed h.assign)

end Eval

/-- A range stands for the integers from its start up to its end, without the end if it is exclusive; they are
its members in increasing order. Without the end it is a range up to the number before, which does not wrap.
A loop over a range or an array runs its body once for each item in order, if none of the rounds ends with a
break: every round goes on from where the one before ended, with the item assigned to the name of the loop,
and the name has that value when the body begins. -/
theorem loops_visit_each (s : EvalState) (hs : s.scopes.Reachable) :
    (∀ r : IntRange, (Value.range r).items = r.members.map .int ∧ r.members.Pairwise (· < ·) ∧
      (∀ v, v ∈ r.members ↔ r.Covers v) ∧
      (r.inclusive = false → r.start < r.stop → (r.stop - 1).toInt = r.stop.toInt - 1 ∧
        r.members = IntRange.members ⟨r.start, r.stop - 1, true⟩)) ∧
    ∀ (p : Span) (n : String) (e : Expr) (b : Stmt),
      let source := (expr e).run s
      let items := source.1.items
      let after (k : ℕ) := (items.take k).foldl (round n (stmt b))
        (.void, { source.2 with scopes := source.2.scopes.enter .block })
      (∀ k < items.length, (after (k + 1)).2.leaving = false) →
        (stmt (.loop p n e b)).run s = ((after items.length).1,
          { (after items.length).2 with scopes := (after items.length).2.scopes.exit }) ∧
        ∀ k (hk : k < items.length),
          let start := { (after k).2 with scopes := (after k).2.scopes.assign n items[k] }
          after (k + 1) = (stmt b).run start ∧ start.scopes.lookup? n = some items[k] := by
  refine ⟨fun r => ⟨Value.items_range r, r.pairwise_members, r.mem_members_iff,
    IntRange.members_exclusive⟩, ?_⟩
  intro p n e b source items after hquiet
  have hsource : source.2.scopes.WellFormed :=
    (writes_expr (fun _ => True) e (fun _ _ => trivial) s).wellFormed hs.wellFormed
  have hbody := writes_stmt (fun _ => True) b fun _ _ => trivial
  constructor
  · have hall : after items.length = items.foldl (round n (stmt b))
        (.void, { source.2 with scopes := source.2.scopes.enter .block }) :=
      congrArg (List.foldl _ _) List.take_length
    have hblock := congrArg
      (fun r : Value × EvalState => (r.1, { r.2 with scopes := r.2.scopes.exit })) (run_overItems_all hquiet)
    rw [stmt_loop, hall]
    exact hblock
  · intro k hk start
    have hafter : (after k).2.scopes.WellFormed := wellFormed_rounds hbody (hsource.enter .block) _
    refine ⟨?_, ScopeTree.lookup?_assign hafter⟩
    change (items.take (k + 1)).foldl _ _ = _
    rw [List.take_succ_eq_append_getElem hk, List.foldl_append]
    rfl

namespace Samples

/-- `{ print(i); i = 9; n = 0 }` -/
def overwriting : Stmt :=
  let assign (name : String) (v : Int32) : Stmt :=
    .expr .nowhere (.binary .nowhere (.ident .nowhere name) .assign (number v))
  .block .nowhere
    [.expr .nowhere (.call .nowhere (.ident .nowhere "print") [.ident .nowhere "i"]), assign "i" 9,
      assign "n" 0]

/-- `0..n` -/
def upToN : Expr := .range .nowhere (number 0) (.ident .nowhere "n") false

end Samples

open Samples

/-- every round of three assigns the name of the loop and the end of the range -/
theorem loops_visit_each_overwritten :
    let s : EvalState := ⟨.run [.define "n" (.int 3)], "", false⟩
    let source := (expr upToN).run s
    let items := source.1.items
    let after (k : ℕ) := (items.take k).foldl (round "i" (stmt overwriting))
      (.void, { source.2 with scopes := source.2.scopes.enter .block })
    s.scopes.Reachable ∧ (∀ k < items.length, (after (k + 1)).2.leaving = false) ∧
      (∀ k (hk : k < items.length),
        ((after k).2.scopes.assign "i" items[k]).lookup? "i" = some items[k]) ∧
      (items == [.int 0, .int 1, .int 2]) ∧
      ((after 2).2.scopes.lookup? "i" == some (.int 9)) ∧ ((after 2).2.scopes.lookup? "n" == some (.int 0)) ∧
      ((stmt (.loop .nowhere "i" upToN overwriting)).run s).2.output = "0\n1\n2\n" := by
  intro s source items after
  have hs : s.scopes.Reachable := ⟨[.define "n" (.int 3)], rfl⟩
  have hquiet : ∀ k < items.length, (after (k + 1)).2.leaving = false := by decide
  obtain ⟨-, hrounds⟩ := (loops_visit_each s hs).2 .nowhere "i" upToN overwriting hquiet
  refine ⟨hs, hquiet, fun k hk => (hrounds k hk).2, ?_, ?_, ?_, ?_⟩ <;> decide

end AutoLang
