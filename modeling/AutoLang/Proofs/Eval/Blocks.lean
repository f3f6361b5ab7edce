import AutoLang.Proofs.Eval.Scopes
import AutoLang.Proofs.Scope.Consistency
import Mathlib

/-! A block keeps its names to itself. While it is run, the current scope is one that was opened after
those around it, so that what is declared lands there. An assignment reaches out of the block only to a
name that is bound outside, and it gives that name another value where it is seen from. -/

namespace AutoLang

namespace ScopeTree

variable {t u u' : ScopeTree} {W : String → Prop} {n : String} {v : Value} {id : Nat}

/-- the bindings `new` have the names of `old`, in their order, and their values but for names in `P` -/
def Revalued (P : String → Prop) (old new : List (String × Value)) : Prop :=
  List.Forall₂ (fun b c => c.1 = b.1 ∧ (c.2 = b.2 ∨ P b.1)) old new

namespace Revalued

variable {P : String → Prop} {l l' : List (String × Value)}

theorem refl (l : List (String × Value)) : Revalued P l l :=
  List.forall₂_same.2 fun _ _ => ⟨rfl, .inl rfl⟩

/-- the same names are bound, so the same scope is found by each -/
theorem isSome_lookup (h : Revalued P l l') (n : String) :
    (l'.lookup n).isSome = (l.lookup n).isSome := by
  induction h with
  | nil => rfl
  | @cons b c _ _ hbc _ ih =>
    obtain ⟨k, w⟩ := c
    obtain rfl : k = b.1 := hbc.1
    rw [List.lookup_cons, List.lookup_cons]
    cases n == b.1
    · exact ih
    · rfl

/-- a name that is bound gets another value in its place -/
theorem bind (h : Revalued P l l') (hn : P n) (hbound : (l.lookup n).isSome) :
    Revalued P l (AutoLang.bind n v l') := by
  induction h with
  | nil => cases hbound
  | @cons b c bs cs hbc hrest ih =>
    obtain ⟨k, w⟩ := c
    obtain rfl : k = b.1 := hbc.1
    rw [AutoLang.bind]
    by_cases hk : b.1 = n
    · rw [if_pos (beq_iff_eq.2 hk)]
      exact .cons ⟨rfl, .inr (hk ▸ hn)⟩ hrest
    · rw [if_neg (by simpa using hk)]
      rw [List.lookup_cons, beq_eq_false_iff_ne.2 (Ne.symm hk)] at hbound
      exact .cons hbc (ih hbound)

end Revalued

/-- the names in `W` whose nearest binding is in scope `id` -/
def SeenIn (t : ScopeTree) (W : String → Prop) (id : Nat) (n : String) : Prop :=
  W n ∧ id ∈ t.chain ∧ t.owner n = id

/-- the scopes of `t` have the names and the declared types they had, and other values only where a
name in `W` is seen from the current scope of `t` -/
structure NamesKept (W : String → Prop) (t u : ScopeTree) : Prop where
  size : t.size ≤ u.size
  types : ∀ id < t.size, (u.get id).types = (t.get id).types
  vars : ∀ id < t.size, Revalued (t.SeenIn W id) (t.get id).vars (u.get id).vars

/-- the current scope of `u` was opened inside the one of `t`, and since then no name was bound outside -/
structure InBlock (W : String → Prop) (t u : ScopeTree) : Prop extends NamesKept W t u where
  wellFormed : u.WellFormed
  inner : ∃ opened, opened ≠ [] ∧ (∀ x ∈ opened, t.size ≤ x) ∧ u.chain = opened ++ t.chain

namespace InBlock

/-- the block is entered -/
theorem start (hw : t.WellFormed) (kind : ScopeKind) : InBlock W t (t.enter kind) where
  size := by simp [size_enter]
  types id hid := part_enter Scope.types (fun _ _ => rfl) hw hid kind
  vars id hid := by
    rw [part_enter Scope.vars (fun _ _ => rfl) hw hid kind]
    exact .refl _
  wellFormed := hw.enter kind
  inner := ⟨[t.size], by simp, by simp, chain_enter hw kind⟩

theorem size_le_current (h : InBlock W t u) : t.size ≤ u.current := by
  obtain ⟨opened, hne, hopened, hchain⟩ := h.inner
  obtain ⟨x, xs, rfl⟩ := List.exists_cons_of_ne_nil hne
  rw [chain_cons h.wellFormed, List.cons_append, List.cons.injEq] at hchain
  exact hchain.1 ▸ hopened x List.mem_cons_self

/-- a change of a scope that is not one of `t` -/
theorem change {f : Scope → Scope} (h : InBlock W t u) (hlt : id < u.scopes.size) (hid : t.size ≤ id)
    (hf : ∀ s, (f s).parent = s.parent) : InBlock W t (u.change id f) where
  size := by simpa [ScopeTree.change, ScopeTree.size] using h.size
  types x hx := by
    rw [get_change hlt, if_neg (hx.trans_le hid).ne]
    exact h.types x hx
  vars x hx := by
    rw [get_change hlt, if_neg (hx.trans_le hid).ne]
    exact h.vars x hx
  wellFormed := h.wellFormed.change hlt hf
  inner := by
    rw [chain_change h.wellFormed hlt hf]
    exact h.inner

theorem define (h : InBlock W t u) : InBlock W t (u.define n v) :=
  h.change (f := (·.put n v)) h.wellFormed.current_lt h.size_le_current fun _ => rfl

theorem declare {ty : Ty} (h : InBlock W t u) : InBlock W t (u.declare n ty) :=
  h.change (f := (·.putTy n ty)) h.wellFormed.current_lt h.size_le_current fun _ => rfl

/-- a scope of `t` that a name is assigned in binds it already, and is the one where it is seen -/
theorem owner_eq (h : InBlock W t u) (hw : t.WellFormed) (hid : u.owner n < t.size) :
    u.owner n = t.owner n ∧ u.owner n ∈ t.chain ∧ ((t.get (u.owner n)).vars.lookup n).isSome := by
  obtain ⟨opened, -, hopened, hchain⟩ := h.inner
  have hcurrent := h.size_le_current
  have hsame : t.chain.find? (fun x => (u.get x).has n) = t.chain.find? fun x => (t.get x).has n := by
    refine List.find?_congr fun x hx => ?_
    exact (h.vars x (lt_size_of_mem_chain hw hx)).isSome_lookup n
  rw [owner, hchain, List.find?_append, hsame] at hid ⊢
  cases hin : opened.find? fun x => (u.get x).has n with
  | some x =>
    rw [hin] at hid
    exact absurd hid (hopened x (List.mem_of_find?_eq_some hin)).not_gt
  | none =>
    rw [hin, Option.none_or] at hid
    rw [Option.none_or, owner]
    cases hfound : t.chain.find? fun x => (t.get x).has n with
    | none =>
      rw [hfound] at hid
      exact absurd hid hcurrent.not_gt
    | some x =>
      have hhas : (t.get x).has n = true := by simpa using List.find?_some hfound
      exact ⟨rfl, List.mem_of_find?_eq_some hfound, hhas⟩

theorem assign (h : InBlock W t u) (hw : t.WellFormed) (hn : W n) : InBlock W t (u.assign n v) := by
  have hlt := lt_size_of_mem_chain h.wellFormed (owner_mem_chain h.wellFormed n)
  by_cases hid : t.size ≤ u.owner n
  · exact h.change (f := (·.put n v)) hlt hid fun _ => rfl
  · obtain ⟨howner, hmem, hbound⟩ := h.owner_eq hw (not_le.1 hid)
    have hget (x : Nat) : (u.assign n v).get x = if x = u.owner n then (u.get x).put n v else u.get x :=
      get_change hlt x
    have hchain : (u.assign n v).chain = u.chain :=
      chain_change h.wellFormed hlt (u := (·.put n v)) fun _ => rfl
    refine ⟨⟨?_, fun x hx => ?_, fun x hx => ?_⟩, h.wellFormed.assign, hchain ▸ h.inner⟩
    · simpa [ScopeTree.assign, ScopeTree.size] using h.size
    · rw [hget, ← h.types x hx]
      split <;> rfl
    · rw [hget]
      split
      · rename_i hxo
        subst hxo
        exact (h.vars _ hx).bind ⟨hn, hmem, howner.symm⟩ hbound
      · exact h.vars x hx

theorem enter (h : InBlock W t u) (kind : ScopeKind) : InBlock W t (u.enter kind) where
  size := by
    rw [size_enter]
    exact h.size.trans (Nat.le_succ _)
  types x hx := by
    rw [part_enter Scope.types (fun _ _ => rfl) h.wellFormed (hx.trans_le h.size)]
    exact h.types x hx
  vars x hx := by
    rw [part_enter Scope.vars (fun _ _ => rfl) h.wellFormed (hx.trans_le h.size)]
    exact h.vars x hx
  wellFormed := h.wellFormed.enter kind
  inner := by
    obtain ⟨opened, -, hopened, hchain⟩ := h.inner
    refine ⟨u.size :: opened, List.cons_ne_nil _ _, List.forall_mem_cons.2 ⟨h.size, hopened⟩, ?_⟩
    rw [chain_enter h.wellFormed, hchain, List.cons_append]
    rfl

/-- a block inside the block is left again -/
theorem leave (h : InBlock W t u) (hin : InBlock W t u') (hd : Disciplined u u'.exit) :
    InBlock W t u'.exit where
  size := h.size.trans hd.size
  types x hx := by
    rw [get_exit]
    exact hin.types x hx
  vars x hx := by
    rw [get_exit]
    exact hin.vars x hx
  wellFormed := hin.wellFormed.exit
  inner := hd.chain_eq h.wellFormed ▸ h.inner

/-- whatever is done in the block -/
theorem bracketed (h : InBlock W t u) (hw : t.WellFormed) (hb : Bracketed W u u') :
    InBlock W t u' := by
  induction hb with
  | refl => exact h
  | assign v _ hn ih => exact (ih h).assign hw hn
  | define v _ _ ih => exact (ih h).define
  | declare n ty _ ih => exact (ih h).declare
  | block kind _ hin ih ih' =>
    have hbefore := ih h
    have hafter := ih' (hbefore.enter kind)
    have hd := (hin.disciplined (hbefore.wellFormed.enter kind)).2
    exact hbefore.leave hafter (.block hbefore.wellFormed hd)

end InBlock

end ScopeTree

open Eval

/-- A block statement leaves the scopes around it with the names they had, in their order, and with the
declared types they had. The only values it changes are those of names that it assigns, each in the
scope where the name is seen from outside of the block. -/
theorem block_keeps_names (s : EvalState) (h : s.scopes.Reachable) (p : Span) (b : List Stmt) :
    s.scopes.NamesKept (· ∈ targetsOfStmts b) ((stmt (.block p b)).run s).2.scopes := by
  let entered : EvalState := { s with scopes := s.scopes.enter .block }
  have hrun : ((stmt (.block p b)).run s).2.scopes = ((sequence b .void).run entered).2.scopes.exit := by
    rw [stmt]
    rfl
  have hb := holds_sequence (writes_compositional (· ∈ targetsOfStmts b)) b .void (fun _ hn => hn) entered
  have hin := (ScopeTree.InBlock.start h.wellFormed .block).bracketed h.wellFormed hb
  rw [hrun]
  constructor
  case size =>
    rw [ScopeTree.exit]
    split <;> exact hin.size
  case types =>
    intro id hid
    rw [ScopeTree.get_exit]
    exact hin.types id hid
  case vars =>
    intro id hid
    rw [ScopeTree.get_exit]
    exact hin.vars id hid

namespace Samples

/-- a name that an inner scope binds again -/
def shadowed : List ScopeOp :=
  [.define "x" (.int 1), .enter .block, .define "x" (.int 2), .declare "x" (.simple .int)]

/-- `x = 5`, `var x = 7`, `x = 8` and `z = 9` -/
def rebinding : List Stmt :=
  let assign (n : String) (v : Int32) : Stmt :=
    .expr .nowhere (.binary .nowhere (.ident .nowhere n) .assign (.literal .nowhere (.int v)))
  [assign "x" 5, .store .nowhere "x" none (.literal .nowhere (.int 7)), assign "x" 8, assign "z" 9]

end Samples

open Samples

/-- the first assignment reaches the scope around the block and not the one around that; what is bound
behind it stays in the block -/
theorem block_keeps_names_shadowed :
    let s : EvalState := ⟨.run shadowed, "", false⟩
    let t := ((stmt (.block .nowhere rebinding)).run s).2.scopes
    s.scopes.Reachable ∧ s.scopes.NamesKept (· ∈ targetsOfStmts rebinding) t ∧
      (t.get 0).get? "x" == some (.int 1) ∧ (t.get 1).get? "x" == some (.int 5) ∧
      (t.get 2).get? "x" == some (.int 8) ∧ (t.get 1).has "z" = false := by
  intro s t
  have hs : s.scopes.Reachable := ⟨shadowed, rfl⟩
  refine ⟨hs, block_keeps_names s hs .nowhere rebinding, ?_, ?_, ?_, ?_⟩ <;> decide

end AutoLang
