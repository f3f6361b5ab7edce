import AutoLang.Proofs.Scope.Consistency
import AutoLang.Proofs.Scope.Discipline
import Mathlib

/-! Scopes that were left. An operation changes scopes of the chain only, and only the scope it opens
joins the chain; so a scope that is off the chain stays as it is and stays off the chain. -/

namespace AutoLang

namespace ScopeTree

variable {t t' : ScopeTree} {id : Nat}

/-- a scope that is not open: neither the current one nor around it -/
structure Left (t : ScopeTree) (id : Nat) : Prop where
  lt_size : id < t.size
  notMem : id ∉ t.chain

theorem current_mem_chain (hw : t.WellFormed) : t.current ∈ t.chain := by
  rw [chain_cons hw]
  exact List.mem_cons_self

theorem Left.ne_current (h : t.Left id) (hw : t.WellFormed) : id ≠ t.current := by
  rintro rfl
  exact h.notMem (current_mem_chain hw)

/-- a change of an open scope -/
theorem Left.change {u : Scope → Scope} (h : t.Left id) (hw : t.WellFormed) {x : Nat}
    (hx : x ∈ t.chain) (hu : ∀ s, (u s).parent = s.parent) :
    (t.change x u).Left id ∧ (t.change x u).get id = t.get id := by
  have hlt := lt_size_of_mem_chain hw hx
  have hne : id ≠ x := by
    rintro rfl
    exact h.notMem hx
  refine ⟨⟨?_, ?_⟩, ?_⟩
  · simpa [ScopeTree.change, size] using h.lt_size
  · rw [chain_change hw hlt hu]
    exact h.notMem
  · rw [get_change hlt, if_neg hne]

theorem Left.enter (h : t.Left id) (hw : t.WellFormed) (kind : ScopeKind) :
    (t.enter kind).Left id ∧ (t.enter kind).get id = t.get id := by
  have hlt := h.lt_size
  refine ⟨⟨?_, ?_⟩, ?_⟩
  · rw [size_enter]
    omega
  · rw [chain_enter hw, List.mem_cons, not_or]
    exact ⟨hlt.ne, h.notMem⟩
  · rw [get_enter_of_lt hw hlt, if_neg (h.ne_current hw)]

theorem chain_of_parent (hw : t.WellFormed) {p : Nat} (hp : t.currentScope.parent = some p) :
    t.chain = t.current :: t.exit.chain := by
  rw [chain_cons hw, exit, hp]

theorem Left.exit (h : t.Left id) (hw : t.WellFormed) :
    t.exit.Left id ∧ t.exit.get id = t.get id := by
  refine ⟨?_, get_exit t id⟩
  cases hp : t.currentScope.parent with
  | none => rwa [ScopeTree.exit, hp]
  | some p =>
    obtain ⟨hlt, hnot⟩ := h
    rw [chain_of_parent hw hp, List.mem_cons, not_or] at hnot
    refine ⟨?_, hnot.2⟩
    rwa [ScopeTree.exit, hp]

/-- the scope that was current is not open any more -/
theorem left_exit (hw : t.WellFormed) (hp : t.currentScope.parent.isSome) :
    t.exit.Left t.current := by
  obtain ⟨p, hp⟩ := Option.isSome_iff_exists.1 hp
  have hpair := chain_pairwise hw
  rw [chain_of_parent hw hp, List.pairwise_cons] at hpair
  refine ⟨?_, fun hmem => (hpair.1 _ hmem).ne rfl⟩
  rw [ScopeTree.exit, hp]
  exact hw.current_lt

/-- one operation -/
theorem Left.step (h : t.Left id) (hw : t.WellFormed) (op : ScopeOp) :
    (t.step op).Left id ∧ (t.step op).get id = t.get id := by
  cases op with
  | enter kind => exact h.enter hw kind
  | exit => exact h.exit hw
  | assign n v => exact h.change hw (owner_mem_chain hw n) fun _ => rfl
  | define n v => exact h.change hw (current_mem_chain hw) fun _ => rfl
  | declare n ty => exact h.change hw (current_mem_chain hw) fun _ => rfl

/-- any operations -/
theorem Left.foldl (ops : List ScopeOp) (h : t.Left id) (hc : t.Consistent) :
    (ops.foldl ScopeTree.step t).Left id ∧ (ops.foldl ScopeTree.step t).get id = t.get id := by
  induction ops generalizing t with
  | nil => exact ⟨h, rfl⟩
  | cons op ops ih =>
    obtain ⟨hleft, hget⟩ := h.step hc.toWellFormed op
    obtain ⟨hleft', hget'⟩ := ih hleft (hc.step op)
    exact ⟨hleft', hget'.trans hget⟩

/-- scope `id` is not the current one, holds what it held, and is found by the path it had -/
structure Frozen (id : Nat) (t t' : ScopeTree) : Prop where
  notCurrent : t'.current ≠ id
  scope : t'.get id = t.get id
  found : t'.find? (t.get id).path = some id

/-- whatever is done after a scope was left -/
theorem frozen_after_exit (hc : t.Consistent) (hp : t.currentScope.parent.isSome)
    (ops : List ScopeOp) : Frozen t.current t (ops.foldl step t.exit) := by
  obtain ⟨hleft, hget⟩ := (left_exit hc.toWellFormed hp).foldl ops hc.exit
  have hc' := consistent_foldl ops hc.exit
  rw [get_exit] at hget
  constructor
  case notCurrent => exact (hleft.ne_current hc'.toWellFormed).symm
  case scope => exact hget
  case found => exact (hc'.found _ _).2 ⟨hleft.lt_size, congrArg Scope.path hget⟩

end ScopeTree

end AutoLang
