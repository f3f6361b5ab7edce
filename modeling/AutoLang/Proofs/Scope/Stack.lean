import AutoLang.Scope.Tree
import Mathlib

/-! The scopes that can be seen from the current one, as a stack of frames. Scopes that were left stay
in the tree but not in the stack, so entering and leaving a scope, binding, assigning and looking up
are operations on a list of frames. -/

namespace AutoLang

section Bind

variable {α : Type} {n m : String} {a : α} {l : List (String × α)}

theorem lookup_bind_self : (bind n a l).lookup n = some a := by
  induction l with
  | nil => simp [bind]
  | cons p l ih =>
    obtain ⟨k, b⟩ := p
    rw [bind]
    split
    · rename_i h
      rw [beq_iff_eq] at h
      simp [h]
    · rename_i h
      have hk : (n == k) = false := by
        rw [beq_eq_false_iff_ne]
        rintro rfl
        exact h (beq_self_eq_true n)
      rw [List.lookup_cons, hk]
      exact ih

theorem lookup_bind_of_ne (h : m ≠ n) : (bind n a l).lookup m = l.lookup m := by
  induction l with
  | nil => simp [bind, List.lookup_cons, beq_eq_false_iff_ne.2 h]
  | cons p l ih =>
    obtain ⟨k, b⟩ := p
    rw [bind]
    split
    · rename_i hk
      rw [beq_iff_eq] at hk
      rw [List.lookup_cons, List.lookup_cons, hk, beq_eq_false_iff_ne.2 h]
    · rw [List.lookup_cons, List.lookup_cons, ih]

end Bind

namespace ScopeTree

/-- every scope stands inside one that was opened before it -/
structure WellFormed (t : ScopeTree) : Prop where
  current_lt : t.current < t.scopes.size
  parent_lt : ∀ id p, (t.get id).parent = some p → p < id

variable {t : ScopeTree} {n : String} {v : Value}

section Chain

/-- the chain does not depend on how many steps it may take -/
theorem chainFrom_eq (hp : ∀ id p, (t.get id).parent = some p → p < id) (fuel : Nat) :
    ∀ fuel' id, id < fuel → id < fuel' → t.chainFrom fuel id = t.chainFrom fuel' id := by
  induction fuel with
  | zero => intro _ id h; exact absurd h (Nat.not_lt_zero id)
  | succ fuel ih =>
    intro fuel' id h h'
    obtain ⟨fuel', rfl⟩ := Nat.exists_eq_add_of_le' (Nat.one_le_of_lt h')
    rw [chainFrom, chainFrom]
    cases hpar : (t.get id).parent with
    | none => rfl
    | some p =>
      have := hp id p hpar
      dsimp only
      rw [ih fuel' p (by omega) (by omega)]

/-- the chain only asks for parents -/
theorem chainFrom_congr {t' : ScopeTree} (fuel : Nat) :
    ∀ id, (∀ x ≤ id, (t.get x).parent = (t'.get x).parent) →
      (∀ x p, (t.get x).parent = some p → p < x) →
      t.chainFrom fuel id = t'.chainFrom fuel id := by
  induction fuel with
  | zero => intro id _ _; rfl
  | succ fuel ih =>
    intro id h hp
    rw [chainFrom, chainFrom, ← h id le_rfl]
    cases hpar : (t.get id).parent with
    | none => rfl
    | some p =>
      have hlt := hp id p hpar
      dsimp only
      rw [ih p (fun x hx => h x (hx.trans hlt.le)) hp]

theorem chain_cons (h : t.WellFormed) : t.chain = t.current ::
    match t.currentScope.parent with
    | some p => { t with current := p }.chain
    | none => [] := by
  rw [chain, chainFrom, currentScope]
  cases hpar : (t.get t.current).parent with
  | none => rfl
  | some p =>
    have hlt := h.parent_lt _ _ hpar
    dsimp only
    rw [chain, chainFrom_eq h.parent_lt t.current (p + 1) p hlt (Nat.lt_succ_self p)]
    exact congrArg _ (chainFrom_congr (p + 1) p (fun _ _ => rfl) h.parent_lt)

/-- scopes further out were opened earlier -/
theorem chainFrom_lt (hp : ∀ id p, (t.get id).parent = some p → p < id) (fuel : Nat) :
    ∀ id, (t.chainFrom fuel id).Pairwise (· > ·) ∧ ∀ x ∈ t.chainFrom fuel id, x ≤ id := by
  induction fuel with
  | zero => intro id; simp [chainFrom]
  | succ fuel ih =>
    intro id
    rw [chainFrom]
    cases hpar : (t.get id).parent with
    | none => simp
    | some p =>
      have hlt := hp id p hpar
      obtain ⟨hpair, hle⟩ := ih p
      refine ⟨List.pairwise_cons.2 ⟨fun x hx => (hle x hx).trans_lt hlt, hpair⟩, fun x hx => ?_⟩
      rcases List.mem_cons.1 hx with rfl | hx
      · exact le_rfl
      · exact (hle x hx).trans hlt.le

theorem chain_pairwise (h : t.WellFormed) : t.chain.Pairwise (· > ·) :=
  (chainFrom_lt h.parent_lt _ _).1

theorem lt_size_of_mem_chain (h : t.WellFormed) {id : Nat} (hid : id ∈ t.chain) :
    id < t.scopes.size :=
  ((chainFrom_lt h.parent_lt _ _).2 id hid).trans_lt h.current_lt

end Chain

section Change

/-- a change of the scope with the number `id` -/
def change (t : ScopeTree) (id : Nat) (u : Scope → Scope) : ScopeTree :=
  { t with scopes := t.scopes.modify id u }

variable {id : Nat} {u : Scope → Scope}

theorem get_change (hid : id < t.scopes.size) (x : Nat) :
    (t.change id u).get x = if x = id then u (t.get x) else t.get x := by
  unfold change get
  simp only [Array.getD_eq_getD_getElem?, Array.getElem?_modify]
  by_cases hx : x = id
  · subst hx
    simp [hid]
  · simp [hx, Ne.symm hx]

theorem WellFormed.change (h : t.WellFormed) (hid : id < t.scopes.size)
    (hu : ∀ s, (u s).parent = s.parent) : (t.change id u).WellFormed := by
  refine ⟨?_, fun x p hp => ?_⟩
  · rw [ScopeTree.change, Array.size_modify]
    exact h.current_lt
  · rw [get_change hid] at hp
    split at hp
    · exact h.parent_lt x p (hu _ ▸ hp)
    · exact h.parent_lt x p hp

theorem chain_change (h : t.WellFormed) (hid : id < t.scopes.size)
    (hu : ∀ s, (u s).parent = s.parent) : (t.change id u).chain = t.chain := by
  refine (chainFrom_congr _ _ (fun x _ => ?_) h.parent_lt).symm
  rw [get_change hid]
  split
  · rw [hu]
  · rfl

end Change

/-- what the scopes of the chain hold, inner ones first -/
def framesOf {β : Type} (t : ScopeTree) (part : Scope → β) : List β :=
  t.chain.map fun id => part (t.get id)

/-- the values that can be seen, by frames -/
def vars (t : ScopeTree) : List (List (String × Value)) := t.framesOf Scope.vars

/-- the declared types that can be seen, by frames -/
def types (t : ScopeTree) : List (List (String × Ty)) := t.framesOf Scope.types

section Frames

variable {β : Type} {part : Scope → β} {u : Scope → Scope} {id : Nat}

theorem framesOf_change_same (h : t.WellFormed) (hid : id < t.scopes.size)
    (hu : ∀ s, (u s).parent = s.parent) (hpart : ∀ s, part (u s) = part s) :
    (t.change id u).framesOf part = t.framesOf part := by
  unfold framesOf
  rw [chain_change h hid hu]
  refine List.map_congr_left fun x _ => ?_
  rw [get_change hid]
  split
  · rw [hpart]
  · rfl

theorem framesOf_change_current (h : t.WellFormed) (hu : ∀ s, (u s).parent = s.parent)
    {w : β → β} (hpart : ∀ s, part (u s) = w (part s)) :
    (t.change t.current u).framesOf part = (t.framesOf part).modifyHead w := by
  have hpair := chain_pairwise h
  unfold framesOf
  rw [chain_change h h.current_lt hu]
  rw [chain_cons h] at hpair ⊢
  rw [List.map_cons, List.map_cons, List.modifyHead_cons, get_change h.current_lt, if_pos rfl, hpart]
  refine congrArg _ (List.map_congr_left fun x hx => ?_)
  have hlt : t.current > x := (List.pairwise_cons.1 hpair).1 x hx
  rw [get_change h.current_lt, if_neg (by omega)]

theorem framesOf_ne_nil (h : t.WellFormed) : t.framesOf part ≠ [] := by
  unfold framesOf
  rw [chain_cons h]
  simp

/-- a scope with one more kid -/
def adopt (kid : Nat) (s : Scope) : Scope := { s with kids := s.kids.push kid }

/-- the scope that is opened is empty and stands inside the current one -/
theorem get_enter_size (t : ScopeTree) (kind : ScopeKind) :
    ((t.enter kind).get t.scopes.size).parent = some t.current ∧
      ((t.enter kind).get t.scopes.size).vars = [] ∧
      ((t.enter kind).get t.scopes.size).types = [] := by
  unfold enter get
  simp only [Array.getD_eq_getD_getElem?, Array.getElem?_push, Array.size_modify, if_true,
    Option.getD_some]
  exact ⟨rfl, rfl, rfl⟩

/-- no other scope changes, but that the current one has one more kid -/
theorem get_enter_of_ne (t : ScopeTree) (kind : ScopeKind) {x : Nat} (hx : x ≠ t.scopes.size) :
    (t.enter kind).get x = (t.change t.current (adopt t.scopes.size)).get x := by
  unfold enter change get adopt
  simp [Array.getD_eq_getD_getElem?, Array.getElem?_push, hx]

theorem WellFormed.enter (h : t.WellFormed) (kind : ScopeKind) : (t.enter kind).WellFormed := by
  refine ⟨?_, fun x p hp => ?_⟩
  · simp [ScopeTree.enter]
  · by_cases hx : x = t.scopes.size
    · rw [hx, (get_enter_size t kind).1] at hp
      cases hp
      rw [hx]
      exact h.current_lt
    · rw [get_enter_of_ne t kind hx] at hp
      exact (h.change h.current_lt (u := adopt t.scopes.size) fun _ => rfl).parent_lt x p hp

theorem chain_enter (h : t.WellFormed) (kind : ScopeKind) :
    (t.enter kind).chain = t.scopes.size :: t.chain := by
  have hnew : (t.enter kind).currentScope.parent = some t.current := (get_enter_size t kind).1
  rw [chain_cons (h.enter kind), hnew]
  refine congrArg _ (chainFrom_congr _ _ (fun x hx => ?_) h.parent_lt).symm
  have hlt : x < t.scopes.size := hx.trans_lt h.current_lt
  have hget : (t.enter kind).get x = _ := get_enter_of_ne t kind (by omega)
  change _ = ((t.enter kind).get x).parent
  rw [hget, get_change h.current_lt]
  split <;> rfl

/-- a new scope adds a frame -/
theorem framesOf_enter (h : t.WellFormed) (kind : ScopeKind)
    (hpart : ∀ kid s, part (adopt kid s) = part s) :
    (t.enter kind).framesOf part = part ((t.enter kind).get t.scopes.size) :: t.framesOf part := by
  unfold framesOf
  rw [chain_enter h kind, List.map_cons]
  refine congrArg _ (List.map_congr_left fun x hx => ?_)
  have := lt_size_of_mem_chain h hx
  rw [get_enter_of_ne t kind (by omega), get_change h.current_lt]
  split
  · rw [hpart]
  · rfl

theorem WellFormed.exit (h : t.WellFormed) : t.exit.WellFormed := by
  rw [ScopeTree.exit]
  split
  · rename_i p hpar
    exact ⟨(h.parent_lt _ _ hpar).trans h.current_lt, h.parent_lt⟩
  · exact h

/-- leaving a scope takes its frame away -/
theorem exit_spec (h : t.WellFormed) {f g : β} {fs : List β} (hf : t.framesOf part = f :: g :: fs) :
    t.exit.WellFormed ∧ ∀ {γ : Type} (q : Scope → γ), t.exit.framesOf q = (t.framesOf q).tail := by
  refine ⟨h.exit, fun q => ?_⟩
  have hchain := chain_cons h
  cases hpar : t.currentScope.parent with
  | none =>
    rw [hpar] at hchain
    rw [framesOf, hchain] at hf
    cases hf
  | some p =>
    rw [hpar] at hchain
    have hexit : t.exit = { t with current := p } := by rw [exit, hpar]
    rw [hexit]
    conv_rhs => rw [framesOf, hchain]
    rfl

end Frames

section Stack

theorem vars_enter (h : t.WellFormed) (kind : ScopeKind) : (t.enter kind).vars = [] :: t.vars := by
  rw [vars, framesOf_enter h kind fun _ _ => rfl, (get_enter_size t kind).2.1]
  rfl

theorem types_enter (h : t.WellFormed) (kind : ScopeKind) :
    (t.enter kind).types = [] :: t.types := by
  rw [types, framesOf_enter h kind fun _ _ => rfl, (get_enter_size t kind).2.2]
  rfl

theorem define_spec (h : t.WellFormed) : (t.define n v).WellFormed ∧
    (t.define n v).vars = t.vars.modifyHead (bind n v) ∧ (t.define n v).types = t.types :=
  ⟨h.change h.current_lt (u := (·.put n v)) fun _ => rfl,
    framesOf_change_current h (u := (·.put n v)) (fun _ => rfl) fun _ => rfl,
    framesOf_change_same h h.current_lt (u := (·.put n v)) (fun _ => rfl) fun _ => rfl⟩

theorem declare_spec {ty : Ty} (h : t.WellFormed) : (t.declare n ty).WellFormed ∧
    (t.declare n ty).types = t.types.modifyHead (bind n ty) ∧ (t.declare n ty).vars = t.vars :=
  ⟨h.change h.current_lt (u := (·.putTy n ty)) fun _ => rfl,
    framesOf_change_current h (u := (·.putTy n ty)) (fun _ => rfl) fun _ => rfl,
    framesOf_change_same h h.current_lt (u := (·.putTy n ty)) (fun _ => rfl) fun _ => rfl⟩

/-- the innermost binding of a name -/
theorem lookup?_eq (t : ScopeTree) (n : String) : t.lookup? n = t.vars.findSome? (·.lookup n) := by
  rw [vars, framesOf, List.findSome?_map]
  rfl

theorem ty?_eq (t : ScopeTree) (n : String) : t.ty? n = t.types.findSome? (·.lookup n) := by
  rw [types, framesOf, List.findSome?_map]
  rfl

/-- the innermost frame that binds a name rebound -/
def rebind {α : Type} (n : String) (a : α) : List (List (String × α)) → List (List (String × α))
  | [] => []
  | f :: fs => if (f.lookup n).isSome then bind n a f :: fs else f :: rebind n a fs

/-- a change of the nearest scope that binds `n`, seen by frames: `into` takes the frame of that scope to
its new one -/
theorem map_change_find {β : Type} {part : Scope → β} {u : Scope → Scope} {into : List β → List β}
    (hinto : ∀ s fs, into (part s :: fs) = if s.has n then part (u s) :: fs else part s :: into fs)
    (t : ScopeTree) {id : Nat} (ids : List Nat) (hids : ids.Pairwise (· > ·))
    (hid : ids.find? (fun x => (t.get x).has n) = some id) :
    ids.map (fun x => part (if x = id then u (t.get x) else t.get x)) =
      into (ids.map fun x => part (t.get x)) := by
  induction ids with
  | nil => cases hid
  | cons x ids ih =>
    rw [List.map_cons, List.map_cons, hinto]
    obtain ⟨hx, hids⟩ := List.pairwise_cons.1 hids
    by_cases hhas : (t.get x).has n
    · rw [List.find?_cons_of_pos (by exact hhas)] at hid
      cases hid
      rw [if_pos rfl, if_pos hhas]
      refine congrArg _ (List.map_congr_left fun y hy => ?_)
      have := hx y hy
      rw [if_neg (by omega)]
    · rw [List.find?_cons_of_neg (by exact hhas)] at hid
      have hne : x ≠ id := by
        have := hx id (List.mem_of_find?_eq_some hid)
        omega
      rw [if_neg hne, if_neg hhas, ih hids hid]

/-- assigning to a name that can be seen changes the frame that binds it -/
theorem framesOf_assign {β : Type} (part : Scope → β) (into : List β → List β) (h : t.WellFormed)
    (hn : (t.lookup? n).isSome)
    (hinto : ∀ s fs, into (part s :: fs) =
      if s.has n then part (s.put n v) :: fs else part s :: into fs) :
    (t.assign n v).WellFormed ∧ (t.assign n v).framesOf part = into (t.framesOf part) := by
  have hfound : ∃ id, t.chain.find? (fun x => (t.get x).has n) = some id := by
    rw [← Option.isSome_iff_exists, List.find?_isSome]
    rw [lookup?, List.findSome?_isSome_iff] at hn
    exact hn
  obtain ⟨id, hid⟩ := hfound
  have howner : t.owner n = id := by rw [owner, hid, Option.getD_some]
  have hlt := lt_size_of_mem_chain h (List.mem_of_find?_eq_some hid)
  rw [show t.assign n v = t.change id (·.put n v) by rw [assign, howner]; rfl]
  refine ⟨h.change hlt fun _ => rfl, ?_⟩
  rw [framesOf, chain_change h hlt (u := (·.put n v)) fun _ => rfl]
  refine Eq.trans (List.map_congr_left fun x _ => ?_)
    (map_change_find hinto t t.chain (chain_pairwise h) hid)
  rw [get_change hlt]

/-- assigning to a name that can be seen rebinds it where it is bound -/
theorem assign_spec (h : t.WellFormed) (hn : (t.lookup? n).isSome) : (t.assign n v).WellFormed ∧
    (t.assign n v).vars = rebind n v t.vars :=
  framesOf_assign Scope.vars (rebind n v) h hn fun _ _ => rfl

/-- assigning to a name that cannot be seen defines it -/
theorem assign_of_unseen (hn : t.lookup? n = none) : t.assign n v = t.define n v := by
  have hnone : t.chain.find? (fun x => (t.get x).has n) = none := by
    rw [List.find?_eq_none]
    rw [lookup?, List.findSome?_eq_none_iff] at hn
    intro x hx hhas
    rw [Scope.has, hn x hx] at hhas
    cases hhas
  rw [assign, owner, hnone, Option.getD_none]
  rfl

/-- assigning to a name that cannot be seen binds it in the innermost frame -/
theorem assign_spec_new (h : t.WellFormed) (hn : t.lookup? n = none) :
    (t.assign n v).WellFormed ∧ (t.assign n v).vars = t.vars.modifyHead (bind n v) := by
  rw [assign_of_unseen hn]
  exact ⟨(define_spec h).1, (define_spec h).2.1⟩

theorem owner_mem_chain (h : t.WellFormed) (n : String) : t.owner n ∈ t.chain := by
  rw [owner]
  cases hfind : t.chain.find? fun id => (t.get id).has n with
  | none =>
    rw [Option.getD_none, chain_cons h]
    exact List.mem_cons_self
  | some id => exact List.mem_of_find?_eq_some hfind

theorem WellFormed.assign (h : t.WellFormed) : (t.assign n v).WellFormed :=
  h.change (lt_size_of_mem_chain h (owner_mem_chain h n)) (u := (·.put n v)) fun _ => rfl

/-- a name that no outer frame binds is assigned in the innermost one -/
theorem assign_spec_head {f : List (String × Value)} {fs : List (List (String × Value))}
    (h : t.WellFormed) (hf : t.vars = f :: fs) (hn : fs.findSome? (·.lookup n) = none) :
    (t.assign n v).WellFormed ∧ (t.assign n v).vars = bind n v f :: fs := by
  have hlookup : t.lookup? n = f.lookup n := by
    rw [lookup?_eq, hf, List.findSome?_cons, hn]
    cases f.lookup n <;> rfl
  cases hbound : f.lookup n with
  | none =>
    obtain ⟨hw, hvars⟩ := assign_spec_new (v := v) h (hlookup.trans hbound)
    rw [hf] at hvars
    exact ⟨hw, hvars⟩
  | some w =>
    obtain ⟨hw, hvars⟩ := assign_spec (v := v) h (by rw [hlookup, hbound]; rfl)
    rw [hf, rebind, hbound] at hvars
    exact ⟨hw, hvars⟩

theorem findSome?_rebind {α : Type} {a : α} {fs : List (List (String × α))}
    (h : (fs.findSome? (·.lookup n)).isSome) : (rebind n a fs).findSome? (·.lookup n) = some a := by
  induction fs with
  | nil => cases h
  | cons f fs ih =>
    rw [rebind]
    cases hbound : f.lookup n with
    | none =>
      rw [List.findSome?_cons, hbound] at h
      rw [if_neg (by simp), List.findSome?_cons, hbound]
      exact ih h
    | some b => rw [if_pos (by simp), List.findSome?_cons, lookup_bind_self]

/-- a name has the value that was assigned to it -/
theorem lookup?_assign (h : t.WellFormed) : (t.assign n v).lookup? n = some v := by
  cases hlookup : t.lookup? n with
  | none =>
    obtain ⟨f, fs, hvars⟩ := List.exists_cons_of_ne_nil (show t.vars ≠ [] from framesOf_ne_nil h)
    rw [lookup?_eq, (assign_spec_new h hlookup).2, hvars, List.modifyHead_cons, List.findSome?_cons,
      lookup_bind_self]
  | some w =>
    rw [lookup?_eq, (assign_spec h (by rw [hlookup]; rfl)).2]
    exact findSome?_rebind (by rw [← lookup?_eq, hlookup]; rfl)

theorem wellFormed_empty : ScopeTree.empty.WellFormed := by
  refine ⟨by decide, fun id p hp => ?_⟩
  cases id with
  | zero => cases hp
  | succ id =>
    rw [get, Array.getD_eq_getD_getElem?, Array.getElem?_eq_none (by simp [empty])] at hp
    cases hp

end Stack

end ScopeTree

end AutoLang
