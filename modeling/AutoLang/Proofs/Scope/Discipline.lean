import AutoLang.Proofs.Scope.Refinement
import Mathlib

/-! What can change when every scope that is entered is left again. The scopes that were there stay in
their place, new ones stand inside the current one, values change along the chain only and declared
types in the current scope only. One operation at a time is shown to keep to this; a run keeps to it
because it is made of such operations. -/

namespace AutoLang

namespace ScopeTree

variable {t t' t'' : ScopeTree} {W : String → Prop} {n : String} {v : Value} {a b id : Nat}

/-- operations that leave every scope they enter, and give values to the names in `W` only -/
inductive Bracketed (W : String → Prop) : ScopeTree → ScopeTree → Prop where
  | refl (t : ScopeTree) : Bracketed W t t
  | assign {t t' : ScopeTree} {n : String} (v : Value) : Bracketed W t t' → W n →
    Bracketed W t (t'.assign n v)
  | define {t t' : ScopeTree} {n : String} (v : Value) : Bracketed W t t' → W n →
    Bracketed W t (t'.define n v)
  | declare {t t' : ScopeTree} (n : String) (ty : Ty) : Bracketed W t t' →
    Bracketed W t (t'.declare n ty)
  | block {t t' t'' : ScopeTree} (kind : ScopeKind) : Bracketed W t t' →
    Bracketed W (t'.enter kind) t'' → Bracketed W t t''.exit

theorem Bracketed.trans (h : Bracketed W t t') (h' : Bracketed W t' t'') : Bracketed W t t'' := by
  induction h' with
  | refl => exact h
  | assign v _ hn ih => exact (ih h).assign v hn
  | define v _ hn ih => exact (ih h).define v hn
  | declare n ty _ ih => exact (ih h).declare n ty
  | block kind _ hin ih _ => exact (ih h).block kind hin

/-- scope `a` was opened inside scope `b`, or inside one that was -/
def Inside (t : ScopeTree) (a b : Nat) : Prop :=
  Relation.TransGen (fun x p => (t.get x).parent = some p) a b

/-- the scopes of the chain are those around the current one -/
theorem eq_or_inside_of_mem_chainFrom (fuel : Nat) :
    ∀ a, b ∈ t.chainFrom fuel a → b = a ∨ t.Inside a b := by
  induction fuel with
  | zero =>
    intro a hb
    cases hb
  | succ fuel ih =>
    intro a hb
    rw [chainFrom, List.mem_cons] at hb
    rcases hb with rfl | hb
    · exact .inl rfl
    · cases hpar : (t.get a).parent with
      | none =>
        rw [hpar] at hb
        cases hb
      | some p =>
        rw [hpar] at hb
        rcases ih p hb with rfl | hin
        · exact .inr (.single hpar)
        · exact .inr (.head hpar hin)

theorem eq_or_inside_of_mem_chain (h : b ∈ t.chain) : b = t.current ∨ t.Inside t.current b :=
  eq_or_inside_of_mem_chainFrom _ _ h

/-- scopes that keep their parents stand inside each other as before -/
theorem inside_iff (h : t.WellFormed)
    (hpar : ∀ id < t.size, (t'.get id).parent = (t.get id).parent) (ha : a < t.size) :
    t'.Inside a b ↔ t.Inside a b := by
  constructor
  · intro hin
    induction hin using Relation.TransGen.head_induction_on with
    | @single x hx => exact .single (hpar x ha ▸ hx)
    | @head x y hx _ ih =>
      have hy : (t.get x).parent = some y := hpar x ha ▸ hx
      exact .head hy (ih ((h.parent_lt x y hy).trans ha))
  · intro hin
    induction hin using Relation.TransGen.head_induction_on with
    | @single x hx => exact .single ((hpar x ha).trans hx)
    | @head x y hx _ ih =>
      exact .head ((hpar x ha).trans hx) (ih ((h.parent_lt x y hx).trans ha))

/-- the scopes that were there keep their kind, path and parent, those that were opened stand inside
`base`, values changed in `base` and around it only, and declared types in `base` only -/
structure Confined (base : Nat) (t t' : ScopeTree) : Prop where
  size : t.size ≤ t'.size
  place : ∀ id < t.size, (t'.get id).kind = (t.get id).kind ∧ (t'.get id).path = (t.get id).path ∧
    (t'.get id).parent = (t.get id).parent
  opened : ∀ id, t.size ≤ id → id < t'.size → t'.Inside id base
  vars : ∀ id < t.size, id ≠ base → ¬ t.Inside base id → (t'.get id).vars = (t.get id).vars
  types : ∀ id < t.size, id ≠ base → (t'.get id).types = (t.get id).types

namespace Confined

variable {base inner : Nat}

theorem refl (base : Nat) (t : ScopeTree) : Confined base t t where
  size := le_rfl
  place _ _ := ⟨rfl, rfl, rfl⟩
  opened _ hle hlt := absurd hle hlt.not_ge
  vars _ _ _ _ := rfl
  types _ _ _ := rfl

theorem parent (h : Confined base t t') (hid : id < t.size) :
    (t'.get id).parent = (t.get id).parent :=
  (h.place id hid).2.2

/-- changes around `base`, and then around it or around a scope that was opened in it -/
theorem trans (hw : t.WellFormed) (hw' : t'.WellFormed) (hbase : base < t.size)
    (hinner : inner = base ∨ t.size ≤ inner ∧ inner < t'.size ∧
      (t'.get inner).parent = some base)
    (h : Confined base t t') (h' : Confined inner t' t'') : Confined base t t'' where
  size := h.size.trans h'.size
  place id hid := by
    obtain ⟨hk, hp, hpar⟩ := h.place id hid
    obtain ⟨hk', hp', hpar'⟩ := h'.place id (hid.trans_le h.size)
    exact ⟨hk'.trans hk, hp'.trans hp, hpar'.trans hpar⟩
  opened id hle hlt := by
    by_cases hid : id < t'.size
    · exact (inside_iff hw' (fun _ => h'.parent) hid).2 (h.opened id hle hid)
    · have hin := h'.opened id (not_lt.1 hid) hlt
      rcases hinner with rfl | ⟨-, hlt', hpar⟩
      · exact hin
      · exact hin.tail ((h'.parent hlt').trans hpar)
  vars id hid hne hin := by
    have hsame : ¬ t'.Inside base id := by
      rw [inside_iff hw (fun _ => h.parent) hbase]
      exact hin
    rw [← h.vars id hid hne hin]
    apply h'.vars id (hid.trans_le h.size)
    · rcases hinner with rfl | ⟨hle, -, -⟩
      · exact hne
      · omega
    · rcases hinner with rfl | ⟨-, -, hpar⟩
      · exact hsame
      · intro hin'
        -- what is around the inner scope is `base` or around it
        obtain ⟨p, hp, hrest⟩ := Relation.TransGen.head'_iff.1 hin'
        rw [hpar] at hp
        cases hp
        rcases Relation.reflTransGen_iff_eq_or_transGen.1 hrest with heq | hin''
        · exact hne heq
        · exact hsame hin''
  types id hid hne := by
    rw [← h.types id hid hne]
    apply h'.types id (hid.trans_le h.size)
    rcases hinner with rfl | ⟨hle, -, -⟩
    · exact hne
    · omega

/-- which scope is current does not matter -/
theorem withCurrent (h : Confined base t t') (current : Nat) :
    Confined base t { t' with current := current } :=
  ⟨h.size, h.place, h.opened, h.vars, h.types⟩

/-- a change of one scope that stays in its place -/
theorem change {u : Scope → Scope} (hid : id < t.scopes.size)
    (hplace : ∀ s, (u s).kind = s.kind ∧ (u s).path = s.path ∧ (u s).parent = s.parent)
    (hvars : id = base ∨ t.Inside base id) (htypes : id = base ∨ ∀ s, (u s).types = s.types) :
    Confined base t (t.change id u) := by
  have hsize : (t.change id u).size = t.size := by simp [ScopeTree.change, ScopeTree.size]
  refine ⟨hsize.ge, fun x hx => ?_, fun x hle hlt => ?_, fun x hx hne hin => ?_, fun x hx hne => ?_⟩
  · rw [get_change hid]
    split
    · exact hplace _
    · exact ⟨rfl, rfl, rfl⟩
  · rw [hsize] at hlt
    exact absurd hle hlt.not_ge
  · rw [get_change hid, if_neg]
    rintro rfl
    rcases hvars with heq | hin'
    · exact hne heq
    · exact hin hin'
  · rw [get_change hid]
    split
    · rename_i hxid
      subst hxid
      rcases htypes with heq | hsame
      · exact absurd heq hne
      · exact hsame _
    · rfl

theorem define (h : t.WellFormed) : Confined t.current t (t.define n v) :=
  change h.current_lt (fun _ => ⟨rfl, rfl, rfl⟩) (.inl rfl) (.inl rfl)

theorem declare {ty : Ty} (h : t.WellFormed) : Confined t.current t (t.declare n ty) :=
  change h.current_lt (fun _ => ⟨rfl, rfl, rfl⟩) (.inl rfl) (.inl rfl)

theorem assign (h : t.WellFormed) : Confined t.current t (t.assign n v) :=
  change (lt_size_of_mem_chain h (owner_mem_chain h n)) (fun _ => ⟨rfl, rfl, rfl⟩)
    (eq_or_inside_of_mem_chain (owner_mem_chain h n)) (.inr fun _ => rfl)

theorem enter (h : t.WellFormed) (kind : ScopeKind) : Confined t.current t (t.enter kind) := by
  have hsize : (t.enter kind).size = t.size + 1 := by simp [ScopeTree.enter, ScopeTree.size]
  -- the scopes that were there change as if one of them had only got one more kid
  have hadopt : Confined t.current t (t.change t.current (adopt t.size)) :=
    change h.current_lt (fun _ => ⟨rfl, rfl, rfl⟩) (.inl rfl) (.inl rfl)
  have hold {x : Nat} (hx : x < t.size) :
      (t.enter kind).get x = (t.change t.current (adopt t.size)).get x :=
    get_enter_of_ne t kind hx.ne
  constructor
  case size => omega
  case place =>
    intro x hx
    rw [hold hx]
    exact hadopt.place x hx
  case opened =>
    intro x hle hlt
    obtain rfl : x = t.size := by omega
    exact .single (get_enter_size t kind).1
  case vars =>
    intro x hx hne hin
    rw [hold hx]
    exact hadopt.vars x hx hne hin
  case types =>
    intro x hx hne
    rw [hold hx]
    exact hadopt.types x hx hne

end Confined

/-- the current scope is the same, and changes are confined to it -/
structure Disciplined (t t' : ScopeTree) : Prop extends Confined t.current t t' where
  current : t'.current = t.current

namespace Disciplined

theorem trans (hw : t.WellFormed) (hw' : t'.WellFormed) (h : Disciplined t t')
    (h' : Disciplined t' t'') : Disciplined t t'' where
  toConfined := h.toConfined.trans hw hw' hw.current_lt (.inl h.current) h'.toConfined
  current := h'.current.trans h.current

/-- what is done between entering a scope and leaving it -/
theorem block {kind : ScopeKind} (hw : t.WellFormed) (h : Disciplined (t.enter kind) t') :
    Disciplined t t'.exit := by
  have hnew : ((t.enter kind).get (t.enter kind).current).parent = some t.current :=
    (get_enter_size t kind).1
  have hlt := (hw.enter kind).current_lt
  have hparent : t'.currentScope.parent = some t.current := by
    rw [currentScope, h.current, h.parent hlt, hnew]
  have hexit : t'.exit = { t' with current := t.current } := by rw [ScopeTree.exit, hparent]
  have hconfined : Confined t.current t t' :=
    (Confined.enter hw kind).trans hw (hw.enter kind) hw.current_lt
      (.inr ⟨le_rfl, hlt, hnew⟩) h.toConfined
  rw [hexit]
  exact ⟨hconfined.withCurrent _, rfl⟩

/-- the same scopes are around the current one -/
theorem chain_eq (hw : t.WellFormed) (h : Disciplined t t') : t'.chain = t.chain := by
  rw [chain, chain, h.current]
  refine (chainFrom_congr _ _ (fun x hx => ?_) hw.parent_lt).symm
  exact (h.parent (hx.trans_lt hw.current_lt)).symm

end Disciplined

theorem get?_change {u : Scope → Scope} (hid : id < t.scopes.size)
    (hu : ∀ s, (u s).get? n = s.get? n) {x : Nat} :
    ((t.change id u).get x).get? n = (t.get x).get? n := by
  rw [get_change hid]
  split
  · rw [hu]
  · rfl

theorem get_exit (t : ScopeTree) (x : Nat) : t.exit.get x = t.get x := by
  rw [ScopeTree.exit]
  split <;> rfl

namespace Bracketed

theorem disciplined (h : Bracketed W t t') (hw : t.WellFormed) :
    t'.WellFormed ∧ Disciplined t t' := by
  induction h with
  | refl => exact ⟨hw, .refl _ _, rfl⟩
  | assign v _ _ ih =>
    obtain ⟨hw', hd⟩ := ih hw
    exact ⟨hw'.assign, hd.trans hw hw' ⟨.assign hw', rfl⟩⟩
  | define v _ _ ih =>
    obtain ⟨hw', hd⟩ := ih hw
    exact ⟨(define_spec hw').1, hd.trans hw hw' ⟨.define hw', rfl⟩⟩
  | declare n ty _ ih =>
    obtain ⟨hw', hd⟩ := ih hw
    exact ⟨(declare_spec hw').1, hd.trans hw hw' ⟨.declare hw', rfl⟩⟩
  | block kind _ _ ih ih' =>
    obtain ⟨hw', hd⟩ := ih hw
    obtain ⟨hw'', hd'⟩ := ih' (hw'.enter kind)
    exact ⟨hw''.exit, hd.trans hw hw' (.block hw' hd')⟩

theorem wellFormed (h : Bracketed W t t') (hw : t.WellFormed) : t'.WellFormed := (h.disciplined hw).1

/-- a scope that was there keeps the values of the names that are not written -/
theorem get?_eq (h : Bracketed W t t') (hw : t.WellFormed) (hn : ¬ W n) :
    ∀ id < t.size, (t'.get id).get? n = (t.get id).get? n := by
  induction h with
  | refl => exact fun _ _ => rfl
  | @assign t t' m v hb hm ih =>
    intro id hid
    have hw' := hb.wellFormed hw
    rw [← ih hw id hid]
    refine get?_change (lt_size_of_mem_chain hw' (owner_mem_chain hw' m)) (u := (·.put m v))
      fun s => lookup_bind_of_ne ?_
    rintro rfl
    exact hn hm
  | @define t t' m v hb hm ih =>
    intro id hid
    rw [← ih hw id hid]
    refine get?_change (hb.wellFormed hw).current_lt (u := (·.put m v))
      fun s => lookup_bind_of_ne ?_
    rintro rfl
    exact hn hm
  | @declare t t' m ty hb ih =>
    intro id hid
    rw [← ih hw id hid]
    exact get?_change (hb.wellFormed hw).current_lt (u := (·.putTy m ty)) fun s => rfl
  | @block t t' t'' kind hb hin ih ih' =>
    intro id hid
    have hw' := hb.wellFormed hw
    have hid' : id < t'.size := hid.trans_le (hb.disciplined hw).2.size
    rw [← ih hw id hid]
    calc (t''.exit.get id).get? n = (t''.get id).get? n := by rw [get_exit]
      _ = ((t'.enter kind).get id).get? n :=
        ih' (hw'.enter kind) id (hid'.trans_le (Confined.enter hw' kind).size)
      _ = (t'.get id).get? n := by
        rw [get_enter_of_ne t' kind hid'.ne]
        exact get?_change hw'.current_lt (u := adopt t'.scopes.size) fun s => rfl

/-- a name that is not written keeps its value -/
theorem lookup?_eq (h : Bracketed W t t') (hw : t.WellFormed) (hn : ¬ W n) :
    t'.lookup? n = t.lookup? n := by
  have hchain := (h.disciplined hw).2.chain_eq hw
  have hmap (u : ScopeTree) :
      u.lookup? n = (u.chain.map fun id => (u.get id).get? n).findSome? id := by
    rw [List.findSome?_map]
    rfl
  rw [hmap, hmap, hchain]
  refine congrArg _ (List.map_congr_left fun id hid => ?_)
  exact h.get?_eq hw hn id (lt_size_of_mem_chain hw hid)

end Bracketed

end ScopeTree

end AutoLang
