import AutoLang.Proofs.Scope.Refinement
import Mathlib

/-! The tree of scopes is written down several times: in the parent of each scope, in the kids of each,
in the paths, and in the index that finds a scope by its path. All of them describe the same tree after
any operations. That no two scopes have the same path comes from the counter: a path ends with the
number of its scope, and no number is given twice. -/

namespace AutoLang

section Bind

variable {α : Type} {n : String} {a : α} {l : List (String × α)}

/-- a name that was not bound is bound last -/
theorem keys_bind : (bind n a l).map Prod.fst =
    if n ∈ l.map Prod.fst then l.map Prod.fst else l.map Prod.fst ++ [n] := by
  induction l with
  | nil => rfl
  | cons p l ih =>
    obtain ⟨k, b⟩ := p
    rw [bind]
    by_cases hk : k = n
    · simp [hk]
    · rw [if_neg (by simpa using hk), List.map_cons, ih, List.map_cons]
      simp only [List.mem_cons, Ne.symm hk, false_or]
      split <;> rfl

theorem nodup_bind (h : (l.map Prod.fst).Nodup) : ((bind n a l).map Prod.fst).Nodup := by
  rw [keys_bind]
  split
  · exact h
  · rename_i hn
    refine List.nodup_append'.2 ⟨h, List.nodup_singleton n, ?_⟩
    exact List.disjoint_singleton.2 hn

end Bind

namespace Scope

/-- no name has two values or two types -/
structure Distinct (s : Scope) : Prop where
  vars : (s.vars.map Prod.fst).Nodup
  types : (s.types.map Prod.fst).Nodup

variable {s : Scope} {n : String}

theorem Distinct.put {v : Value} (h : s.Distinct) : (s.put n v).Distinct :=
  ⟨nodup_bind h.vars, h.types⟩

theorem Distinct.putTy {ty : Ty} (h : s.Distinct) : (s.putTy n ty).Distinct :=
  ⟨h.vars, nodup_bind h.types⟩

end Scope

section Path

/-- what a scope is called that is opened after `n` others -/
def ScopeKind.label (kind : ScopeKind) (n : Nat) : String :=
  let word := if kind == .block then "block" else "scope"
  s!"{word}_{n}"

/-- a name behind the path of the scope around it; the outermost scope adds nothing -/
def joinPath (outer name : String) : String :=
  if outer.isEmpty then name else outer ++ "." ++ name

variable {n m : Nat} {cs ds : List Char}

/-- a path ends with a number -/
theorem toList_joinPath_label (outer : String) (kind : ScopeKind) (n : Nat) :
    ∃ front, (joinPath outer (kind.label n)).toList = front ++ '_' :: Nat.toDigits 10 n := by
  have hlabel : ∃ front, (kind.label n).toList = front ++ '_' :: Nat.toDigits 10 n := by
    refine ⟨(if kind == .block then "block" else "scope").toList, ?_⟩
    simp [ScopeKind.label, Nat.toString_eq_repr]
    rfl
  obtain ⟨front, hfront⟩ := hlabel
  unfold joinPath
  split
  · exact ⟨front, hfront⟩
  · exact ⟨outer.toList ++ ['.'] ++ front, by simp [hfront]⟩

/-- the number that a path ends with is all that stands behind the last `_` -/
theorem eq_of_digits_eq (h : cs ++ '_' :: Nat.toDigits 10 n = ds ++ '_' :: Nat.toDigits 10 m) :
    n = m := by
  have hdigits (k : Nat) : ∀ c ∈ (Nat.toDigits 10 k).reverse, (c != '_') = true := by
    intro c hc
    have hdigit := Nat.isDigit_of_mem_toDigits (by decide) (by decide) (List.mem_reverse.1 hc)
    rw [bne_iff_ne]
    rintro rfl
    cases hdigit
  have hback (es : List Char) (k : Nat) :
      (es ++ '_' :: Nat.toDigits 10 k).reverse.takeWhile (· != '_') =
        (Nat.toDigits 10 k).reverse := by
    rw [List.reverse_append, List.reverse_cons, List.append_assoc,
      List.takeWhile_append_of_pos (hdigits k)]
    simp
  have hsame := hback cs n
  rw [h, hback, List.reverse_inj, ← Nat.toList_repr, ← Nat.toList_repr] at hsame
  exact (Nat.repr_inj.1 (String.toList_inj.1 hsame)).symm

end Path

namespace ScopeTree

/-- the outermost scope is number zero; every other has a parent, which was opened before it, and is
called by its number behind the path of the parent -/
structure Placed (t : ScopeTree) : Prop extends WellFormed t where
  root : ∀ id < t.size, (t.get id).parent = none ↔ id = 0
  rootPath : (t.get 0).path = ""
  path : ∀ id < t.size, ∀ p, (t.get id).parent = some p →
    (t.get id).path = joinPath (t.get p).path ((t.get id).kind.label (id - 1))

/-- all views of the tree of scopes agree -/
structure Consistent (t : ScopeTree) : Prop extends Placed t where
  counter : t.counter + 1 = t.size
  kids : ∀ id < t.size, (t.get id).kids.toList =
    (List.range t.size).filter fun kid => (t.get kid).parent == some id
  paths : ∀ a < t.size, ∀ b < t.size, (t.get a).path = (t.get b).path → a = b
  found : ∀ path id, t.find? path = some id ↔ id < t.size ∧ (t.get id).path = path
  distinct : ∀ id < t.size, (t.get id).Distinct

variable {t : ScopeTree} {n : String} {v : Value} {ty : Ty} {id : Nat}

section Placed

/-- every path but the empty one of the outermost scope ends with the number of its scope -/
theorem Placed.numbered (h : t.Placed) (hid : id < t.size) (hne : id ≠ 0) :
    ∃ front, (t.get id).path.toList = front ++ '_' :: Nat.toDigits 10 (id - 1) := by
  obtain ⟨p, hp⟩ := Option.ne_none_iff_exists'.1 (mt (h.root id hid).1 hne)
  rw [h.path id hid p hp]
  exact toList_joinPath_label _ _ _

theorem Placed.path_inj (h : t.Placed) {a b : Nat} (ha : a < t.size) (hb : b < t.size)
    (hab : (t.get a).path = (t.get b).path) : a = b := by
  have hroot {c : Nat} (hc : c < t.size) (hempty : (t.get c).path = "") : c = 0 := by
    by_contra hne
    obtain ⟨front, hfront⟩ := h.numbered hc hne
    simp [hempty] at hfront
  by_cases hza : a = 0
  · subst hza
    exact (hroot hb (hab.symm.trans h.rootPath)).symm
  by_cases hzb : b = 0
  · subst hzb
    exact hroot ha (hab.trans h.rootPath)
  obtain ⟨front, hfront⟩ := h.numbered ha hza
  obtain ⟨front', hfront'⟩ := h.numbered hb hzb
  have := eq_of_digits_eq (hfront.symm.trans ((congrArg String.toList hab).trans hfront'))
  omega

end Placed

section Change

variable {u : Scope → Scope}

/-- a change of one scope that stays in its place and gives no name twice -/
theorem Consistent.change (h : t.Consistent) (hid : id < t.scopes.size)
    (hu : ∀ s, (u s).kind = s.kind ∧ (u s).path = s.path ∧ (u s).parent = s.parent ∧
      (u s).kids = s.kids) (hd : ∀ s : Scope, s.Distinct → (u s).Distinct) :
    (t.change id u).Consistent := by
  have hsize : (t.change id u).size = t.size := by simp [ScopeTree.change, ScopeTree.size]
  have hkeep {β : Type} (part : Scope → β) (hpart : ∀ s, part (u s) = part s) (x : Nat) :
      part ((t.change id u).get x) = part (t.get x) := by
    rw [get_change hid]
    split
    · exact hpart _
    · rfl
  have hkind := hkeep Scope.kind fun s => (hu s).1
  have hpath := hkeep Scope.path fun s => (hu s).2.1
  have hparent := hkeep Scope.parent fun s => (hu s).2.2.1
  have hkids := hkeep Scope.kids fun s => (hu s).2.2.2
  have hplaced : (t.change id u).Placed := by
    constructor
    case toWellFormed => exact h.toWellFormed.change hid fun s => (hu s).2.2.1
    case root => simpa only [hsize, hparent] using h.root
    case rootPath => simpa only [hpath] using h.rootPath
    case path => simpa only [hsize, hparent, hpath, hkind] using h.path
  constructor
  case toPlaced => exact hplaced
  case counter => exact h.counter.trans hsize.symm
  case kids => simpa only [hsize, hparent, hkids] using h.kids
  case paths => simpa only [hsize, hpath] using h.paths
  case found =>
    intro path x
    rw [hsize, hpath]
    exact h.found path x
  case distinct =>
    intro x hx
    rw [hsize] at hx
    rw [get_change hid]
    split
    · exact hd _ (h.distinct x hx)
    · exact h.distinct x hx

theorem Consistent.define (h : t.Consistent) : (t.define n v).Consistent :=
  h.change (u := (·.put n v)) h.current_lt (fun _ => ⟨rfl, rfl, rfl, rfl⟩) fun _ hs => hs.put

theorem Consistent.declare (h : t.Consistent) : (t.declare n ty).Consistent :=
  h.change (u := (·.putTy n ty)) h.current_lt (fun _ => ⟨rfl, rfl, rfl, rfl⟩) fun _ hs => hs.putTy

theorem Consistent.assign (h : t.Consistent) : (t.assign n v).Consistent :=
  h.change (u := (·.put n v)) (lt_size_of_mem_chain h.toWellFormed (owner_mem_chain h.toWellFormed n))
    (fun _ => ⟨rfl, rfl, rfl, rfl⟩) fun _ hs => hs.put

end Change

section Enter

variable {kind : ScopeKind} {x : Nat}

/-- the scope that is opened -/
theorem get_enter_self (t : ScopeTree) (kind : ScopeKind) : (t.enter kind).get t.size =
    .empty kind (t.pathOf (kind.label t.counter)) (some t.current) := by
  unfold enter get size
  simp only [Array.getD_eq_getD_getElem?, Array.getElem?_push, Array.size_modify, if_true,
    Option.getD_some]
  rfl

theorem size_enter (t : ScopeTree) (kind : ScopeKind) : (t.enter kind).size = t.size + 1 := by
  simp [enter, size]

/-- the scopes that were there only change if one of them gets a kid -/
theorem get_enter_of_lt (h : t.WellFormed) (hx : x < t.size) (kind : ScopeKind) :
    (t.enter kind).get x = if x = t.current then adopt t.size (t.get x) else t.get x := by
  rw [get_enter_of_ne t kind hx.ne, get_change h.current_lt]
  rfl

/-- a part of a scope that a new kid does not change -/
theorem part_enter {β : Type} (part : Scope → β) (hpart : ∀ kid s, part (adopt kid s) = part s)
    (h : t.WellFormed) (hx : x < t.size) (kind : ScopeKind) :
    part ((t.enter kind).get x) = part (t.get x) := by
  rw [get_enter_of_lt h hx]
  split
  · exact hpart _ _
  · rfl

theorem Placed.enter (h : t.Placed) (hcounter : t.counter + 1 = t.size) (kind : ScopeKind) :
    (t.enter kind).Placed := by
  have hw := h.toWellFormed
  have hparent {x : Nat} (hx : x < t.size) := part_enter Scope.parent (fun _ _ => rfl) hw hx kind
  have hpath {x : Nat} (hx : x < t.size) := part_enter Scope.path (fun _ _ => rfl) hw hx kind
  have hkind {x : Nat} (hx : x < t.size) := part_enter Scope.kind (fun _ _ => rfl) hw hx kind
  have hpos : 0 < t.size := by omega
  constructor
  case toWellFormed => exact hw.enter kind
  case root =>
    intro x hx
    rw [size_enter] at hx
    rcases Nat.lt_succ_iff_lt_or_eq.1 hx with hx | rfl
    · rw [hparent hx]
      exact h.root x hx
    · rw [get_enter_self]
      exact iff_of_false nofun hpos.ne'
  case rootPath => rw [hpath hpos, h.rootPath]
  case path =>
    intro x hx p hp
    rw [size_enter] at hx
    rcases Nat.lt_succ_iff_lt_or_eq.1 hx with hx | rfl
    · rw [hparent hx] at hp
      rw [hpath hx, hpath ((h.parent_lt x p hp).trans hx), hkind hx]
      exact h.path x hx p hp
    · rw [get_enter_self] at hp ⊢
      obtain rfl := Option.some.inj hp
      rw [hpath h.current_lt, show t.size - 1 = t.counter by omega]
      rfl

theorem find?_enter (t : ScopeTree) (kind : ScopeKind) (path : String) :
    (t.enter kind).find? path =
      if path = t.pathOf (kind.label t.counter) then some t.size else t.find? path := by
  change List.lookup path ((t.pathOf (kind.label t.counter), t.size) :: t.index) = _
  rw [List.lookup_cons]
  by_cases hp : path = t.pathOf (kind.label t.counter)
  · simp [hp]
  · rw [if_neg hp, beq_eq_false_iff_ne.2 hp]
    rfl

/-- the index finds the new scope by its path, and the others by theirs -/
theorem Consistent.found_enter (h : t.Consistent) (kind : ScopeKind) (path : String) (x : Nat) :
    (t.enter kind).find? path = some x ↔
      x < (t.enter kind).size ∧ ((t.enter kind).get x).path = path := by
  have hpath {x : Nat} (hx : x < t.size) :=
    part_enter Scope.path (fun _ _ => rfl) h.toWellFormed hx kind
  have hnew : ((t.enter kind).get t.size).path = t.pathOf (kind.label t.counter) := by
    rw [get_enter_self]
    rfl
  have hsize := size_enter t kind
  rw [find?_enter, hsize]
  split
  · rename_i hp
    constructor
    · rintro ⟨⟩
      exact ⟨Nat.lt_succ_self _, hnew.trans hp.symm⟩
    · rintro ⟨hx, hxp⟩
      have hlt : t.size < (t.enter kind).size := by omega
      have hplaced := h.toPlaced.enter h.counter kind
      rw [hplaced.path_inj (hsize ▸ hx) hlt (hxp.trans (hp.trans hnew.symm))]
  · rename_i hp
    rw [h.found]
    constructor
    · rintro ⟨hx, hxp⟩
      exact ⟨hx.trans (Nat.lt_succ_self _), (hpath hx).trans hxp⟩
    · rintro ⟨hx, hxp⟩
      rcases Nat.lt_succ_iff_lt_or_eq.1 hx with hx | rfl
      · exact ⟨hx, (hpath hx).symm.trans hxp⟩
      · exact absurd (hxp.symm.trans hnew) hp

/-- the new scope is the last kid of the one it was opened in, and has none itself -/
theorem Consistent.kids_enter (h : t.Consistent) (kind : ScopeKind) (hx : x < (t.enter kind).size) :
    ((t.enter kind).get x).kids.toList = (List.range (t.enter kind).size).filter
      fun kid => ((t.enter kind).get kid).parent == some x := by
  have hw := h.toWellFormed
  have hold : (List.range t.size).filter (fun kid => ((t.enter kind).get kid).parent == some x) =
      (List.range t.size).filter fun kid => (t.get kid).parent == some x :=
    List.filter_congr fun kid hkid => by
      rw [part_enter Scope.parent (fun _ _ => rfl) hw (List.mem_range.1 hkid)]
  rw [size_enter] at hx
  rw [size_enter, List.range_succ, List.filter_append, hold, List.filter_cons, List.filter_nil,
    get_enter_self]
  rcases Nat.lt_succ_iff_lt_or_eq.1 hx with hx | rfl
  · rw [get_enter_of_lt hw hx]
    by_cases hcurrent : x = t.current
    · simp [hcurrent, adopt, Scope.empty, h.kids t.current h.current_lt]
    · simp [hcurrent, Ne.symm hcurrent, Scope.empty, h.kids x hx]
  · have hnone : (List.range t.size).filter (fun kid => (t.get kid).parent == some t.size) = [] := by
      refine List.filter_eq_nil_iff.2 fun kid hkid hp => ?_
      have := h.parent_lt kid t.size (beq_iff_eq.1 hp)
      have := List.mem_range.1 hkid
      omega
    have hlt : t.current < t.size := h.current_lt
    rw [get_enter_self, hnone]
    simp [Scope.empty, hlt.ne]

theorem Consistent.enter (h : t.Consistent) (kind : ScopeKind) : (t.enter kind).Consistent := by
  have hplaced := h.toPlaced.enter h.counter kind
  constructor
  case toPlaced => exact hplaced
  case counter =>
    rw [size_enter, ← h.counter]
    rfl
  case kids => exact fun x hx => h.kids_enter kind hx
  case paths => exact fun a ha b hb hab => hplaced.path_inj ha hb hab
  case found => exact h.found_enter kind
  case distinct =>
    intro x hx
    rw [size_enter] at hx
    rcases Nat.lt_succ_iff_lt_or_eq.1 hx with hx | rfl
    · rw [get_enter_of_lt h.toWellFormed hx]
      split
      · exact ⟨(h.distinct x hx).vars, (h.distinct x hx).types⟩
      · exact h.distinct x hx
    · rw [get_enter_self]
      exact ⟨.nil, .nil⟩

end Enter

/-- only which scope is current changes -/
theorem Consistent.exit (h : t.Consistent) : t.exit.Consistent := by
  rw [ScopeTree.exit]
  split
  · rename_i p hp
    have hlt : p < t.scopes.size := (h.parent_lt _ _ hp).trans h.current_lt
    exact { h with current_lt := hlt }
  · exact h

theorem consistent_empty : empty.Consistent := by
  have hone {id : Nat} (hid : id < empty.size) : id = 0 := Nat.lt_one_iff.1 hid
  have hplaced : empty.Placed := by
    constructor
    case toWellFormed => exact wellFormed_empty
    case root =>
      intro id hid
      obtain rfl := hone hid
      exact iff_of_true rfl rfl
    case rootPath => rfl
    case path =>
      intro id hid p hp
      obtain rfl := hone hid
      cases hp
  constructor
  case toPlaced => exact hplaced
  case counter => rfl
  case kids =>
    intro id hid
    obtain rfl := hone hid
    rfl
  case paths => exact fun a ha b hb _ => (hone ha).trans (hone hb).symm
  case found =>
    intro path id
    change List.lookup path [("", 0)] = some id ↔ id < 1 ∧ (empty.get id).path = path
    rw [List.lookup_cons, List.lookup_nil]
    by_cases hp : path = ""
    · subst hp
      constructor
      · rintro ⟨⟩
        exact ⟨Nat.one_pos, rfl⟩
      · rintro ⟨hid, -⟩
        rw [Nat.lt_one_iff.1 hid]
        rfl
    · rw [beq_eq_false_iff_ne.2 hp]
      refine iff_of_false nofun ?_
      rintro ⟨hid, hpath⟩
      rw [Nat.lt_one_iff.1 hid] at hpath
      exact hp hpath.symm
  case distinct =>
    intro id hid
    obtain rfl := hone hid
    exact ⟨.nil, .nil⟩

theorem Consistent.step (h : t.Consistent) (op : ScopeOp) : (t.step op).Consistent := by
  cases op with
  | enter kind => exact h.enter kind
  | exit => exact h.exit
  | assign n v => exact h.assign
  | define n v => exact h.define
  | declare n ty => exact h.declare

theorem consistent_foldl (ops : List ScopeOp) (h : t.Consistent) :
    (ops.foldl ScopeTree.step t).Consistent := by
  induction ops generalizing t with
  | nil => exact h
  | cons op ops ih => exact ih (h.step op)

end ScopeTree

/-- After any operations all views of the tree of scopes agree. -/
theorem scopes_consistent (ops : List ScopeOp) : (ScopeTree.run ops).Consistent :=
  ScopeTree.consistent_foldl ops ScopeTree.consistent_empty

/-- the counter goes on after a scope was left -/
example : ((ScopeTree.run [.enter .block, .exit, .enter .function]).find? "scope_1",
    (ScopeTree.run [.enter .block, .exit, .enter .function]).find? "scope_0") = (some 2, none) := by
  decide

end AutoLang
