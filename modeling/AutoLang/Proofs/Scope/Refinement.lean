import AutoLang.Proofs.Scope.Stack
import Mathlib

/-! Scopes behave like a plain stack of frames. A frame of the stack is a map from names to values and
one from names to declared types, and nothing is left of a frame that was popped. Each operation does
to the frames of the chain what it does to the stack, so a name looked up in either gives the same. -/

namespace AutoLang

/-- what can be done to scopes -/
inductive ScopeOp where
  | enter (kind : ScopeKind)
  | exit
  | assign (name : String) (v : Value)
  | define (name : String) (v : Value)
  | declare (name : String) (ty : Ty)

namespace ScopeTree

def step (t : ScopeTree) : ScopeOp → ScopeTree
  | .enter kind => t.enter kind
  | .exit => t.exit
  | .assign n v => t.assign n v
  | .define n v => t.define n v
  | .declare n ty => t.declare n ty

/-- the scopes after operations in order, at first the outermost one alone -/
def run (ops : List ScopeOp) : ScopeTree := ops.foldl step empty

end ScopeTree

/-- the names of one scope -/
structure ScopeFrame where
  value : String → Option Value
  ty : String → Option Ty

namespace ScopeFrame

def empty : ScopeFrame := ⟨fun _ => none, fun _ => none⟩

def bind (f : ScopeFrame) (n : String) (v : Value) : ScopeFrame :=
  { f with value := Function.update f.value n (some v) }

def declare (f : ScopeFrame) (n : String) (ty : Ty) : ScopeFrame :=
  { f with ty := Function.update f.ty n (some ty) }

end ScopeFrame

/-- frames, the innermost first -/
abbrev ScopeStack := List ScopeFrame

namespace ScopeStack

def enter (fs : ScopeStack) : ScopeStack := .empty :: fs

/-- the last frame is never popped -/
def exit (fs : ScopeStack) : ScopeStack := if fs.length ≤ 1 then fs else fs.tail

def define (fs : ScopeStack) (n : String) (v : Value) : ScopeStack := fs.modifyHead (·.bind n v)

def declare (fs : ScopeStack) (n : String) (ty : Ty) : ScopeStack :=
  fs.modifyHead (·.declare n ty)

/-- the innermost frame that binds a name binds it anew -/
def overwrite (n : String) (v : Value) : ScopeStack → ScopeStack
  | [] => []
  | f :: fs => if (f.value n).isSome then f.bind n v :: fs else f :: overwrite n v fs

def assign (fs : ScopeStack) (n : String) (v : Value) : ScopeStack :=
  if fs.any fun f => (f.value n).isSome then overwrite n v fs else fs.define n v

def step (fs : ScopeStack) : ScopeOp → ScopeStack
  | .enter _ => fs.enter
  | .exit => fs.exit
  | .assign n v => fs.assign n v
  | .define n v => fs.define n v
  | .declare n ty => fs.declare n ty

def run (ops : List ScopeOp) : ScopeStack := ops.foldl step [.empty]

/-- the innermost value of a name -/
def value? (fs : ScopeStack) (n : String) : Option Value := fs.findSome? (·.value n)

/-- the innermost declared type of a name -/
def ty? (fs : ScopeStack) (n : String) : Option Ty := fs.findSome? (·.ty n)

end ScopeStack

/-- binding a name updates the lookup -/
theorem lookup_bind {α : Type} (n : String) (a : α) (l : List (String × α)) :
    (fun m => (bind n a l).lookup m) = Function.update (fun m => l.lookup m) n (some a) := by
  funext m
  by_cases h : m = n
  · subst h
    rw [Function.update_self, lookup_bind_self]
  · rw [Function.update_of_ne h, lookup_bind_of_ne h]

namespace Scope

/-- a scope as a frame of the stack -/
def frame (s : Scope) : ScopeFrame := ⟨s.get?, s.ty?⟩

theorem frame_put (s : Scope) (n : String) (v : Value) : (s.put n v).frame = s.frame.bind n v :=
  congrArg (ScopeFrame.mk · s.ty?) (lookup_bind n v s.vars)

theorem frame_putTy (s : Scope) (n : String) (ty : Ty) :
    (s.putTy n ty).frame = s.frame.declare n ty :=
  congrArg (ScopeFrame.mk s.get? ·) (lookup_bind n ty s.types)

end Scope

namespace ScopeTree

/-- the chain of scopes, read as frames, is the stack -/
structure Represents (t : ScopeTree) (fs : ScopeStack) : Prop where
  wellFormed : t.WellFormed
  frames : t.framesOf Scope.frame = fs

variable {t : ScopeTree} {fs : ScopeStack} {n : String} {v : Value}

theorem represents_empty : empty.Represents [.empty] := ⟨wellFormed_empty, rfl⟩

namespace Represents

theorem lookup?_eq (h : t.Represents fs) (n : String) : t.lookup? n = fs.value? n := by
  rw [← h.frames, framesOf, ScopeStack.value?, List.findSome?_map]
  rfl

theorem ty?_eq (h : t.Represents fs) (n : String) : t.ty? n = fs.ty? n := by
  rw [← h.frames, framesOf, ScopeStack.ty?, List.findSome?_map]
  rfl

theorem enter (h : t.Represents fs) (kind : ScopeKind) : (t.enter kind).Represents fs.enter := by
  refine ⟨h.wellFormed.enter kind, ?_⟩
  rw [framesOf_enter h.wellFormed kind fun _ _ => rfl, h.frames]
  obtain ⟨-, hvars, htypes⟩ := get_enter_size t kind
  have hnew : ((t.enter kind).get t.scopes.size).frame = .empty := by
    unfold Scope.frame Scope.get? Scope.ty?
    rw [hvars, htypes]
    rfl
  rw [hnew]
  rfl

theorem exit (h : t.Represents fs) : t.exit.Represents fs.exit := by
  have hchain := chain_cons h.wellFormed
  have hframes := h.frames
  rw [framesOf] at hframes
  cases hpar : t.currentScope.parent with
  | none =>
    -- the outermost scope is the whole chain
    rw [hpar] at hchain
    rw [hchain] at hframes
    subst hframes
    have hstay : t.exit = t := by rw [ScopeTree.exit, hpar]
    rw [hstay]
    exact ⟨h.wellFormed, by rw [framesOf, hchain]; rfl⟩
  | some p =>
    rw [hpar] at hchain
    have hnext := chain_cons (t := { t with current := p })
      ⟨(h.wellFormed.parent_lt _ _ hpar).trans h.wellFormed.current_lt, h.wellFormed.parent_lt⟩
    dsimp only at hchain
    rw [hchain, hnext] at hframes
    obtain ⟨hw, htail⟩ := exit_spec h.wellFormed (h.frames.trans hframes.symm)
    refine ⟨hw, ?_⟩
    rw [htail, h.frames, ScopeStack.exit, if_neg]
    rw [← hframes]
    simp

theorem define (h : t.Represents fs) : (t.define n v).Represents (fs.define n v) := by
  refine ⟨(define_spec h.wellFormed).1, ?_⟩
  rw [ScopeStack.define, ← h.frames]
  exact framesOf_change_current h.wellFormed (u := (·.put n v)) (fun _ => rfl)
    fun s => s.frame_put n v

theorem declare {ty : Ty} (h : t.Represents fs) :
    (t.declare n ty).Represents (fs.declare n ty) := by
  refine ⟨(declare_spec h.wellFormed).1, ?_⟩
  rw [ScopeStack.declare, ← h.frames]
  exact framesOf_change_current h.wellFormed (u := (·.putTy n ty)) (fun _ => rfl)
    fun s => s.frame_putTy n ty

theorem assign (h : t.Represents fs) : (t.assign n v).Represents (fs.assign n v) := by
  have hseen : (fs.any fun f => (f.value n).isSome) = (t.lookup? n).isSome := by
    rw [h.lookup?_eq, ScopeStack.value?, Bool.eq_iff_iff, List.findSome?_isSome_iff,
      List.any_eq_true]
  rw [ScopeStack.assign, hseen]
  split
  · rename_i hn
    have hframes := framesOf_assign (v := v) Scope.frame (ScopeStack.overwrite n v) h.wellFormed hn
      fun s fs => by
        rw [s.frame_put n v]
        rfl
    rw [h.frames] at hframes
    exact ⟨hframes.1, hframes.2⟩
  · rename_i hn
    rw [assign_of_unseen (by simpa using hn)]
    exact h.define

theorem step (h : t.Represents fs) (op : ScopeOp) : (t.step op).Represents (fs.step op) := by
  cases op with
  | enter kind => exact h.enter kind
  | exit => exact h.exit
  | assign n v => exact h.assign
  | define n v => exact h.define
  | declare n ty => exact h.declare

end Represents

theorem represents_foldl (ops : List ScopeOp) (h : t.Represents fs) :
    (ops.foldl ScopeTree.step t).Represents (ops.foldl ScopeStack.step fs) := by
  induction ops generalizing t fs with
  | nil => exact h
  | cons op ops ih => exact ih (h.step op)

theorem represents_run (ops : List ScopeOp) : (run ops).Represents (ScopeStack.run ops) :=
  represents_foldl ops represents_empty

end ScopeTree

/-- after any operations a name has the value and the declared type that the stack gives it -/
theorem scopes_refine_stack (ops : List ScopeOp) (name : String) :
    (ScopeTree.run ops).lookup? name = (ScopeStack.run ops).value? name ∧
      (ScopeTree.run ops).ty? name = (ScopeStack.run ops).ty? name :=
  ⟨(ScopeTree.represents_run ops).lookup?_eq name, (ScopeTree.represents_run ops).ty?_eq name⟩

end AutoLang
