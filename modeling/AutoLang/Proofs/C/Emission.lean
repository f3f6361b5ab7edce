import AutoLang.C.Compile
import AutoLang.Proofs.C.Fragment
import AutoLang.Proofs.Scope.Stack
import Mathlib

/-! What the compiler makes of the common part. It never fails there: every name it meets was declared
as an `int`, so every declaration is one of an `int` and every value is printed as one. -/

namespace AutoLang.C

open ScopeTree

/-- an integer expression in C -/
def inC : AutoLang.Expr → Expr
  | .literal _ v => .literal v
  | .ident _ n => .name n
  | .binary _ l op r => .binary (inC l) op (inC r)
  | _ => .literal .nil

/-- every known name was declared as an `int` -/
def Typed (c : Context) (fs : List (List (String × Ty))) : Prop :=
  ∀ n, c.knows n → fs.findSome? (·.lookup n) = some (.simple .int)

theorem ty?_of_isInt {c : Context} {t : ScopeTree} (ht : Typed c t.types) :
    (e : AutoLang.Expr) → isInt c e → e.ty? t = some (.simple .int)
  | .literal _ (.int _), _ => rfl
  | .ident _ n, h => by
    rw [Expr.ty?, ty?_eq]
    exact ht n h
  | .binary _ l op r, h => by
    simp only [isInt, Bool.and_eq_true] at h
    obtain ⟨⟨hop, hl⟩, hr⟩ := h
    have hl := ty?_of_isInt ht l hl
    have hr := ty?_of_isInt ht r hr
    cases op with
    | add | sub | mul => simp only [Expr.ty?, hl, hr]; rfl
    | _ => cases hop

section Emits

variable {α β : Type} {c c' c'' : Context} {a : α} {b : β}

/-- compiling gives `a`, and declares names in the innermost scope only -/
def Emits (c c' : Context) (work : Compile α) (a : α) : Prop :=
  ∀ t f fs, t.WellFormed → t.types = f :: fs → Typed c t.types →
    ∃ t' f', work.run.run t = (.ok a, t') ∧ t'.WellFormed ∧ t'.types = f' :: fs ∧ Typed c' t'.types

theorem Emits.pure : Emits c c (Pure.pure a) a :=
  fun t f _ hw hf ht => ⟨t, f, rfl, hw, hf, ht⟩

theorem Emits.bind {x : Compile α} {g : α → Compile β} (hx : Emits c c' x a)
    (hg : Emits c' c'' (g a) b) : Emits c c'' (x >>= g) b := by
  intro t f fs hw hf ht
  obtain ⟨t', f', hrun, hw', hf', ht'⟩ := hx t f fs hw hf ht
  obtain ⟨t'', f'', hrun', h'⟩ := hg t' f' fs hw' hf' ht'
  refine ⟨t'', f'', ?_, h'⟩
  rw [← hrun']
  change (ExceptT.bindCont g (x.run.run t).1).run (x.run.run t).2 = _
  rw [hrun]
  rfl

theorem Emits.map {x : Compile α} {g : α → β} (hx : Emits c c' x a) :
    Emits c c' (x >>= fun a => Pure.pure (g a)) (g a) :=
  hx.bind .pure

theorem Emits.get {g : ScopeTree → Compile β} (h : ∀ t, Typed c t.types → Emits c c' (g t) b) :
    Emits c c' (MonadState.get >>= g) b :=
  fun t f fs hw hf ht => h t ht t f fs hw hf ht

/-- what is declared in a scope is forgotten with it -/
theorem Emits.inScope {work : Compile α} (h : Emits c' c'' work a)
    (hc : ∀ x, c'.knows x → c.knows x) : Emits c c (Compile.inScope .block work) a := by
  intro t f fs hw hf ht
  have hw₁ := hw.enter .block
  have hf₁ := types_enter hw .block
  have ht₁ : Typed c' (t.enter .block).types := by
    intro x hx
    rw [hf₁]
    exact ht x (hc x hx)
  rw [hf] at hf₁
  obtain ⟨t', f', hrun, hw', hf', -⟩ := h (t.enter .block) [] (f :: fs) hw₁ hf₁ ht₁
  have hframes : t'.framesOf Scope.types = f' :: f :: fs := hf'
  obtain ⟨hw'', htail⟩ := exit_spec hw' hframes
  have hf'' : t'.exit.types = t.types := by
    rw [hf]
    exact (htail Scope.types).trans (congrArg List.tail hf')
  refine ⟨t'.exit, f, ?_, hw'', hf''.trans hf, hf'' ▸ ht⟩
  change ((work.run.run (t.enter .block)).1, (work.run.run (t.enter .block)).2.exit) = _
  rw [hrun]

theorem Emits.declareTy {n : String} (hc : ∀ x, c'.knows x → x = n ∨ c.knows x) :
    Emits c c' (Compile.declareTy n (.simple .int)) () := by
  intro t f fs hw hf ht
  obtain ⟨hw', hf', -⟩ : (t.declare n (.simple .int)).WellFormed ∧ _ := declare_spec hw
  rw [hf] at hf' ht
  refine ⟨_, _, rfl, hw', hf', fun x hx => ?_⟩
  rw [hf', List.modifyHead_cons, List.findSome?_cons]
  by_cases hxn : x = n
  · rw [hxn, lookup_bind_self]
  · rw [lookup_bind_of_ne hxn]
    exact ht x ((hc x hx).resolve_left hxn)

theorem Emits.expr : (e : AutoLang.Expr) → isInt c e → Emits c c (Compile.expr e) (inC e)
  | .literal _ _, _ => by
    rw [Compile.expr, inC]
    exact .pure
  | .ident _ _, _ => by
    rw [Compile.expr, inC]
    exact .pure
  | .binary _ l op r, h => by
    simp only [isInt, Bool.and_eq_true] at h
    obtain ⟨⟨hop, hl⟩, hr⟩ := h
    rw [Compile.expr, inC]
    refine (Emits.expr l hl).bind ((Emits.expr r hr).bind ?_)
    cases op with
    | add | sub | mul => exact .pure
    | _ => cases hop

theorem Emits.test : (e : AutoLang.Expr) → isTest c e → Emits c c (Compile.expr e) (inC e)
  | .binary _ l op r, h => by
    simp only [isTest, Bool.and_eq_true] at h
    obtain ⟨⟨hop, hl⟩, hr⟩ := h
    rw [Compile.expr, inC]
    refine (Emits.expr l hl).bind ((Emits.expr r hr).bind ?_)
    cases op with
    | eq | ne | lt | gt | le | ge => exact .pure
    | _ => cases hop

theorem Emits.exprs {es : List AutoLang.Expr} (h : es.all (isInt c)) :
    Emits c c (Compile.exprs es) (es.map inC) := by
  induction es with
  | nil =>
    rw [Compile.exprs]
    exact .pure
  | cons e es ih =>
    rw [List.all_cons, Bool.and_eq_true] at h
    rw [Compile.exprs]
    exact (Emits.expr e h.1).bind (ih h.2).map

/-- all that is printed are integers -/
theorem Emits.print {s s' : Span} {es : List AutoLang.Expr} (h : es.all (isInt c)) :
    Emits c c (Compile.expr (.call s (.ident s' Eval.printName) es))
      (.printf (es.map fun _ => .decimal) (es.map inC)) := by
  rw [Compile.expr]
  refine .get fun t ht => ?_
  have hconv : (es.map fun e => Conversion.ofTy? (e.ty? t)) = es.map fun _ => .decimal := by
    refine List.map_congr_left fun e he => ?_
    rw [ty?_of_isInt ht e (List.all_eq_true.1 h e he)]
    rfl
  rw [hconv]
  exact (Emits.exprs h).map

theorem Emits.store {s : Span} {n : String} {e : AutoLang.Expr} (h : isInt c e) :
    Emits c (c.declare n) (Compile.stmt (.store s n none e))
      [.declare (.simple .int) n (inC e)] := by
  rw [Compile.stmt]
  refine .get fun t ht => ?_
  rw [ty?_of_isInt ht e h]
  exact (Emits.expr e h).bind (.bind (.declareTy fun _ => Context.knows_declare) .pure)

end Emits

end AutoLang.C
