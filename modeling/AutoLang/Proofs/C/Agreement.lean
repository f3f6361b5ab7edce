import AutoLang.Proofs.C.Emission
import AutoLang.Proofs.C.Semantics
import Mathlib

/-! When the memory of a C program and the state of a run are alike: block by block they hold the same
integers. The variables that must keep their values have those of an earlier memory, `kept`. An
overflow in C is a way out of every statement here. -/

namespace AutoLang.C

open ScopeTree (rebind)

section Reaches

variable {α β : Type} {P : α → Prop} {Q : β → Prop} {r : Except Fault α} {f : α → Except Fault β}

/-- a C run overflows, or it ends well -/
def Reaches (r : Except Fault α) (P : α → Prop) : Prop :=
  r = .error .overflow ∨ ∃ a, r = .ok a ∧ P a

theorem Reaches.ok {a : α} (h : P a) : Reaches (.ok a) P := .inr ⟨a, rfl, h⟩

theorem Reaches.overflow : Reaches (.error .overflow) P := .inl rfl

theorem Reaches.bind (hr : Reaches r P) (hf : ∀ a, P a → Reaches (f a) Q) : Reaches (r >>= f) Q := by
  rcases hr with rfl | ⟨a, rfl, ha⟩
  · exact .overflow
  · exact hf a ha

theorem Reaches.mono {P' : α → Prop} (hr : Reaches r P) (h : ∀ a, P a → P' a) : Reaches r P' := by
  rcases hr with hr | ⟨a, hr, ha⟩
  · exact .inl hr
  · exact .inr ⟨a, hr, h a ha⟩

end Reaches

/-- a block, its kept values, and the frames of its variables in C and in a run -/
def SameBlock (b : Block) (kept f : Frame) (e : List (String × Value)) : Prop :=
  ∀ n, match b.lookup n with
    | none => kept.lookup n = none ∧ f.lookup n = none ∧ e.lookup n = none
    | some fixed => ∃ v, f.lookup n = some (some v) ∧ e.lookup n = some (.int v) ∧
      (fixed → kept.lookup n = some (some v))

/-- a body without braces has a frame in C only, and nothing in it -/
inductive SameBlocks :
    Context → (kept fs : List Frame) → (es : List (List (String × Value))) → Prop where
  | nil : SameBlocks [] [] [] []
  | block {b kept f e c ks fs es} (hb : SameBlock b kept f e) (hc : SameBlocks c ks fs es) :
    SameBlocks (some b :: c) (kept :: ks) (f :: fs) (e :: es)
  | bare {c ks fs es} (hc : SameBlocks c ks fs es) :
    SameBlocks (none :: c) ([] :: ks) ([] :: fs) es

namespace SameBlock

variable {b : Block} {kept f f' : Frame} {e e' : List (String × Value)} {n : String} {v : Int32}

theorem empty : SameBlock [] [] [] [] := fun _ => ⟨rfl, rfl, rfl⟩

theorem of_none (h : SameBlock b kept f e) (hn : b.lookup n = none) :
    kept.lookup n = none ∧ f.lookup n = none ∧ e.lookup n = none := by
  have := h n
  rwa [hn] at this

theorem of_some (h : SameBlock b kept f e) {fixed : Bool} (hn : b.lookup n = some fixed) :
    ∃ v, f.lookup n = some (some v) ∧ e.lookup n = some (.int v) ∧
      (fixed → kept.lookup n = some (some v)) := by
  have := h n
  rwa [hn] at this

theorem write (h : SameBlock b kept f e) (hn : b.lookup n = some false) :
    SameBlock b kept (bind n (some v) f) (bind n (.int v) e) := by
  intro x
  by_cases hx : x = n
  · rw [hx, hn]
    exact ⟨v, lookup_bind_self, lookup_bind_self, nofun⟩
  · rw [lookup_bind_of_ne hx, lookup_bind_of_ne hx]
    exact h x

theorem declare (h : SameBlock b kept f e) :
    SameBlock ((n, false) :: b) kept (bind n (some v) (bind n none f)) (bind n (.int v) e) := by
  intro x
  by_cases hx : x = n
  · rw [hx, List.lookup_cons_self]
    exact ⟨v, lookup_bind_self, lookup_bind_self, nofun⟩
  · rw [lookup_bind_of_ne hx, lookup_bind_of_ne hx, lookup_bind_of_ne hx, List.lookup_cons,
      beq_eq_false_iff_ne.2 hx]
    exact h x

/-- more variables keep the values they have now -/
theorem fix (h : SameBlock b kept f e) (ns : List String) :
    SameBlock (b.map fun (n, fixed) => (n, fixed || ns.contains n)) f f e := by
  intro x
  rw [Context.lookup_fixed]
  cases hb : b.lookup x with
  | none =>
    obtain ⟨-, hf, he⟩ := h.of_none hb
    exact ⟨hf, hf, he⟩
  | some fixed =>
    obtain ⟨v, hf, he, -⟩ := h.of_some hb
    exact ⟨v, hf, he, fun _ => hf⟩

theorem unfix {ns : List String} (h : SameBlock b kept f e)
    (h' : SameBlock (b.map fun (n, fixed) => (n, fixed || ns.contains n)) f f' e') :
    SameBlock b kept f' e' := by
  intro x
  cases hb : b.lookup x with
  | none =>
    obtain ⟨hk, -⟩ := h.of_none hb
    obtain ⟨-, h'⟩ := h'.of_none (n := x) (by rw [Context.lookup_fixed, hb, Option.map_none])
    exact ⟨hk, h'⟩
  | some fixed =>
    obtain ⟨v, hf, -, hk⟩ := h.of_some hb
    obtain ⟨v', hf', he', hk'⟩ :=
      h'.of_some (n := x) (by rw [Context.lookup_fixed, hb, Option.map_some])
    refine ⟨v', hf', he', fun hfixed => ?_⟩
    -- what was kept before was kept again
    have hv : some (some v) = some (some v') := hf.symm.trans (hk' (by rw [hfixed]; rfl))
    rw [← hv]
    exact hk hfixed

end SameBlock

namespace SameBlocks

variable {c : Context} {ks fs fs' : List Frame} {es es' : List (List (String × Value))} {n : String}
  {v : Int32}

theorem find?_none (h : SameBlocks c ks fs es) (hn : c.find? n = none) :
    fs.findSome? (·.lookup n) = none ∧ es.findSome? (·.lookup n) = none := by
  induction h with
  | nil => exact ⟨rfl, rfl⟩
  | bare _ ih => exact ih hn
  | @block b _ f e c _ fs es hb _ ih =>
    rw [Context.find?, List.findSome?_cons, Option.bind_some] at hn
    cases hbn : b.lookup n with
    | some fixed => rw [hbn] at hn; cases hn
    | none =>
      rw [hbn] at hn
      obtain ⟨-, hf, he⟩ := hb.of_none hbn
      rw [List.findSome?_cons, List.findSome?_cons, hf, he]
      exact ih hn

/-- a known variable has the same value in both, and the kept one if it must keep it -/
theorem find?_some {fixed : Bool} (h : SameBlocks c ks fs es) (hn : c.find? n = some fixed) :
    ∃ v, fs.findSome? (·.lookup n) = some (some v) ∧ es.findSome? (·.lookup n) = some (.int v) ∧
      (fixed → ks.findSome? (·.lookup n) = some (some v)) := by
  induction h with
  | nil => cases hn
  | bare _ ih => exact ih hn
  | @block b kept f e c ks fs es hb _ ih =>
    rw [Context.find?, List.findSome?_cons, Option.bind_some] at hn
    cases hbn : b.lookup n with
    | none =>
      rw [hbn] at hn
      obtain ⟨hk, hf, he⟩ := hb.of_none hbn
      rw [List.findSome?_cons, List.findSome?_cons, List.findSome?_cons, hf, he, hk]
      exact ih hn
    | some _ =>
      rw [hbn] at hn
      cases hn
      obtain ⟨v, hf, he, hk⟩ := hb.of_some hbn
      refine ⟨v, ?_, ?_, fun hfixed => ?_⟩
      · rw [List.findSome?_cons, hf]
      · rw [List.findSome?_cons, he]
      · rw [List.findSome?_cons, hk hfixed]

/-- assigning where both find the variable -/
theorem write (h : SameBlocks c ks fs es) (hn : c.find? n = some false) :
    SameBlocks c ks (Memory.setIn n v fs) (rebind n (.int v) es) := by
  induction h with
  | nil => cases hn
  | bare hc ih => exact .bare (ih hn)
  | @block b kept f e c ks fs es hb hc ih =>
    rw [Context.find?, List.findSome?_cons, Option.bind_some] at hn
    rw [Memory.setIn, rebind]
    cases hbn : b.lookup n with
    | none =>
      rw [hbn] at hn
      obtain ⟨-, hf, he⟩ := hb.of_none hbn
      rw [hf, he]
      exact .block hb (ih hn)
    | some _ =>
      rw [hbn] at hn
      cases hn
      obtain ⟨w, hf, he, -⟩ := hb.of_some hbn
      rw [hf, he]
      exact .block (hb.write hbn) hc

theorem fix (h : SameBlocks c ks fs es) (ns : List String) : SameBlocks (c.fix ns) fs fs es := by
  induction h generalizing ns with
  | nil => exact .nil
  | bare _ ih => exact .bare (ih ns)
  | block hb _ ih => exact .block (hb.fix ns) (ih _)

/-- once a loop is over, only what had to be kept before it must be kept -/
theorem unfix {ns : List String} (h : SameBlocks c ks fs es)
    (h' : SameBlocks (c.fix ns) fs fs' es') : SameBlocks c ks fs' es' := by
  induction h generalizing ns fs' es' with
  | nil => cases h'; exact .nil
  | bare _ ih => cases h' with | bare h' => exact .bare (ih h')
  | block hb _ ih => cases h' with | block hb' h' => exact .block (hb.unfix hb') (ih h')

end SameBlocks

/-- the memory of a C program and the state of a run at the same point -/
structure Alike (c : Context) (kept : List Frame) (m : Memory) (s : EvalState) : Prop where
  blocks : SameBlocks c kept m.frames s.scopes.vars
  wellFormed : s.scopes.WellFormed
  output : m.output = s.output
  stays : s.leaving = false

section Values

variable {c : Context} {kept : List Frame} {m m' : Memory} {s : EvalState}

theorem run_bind_of {α β : Type} {x : Eval α} {f : α → Eval β} {a : α} {s' : EvalState}
    (h : x.run s = (a, s')) : (x >>= f).run s = (f a).run s' := by
  change (f (x.run s).1).run (x.run s).2 = _
  rw [h]

/-- an expression only reads its names -/
theorem value_congr : (e : AutoLang.Expr) → (∀ n ∈ names e, m.find? n = m'.find? n) →
    value m (inC e) = value m' (inC e)
  | .ident _ n, h => by
    rw [inC, value, value, Memory.read, Memory.read, h n (List.mem_singleton_self n)]
  | .binary _ l op r, h => by
    rw [inC, value, value, value_congr l fun n hn => h n (List.mem_append_left _ hn),
      value_congr r fun n hn => h n (List.mem_append_right _ hn)]
  | .literal _ v, _ => by cases v <;> rfl
  | .ref _ _, _ | .unary _ _ _, _ | .range _ _ _ _, _ | .array _ _, _ | .pair _ _, _
  | .object _ _, _ | .block _ _, _ | .format _ _, _ | .call _ _ _, _ | .index _ _ _, _
  | .cond _ _ _ _, _ => rfl

theorem toInt_reaches {n : Int} {v : Int32} (h : Int32.ofInt n = v) : Reaches (toInt n) (· = v) := by
  rw [toInt]
  split
  · exact .ok h
  · exact .overflow

theorem arithmetic_reaches {op : BinaryOp} (hop : isArithmetic op) (a b : Int32) :
    Reaches (arithmetic op a b) fun v => op.apply (.int a) (.int b) = .int v := by
  cases op with
  | add =>
    refine (toInt_reaches (v := a + b) ?_).mono fun v hv => hv ▸ rfl
    rw [Int32.ofInt_add, Int32.ofInt_toInt, Int32.ofInt_toInt]
  | sub =>
    refine (toInt_reaches (v := a - b) ?_).mono fun v hv => hv ▸ rfl
    rw [Int32.ofInt_sub, Int32.ofInt_toInt, Int32.ofInt_toInt]
  | mul =>
    refine (toInt_reaches (v := a * b) ?_).mono fun v hv => hv ▸ rfl
    rw [Int32.ofInt_mul, Int32.ofInt_toInt, Int32.ofInt_toInt]
  | _ => cases hop

theorem ofBool_ne_zero (t : Bool) : (ofBool t != 0) = t := by
  cases t <;> decide

theorem comparison_reaches {op : BinaryOp} (hop : isComparison op) (a b : Int32) :
    Reaches (arithmetic op a b) fun v => op.apply (.int a) (.int b) = .bool (v != 0) := by
  have hb : ∀ t, op.apply (.int a) (.int b) = .bool t → arithmetic op a b = .ok (ofBool t) →
      Reaches (arithmetic op a b) fun v => op.apply (.int a) (.int b) = .bool (v != 0) := by
    intro t ht ha
    rw [ha]
    exact .ok (by rw [ht, ofBool_ne_zero])
  cases op with
  | eq | ne | lt | gt | le | ge => exact hb _ rfl rfl
  | _ => cases hop

/-- an operator that is no assignment is applied to the values of its operands -/
theorem run_binary {l r : AutoLang.Expr} {op : BinaryOp} {sp : Span} {a b : Value}
    (hop : isArithmetic op ∨ isComparison op) (hl : (Eval.expr l).run s = (a, s))
    (hr : (Eval.expr r).run s = (b, s)) :
    (Eval.expr (.binary sp l op r)).run s = (op.apply a b, s) := by
  have hrun : (do
      let a ← Eval.expr l
      let b ← Eval.expr r
      return op.apply a b : Eval Value).run s = (op.apply a b, s) := by
    rw [run_bind_of hl, run_bind_of hr]
    rfl
  cases op with
  | add | sub | mul | eq | ne | lt | gt | le | ge =>
    rw [Eval.expr]
    exacts [hrun, nofun, nofun]
  | _ => rcases hop with hop | hop <;> cases hop

theorem Alike.value (h : Alike c kept m s) : (e : AutoLang.Expr) → isInt c e →
    Reaches (value m (inC e)) fun v => (Eval.expr e).run s = (.int v, s)
  | .literal _ (.int v), _ => by
    rw [inC, C.value]
    split
    · exact .overflow
    · exact .ok rfl
  | .ident _ n, hn => by
    obtain ⟨fixed, hn⟩ := Option.isSome_iff_exists.1 hn
    obtain ⟨v, hv, hv', -⟩ := h.blocks.find?_some hn
    rw [inC, C.value, Memory.read, Memory.find?, hv]
    refine .ok ?_
    rw [Eval.expr]
    change ((s.scopes.lookup? n).getD .nil, s) = _
    rw [ScopeTree.lookup?_eq, hv']
    rfl
  | .binary _ l op r, hlr => by
    simp only [isInt, Bool.and_eq_true] at hlr
    obtain ⟨⟨hop, hl⟩, hr⟩ := hlr
    rw [inC, C.value]
    refine (h.value l hl).bind fun a ha => (h.value r hr).bind fun b hb => ?_
    refine (arithmetic_reaches hop a b).mono fun v hv => ?_
    rw [run_binary (.inl hop) ha hb, hv]

theorem Alike.test (h : Alike c kept m s) : (e : AutoLang.Expr) → isTest c e →
    Reaches (C.value m (inC e)) fun v => (Eval.expr e).run s = (.bool (v != 0), s)
  | .binary _ l op r, hlr => by
    simp only [isTest, Bool.and_eq_true] at hlr
    obtain ⟨⟨hop, hl⟩, hr⟩ := hlr
    rw [inC, C.value]
    refine (h.value l hl).bind fun a ha => (h.value r hr).bind fun b hb => ?_
    refine (comparison_reaches hop a b).mono fun v hv => ?_
    rw [run_binary (.inr hop) ha hb, hv]

theorem Alike.values (h : Alike c kept m s) {es : List AutoLang.Expr} (hes : es.all (isInt c)) :
    Reaches (C.values m (es.map inC)) fun vs =>
      (Eval.exprs es).run s = (vs.map .int, s) ∧ vs.length = es.length := by
  induction es with
  | nil => exact .ok ⟨by rw [Eval.exprs]; rfl, rfl⟩
  | cons e es ih =>
    rw [List.all_cons, Bool.and_eq_true] at hes
    rw [List.map_cons, C.values]
    refine (h.value e hes.1).bind fun v hv => (ih hes.2).bind fun vs ⟨hvs, hlen⟩ => .ok ⟨?_, ?_⟩
    · rw [Eval.exprs, run_bind_of hv, run_bind_of hvs]
      rfl
    · rw [List.length_cons, List.length_cons, hlen]

theorem run_print {sp sp' : Span} {es : List AutoLang.Expr} {vs : List Value}
    (hprint : s.scopes.lookup? Eval.printName = none) (hvs : (Eval.exprs es).run s = (vs, s)) :
    ((Eval.expr (.call sp (.ident sp' Eval.printName) es)).run s).2 =
      { s with output := s.output ++ " ".intercalate (vs.map (·.shown)) ++ "\n" } := by
  have hlookup : (Eval.lookup? Eval.printName).run s = (none, s) := by
    rw [← hprint]
    rfl
  have hcallee : (Eval.expr (.ident sp' Eval.printName)).run s = (.nil, s) := by
    rw [Eval.expr, run_bind_of hlookup]
    rfl
  rw [Eval.expr, run_bind_of hlookup, run_bind_of hcallee, run_bind_of hvs]
  rfl

/-- `print` and `printf` write the same line -/
theorem Alike.print (h : Alike c kept m s) {sp sp' : Span} {es : List AutoLang.Expr}
    (hprint : c.knows Eval.printName = false) (hes : es.all (isInt c)) :
    Reaches (do
      let vs ← C.values m (es.map inC)
      let text ← formatted (es.map fun _ => .decimal) vs
      return m.print text) fun m' =>
      Alike c kept m' ((Eval.expr (.call sp (.ident sp' Eval.printName) es)).run s).2 := by
  refine (h.values hes).bind fun vs ⟨hvs, hlen⟩ => ?_
  have hconv : (es.map fun _ => Conversion.decimal) = vs.map fun _ => .decimal := by
    rw [List.map_const', List.map_const', hlen]
  rw [formatted, if_pos hconv]
  refine .ok ?_
  have hnone : s.scopes.lookup? Eval.printName = none := by
    rw [ScopeTree.lookup?_eq]
    rw [Context.knows, Option.isSome_eq_false_iff, Option.isNone_iff_eq_none] at hprint
    exact (h.blocks.find?_none hprint).2
  rw [run_print hnone hvs]
  refine ⟨h.blocks, h.wellFormed, ?_, h.stays⟩
  change m.output ++ (_ ++ "\n") = s.output ++ _ ++ "\n"
  rw [h.output, String.append_assoc, List.map_map]
  rfl

end Values

end AutoLang.C
