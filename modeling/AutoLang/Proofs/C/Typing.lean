import AutoLang.C.Ty
import AutoLang.Proofs.Eval.Scopes
import Mathlib

/-! The type of an operation and the kind of its value. The first is found from declared types and
decides how C declares and prints the value, the second comes out when the operation is run. Two tables
have to agree: which type takes the other with it, and which value does. They do but for one entry. A
`double` takes an `int` with it on either side, a `float` only on the left: with an `int` on the left the
type is `int`, and the value is a double all the same. -/

namespace AutoLang

/-- whether a value is of the kind that a type stands for; there is one kind for both floating types, and
one for both types of strings -/
@[simp]
def TyKind.admits : TyKind → Value → Bool
  | .int, .int _ | .uint, .uint _ | .byte, .byte _ | .float, .double _ | .double, .double _
  | .bool, .bool _ | .char, .char _ | .str, .str _ | .cstr, .str _ => true
  | _, _ => false

/-- a constant other than `nil` and `null` -/
def Literal.isScalar : Literal → Bool
  | .nil | .null => false
  | _ => true

/-- a name is declared with a type that admits its value -/
def ScopeTree.Agrees (t : ScopeTree) (n : String) : Prop :=
  ∃ ty v, t.ty? n = some ty ∧ t.lookup? n = some v ∧ ty.kind.admits v

/-- constants, names whose types admit their values, signs, arithmetic and comparisons -/
inductive Operation (t : ScopeTree) : Expr → Prop where
  | literal {sp : Span} {v : Literal} : v.isScalar → Operation t (.literal sp v)
  | ident {sp : Span} {n : String} : t.Agrees n → Operation t (.ident sp n)
  | ref {sp : Span} {n : String} : t.Agrees n → Operation t (.ref sp n)
  | unary {sp : Span} {op : UnaryOp} {e : Expr} : Operation t e → Operation t (.unary sp op e)
  | arithmetic {sp : Span} {l r : Expr} {op : BinaryOp} : op ∈ [.add, .sub, .mul, .div] →
    Operation t l → Operation t r → Operation t (.binary sp l op r)
  | comparison {sp : Span} {l r : Expr} {op : BinaryOp} : op ∈ [.eq, .ne, .lt, .gt, .le, .ge] →
    Operation t l → Operation t r → Operation t (.binary sp l op r)

/-- the kind of the type of an expression -/
def Expr.kind? (t : ScopeTree) (e : Expr) : Option TyKind := (e.ty? t).map Ty.kind

/-- whether an `int` stands on the left of a `float` somewhere in an operation, with nothing around the
two that is a `double` or has a `float` on its left -/
def Expr.losesFloat (t : ScopeTree) : Expr → Bool
  | .unary _ op e => op != .not && e.losesFloat t
  | .binary _ l op r =>
    [.add, .sub, .mul, .div].contains op && l.kind? t != some .double && r.kind? t != some .double &&
      (l.losesFloat t || l.kind? t == some .int && (r.kind? t == some .float || r.losesFloat t))
  | _ => false

/-- what an operation on values gives that is no error -/
inductive Computes : Value → Value → Value → Prop where
  | ints {a b c : Int32} : Computes (.int a) (.int b) (.int c)
  | uints {a b c : UInt32} : Computes (.uint a) (.uint b) (.uint c)
  | strings {a b c : String} : Computes (.str a) (.str b) (.str c)
  | doubles {a b c : Float} : Computes (.double a) (.double b) (.double c)
  | intDouble {a : Int32} {b c : Float} : Computes (.int a) (.double b) (.double c)
  | doubleInt {a c : Float} {b : Int32} : Computes (.double a) (.int b) (.double c)

namespace Value

variable {a b : Value}

theorem computes_apply (op : Arithmetic) (h : (op.apply a b).error? = none) :
    Computes a b (op.apply a b) := by
  unfold Arithmetic.apply at h ⊢
  split
  · exact .ints
  · exact .uints
  · exact .doubles
  · exact .intDouble
  · exact .doubleInt
  · simp_all [ofError, error?]

theorem computes_add (h : (a.add b).error? = none) : Computes a b (a.add b) := by
  unfold add at h ⊢
  split
  · exact .strings
  · simp_all [computes_apply]

theorem computes_div (h : (a.div b).error? = none) : Computes a b (a.div b) := by
  unfold div at h ⊢
  split at h
  · simp [ofError, error?] at h
  · rename_i hzero
    rw [if_neg hzero]
    exact computes_apply _ h

theorem computes_arithmetic {op : BinaryOp} (hop : op ∈ [.add, .sub, .mul, .div])
    (h : (op.apply a b).error? = none) : Computes a b (op.apply a b) := by
  simp only [List.mem_cons, List.not_mem_nil, or_false] at hop
  rcases hop with rfl | rfl | rfl | rfl
  · exact computes_add h
  · exact computes_apply _ h
  · exact computes_apply _ h
  · exact computes_div h

theorem bool_of_order (op : Order) (h : (op.apply a b).error? = none) :
    ∃ c, op.apply a b = .bool c := by
  unfold Order.apply at h ⊢
  split
  · exact ⟨_, rfl⟩
  · exact ⟨_, rfl⟩
  · exact ⟨_, rfl⟩
  · simp_all [ofError, error?]

theorem bool_of_comparison {op : BinaryOp} (hop : op ∈ [.eq, .ne, .lt, .gt, .le, .ge])
    (h : (op.apply a b).error? = none) : ∃ c, op.apply a b = .bool c := by
  simp only [List.mem_cons, List.not_mem_nil, or_false] at hop
  rcases hop with rfl | rfl | rfl | rfl | rfl | rfl
  · exact ⟨_, rfl⟩
  · exact ⟨_, rfl⟩
  all_goals exact bool_of_order _ h

end Value

/-- a type judges a value: unless a `float` was lost it admits the value, and else it is `int` for a
double -/
def Judges (k : TyKind) (lost : Bool) (v : Value) : Prop :=
  if lost then k = .int ∧ ∃ d, v = .double d else k.admits v = true

namespace Judges

variable {k kl kr : TyKind} {lost ll lr : Bool} {v a b c : Value}

theorem admits_iff (h : Judges k lost v) : k.admits v = true ↔ lost = false := by
  cases lost with
  | false => simpa [Judges] using h
  | true =>
    obtain ⟨rfl, d, rfl⟩ := h
    simp

theorem int {n : Int32} (h : Judges k lost (.int n)) : k = .int ∧ lost = false := by
  cases lost <;> cases k <;> simp_all [Judges]

theorem uint {n : UInt32} (h : Judges k lost (.uint n)) : k = .uint ∧ lost = false := by
  cases lost <;> cases k <;> simp_all [Judges]

theorem str {s : String} (h : Judges k lost (.str s)) : (k = .str ∨ k = .cstr) ∧ lost = false := by
  cases lost <;> cases k <;> simp_all [Judges]

theorem double {d : Float} (h : Judges k lost (.double d)) :
    (k = .int ∧ lost = true) ∨ (k = .float ∧ lost = false) ∨ (k = .double ∧ lost = false) := by
  cases lost <;> cases k <;> simp_all [Judges]

/-- the two tables side by side: the kinds of the operands decide the kind of the result, and a `float`
is lost exactly behind an `int` -/
theorem arithmetic (hl : Judges kl ll a) (hr : Judges kr lr b) (hc : Computes a b c) :
    Judges (if kl = .double ∨ kr = .double then .double else kl)
      (kl != .double && kr != .double && (ll || kl == .int && (kr == .float || lr))) c := by
  cases hc with
  | ints =>
    obtain ⟨rfl, rfl⟩ := hl.int
    obtain ⟨rfl, rfl⟩ := hr.int
    rfl
  | uints =>
    obtain ⟨rfl, rfl⟩ := hl.uint
    obtain ⟨rfl, rfl⟩ := hr.uint
    rfl
  | strings =>
    obtain ⟨hkl, rfl⟩ := hl.str
    obtain ⟨hkr, rfl⟩ := hr.str
    rcases hkl with rfl | rfl <;> rcases hkr with rfl | rfl <;> rfl
  | doubles =>
    rcases hl.double with ⟨rfl, rfl⟩ | ⟨rfl, rfl⟩ | ⟨rfl, rfl⟩ <;>
      rcases hr.double with ⟨rfl, rfl⟩ | ⟨rfl, rfl⟩ | ⟨rfl, rfl⟩ <;>
      simp [Judges]
  | intDouble =>
    obtain ⟨rfl, rfl⟩ := hl.int
    rcases hr.double with ⟨rfl, rfl⟩ | ⟨rfl, rfl⟩ | ⟨rfl, rfl⟩ <;> simp [Judges]
  | doubleInt =>
    obtain ⟨rfl, rfl⟩ := hr.int
    rcases hl.double with ⟨rfl, rfl⟩ | ⟨rfl, rfl⟩ | ⟨rfl, rfl⟩ <;> simp [Judges]

end Judges

namespace Operation

variable {sp : Span} {l r e : Expr} {op : BinaryOp} {s : EvalState} {a b v : Value} {n : String}

theorem run_name (h : s.scopes.lookup? n = some v) :
    (Eval.expr (.ident sp n)).run s = (v, s) ∧ (Eval.expr (.ref sp n)).run s = (v, s) := by
  have hrun : ((s.scopes.lookup? n).getD .nil, s) = (v, s) := by rw [h, Option.getD_some]
  rw [Eval.expr, Eval.expr]
  exact ⟨hrun, hrun⟩

theorem run_operands (hop : op.isAssignment = false) (hdot : op ≠ .dot)
    (hl : (Eval.expr l).run s = (a, s)) (hr : (Eval.expr r).run s = (b, s)) :
    (Eval.expr (.binary sp l op r)).run s = (op.apply a b, s) := by
  rw [Eval.expr_operands sp l r hop hdot]
  change (op.apply ((Eval.expr l).run s).1 ((Eval.expr r).run ((Eval.expr l).run s).2).1,
    ((Eval.expr r).run ((Eval.expr l).run s).2).2) = _
  rw [hl, hr]

theorem kind?_arithmetic {t : ScopeTree} {kl kr : TyKind} (hop : op ∈ [.add, .sub, .mul, .div])
    (hl : l.kind? t = some kl) (hr : r.kind? t = some kr) :
    (Expr.binary sp l op r).kind? t =
      some (if kl = .double ∨ kr = .double then .double else kl) := by
  obtain ⟨tl, htl, rfl⟩ := Option.map_eq_some_iff.1 hl
  obtain ⟨tr, htr, rfl⟩ := Option.map_eq_some_iff.1 hr
  have harith : (Expr.binary sp l op r).ty? t = C.arithmeticTy? (some tl) (some tr) := by
    simp only [List.mem_cons, List.not_mem_nil, or_false] at hop
    rcases hop with rfl | rfl | rfl | rfl <;> simp only [Expr.ty?, htl, htr]
  rw [Expr.kind?, harith, C.arithmeticTy?]
  by_cases hd : tl.kind = .double ∨ tr.kind = .double
  · simp [hd]
    rfl
  · simp [hd]

theorem kind?_comparison (t : ScopeTree) (hop : op ∈ [.eq, .ne, .lt, .gt, .le, .ge]) :
    (Expr.binary sp l op r).kind? t = some .bool := by
  simp only [List.mem_cons, List.not_mem_nil, or_false] at hop
  rcases hop with rfl | rfl | rfl | rfl | rfl | rfl <;> rfl

/-- the sign of a number is of its kind, and `!` gives a boolean -/
theorem judges_unary {k : TyKind} {lost : Bool} (op : UnaryOp) (hv : v.error? = none → Judges k lost v)
    (h : (op.apply v).error? = none) :
    Judges (if op = .not then .bool else k) (op != .not && lost) (op.apply v) := by
  cases op with
  | not => rfl
  | neg =>
    cases v with
    | int n =>
      obtain ⟨rfl, rfl⟩ := (hv rfl).int
      rfl
    | double d =>
      rcases (hv rfl).double with ⟨rfl, rfl⟩ | ⟨rfl, rfl⟩ | ⟨rfl, rfl⟩ <;>
        simp [Judges, UnaryOp.apply]
    | _ => simp [UnaryOp.apply, Value.ofError, Value.error?] at h
  | plus =>
    cases v with
    | int _ | uint _ | byte _ | double _ => exact hv rfl
    | _ => simp [UnaryOp.apply, Value.ofError, Value.error?] at h

/-- running an operation changes nothing, and unless it gives an error its type judges its value -/
theorem judged (h : Operation s.scopes e) :
    ∃ k v, e.kind? s.scopes = some k ∧ (Eval.expr e).run s = (v, s) ∧
      (v.error? = none → Judges k (e.losesFloat s.scopes) v) := by
  induction h with
  | @literal sp v hv =>
    refine ⟨v.ty.kind, v.value, rfl, ?_, fun _ => ?_⟩
    · rw [Eval.expr]
      rfl
    · cases v <;> first | rfl | cases hv
  | @ident sp n hn =>
    obtain ⟨ty, v, hty, hv, hadmits⟩ := hn
    exact ⟨ty.kind, v, congrArg _ hty, (run_name hv).1, fun _ => hadmits⟩
  | @ref sp n hn =>
    obtain ⟨ty, v, hty, hv, hadmits⟩ := hn
    exact ⟨ty.kind, v, congrArg _ hty, (run_name hv).2, fun _ => hadmits⟩
  | @unary sp op e he ih =>
    obtain ⟨k, v, hk, hrun, hv⟩ := ih
    refine ⟨if op = .not then .bool else k, op.apply v, ?_, ?_, judges_unary op hv⟩
    · cases op with
      | not => rfl
      | neg | plus => exact hk
    · rw [Eval.expr]
      change (op.apply ((Eval.expr e).run s).1, ((Eval.expr e).run s).2) = _
      rw [hrun]
  | @arithmetic sp l r op hop hl hr ihl ihr =>
    obtain ⟨kl, a, hkl, hruna, ha⟩ := ihl
    obtain ⟨kr, b, hkr, hrunb, hb⟩ := ihr
    have hplain : op.isAssignment = false ∧ op ≠ .dot := by
      simp only [List.mem_cons, List.not_mem_nil, or_false] at hop
      rcases hop with rfl | rfl | rfl | rfl <;> decide
    refine ⟨_, _, kind?_arithmetic hop hkl hkr, run_operands hplain.1 hplain.2 hruna hrunb, ?_⟩
    intro hc
    have hcomputes := Value.computes_arithmetic hop hc
    have hlost : Expr.losesFloat s.scopes (.binary sp l op r) =
        (kl != .double && kr != .double &&
          (l.losesFloat s.scopes || kl == .int && (kr == .float || r.losesFloat s.scopes))) := by
      rw [Expr.losesFloat, List.contains_iff_mem.2 hop, hkl, hkr]
      rfl
    rw [hlost]
    obtain ⟨hna, hnb⟩ : a.error? = none ∧ b.error? = none := by
      generalize op.apply a b = c at hcomputes
      cases hcomputes <;> exact ⟨rfl, rfl⟩
    exact (ha hna).arithmetic (hb hnb) hcomputes
  | @comparison sp l r op hop hl hr ihl ihr =>
    obtain ⟨kl, a, hkl, hruna, -⟩ := ihl
    obtain ⟨kr, b, hkr, hrunb, -⟩ := ihr
    have hplain : op.isAssignment = false ∧ op ≠ .dot ∧ [.add, .sub, .mul, .div].contains op = false := by
      simp only [List.mem_cons, List.not_mem_nil, or_false] at hop
      rcases hop with rfl | rfl | rfl | rfl | rfl | rfl <;> decide
    refine ⟨.bool, _, kind?_comparison _ hop, run_operands hplain.1 hplain.2.1 hruna hrunb, ?_⟩
    intro hc
    obtain ⟨c, hbool⟩ := Value.bool_of_comparison hop hc
    rw [hbool, Expr.losesFloat, hplain.2.2]
    rfl

/-- no `float` is lost where no name is declared as one -/
theorem losesFloat_eq_false (h : Operation s.scopes e)
    (hno : ∀ n ty, s.scopes.ty? n = some ty → ty.kind ≠ .float) :
    e.losesFloat s.scopes = false ∧ e.kind? s.scopes ≠ some .float := by
  induction h with
  | @literal sp v hv =>
    refine ⟨rfl, ?_⟩
    cases v <;> simp [Expr.kind?, Expr.ty?, Literal.ty, Ty.simple, Ty.ptrTo, Ty.kind]
  | @ident sp n hn | @ref sp n hn =>
    obtain ⟨ty, v, hty, -⟩ := hn
    refine ⟨rfl, ?_⟩
    simpa [Expr.kind?, Expr.ty?, hty] using hno n ty hty
  | @unary sp op e he ih =>
    rw [Expr.losesFloat, ih.1]
    refine ⟨Bool.and_false _, ?_⟩
    cases op with
    | not => simp [Expr.kind?, Expr.ty?, Ty.simple, Ty.kind]
    | neg | plus => exact ih.2
  | @arithmetic sp l r op hop hl hr ihl ihr =>
    obtain ⟨kl, -, hkl, -⟩ := hl.judged
    obtain ⟨kr, -, hkr, -⟩ := hr.judged
    refine ⟨by simp [Expr.losesFloat, ihl.1, ihr.1, ihr.2], ?_⟩
    rw [kind?_arithmetic hop hkl hkr]
    split
    · simp
    · exact hkl ▸ ihl.2
  | @comparison sp l r op hop hl hr ihl ihr =>
    refine ⟨by simp [Expr.losesFloat, ihl.1, ihr.1, ihr.2], ?_⟩
    simp [kind?_comparison _ hop]

end Operation

/-- The type of an operation admits its value exactly if no `float` is lost, and one that is lost makes
the type `int` and the value a double. Where no name is declared as a `float`, none is lost. -/
theorem operation_ty_admits_iff (s : EvalState) (e : Expr) (h : Operation s.scopes e) (ty : Ty)
    (hty : e.ty? s.scopes = some ty) (hv : ((Eval.expr e).run s).1.error? = none) :
    (ty.kind.admits ((Eval.expr e).run s).1 = true ↔ e.losesFloat s.scopes = false) ∧
      (e.losesFloat s.scopes = true → ty.kind = .int ∧ ∃ d, ((Eval.expr e).run s).1 = .double d) ∧
      ((∀ n ty, s.scopes.ty? n = some ty → ty.kind ≠ .float) → e.losesFloat s.scopes = false) := by
  obtain ⟨k, v, hk, hrun, hjudges⟩ := h.judged
  rw [Expr.kind?, hty, Option.map_some, Option.some.injEq] at hk
  rw [hrun] at hv ⊢
  subst hk
  refine ⟨(hjudges hv).admits_iff, fun hlost => ?_, fun hno => (h.losesFloat_eq_false hno).1⟩
  have := hjudges hv
  rwa [hlost] at this

namespace Samples

/-- `x` is a `float` of two and a half, `n` an `int` of three -/
def halfAndThree : List ScopeOp :=
  [.declare "x" (.simple .float), .define "x" (.double 2.5), .enter .block,
    .declare "n" (.simple .int), .define "n" (.int 3)]

def half : Expr := .ident .nowhere "x"

def three : Expr := .ident .nowhere "n"

/-- `l op r` -/
def operation (l : Expr) (op : BinaryOp) (r : Expr) : Expr := .binary .nowhere l op r

end Samples

open Samples

/-- `-x * n + 1` is a `float` -/
theorem operation_ty_admits_iff_float_left :
    let s : EvalState := ⟨.run halfAndThree, "", false⟩
    let e := operation (operation (.unary .nowhere .neg half) .mul three) .add (.literal .nowhere (.int 1))
    Operation s.scopes e ∧ e.ty? s.scopes = some (.simple .float) ∧
      ((Eval.expr e).run s).1.error? = none ∧ TyKind.float.admits ((Eval.expr e).run s).1 = true := by
  intro s e
  have hx : s.scopes.Agrees "x" := ⟨.simple .float, .double 2.5, rfl, rfl, rfl⟩
  have hn : s.scopes.Agrees "n" := ⟨.simple .int, .int 3, rfl, rfl, rfl⟩
  have he : Operation s.scopes e :=
    .arithmetic (by decide) (.arithmetic (by decide) (.unary (.ident hx)) (.ident hn)) (.literal rfl)
  have hadmits := operation_ty_admits_iff s e he (.simple .float) rfl rfl
  exact ⟨he, rfl, rfl, hadmits.1.2 rfl⟩

/-- `1 + x` is an `int`, and so C prints the double it stands for like one -/
theorem int_before_float_misjudged :
    let s : EvalState := ⟨.run halfAndThree, "", false⟩
    let e := operation (.literal .nowhere (.int 1)) .add half
    Operation s.scopes e ∧ e.ty? s.scopes = some (.simple .int) ∧
      ((Eval.expr e).run s).1.error? = none ∧
      TyKind.int.admits ((Eval.expr e).run s).1 = false ∧
      ((Eval.expr e).run s).1.typeName = "double" ∧
      C.Conversion.ofTy? (e.ty? s.scopes) = .decimal := by
  intro s e
  have hx : s.scopes.Agrees "x" := ⟨.simple .float, .double 2.5, rfl, rfl, rfl⟩
  exact ⟨.arithmetic (by decide) (.literal rfl) (.ident hx), rfl, rfl, rfl, rfl, rfl⟩

end AutoLang
