import AutoLang.Program
import AutoLang.Proofs.C.Bodies
import AutoLang.Proofs.Eval.Scopes
import AutoLang.Proofs.Scope.Consistency
import Mathlib

/-! What compiling does to the scopes. They are used for declared types only, so no name gets a value,
and whatever construct a failure comes from, every scope that was entered is left on the way out. All
of it follows from one fact about the compiler: what it does to scopes is made of declarations and of
scopes that are entered and left. -/

namespace AutoLang

namespace ScopeTree

variable {t t' : ScopeTree} {id : Nat}

theorem get_of_size_le (h : t.size ≤ id) : t.get id = default := by
  unfold get
  rw [Array.getD_eq_getD_getElem?, Array.getElem?_eq_none h]
  rfl

/-- operations that give no name a value change no values, and scopes that were opened have none -/
theorem Bracketed.vars_eq (h : Bracketed (fun _ => False) t t') (hw : t.WellFormed) (id : Nat) :
    (t'.get id).vars = (t.get id).vars := by
  induction h with
  | refl => rfl
  | assign v _ hn => exact hn.elim
  | define v _ hn => exact hn.elim
  | @declare t t' n ty hb ih =>
    rw [← ih hw]
    change ((t'.change t'.current (·.putTy n ty)).get id).vars = _
    rw [get_change (hb.wellFormed hw).current_lt]
    split <;> rfl
  | @block t t' t'' kind hb hin ih ih' =>
    have hw' := hb.wellFormed hw
    rw [get_exit, ih' (hw'.enter kind), ← ih hw]
    by_cases hid : id < t'.size
    · exact part_enter Scope.vars (fun _ _ => rfl) hw' hid kind
    · rw [get_of_size_le (not_lt.1 hid)]
      by_cases hnew : id = t'.size
      · rw [hnew, get_enter_self]
        rfl
      · have hsize := size_enter t' kind
        rw [get_of_size_le (by omega)]

/-- such operations change no scope around the current one, nor any other that was there -/
theorem Bracketed.get_eq (h : Bracketed (fun _ => False) t t') (hw : t.WellFormed) :
    ∀ id < t.size, id ≠ t.current → t'.get id = t.get id := by
  induction h with
  | refl => simp
  | assign v _ hn => exact hn.elim
  | define v _ hn => exact hn.elim
  | @declare t t' n ty hb ih =>
    intro id hid hne
    have hcurrent := (hb.disciplined hw).2.current
    rw [← ih hw id hid hne]
    change (t'.change t'.current (·.putTy n ty)).get id = _
    rw [get_change (hb.wellFormed hw).current_lt, if_neg (hcurrent ▸ hne)]
  | @block t t' t'' kind hb hin ih ih' =>
    intro id hid hne
    have hw' := hb.wellFormed hw
    obtain ⟨hsize, hcurrent⟩ : t.size ≤ t'.size ∧ t'.current = t.current :=
      ⟨(hb.disciplined hw).2.size, (hb.disciplined hw).2.current⟩
    have hnew : (t'.enter kind).current = t'.size := rfl
    have hgrown := size_enter t' kind
    rw [get_exit, ih' (hw'.enter kind) id (by omega) (by omega), ← ih hw id hid hne,
      get_enter_of_lt hw' (by omega), if_neg (hcurrent ▸ hne)]

/-- Only types are declared, in the current scope and in scopes opened inside it: no other scope
changes, the current one keeps its place and its values, and those that were opened have no values. -/
structure OnlyDeclares (t t' : ScopeTree) : Prop where
  current : t'.current = t.current
  size : t.size ≤ t'.size
  others : ∀ id < t.size, id ≠ t.current → t'.get id = t.get id
  place : t'.currentScope.kind = t.currentScope.kind ∧
    t'.currentScope.path = t.currentScope.path ∧ t'.currentScope.parent = t.currentScope.parent
  values : t'.currentScope.vars = t.currentScope.vars
  opened : ∀ id, t.size ≤ id → id < t'.size → t'.Inside id t.current ∧ (t'.get id).vars = []

theorem Bracketed.onlyDeclares (h : Bracketed (fun _ => False) t t') (hw : t.WellFormed) :
    OnlyDeclares t t' := by
  have hd := (h.disciplined hw).2
  constructor
  case current => exact hd.current
  case size => exact hd.size
  case others => exact h.get_eq hw
  case place =>
    rw [currentScope, currentScope, hd.current]
    exact hd.place t.current hw.current_lt
  case values =>
    rw [currentScope, currentScope, hd.current]
    exact h.vars_eq hw t.current
  case opened =>
    intro id hle hlt
    refine ⟨hd.opened id hle hlt, ?_⟩
    rw [h.vars_eq hw, get_of_size_le hle]
    rfl

end ScopeTree

namespace C.Compile

open ScopeTree (Bracketed)

variable {α β : Type} {x : Compile α} {g : α → Compile β}

/-- from any scopes, and whether it succeeds or fails, the work leaves every scope it enters and gives
no name a value -/
def Declares (x : Compile α) : Prop := ∀ t, Bracketed (fun _ => False) t (x.run.run t).2

namespace Declares

theorem pure (a : α) : Declares (pure a : Compile α) := fun t => .refl t

theorem throw (u : Unsupported) : Declares (throw u : Compile α) := fun t => .refl t

theorem bind (hx : Declares x) (hg : ∀ a, Declares (g a)) : Declares (x >>= g) := by
  intro t
  have hfirst := hx t
  rw [run_bind]
  split
  · rename_i a t' hrun
    rw [hrun] at hfirst
    exact hfirst.trans (hg a t')
  · rename_i u t' hrun
    rw [hrun] at hfirst
    exact hfirst

theorem get {g : ScopeTree → Compile β} (hg : ∀ t, Declares (g t)) :
    Declares (MonadState.get >>= g) :=
  fun t => hg t t

theorem ite {c : Prop} [Decidable c] {y : Compile α} (hx : Declares x) (hy : Declares y) :
    Declares (if c then x else y) := by
  split
  · exact hx
  · exact hy

theorem declareTy (n : String) (ty : Ty) : Declares (declareTy n ty) :=
  fun t => (Bracketed.refl t).declare n ty

/-- also a failure leaves the scope -/
theorem inScope (kind : ScopeKind) (hx : Declares x) : Declares (inScope kind x) :=
  fun t => (Bracketed.refl t).block kind (hx (t.enter kind))

end Declares

mutual

theorem declares_expr : (e : AutoLang.Expr) → Declares (expr e)
  | .literal _ v => by
    rw [expr]
    exact .pure _
  | .ident _ n => by
    rw [expr]
    exact .pure _
  | .ref _ n => by
    rw [expr]
    exact .pure _
  | .unary _ op e => by
    rw [expr]
    exact (declares_expr e).bind fun _ => .pure _
  | .binary _ l op r => by
    rw [expr]
    exact (declares_expr l).bind fun _ => (declares_expr r).bind fun _ => .pure _
  | .array _ es => by
    rw [expr]
    exact (declares_exprs es).bind fun _ => .pure _
  | .pair _ (.mk k e) => by
    rw [expr]
    exact (declares_expr e).bind fun _ => .pure _
  | .object _ fs => by
    rw [expr]
    exact (declares_fields fs).bind fun _ => .pure _
  | .call _ c as => by
    rw [expr]
    refine .ite (.get fun _ => (declares_exprs as).bind fun _ => .pure _) ?_
    exact (declares_expr c).bind fun _ => (declares_exprs as).bind fun _ => .pure _
  | .index _ a i => by
    rw [expr]
    exact (declares_expr a).bind fun _ => (declares_expr i).bind fun _ => .pure _
  | .cond _ t y (some n) => by
    rw [expr]
    refine (declares_expr t).bind fun _ => (declares_expr y).bind fun _ => ?_
    exact (declares_expr n).bind fun _ => .pure _
  | .cond _ t y none => by
    rw [expr]
    exact (declares_expr t).bind fun _ => (declares_expr y).bind fun _ => .pure _
  | .block _ b => by
    rcases b with _ | ⟨s, _ | ⟨s', ss⟩⟩
    · rw [expr]
      · exact .throw _
      · nofun
      · nofun
    · cases s with
      | expr _ e =>
        rw [expr]
        exact (declares_expr e).bind fun _ => .pure _
      | _ =>
        rw [expr]
        · exact .throw _
        · nofun
    · rw [expr]
      · exact .throw _
      · nofun
      · nofun
  | .range _ _ _ _ => by
    rw [expr]
    exact .throw _
  | .format _ _ => by
    rw [expr]
    exact .throw _

theorem declares_exprs : (es : List AutoLang.Expr) → Declares (exprs es)
  | [] => by
    rw [exprs]
    exact .pure _
  | e :: es => by
    rw [exprs]
    exact (declares_expr e).bind fun _ => (declares_exprs es).bind fun _ => .pure _

theorem declares_fields : (fs : List Field) → Declares (fields fs)
  | [] => by
    rw [fields]
    exact .pure _
  | .mk k e :: fs => by
    rw [fields]
    exact (declares_expr e).bind fun _ => (declares_fields fs).bind fun _ => .pure _

end

/-- a statement alone, as a body and behind `else` -/
structure DeclaresStmt (s : AutoLang.Stmt) : Prop where
  stmt : Declares (stmt s)
  body : Declares (body s)
  rest : Declares (rest (some s))

theorem DeclaresStmt.of_stmt {s : AutoLang.Stmt} (hblock : isBlock s = false)
    (hcond : isCond s = false) (h : Declares (Compile.stmt s)) : DeclaresStmt s := by
  have hbody : Declares (Compile.body s) := by
    cases s with
    | block _ _ => cases hblock
    | _ => exact h
  refine ⟨h, hbody, ?_⟩
  rw [rest_some hcond]
  exact (hbody.inScope .block).bind fun _ => .pure _

mutual

theorem declares_stmt : (s : AutoLang.Stmt) → DeclaresStmt s
  | .expr _ e => by
    apply DeclaresStmt.of_stmt rfl rfl
    rw [stmt]
    exact (declares_expr e).bind fun _ => .pure _
  | .store _ n ty e => by
    apply DeclaresStmt.of_stmt rfl rfl
    rw [stmt]
    refine .get fun _ => (declares_expr e).bind fun _ => ?_
    exact (Declares.declareTy n _).bind fun _ => .pure _
  | .block _ b => by
    have hb := (declares_stmts b).inScope .block
    constructor
    case stmt =>
      rw [stmt]
      exact hb.bind fun _ => .pure _
    case body => exact declares_stmts b
    case rest =>
      rw [rest_some rfl]
      exact hb.bind fun _ => .pure _
  | .cond sp t y no => by
    have hy := (declares_stmt y).body.inScope .block
    have hcond : Declares (stmt (.cond sp t y no)) := by
      rw [stmt_cond]
      refine (declares_expr t).bind fun _ => hy.bind fun _ => ?_
      exact (declares_rest no).bind fun _ => .pure _
    refine ⟨hcond, hcond, ?_⟩
    rw [rest_cond]
    refine (declares_expr t).bind fun _ => hy.bind fun _ => ?_
    exact (declares_rest no).bind fun _ => .pure _
  | .loop _ n e y => by
    apply DeclaresStmt.of_stmt rfl rfl
    cases e with
    | range _ a b inclusive =>
      have hy : Declares (do declareTy n (.simple .int); body y) :=
        (Declares.declareTy n _).bind fun _ => (declares_stmt y).body
      rw [stmt_loop]
      refine (declares_expr a).bind fun _ => (declares_expr b).bind fun _ => ?_
      exact (hy.inScope .block).bind fun _ => .pure _
    | _ =>
      rw [stmt]
      · exact .throw _
      · nofun
  | .function _ _ _ _ _ => by
    apply DeclaresStmt.of_stmt rfl rfl
    rw [stmt]
    exact .throw _
  | .leave _ => by
    apply DeclaresStmt.of_stmt rfl rfl
    rw [stmt]
    exact .pure _
  | .blank _ => by
    apply DeclaresStmt.of_stmt rfl rfl
    rw [stmt]
    exact .pure _

theorem declares_stmts : (ss : List AutoLang.Stmt) → Declares (stmts ss)
  | [] => by
    rw [stmts]
    exact .pure _
  | s :: ss => by
    rw [stmts]
    exact (declares_stmt s).stmt.bind fun _ => (declares_stmts ss).bind fun _ => .pure _

theorem declares_rest : (no : Option AutoLang.Stmt) → Declares (rest no)
  | none => by
    rw [rest]
    exact .pure _
  | some y => (declares_stmt y).rest

end

theorem declares_resultStmts (ss : List AutoLang.Stmt) : Declares (resultStmts ss) := by
  induction ss with
  | nil =>
    rw [resultStmts]
    exact .pure _
  | cons s ss ih =>
    have hmore : Declares (do let first ← stmt s; return first ++ (← resultStmts ss)) :=
      (declares_stmt s).stmt.bind fun _ => ih.bind fun _ => .pure _
    rcases ss with _ | ⟨s', ss⟩
    · cases s with
      | expr _ e =>
        rw [resultStmts]
        exact (declares_expr e).bind fun _ => .pure _
      | _ =>
        rw [resultStmts]
        · exact hmore
        · nofun
    · rw [resultStmts]
      · exact hmore
      · nofun

theorem declares_params (params : List (Ty × String)) :
    Declares (params.forM fun (ty, n) => declareTy n ty) := by
  induction params with
  | nil => exact .pure _
  | cons p params ih => exact (Declares.declareTy p.2 p.1).bind fun _ => ih

theorem declares_function (name : String) (params : List Param) (result : Option Ty)
    (body : List AutoLang.Stmt) : Declares (function name params result body) := by
  rw [function]
  refine (Declares.inScope .function ?_).bind fun _ => .pure _
  refine (declares_params _).bind fun _ => ?_
  exact .ite (declares_resultStmts body) (declares_stmts body)

theorem declares_functions (code : Code) : Declares (functions code) := by
  induction code with
  | nil =>
    rw [functions]
    exact .pure _
  | cons s code ih =>
    cases s with
    | function _ n ps r b =>
      rw [functions]
      exact (declares_function n ps r b).bind fun _ => ih.bind fun _ => .pure _
    | _ =>
      rw [functions]
      · exact ih
      · nofun

theorem declares_program (code : Code) : Declares (program code) := by
  rw [program]
  refine (declares_functions code).bind fun _ => .ite (.pure _) ?_
  exact (declares_stmts _).bind fun _ => .pure _

end C.Compile

/-- Over any scopes, whether it succeeds or fails, compiling declares types and does nothing else that
lasts: it ends in the scope it began in, and what it opens stands inside that scope and binds nothing. -/
theorem compiling_only_declares (scopes : ScopeTree) (h : scopes.Reachable) (code : Code)
    (name : String) (style : C.GuardStyle) :
    scopes.OnlyDeclares (compileOver scopes code name style).2 :=
  (C.Compile.declares_program code scopes).onlyDeclares h.wellFormed

namespace Samples

/-- a function with a format string in a branch inside a loop, so that three scopes are open when the
compiler gives up; its parameter hides the `x` of the scopes it is compiled over -/
def deepFailure : Code :=
  [.function .nowhere "f" [⟨"x", none⟩] none
    [.loop .nowhere "i"
      (.range .nowhere (.ident .nowhere "x") (.literal .nowhere (.int 3)) false)
      (.block .nowhere [
        .store .nowhere "y" none (.ident .nowhere "i"),
        .cond .nowhere (.literal .nowhere (.bool true))
          (.expr .nowhere (.format .nowhere [.ident .nowhere "y"])) none])]]

end Samples

open Samples

/-- the three scopes are left, and `x` keeps its value and its type -/
theorem compiling_only_declares_deep_failure :
    let t := ScopeTree.run leftAndOpen
    let r := compileOver t deepFailure "m" .pragma
    t.Reachable ∧ r.1.isOk = false ∧ t.OnlyDeclares r.2 ∧ t.size = 3 ∧ r.2.size = 6 ∧
      r.2.current = 2 ∧ r.2.lookup? "x" == some (.int 1) ∧ r.2.ty? "x" == some (.simple .int) := by
  intro t r
  have ht : t.Reachable := ⟨leftAndOpen, rfl⟩
  refine ⟨ht, ?_, compiling_only_declares t ht deepFailure "m" .pragma, ?_, ?_, ?_, ?_, ?_⟩
  all_goals decide

end AutoLang
