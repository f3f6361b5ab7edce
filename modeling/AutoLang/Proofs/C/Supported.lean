import AutoLang.Program
import AutoLang.Proofs.C.Bodies
import AutoLang.Proofs.Parse.Spans
import Mathlib

/-! What can be compiled. Wherever one of six constructs stands in a program, in an argument or a
branch, in the last statement of a function or a bound of a loop, the compiler finds it and gives up;
and it gives up over nothing else, whatever the scopes are. -/

namespace AutoLang

def Expr.isRange : Expr → Bool
  | range _ _ _ _ => true
  | _ => false

def Stmt.isExpr : Stmt → Bool
  | expr _ _ => true
  | _ => false

def Node.isLoop : Node → Bool
  | stmt (.loop _ _ _ _) => true
  | _ => false

/-- what is found in a node is the node itself or is found in one of its parts -/
theorem Node.inside_iff {P : Node → Prop} {n : Node} :
    (∃ p, Relation.ReflTransGen (fun p c => c ∈ p.children) n p ∧ P p) ↔
      P n ∨ ∃ c ∈ n.children, ∃ p, Relation.ReflTransGen (fun p c => c ∈ p.children) c p ∧ P p := by
  constructor
  · rintro ⟨p, hp, hP⟩
    rcases hp.cases_head with rfl | ⟨c, hc, hcp⟩
    · exact .inl hP
    · exact .inr ⟨c, hc, p, hcp, hP⟩
  · rintro (hP | ⟨c, hc, p, hcp, hP⟩)
    · exact ⟨n, .refl, hP⟩
    · exact ⟨p, .head hc hcp, hP⟩

namespace C

/-- there is no C for the node, or none for a part of it where it stands -/
inductive Lacks : Node → Unsupported → Prop
  /-- functions stand at the top of a program only -/
  | function {p : Node} {s : Span} {n : String} {ps : List Param} {r : Option Ty}
    {b : List AutoLang.Stmt} : .stmt (.function s n ps r b) ∈ p.children →
    Lacks p ⟨.nestedFunction, s⟩
  /-- loops go over ranges only -/
  | source {s : Span} {n : String} {e : AutoLang.Expr} {b : AutoLang.Stmt} : e.isRange = false →
    Lacks (.stmt (.loop s n e b)) ⟨.loopSource, e.span⟩
  /-- and only loops go over ranges -/
  | range {p : Node} {s : Span} {a b : AutoLang.Expr} {inclusive : Bool} :
    .expr (.range s a b inclusive) ∈ p.children → p.isLoop = false → Lacks p ⟨.looseRange, s⟩
  | format {s : Span} {ps : List AutoLang.Expr} : Lacks (.expr (.format s ps)) ⟨.formatString, s⟩
  /-- a block in an expression is one expression -/
  | statement {s : Span} {x : AutoLang.Stmt} : x.isExpr = false →
    Lacks (.expr (.block s [x])) ⟨.statementInBlock, s⟩
  | long {s : Span} {b : List AutoLang.Stmt} : b.length ≠ 1 →
    Lacks (.expr (.block s b)) ⟨.longBlock, s⟩

section Foreign

variable {n : Node} {u : Unsupported}

/-- somewhere in a node -/
def LacksInside (n : Node) (u : Unsupported) : Prop :=
  ∃ p, Relation.ReflTransGen (fun p c => c ∈ p.children) n p ∧ Lacks p u

/-- what is held against a node by where it stands -/
inductive Loose : Node → Unsupported → Prop
  | function {s : Span} {n : String} {ps : List Param} {r : Option Ty} {b : List AutoLang.Stmt} :
    Loose (.stmt (.function s n ps r b)) ⟨.nestedFunction, s⟩
  | range {s : Span} {a b : AutoLang.Expr} {inclusive : Bool} :
    Loose (.expr (.range s a b inclusive)) ⟨.looseRange, s⟩

/-- what keeps a node from being compiled on its own -/
def Foreign (n : Node) (u : Unsupported) : Prop := Loose n u ∨ LacksInside n u

/-- nodes of which only the parts can be at fault -/
def isHarmless : Node → Bool
  | .stmt (.loop _ _ _ _) | .expr (.format _ _) | .expr (.block _ _) => false
  | _ => true

theorem lacks_harmless (h : isHarmless n = true) : Lacks n u ↔ ∃ c ∈ n.children, Loose c u := by
  constructor
  · rintro (hc | - | ⟨hc, -⟩ | - | - | -)
    · exact ⟨_, hc, .function⟩
    · cases h
    · exact ⟨_, hc, .range⟩
    all_goals cases h
  · rintro ⟨c, hc, - | -⟩
    · exact .function hc
    · refine .range hc ?_
      cases hn : n.isLoop with
      | false => rfl
      | true =>
        unfold Node.isLoop at hn
        split at hn <;> cases hn
        cases h

theorem lacksInside_iff : LacksInside n u ↔ Lacks n u ∨ ∃ c ∈ n.children, LacksInside c u :=
  Node.inside_iff

theorem lacksInside_harmless (h : isHarmless n = true) :
    LacksInside n u ↔ ∃ c ∈ n.children, Foreign c u := by
  rw [lacksInside_iff, lacks_harmless h, ← exists_or]
  exact exists_congr fun c => and_or_left.symm

/-- an expression that is no range fails through its parts -/
theorem foreign_expr {e : AutoLang.Expr} (h : isHarmless (.expr e) = true) (hr : e.isRange = false) :
    Foreign (.expr e) u ↔ ∃ c ∈ e.children, Foreign c u := by
  rw [Foreign, lacksInside_harmless h, or_iff_right (by rintro ⟨⟩; cases hr)]
  rfl

theorem foreign_stmt {x : AutoLang.Stmt} (h : isHarmless (.stmt x) = true)
    (hf : Compile.isFunction x = false) :
    Foreign (.stmt x) u ↔ ∃ c ∈ x.children, Foreign c u := by
  rw [Foreign, lacksInside_harmless h, or_iff_right (by rintro ⟨⟩; cases hf)]
  rfl

/-- one expression as a block -/
theorem foreign_block {s s' : Span} {e : AutoLang.Expr} :
    Foreign (.expr (.block s [.expr s' e])) u ↔ Foreign (.expr e) u := by
  have hown : ¬ Lacks (.expr (.block s [.expr s' e])) u := by
    rintro (hc | - | ⟨hc, -⟩ | - | h | h)
    · simp [Node.children, Expr.children] at hc
    · simp [Node.children, Expr.children] at hc
    · cases h
    · exact h rfl
  have hinner : LacksInside (.stmt (.expr s' e)) u ↔ Foreign (.expr e) u := by
    rw [lacksInside_harmless rfl]
    simp [Node.children, Stmt.children]
  rw [Foreign, or_iff_right (by rintro ⟨⟩), lacksInside_iff, or_iff_right hown, ← hinner]
  simp [Node.children, Expr.children]

/-- a loop over a range -/
theorem foreign_loop {s s' : Span} {n : String} {a b : AutoLang.Expr} {inclusive : Bool}
    {y : AutoLang.Stmt} : Foreign (.stmt (.loop s n (.range s' a b inclusive) y)) u ↔
      Foreign (.expr a) u ∨ Foreign (.expr b) u ∨ Foreign (.stmt y) u := by
  have hown : Lacks (.stmt (.loop s n (.range s' a b inclusive) y)) u ↔ Loose (.stmt y) u := by
    constructor
    · rintro (hc | h | ⟨-, h⟩)
      · obtain rfl : _ = y := by simpa [Node.children, Stmt.children] using hc
        exact .function
      · cases h
      · cases h
    · rintro ⟨⟩
      exact .function (List.mem_cons_of_mem _ List.mem_cons_self)
  have hrange : LacksInside (.expr (.range s' a b inclusive)) u ↔
      Foreign (.expr a) u ∨ Foreign (.expr b) u := by
    rw [lacksInside_harmless rfl]
    simp [Node.children, Expr.children]
  rw [Foreign, or_iff_right (by rintro ⟨⟩), lacksInside_iff, hown]
  simp only [Node.children, Stmt.children, List.mem_cons, List.not_mem_nil, or_false,
    exists_eq_or_imp, exists_eq_left, hrange]
  have hbody : Foreign (.stmt y) u ↔ Loose (.stmt y) u ∨ LacksInside (.stmt y) u := Iff.rfl
  tauto

end Foreign

namespace Compile

variable {α β : Type} {x : Compile α} {g : α → Compile β} {ns ms : List Node} {n : Node}
  {u : Unsupported}

/-- from any scopes, the work fails exactly if something is foreign about one of the nodes, and names
such a thing -/
def FailsOver (x : Compile α) (ns : List Node) : Prop :=
  ∀ t, (∀ u, (x.run.run t).1 = .error u → ∃ n ∈ ns, Foreign n u) ∧
    ∀ n ∈ ns, ∀ u, Foreign n u → ∃ v, (x.run.run t).1 = .error v

namespace FailsOver

theorem congr (h : FailsOver x ns)
    (hsame : ∀ u, (∃ n ∈ ns, Foreign n u) ↔ ∃ m ∈ ms, Foreign m u) : FailsOver x ms := by
  intro t
  obtain ⟨hsound, hcomplete⟩ := h t
  refine ⟨fun u hu => (hsame u).1 (hsound u hu), fun m hm u hu => ?_⟩
  obtain ⟨n, hn, hu⟩ := (hsame u).2 ⟨m, hm, hu⟩
  exact hcomplete n hn u hu

theorem pure (a : α) : FailsOver (pure a : Compile α) [] := fun _ => ⟨nofun, nofun⟩

theorem throw (h : Foreign n u) : FailsOver (throw u : Compile α) [n] :=
  fun _ => ⟨fun _ hu => Except.error.inj hu ▸ ⟨n, List.mem_cons_self, h⟩, fun _ _ _ _ => ⟨u, rfl⟩⟩

theorem bind (hx : FailsOver x ns) (hg : ∀ a, FailsOver (g a) ms) :
    FailsOver (x >>= g) (ns ++ ms) := by
  intro t
  obtain ⟨hsound, hcomplete⟩ := hx t
  rw [run_bind]
  split
  · rename_i a t' hrun
    obtain ⟨hsound', hcomplete'⟩ := hg a t'
    refine ⟨fun u hu => ?_, fun n hn u hu => ?_⟩
    · obtain ⟨m, hm, hu⟩ := hsound' u hu
      exact ⟨m, List.mem_append_right _ hm, hu⟩
    · rcases List.mem_append.1 hn with hn | hn
      · obtain ⟨v, hv⟩ := hcomplete n hn u hu
        rw [hrun] at hv
        cases hv
      · exact hcomplete' n hn u hu
  · rename_i u t' hrun
    refine ⟨fun v hv => ?_, fun _ _ _ _ => ⟨u, rfl⟩⟩
    obtain ⟨n, hn, hu⟩ := hsound u (by rw [hrun])
    exact ⟨n, List.mem_append_left _ hn, Except.error.inj hv ▸ hu⟩

/-- what is made of the result cannot fail -/
theorem last (hx : FailsOver x ns) (f : α → β) : FailsOver (do return f (← x)) ns := by
  have hall := hx.bind fun a => FailsOver.pure (f a)
  rwa [List.append_nil] at hall

theorem get {g : ScopeTree → Compile β} (hg : ∀ t, FailsOver (g t) ns) :
    FailsOver (MonadState.get >>= g) ns :=
  fun t => hg t t

theorem declareTy {y : Compile α} (m : String) (ty : Ty) (hy : FailsOver y ns) :
    FailsOver (do declareTy m ty; y) ns :=
  fun t => hy (t.declare m ty)

theorem inScope (kind : ScopeKind) (hx : FailsOver x ns) : FailsOver (inScope kind x) ns :=
  fun t => hx (t.enter kind)

/-- from the parts of an expression to the expression -/
theorem expr {e : AutoLang.Expr} (h : isHarmless (.expr e) = true) (hr : e.isRange = false)
    (hx : FailsOver x e.children) : FailsOver x [.expr e] :=
  hx.congr fun u => by simp [foreign_expr h hr]

theorem stmt {y : AutoLang.Stmt} (h : isHarmless (.stmt y) = true) (hf : isFunction y = false)
    (hx : FailsOver x y.children) : FailsOver x [.stmt y] :=
  hx.congr fun u => by simp [foreign_stmt h hf]

end FailsOver

mutual

theorem fails_expr : (e : AutoLang.Expr) → FailsOver (expr e) [.expr e]
  | .literal _ v => by
    rw [expr]
    exact .expr rfl rfl (.pure _)
  | .ident _ n => by
    rw [expr]
    exact .expr rfl rfl (.pure _)
  | .ref _ n => by
    rw [expr]
    exact .expr rfl rfl (.pure _)
  | .unary _ op e => by
    rw [expr]
    exact .expr rfl rfl ((fails_expr e).last _)
  | .binary _ l op r => by
    rw [expr]
    exact .expr rfl rfl ((fails_expr l).bind fun _ => (fails_expr r).last _)
  | .array _ es => by
    rw [expr]
    exact .expr rfl rfl ((fails_exprs es).last _)
  | .pair _ (.mk k e) => by
    rw [expr]
    exact .expr rfl rfl ((fails_expr e).last _)
  | .object _ fs => by
    rw [expr]
    exact .expr rfl rfl ((fails_fields fs).last _)
  | .call s c as => by
    rw [expr]
    split
    · -- the callee is not compiled, but it is a name
      rename_i hname
      have hcallee (u : Unsupported) : ¬ Foreign (.expr c) u := by
        cases c with
        | ident s n => simp [foreign_expr (e := .ident s n) rfl rfl, Expr.children]
        | _ => cases hname
      refine .expr rfl rfl (.get fun _ => ?_)
      exact ((fails_exprs as).last _).congr fun u => by simp [Expr.children, hcallee]
    · exact .expr rfl rfl ((fails_expr c).bind fun _ => (fails_exprs as).last _)
  | .index _ a i => by
    rw [expr]
    exact .expr rfl rfl ((fails_expr a).bind fun _ => (fails_expr i).last _)
  | .cond _ t y (some n) => by
    rw [expr]
    exact .expr rfl rfl
      ((fails_expr t).bind fun _ => (fails_expr y).bind fun _ => (fails_expr n).last _)
  | .cond _ t y none => by
    rw [expr]
    exact .expr rfl rfl ((fails_expr t).bind fun _ => (fails_expr y).last _)
  | .block _ b => by
    rcases b with _ | ⟨x, _ | ⟨x', xs⟩⟩
    · rw [expr]
      · exact .throw (.inr ⟨_, .refl, .long (by simp)⟩)
      · nofun
      · nofun
    · cases x with
      | expr _ e =>
        rw [expr]
        exact ((fails_expr e).last _).congr fun u => by simp [foreign_block]
      | _ =>
        rw [expr]
        · exact .throw (.inr ⟨_, .refl, .statement rfl⟩)
        · nofun
    · rw [expr]
      · exact .throw (.inr ⟨_, .refl, .long (by simp)⟩)
      · nofun
      · nofun
  | .range _ _ _ _ => by
    rw [expr]
    exact .throw (.inl .range)
  | .format _ _ => by
    rw [expr]
    exact .throw (.inr ⟨_, .refl, .format⟩)

theorem fails_exprs : (es : List AutoLang.Expr) → FailsOver (exprs es) (es.map .expr)
  | [] => by
    rw [exprs]
    exact .pure _
  | e :: es => by
    rw [exprs]
    exact (fails_expr e).bind fun _ => (fails_exprs es).last _

theorem fails_fields : (fs : List Field) → FailsOver (fields fs) (fs.map (.expr ·.value))
  | [] => by
    rw [fields]
    exact .pure _
  | .mk k e :: fs => by
    rw [fields]
    exact (fails_expr e).bind fun _ => (fails_fields fs).last _

end

/-- a statement alone, as a body and behind `else` -/
structure FailsStmt (y : AutoLang.Stmt) : Prop where
  stmt : FailsOver (stmt y) [.stmt y]
  body : FailsOver (body y) [.stmt y]
  rest : FailsOver (rest (some y)) [.stmt y]

theorem FailsStmt.of_stmt {y : AutoLang.Stmt} (hblock : isBlock y = false) (hcond : isCond y = false)
    (h : FailsOver (Compile.stmt y) [.stmt y]) : FailsStmt y := by
  have hbody : FailsOver (Compile.body y) [.stmt y] := by
    cases y with
    | block _ _ => cases hblock
    | _ => exact h
  refine ⟨h, hbody, ?_⟩
  rw [rest_some hcond]
  exact (hbody.inScope .block).last _

mutual

theorem fails_stmt : (y : AutoLang.Stmt) → FailsStmt y
  | .expr _ e => by
    apply FailsStmt.of_stmt rfl rfl
    rw [stmt]
    exact .stmt rfl rfl ((fails_expr e).last _)
  | .store _ n ty e => by
    apply FailsStmt.of_stmt rfl rfl
    rw [stmt]
    refine .stmt rfl rfl (.get fun _ => ?_)
    exact (fails_expr e).bind fun _ => .declareTy _ _ (.pure _)
  | .block _ b => by
    have hb := fails_stmts b
    constructor
    case stmt =>
      rw [stmt]
      exact .stmt rfl rfl ((hb.inScope .block).last _)
    case body => exact .stmt rfl rfl hb
    case rest =>
      rw [rest_some rfl]
      exact .stmt rfl rfl ((hb.inScope .block).last _)
  | .cond sp t y no => by
    have hy := (fails_stmt y).body.inScope .block
    have hcond : FailsOver (stmt (.cond sp t y no)) [.stmt (.cond sp t y no)] := by
      rw [stmt_cond]
      refine .stmt rfl rfl ((fails_expr t).bind fun _ => hy.bind fun _ => ?_)
      exact (fails_rest no).last _
    refine ⟨hcond, hcond, ?_⟩
    rw [rest_cond]
    refine .stmt rfl rfl ((fails_expr t).bind fun _ => hy.bind fun _ => ?_)
    exact (fails_rest no).last _
  | .loop _ n e y => by
    apply FailsStmt.of_stmt rfl rfl
    cases e with
    | range _ a b inclusive =>
      rw [stmt_loop]
      have hy : FailsOver (do declareTy n (.simple .int); body y) [.stmt y] :=
        .declareTy n _ (fails_stmt y).body
      have hparts := (fails_expr a).bind fun start => (fails_expr b).bind fun stop =>
        (hy.inScope .block).last fun inner => [Stmt.loop n start stop inclusive inner]
      exact hparts.congr fun u => by simp [foreign_loop]
    | _ =>
      rw [stmt]
      · exact .throw (.inr ⟨_, .refl, .source rfl⟩)
      · nofun
  | .function _ _ _ _ _ => by
    apply FailsStmt.of_stmt rfl rfl
    rw [stmt]
    exact .throw (.inl .function)
  | .leave _ => by
    apply FailsStmt.of_stmt rfl rfl
    rw [stmt]
    exact .stmt rfl rfl (.pure _)
  | .blank _ => by
    apply FailsStmt.of_stmt rfl rfl
    rw [stmt]
    exact .stmt rfl rfl (.pure _)

theorem fails_stmts : (ys : List AutoLang.Stmt) → FailsOver (stmts ys) (ys.map .stmt)
  | [] => by
    rw [stmts]
    exact .pure _
  | y :: ys => by
    rw [stmts]
    exact (fails_stmt y).stmt.bind fun _ => (fails_stmts ys).last _

theorem fails_rest : (no : Option AutoLang.Stmt) → FailsOver (rest no) (no.toList.map .stmt)
  | none => by
    rw [rest]
    exact .pure _
  | some y => (fails_stmt y).rest

end

/-- the expression that gives the result is compiled like any other -/
theorem fails_resultStmts (ys : List AutoLang.Stmt) :
    FailsOver (resultStmts ys) (ys.map .stmt) := by
  induction ys with
  | nil =>
    rw [resultStmts]
    exact .pure _
  | cons y ys ih =>
    have hmore : FailsOver (do let first ← stmt y; return first ++ (← resultStmts ys))
        ((y :: ys).map .stmt) :=
      (fails_stmt y).stmt.bind fun _ => ih.last _
    rcases ys with _ | ⟨y', ys⟩
    · cases y with
      | expr _ e =>
        rw [resultStmts]
        exact .stmt rfl rfl ((fails_expr e).last _)
      | _ =>
        rw [resultStmts]
        · exact hmore
        · nofun
    · rw [resultStmts]
      · exact hmore
      · nofun

theorem fails_params (params : List (Ty × String)) :
    FailsOver (params.forM fun (ty, n) => declareTy n ty) [] := by
  induction params with
  | nil => exact .pure _
  | cons p params ih => exact .declareTy p.2 p.1 ih

theorem fails_function (name : String) (params : List Param) (result : Option Ty)
    (body : List AutoLang.Stmt) :
    FailsOver (function name params result body) (body.map .stmt) := by
  rw [function]
  refine (FailsOver.inScope .function ?_).last _
  refine (fails_params _).bind fun _ => ?_
  split
  · exact fails_resultStmts body
  · exact fails_stmts body

/-- what stands in the functions of a program -/
def functionParts (code : Code) : List Node := (code.filter isFunction).flatMap Stmt.children

theorem fails_functions (code : Code) : FailsOver (functions code) (functionParts code) := by
  induction code with
  | nil =>
    rw [functions]
    exact .pure _
  | cons y code ih =>
    cases y with
    | function _ n ps r b =>
      rw [functions]
      exact (fails_function n ps r b).bind fun _ => ih.last _
    | _ =>
      rw [functions]
      · exact ih
      · nofun

theorem fails_program (code : Code) : FailsOver (program code)
    (functionParts code ++ (code.filter (!isFunction ·)).map .stmt) := by
  rw [program]
  refine (fails_functions code).bind fun _ => ?_
  dsimp only
  split
  · rename_i hnone
    rw [List.isEmpty_iff.1 hnone]
    exact .pure _
  · exact (fails_stmts _).last _

end Compile

end C

theorem nodeOf_iff {code : Code} {n : Node} : NodeOf code n ↔
    ∃ x ∈ code, Relation.ReflTransGen (fun p c => c ∈ p.children) (.stmt x) n := by
  constructor
  · intro h
    induction h with
    | statement hx => exact ⟨_, hx, .refl⟩
    | child _ hc ih =>
      obtain ⟨x, hx, hp⟩ := ih
      exact ⟨x, hx, hp.tail hc⟩
  · rintro ⟨x, hx, hn⟩
    induction hn with
    | refl => exact .statement hx
    | tail _ hc ih => exact .child ih hc

/-- functions are compiled part by part, and what else stands at the top as a whole -/
theorem foreign_program {code : Code} {u : C.Unsupported} :
    (∃ n ∈ C.Compile.functionParts code ++ (code.filter (!C.Compile.isFunction ·)).map .stmt,
      C.Foreign n u) ↔ ∃ n, NodeOf code n ∧ C.Lacks n u := by
  have hinside : (∃ n, NodeOf code n ∧ C.Lacks n u) ↔
      ∃ x ∈ code, C.LacksInside (.stmt x) u := by
    simp only [nodeOf_iff, C.LacksInside]
    tauto
  have hparts (x : Stmt) (hx : C.Compile.isFunction x = true) :
      C.LacksInside (.stmt x) u ↔ ∃ c ∈ x.children, C.Foreign c u :=
    C.lacksInside_harmless (by cases x <;> first | rfl | cases hx)
  have hwhole (x : Stmt) (hx : C.Compile.isFunction x = false) :
      C.LacksInside (.stmt x) u ↔ C.Foreign (.stmt x) u := by
    rw [C.Foreign, or_iff_right (by rintro ⟨⟩; cases hx)]
  rw [hinside]
  constructor
  · rintro ⟨n, hn, hu⟩
    rcases List.mem_append.1 hn with hn | hn
    · obtain ⟨x, hx, hc⟩ := List.mem_flatMap.1 hn
      obtain ⟨hx, hf⟩ := List.mem_filter.1 hx
      exact ⟨x, hx, (hparts x hf).2 ⟨n, hc, hu⟩⟩
    · obtain ⟨x, hx, rfl⟩ := List.mem_map.1 hn
      obtain ⟨hx, hf⟩ := List.mem_filter.1 hx
      exact ⟨x, hx, (hwhole x (Bool.not_eq_eq_eq_not.1 hf)).2 hu⟩
  · rintro ⟨x, hx, hu⟩
    cases hf : C.Compile.isFunction x with
    | true =>
      obtain ⟨c, hc, hu⟩ := (hparts x hf).1 hu
      have hpart := List.mem_flatMap_of_mem (List.mem_filter.2 ⟨hx, hf⟩) hc
      exact ⟨c, List.mem_append_left _ hpart, hu⟩
    | false =>
      have hother : x ∈ code.filter (!C.Compile.isFunction ·) := by simp [hx, hf]
      exact ⟨_, List.mem_append_right _ (List.mem_map_of_mem hother), (hwhole x hf).1 hu⟩

/-- nothing stands in the way of a program that was compiled -/
theorem not_lacks_of_compileOver {scopes : ScopeTree} {code : Code} {name : String}
    {style : C.GuardStyle} {files : CFiles} (h : (compileOver scopes code name style).1 = .ok files)
    {n : Node} (hn : NodeOf code n) {u : C.Unsupported} : ¬ C.Lacks n u := by
  intro hu
  obtain ⟨m, hm, hu⟩ := foreign_program.2 ⟨n, hn, hu⟩
  obtain ⟨v, hv⟩ := (C.Compile.fails_program code scopes).2 m hm u hu
  change Except.map _ ((C.Compile.program code).run.run scopes).1 = _ at h
  rw [hv] at h
  cases h

/-- Compiling fails exactly if the program has, at whatever depth, a function inside something else, a
loop over something other than a range, a range that no loop goes over, a format string, or a block in
an expression that is not one expression; the failure names such a construct and its place. -/
theorem compiling_fails_iff (scopes : ScopeTree) (code : Code) (name : String)
    (style : C.GuardStyle) :
    ((∃ u, (compileOver scopes code name style).1 = .error u) ↔
        ∃ n u, NodeOf code n ∧ C.Lacks n u) ∧
      ∀ u, (compileOver scopes code name style).1 = .error u →
        ∃ n, NodeOf code n ∧ C.Lacks n u := by
  obtain ⟨hsound, hcomplete⟩ := C.Compile.fails_program code scopes
  have hrun (u : C.Unsupported) : (compileOver scopes code name style).1 = .error u ↔
      ((C.Compile.program code).run.run scopes).1 = .error u := by
    change Except.map _ ((C.Compile.program code).run.run scopes).1 = _ ↔ _
    cases ((C.Compile.program code).run.run scopes).1 <;> simp [Except.map]
  have hnamed (u : C.Unsupported) (hu : (compileOver scopes code name style).1 = .error u) :
      ∃ n, NodeOf code n ∧ C.Lacks n u :=
    foreign_program.1 (hsound u ((hrun u).1 hu))
  refine ⟨⟨?_, ?_⟩, hnamed⟩
  · rintro ⟨u, hu⟩
    obtain ⟨n, hn⟩ := hnamed u hu
    exact ⟨n, u, hn⟩
  · rintro ⟨n, u, hn⟩
    obtain ⟨m, hm, hu⟩ := foreign_program.2 ⟨n, hn⟩
    obtain ⟨v, hv⟩ := hcomplete m hm u hu
    exact ⟨v, (hrun v).2 hv⟩

end AutoLang
