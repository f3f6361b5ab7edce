import AutoLang.Proofs.C.Indentation
import AutoLang.Proofs.C.Supported
import Mathlib

/-! The system headers of a C program. They are asked for all over the program, wherever something is
written that needs one, and one that is there already is not asked for again. What comes out can be said
of the source alone: `print` needs one, what stands for nothing another, and a truth value or a type
whose elements end in a `bool` or a `byte` the other two. Each has a line of its own in the header file,
and no other line includes anything, unless the name of a function or of its parameters breaks a line. -/

namespace AutoLang

/-- a type of a kind, or an array or a pointer whose elements are in the end -/
inductive Ty.Reaches (kind : TyKind) : Ty → Prop
  | self {name : Option String} {elem : Option Ty} : Reaches kind (.mk kind name elem)
  | array {name : Option String} {e : Ty} : Reaches kind e → Reaches kind (.mk .array name (some e))
  | pointer {name : Option String} {e : Ty} : Reaches kind e → Reaches kind (.mk .ptr name (some e))

namespace Expr

/-- a call of `print` by its name -/
def isPrint : Expr → Bool
  | call _ (.ident _ n) _ => n == "print"
  | _ => false

/-- `nil` and `null`, and a conditional that has no value without its test -/
def isNothing : Expr → Bool
  | literal _ .nil | literal _ .null | cond _ _ _ none => true
  | _ => false

def isTruth : Expr → Bool
  | literal _ (.bool _) => true
  | _ => false

/-- the headers that an expression needs apart from its parts -/
def ownHeaders (e : Expr) : List String :=
  (if e.isPrint then ["<stdio.h>"] else []) ++
    ((if e.isNothing then ["<stddef.h>"] else []) ++ if e.isTruth then ["<stdbool.h>"] else [])

end Expr

def Node.ownHeaders : Node → List String
  | expr e => e.ownHeaders
  | stmt _ => []

mutual

/-- the types that are written for a statement, those of variables, where names have the types known -/
def Stmt.spelled (known : ScopeTree) : Stmt → List Ty
  | .store _ _ ty e => [e.variableTy known ty]
  | .block _ b => spelledIn known b
  | .cond _ _ y no => y.spelled known ++ spelledElse known no
  | .loop _ n _ y => y.spelled (known.declare n (.simple .int))
  | .expr _ _ | .function _ _ _ _ _ | .leave _ | .blank _ => []

def spelledIn (known : ScopeTree) : List Stmt → List Ty
  | [] => []
  | s :: ss => s.spelled known ++ spelledIn (s.knownBehind known) ss

def spelledElse (known : ScopeTree) : Option Stmt → List Ty
  | none => []
  | some y => y.spelled known

end

/-- a function has those of its result and its parameters written too -/
def Stmt.functionSpelled (known : ScopeTree) : Stmt → List Ty
  | .function _ _ ps r b => r.toList ++ (ps.map Param.givenTy ++ spelledIn (knownIn known ps) b)
  | _ => []

/-- the types that are written for a program, functions first -/
def Code.spelled (known : ScopeTree) (code : Code) : List Ty :=
  code.flatMap (Stmt.functionSpelled known) ++
    spelledIn known (code.filter (!C.Compile.isFunction ·))

namespace C

theorem mem_tyHeaders {h : String} : (ty : Ty) → (h ∈ tyHeaders ty ↔
    h = "<stdint.h>" ∧ ty.Reaches .byte ∨ h = "<stdbool.h>" ∧ ty.Reaches .bool)
  | .mk kind name none => by
    constructor
    · cases kind <;> simp only [tyHeaders, List.mem_singleton, List.not_mem_nil, false_implies]
      case byte => exact fun hh => .inl ⟨hh, .self⟩
      case bool => exact fun hh => .inr ⟨hh, .self⟩
    · rintro (⟨rfl, ⟨⟩⟩ | ⟨rfl, ⟨⟩⟩) <;> exact List.mem_singleton_self _
  | .mk kind name (some e) => by
    have he := mem_tyHeaders (h := h) e
    constructor
    · cases kind <;> simp only [tyHeaders, List.mem_singleton, List.not_mem_nil, false_implies]
      case byte => exact fun hh => .inl ⟨hh, .self⟩
      case bool => exact fun hh => .inr ⟨hh, .self⟩
      case array => exact fun hh => (he.1 hh).imp (.imp_right .array) (.imp_right .array)
      case ptr => exact fun hh => (he.1 hh).imp (.imp_right .pointer) (.imp_right .pointer)
    · rintro (⟨rfl, hr⟩ | ⟨rfl, hr⟩) <;> cases hr
      case inl.self | inr.self => exact List.mem_singleton_self _
      case inl.array hr | inl.pointer hr => exact he.2 (.inl ⟨rfl, hr⟩)
      case inr.array hr | inr.pointer hr => exact he.2 (.inr ⟨rfl, hr⟩)

/-- the header is one that the node or a part of it needs -/
def NeedsInside (n : Node) (h : String) : Prop :=
  ∃ p, Relation.ReflTransGen (fun p c => c ∈ p.children) n p ∧ h ∈ p.ownHeaders

/-- headers are those that some nodes need with their parts, and those of some types -/
def Covers (ns : List Node) (tys : List Ty) (hs : List String) : Prop :=
  ∀ h, h ∈ hs ↔ (∃ n ∈ ns, NeedsInside n h) ∨ ∃ ty ∈ tys, h ∈ tyHeaders ty

namespace Covers

variable {ns ns' : List Node} {tys tys' : List Ty} {hs hs' : List String} {n : Node}

theorem nil : Covers [] [] [] := by simp [Covers]

theorem types (tys : List Ty) : Covers [] tys (tys.flatMap tyHeaders) := by simp [Covers]

theorem append (h : Covers ns tys hs) (h' : Covers ns' tys' hs') :
    Covers (ns ++ ns') (tys ++ tys') (hs ++ hs') := by
  intro k
  simp only [List.mem_append, or_and_right, exists_or, h k, h' k]
  exact or_or_or_comm

theorem congr (h : Covers ns tys hs) (hsame : ∀ k, k ∈ hs ↔ k ∈ hs') : Covers ns tys hs' :=
  fun k => (hsame k).symm.trans (h k)

/-- from the parts of a node to the node -/
theorem node (h : Covers n.children tys hs) : Covers [n] tys (n.ownHeaders ++ hs) := by
  intro k
  have hinside : NeedsInside n k ↔ k ∈ n.ownHeaders ∨ ∃ c ∈ n.children, NeedsInside c k :=
    Node.inside_iff
  simp only [List.mem_append, List.mem_singleton, exists_eq_left, hinside, h k, or_assoc]

end Covers

theorem stmtsHeaders_append (ss ss' : List Stmt) :
    stmtsHeaders (ss ++ ss') = stmtsHeaders ss ++ stmtsHeaders ss' := by
  induction ss with
  | nil => rfl
  | cons s ss ih => rw [List.cons_append, stmtsHeaders, ih, stmtsHeaders, List.append_assoc]

theorem Function.headers_eq (f : Function) :
    f.headers = (f.result.toList ++ f.params.map (·.1)).flatMap tyHeaders ++ stmtsHeaders f.body := by
  obtain ⟨result, name, params, b⟩ := f
  cases result <;> simp [Function.headers, List.flatMap_map]

namespace Compile

variable {known : ScopeTree}

mutual

theorem headers_expr : (e : AutoLang.Expr) →
    GivesKnowing known known (expr e) fun c => Covers [.expr e] [] (exprHeaders c)
  | .literal s v => by
    rw [expr]
    have hv := Covers.node (n := .expr (.literal s v)) .nil
    exact .pure (by cases v <;> exact hv)
  | .ident s n => by
    rw [expr]
    exact .pure (Covers.node (n := .expr (.ident s n)) .nil)
  | .ref s n => by
    rw [expr]
    exact .pure (Covers.node (n := .expr (.ref s n)) .nil)
  | .unary s op e => by
    rw [expr]
    exact (headers_expr e).bind fun c hc => .pure (Covers.node (n := .expr (.unary s op e)) hc)
  | .binary s l op r => by
    rw [expr]
    refine (headers_expr l).bind fun c hc => (headers_expr r).bind fun c' hc' => .pure ?_
    have hparts := Covers.node (n := .expr (.binary s l op r)) (hc.append hc')
    split
    · exact hparts
    · exact hparts
  | .array s es => by
    rw [expr]
    exact (headers_exprs es).bind fun cs hcs => .pure (Covers.node (n := .expr (.array s es)) hcs)
  | .pair s (.mk k e) => by
    rw [expr]
    refine (headers_expr e).bind fun c hc => .pure ?_
    exact (Covers.node (n := .expr (.pair s (.mk k e))) hc).congr
      fun _ => by rw [exprHeaders, fieldsHeaders, fieldsHeaders, List.append_nil]; rfl
  | .object s fs => by
    rw [expr]
    exact (headers_fields fs).bind fun cs hcs => .pure (Covers.node (n := .expr (.object s fs)) hcs)
  | .call s f es => by
    rw [expr]
    have hargs := headers_exprs es
    split
    · -- the callee is not compiled, but it is a name
      rename_i hname
      obtain ⟨s', rfl⟩ : ∃ s', f = .ident s' Eval.printName := by
        cases f with
        | ident s' n => exact ⟨s', by simpa [Expr.name?] using hname⟩
        | _ => cases hname
      refine .get fun _ _ => hargs.bind fun cs hcs => .pure ?_
      have hcallee := Covers.node (n := .expr (.ident s' Eval.printName)) .nil
      exact Covers.node (n := .expr (.call s (.ident s' Eval.printName) es)) (hcallee.append hcs)
    · rename_i hname
      have hplain : (AutoLang.Expr.call s f es).isPrint = false := by
        cases f with
        | ident s' n => simpa [Expr.name?, Expr.isPrint, Eval.printName] using hname
        | _ => rfl
      refine (headers_expr f).bind fun c hc => hargs.bind fun cs hcs => .pure ?_
      have hparts := Covers.node (n := .expr (.call s f es)) (hc.append hcs)
      rwa [Node.ownHeaders, Expr.ownHeaders, hplain] at hparts
  | .index s a i => by
    rw [expr]
    refine (headers_expr a).bind fun c hc => (headers_expr i).bind fun c' hc' => .pure ?_
    exact Covers.node (n := .expr (.index s a i)) (hc.append hc')
  | .cond s t y (some n) => by
    rw [expr]
    refine (headers_expr t).bind fun c hc => (headers_expr y).bind fun c' hc' =>
      (headers_expr n).bind fun c'' hc'' => .pure ?_
    rw [exprHeaders, List.append_assoc]
    exact Covers.node (n := .expr (.cond s t y (some n))) (hc.append (hc'.append hc''))
  | .cond s t y none => by
    rw [expr]
    refine (headers_expr t).bind fun c hc => (headers_expr y).bind fun c' hc' => .pure ?_
    -- the value that is missing is written last
    refine (Covers.node (n := .expr (.cond s t y none)) (hc.append hc')).congr fun k => ?_
    change k ∈ "<stddef.h>" :: (exprHeaders c ++ exprHeaders c') ↔
      k ∈ exprHeaders c ++ exprHeaders c' ++ ["<stddef.h>"]
    rw [List.mem_cons, List.mem_append (t := ["<stddef.h>"]), List.mem_singleton, or_comm]
  | .block s b => by
    rcases b with _ | ⟨x, _ | ⟨x', xs⟩⟩
    · rw [expr]
      · exact .throw _
      · nofun
      · nofun
    · cases x with
      | expr s' e =>
        rw [expr]
        refine (headers_expr e).bind fun c hc => .pure ?_
        exact Covers.node (n := .expr (.block s [.expr s' e])) (Covers.node (n := .stmt (.expr s' e)) hc)
      | _ =>
        rw [expr]
        · exact .throw _
        · nofun
    · rw [expr]
      · exact .throw _
      · nofun
      · nofun
  | .range _ _ _ _ => by
    rw [expr]
    exact .throw _
  | .format _ _ => by
    rw [expr]
    exact .throw _

theorem headers_exprs : (es : List AutoLang.Expr) →
    GivesKnowing known known (exprs es) fun cs => Covers (es.map .expr) [] (exprsHeaders cs)
  | [] => by
    rw [exprs]
    exact .pure .nil
  | e :: es => by
    rw [exprs]
    exact (headers_expr e).bind fun c hc => (headers_exprs es).bind fun cs hcs =>
      .pure (hc.append hcs)

theorem headers_fields : (fs : List Field) →
    GivesKnowing known known (fields fs) fun cs =>
      Covers (fs.map (.expr ·.value)) [] (fieldsHeaders cs)
  | [] => by
    rw [fields]
    exact .pure .nil
  | .mk k e :: fs => by
    rw [fields]
    exact (headers_expr e).bind fun c hc => (headers_fields fs).bind fun cs hcs =>
      .pure (hc.append hcs)

end

/-- the headers of a statement and of its parts -/
def HeadersStmt (known : ScopeTree) (y : AutoLang.Stmt) : Prop :=
  KnowingStmt known y (fun out => Covers [.stmt y] (y.spelled known) (stmtsHeaders out))
    fun r => Covers [.stmt y] (y.spelled known) (restHeaders r)

theorem HeadersStmt.of_stmt {y : AutoLang.Stmt} (hblock : isBlock y = false) (hcond : isCond y = false)
    (h : GivesKnowing known (y.knownBehind known) (Compile.stmt y) fun out =>
      Covers [.stmt y] (y.spelled known) (stmtsHeaders out)) : HeadersStmt known y :=
  KnowingStmt.of_stmt hblock hcond (fun _ h => h) h

mutual

theorem headers_stmt : (y : AutoLang.Stmt) → {known : ScopeTree} → known.WellFormed →
    HeadersStmt known y
  | .expr s e, known, hk => by
    apply HeadersStmt.of_stmt rfl rfl
    rw [stmt]
    refine (headers_expr e).bind fun c hc => .pure ?_
    rw [stmtsHeaders, stmtsHeaders, List.append_nil]
    exact Covers.node (n := .stmt (.expr s e)) hc
  | .store s n ty e, known, hk => by
    apply HeadersStmt.of_stmt rfl rfl
    rw [stmt]
    refine .get fun t ht => (headers_expr e).bind fun c hc => ?_
    have hty : (ty.or (e.ty? t)).getD (.simple .int) = e.variableTy known ty := by
      rw [Expr.variableTy, Expr.ty?_congr ht]
    rw [hty]
    refine (GivesKnowing.declareTy hk n _).bind fun _ _ => .pure ?_
    rw [stmtsHeaders, stmtsHeaders, List.append_nil, stmtHeaders]
    have hparts := hc.append (.types [e.variableTy known ty])
    rw [List.append_nil, List.nil_append, List.flatMap_singleton] at hparts
    exact Covers.node (n := .stmt (.store s n ty e)) hparts
  | .block s b, known, hk => by
    obtain ⟨after, hb⟩ := headers_stmts b hk
    have hbody : GivesKnowing known after (body (.block s b)) fun out =>
        Covers [.stmt (.block s b)] (spelledIn known b) (stmtsHeaders out) :=
      fun t hw ht out hout => (hb t hw ht out hout).imp_left (Covers.node (n := .stmt (.block s b)))
    refine ⟨?_, ⟨after, hbody⟩, .orElse rfl (fun _ h => h) hbody⟩
    rw [stmt]
    refine (hbody.inScope .block (declares_stmts b)).bind fun out hout => .pure ?_
    rw [stmtsHeaders, stmtsHeaders, List.append_nil]
    exact hout
  | .cond s t y no, known, hk => by
    obtain ⟨after, hbody⟩ := (headers_stmt y hk).body
    have hy := hbody.inScope .block (declares_stmt y).body
    have hparts {c : Expr} {out : List Stmt} {r : Rest} (hc : Covers [.expr t] [] (exprHeaders c))
        (hout : Covers [.stmt y] (y.spelled known) (stmtsHeaders out))
        (hr : Covers (no.toList.map .stmt) (spelledElse known no) (restHeaders r)) :
        Covers [.stmt (.cond s t y no)] (y.spelled known ++ spelledElse known no)
          (exprHeaders c ++ stmtsHeaders out ++ restHeaders r) := by
      rw [List.append_assoc]
      exact Covers.node (n := .stmt (.cond s t y no)) (hc.append (hout.append hr))
    have hcond : GivesKnowing known known (stmt (.cond s t y no)) fun out =>
        Covers [.stmt (.cond s t y no)] (y.spelled known ++ spelledElse known no)
          (stmtsHeaders out) := by
      rw [stmt_cond]
      refine (headers_expr t).bind fun c hc => hy.bind fun out hout =>
        (headers_rest no hk).bind fun r hr => .pure ?_
      rw [stmtsHeaders, stmtsHeaders, List.append_nil, stmtHeaders]
      exact hparts hc hout hr
    refine ⟨hcond, ⟨known, hcond⟩, ?_⟩
    rw [rest_cond]
    exact (headers_expr t).bind fun c hc => hy.bind fun out hout =>
      (headers_rest no hk).bind fun r hr => .pure (hparts hc hout hr)
  | .loop s n e y, known, hk => by
    apply HeadersStmt.of_stmt rfl rfl
    cases e with
    | range s' a b inclusive =>
      rw [stmt_loop]
      obtain ⟨after, hbody⟩ := (headers_stmt y (ScopeTree.declare_spec (n := n) hk).1).body
      have hinner := (GivesKnowing.declareTy hk n (.simple .int)).bind fun _ _ => hbody
      have hdeclares : Declares (do declareTy n (.simple .int); body y) :=
        (Declares.declareTy n _).bind fun _ => (declares_stmt y).body
      refine (headers_expr a).bind fun c hc => (headers_expr b).bind fun c' hc' =>
        (hinner.inScope .block hdeclares).bind fun out hout => .pure ?_
      have hrange := Covers.node (n := .expr (.range s' a b inclusive)) (hc.append hc')
      rw [stmtsHeaders, stmtsHeaders, List.append_nil, stmtHeaders]
      exact Covers.node (n := .stmt (.loop s n (.range s' a b inclusive) y)) (hrange.append hout)
    | _ =>
      rw [stmt]
      · exact .throw _
      · nofun
  | .function _ _ _ _ _, known, _ => by
    apply HeadersStmt.of_stmt rfl rfl
    rw [stmt]
    exact .throw _
  | .leave s, known, _ => by
    apply HeadersStmt.of_stmt rfl rfl
    rw [stmt]
    exact .pure (Covers.node (n := .stmt (.leave s)) .nil)
  | .blank s, known, _ => by
    apply HeadersStmt.of_stmt rfl rfl
    rw [stmt]
    exact .pure (Covers.node (n := .stmt (.blank s)) .nil)

theorem headers_stmts : (ys : List AutoLang.Stmt) → {known : ScopeTree} → known.WellFormed →
    ∃ after, GivesKnowing known after (stmts ys) fun out =>
      Covers (ys.map .stmt) (spelledIn known ys) (stmtsHeaders out)
  | [], known, _ => by
    rw [stmts]
    exact ⟨known, .pure .nil⟩
  | y :: ys, known, hk => by
    obtain ⟨after, hys⟩ := headers_stmts ys (y.wellFormed_knownBehind hk)
    rw [stmts]
    refine ⟨after, (headers_stmt y hk).stmt.bind fun out hout => hys.bind fun out' hout' => .pure ?_⟩
    rw [stmtsHeaders_append]
    exact hout.append hout'

theorem headers_rest : (no : Option AutoLang.Stmt) → {known : ScopeTree} → known.WellFormed →
    GivesKnowing known known (rest no) fun r =>
      Covers (no.toList.map .stmt) (spelledElse known no) (restHeaders r)
  | none, _, _ => by
    rw [rest]
    exact .pure .nil
  | some y, _, hk => (headers_stmt y hk).rest

end

/-- the expression that gives the result needs what any other needs -/
theorem headers_resultStmts (ys : List AutoLang.Stmt) : ∀ {known : ScopeTree}, known.WellFormed →
    ∃ after, GivesKnowing known after (resultStmts ys) fun out =>
      Covers (ys.map .stmt) (spelledIn known ys) (stmtsHeaders out) := by
  induction ys with
  | nil =>
    intro known _
    rw [resultStmts]
    exact ⟨known, .pure .nil⟩
  | cons y ys ih =>
    intro known hk
    obtain ⟨after, hys⟩ := ih (y.wellFormed_knownBehind hk)
    have hmore : GivesKnowing known after (do let first ← stmt y; return first ++ (← resultStmts ys))
        fun out => Covers ((y :: ys).map .stmt) (spelledIn known (y :: ys)) (stmtsHeaders out) := by
      refine (headers_stmt y hk).stmt.bind fun out hout => hys.bind fun out' hout' => .pure ?_
      rw [stmtsHeaders_append]
      exact hout.append hout'
    obtain ⟨s, e, rfl, rfl, hresult⟩ | hresult := resultStmts_cases y ys
    · rw [hresult]
      refine ⟨known, (headers_expr e).bind fun c hc => .pure ?_⟩
      rw [stmtsHeaders, stmtsHeaders, List.append_nil]
      exact Covers.node (n := .stmt (.expr s e)) hc
    · rw [hresult]
      exact ⟨after, hmore⟩

theorem headers_function (s : Span) (name : String) (params : List Param) (result : Option Ty)
    (b : List AutoLang.Stmt) (hk : known.WellFormed) :
    GivesKnowing known known (function name params result b) fun f =>
      Covers (b.map .stmt)
        ((AutoLang.Stmt.function s name params result b).functionSpelled known) f.headers := by
  obtain ⟨hin, hparams⟩ := knowing_params params hk
  have hbody : ∃ after, GivesKnowing (knownIn known params) after
      (if result.any (·.kind != .void) then resultStmts b else stmts b) fun out =>
        Covers (b.map .stmt) (spelledIn (knownIn known params) b) (stmtsHeaders out) := by
    split
    · exact headers_resultStmts b hin
    · exact headers_stmts b hin
  obtain ⟨after, hbody⟩ := hbody
  have hinner := hparams.bind fun _ _ => hbody
  have hdeclares := (declares_params (params.map fun p => (p.givenTy, p.name))).bind fun _ =>
    Declares.ite (c := result.any (·.kind != .void)) (declares_resultStmts b) (declares_stmts b)
  rw [function]
  refine (hinner.inScope .function hdeclares).bind fun out hout => .pure ?_
  have htypes := Covers.types (result.toList ++ params.map Param.givenTy)
  have hall := htypes.append hout
  rw [List.append_assoc, List.nil_append] at hall
  have htyped : (params.map fun p => (p.givenTy, p.name)).map (·.1) = params.map Param.givenTy := by
    rw [List.map_map]
    rfl
  rw [Function.headers_eq]
  exact htyped ▸ hall

/-- the functions of a program, with the headers of all of them together -/
theorem headers_functions (code : Code) (hk : known.WellFormed) :
    GivesKnowing known known (functions code) fun fs =>
      Covers (functionParts code) (code.flatMap (Stmt.functionSpelled known))
        (fs.flatMap Function.headers) := by
  induction code with
  | nil =>
    rw [functions]
    exact .pure .nil
  | cons y code ih =>
    cases y with
    | function s n ps r b =>
      rw [functions]
      refine (headers_function s n ps r b hk).bind fun f hf => ih.bind fun fs hfs => .pure ?_
      exact hf.append hfs
    | _ =>
      rw [functions_other rfl]
      exact ih

theorem headers_program (code : Code) (hk : known.WellFormed) :
    ∃ after, GivesKnowing known after (program code) fun p =>
      Covers (functionParts code ++ (code.filter (!isFunction ·)).map .stmt) (code.spelled known)
        (p.functions.flatMap Function.headers ++ (p.main.map stmtsHeaders).getD []) := by
  have hfunctions := headers_functions code hk
  cases hnone : (code.filter (!isFunction ·)).isEmpty with
  | true =>
    have hempty := List.isEmpty_iff.1 hnone
    refine ⟨known, ?_⟩
    rw [program]
    refine hfunctions.bind fun fs hfs => ?_
    simp only [hnone, if_true]
    refine .pure ?_
    rw [Code.spelled, hempty]
    exact hfs.append .nil
  | false =>
    obtain ⟨after, hmain⟩ := headers_stmts (code.filter (!isFunction ·)) hk
    refine ⟨after, ?_⟩
    rw [program]
    refine hfunctions.bind fun fs hfs => ?_
    simp only [hnone, Bool.false_eq_true, if_false]
    exact hmain.bind fun out hout => .pure (hfs.append hout)

end Compile

namespace Writer

variable {h : String}

theorem mem_require {w : Writer} {header : String} :
    h ∈ (w.require header).headers ↔ h ∈ w.headers ∨ h = header := by
  unfold require
  split
  · rename_i hthere
    exact ⟨.inl, fun hh => hh.elim id fun heq => heq ▸ hthere⟩
  · simp

theorem nodup_require {w : Writer} (hw : w.headers.Nodup) (header : String) :
    (w.require header).headers.Nodup := by
  unfold require
  split
  · exact hw
  · rename_i hnew
    rw [← List.concat_eq_append]
    exact hw.concat hnew

/-- asking for headers one after the other adds those that are not there -/
theorem headers_foldl_require (hs : List String) : ∀ w : Writer, w.headers.Nodup →
    (hs.foldl require w).headers.Nodup ∧
      ∀ h, h ∈ (hs.foldl require w).headers ↔ h ∈ w.headers ∨ h ∈ hs := by
  induction hs with
  | nil => exact fun w hw => ⟨hw, by simp⟩
  | cons header hs ih =>
    intro w hw
    obtain ⟨hnodup, hmem⟩ := ih (w.require header) (nodup_require hw header)
    exact ⟨hnodup, fun h => by rw [List.foldl_cons, hmem, mem_require, List.mem_cons, or_assoc]⟩

end Writer

/-- the nodes that are compiled have in them all of the program but its functions themselves -/
theorem needsInside_program {code : Code} {h : String} :
    (∃ n ∈ Compile.functionParts code ++ (code.filter (!Compile.isFunction ·)).map .stmt,
      NeedsInside n h) ↔ ∃ n, NodeOf code n ∧ h ∈ n.ownHeaders := by
  have hinside (x : AutoLang.Stmt) : NeedsInside (.stmt x) h ↔ ∃ c ∈ x.children, NeedsInside c h :=
    Node.inside_iff.trans (or_iff_right (List.not_mem_nil))
  have hcode : (∃ n, NodeOf code n ∧ h ∈ n.ownHeaders) ↔ ∃ x ∈ code, NeedsInside (.stmt x) h := by
    simp only [nodeOf_iff, NeedsInside]
    tauto
  rw [hcode]
  constructor
  · rintro ⟨n, hn, hneeds⟩
    rcases List.mem_append.1 hn with hn | hn
    · obtain ⟨x, hx, hc⟩ := List.mem_flatMap.1 hn
      exact ⟨x, (List.mem_filter.1 hx).1, (hinside x).2 ⟨n, hc, hneeds⟩⟩
    · obtain ⟨x, hx, rfl⟩ := List.mem_map.1 hn
      exact ⟨x, (List.mem_filter.1 hx).1, hneeds⟩
  · rintro ⟨x, hx, hneeds⟩
    cases hf : Compile.isFunction x with
    | true =>
      obtain ⟨c, hc, hneeds⟩ := (hinside x).1 hneeds
      have hpart := List.mem_flatMap_of_mem (List.mem_filter.2 ⟨hx, hf⟩) hc
      exact ⟨c, List.mem_append_left _ hpart, hneeds⟩
    | false =>
      have hother : x ∈ code.filter (!Compile.isFunction ·) := by simp [hx, hf]
      exact ⟨_, List.mem_append_right _ (List.mem_map_of_mem hother), hneeds⟩

/-- what a line includes, if it is a directive that does -/
def includeOf? (line : List Char) : Option String :=
  match line.dropWhile Char.isWhitespace with
  | '#' :: text =>
    let directive := text.dropWhile Char.isWhitespace
    if directive.takeWhile Lexeme.isWordChar = "include".toList then
      some (String.ofList ((directive.dropWhile Lexeme.isWordChar).dropWhile Char.isWhitespace))
    else none
  | _ => none

/-- what the lines of a text include, in their order -/
def includesIn (text : String) : List String := (text.toList.splitOn '\n').filterMap includeOf?

section Includes

theorem includesIn_line (text rest : String) :
    includesIn (text ++ "\n" ++ rest) = includesIn text ++ includesIn rest := by
  have htext : (text ++ "\n" ++ rest).toList = text.toList ++ '\n' :: rest.toList := by
    simp [String.toList_append]
  rw [includesIn, htext, List.splitOn, List.splitOnP_append_cons _ _ (by rfl), List.filterMap_append]
  rfl

/-- the lines of a text, one after the other -/
theorem includesIn_lines (lines : List String) :
    includesIn (String.join (lines.map (· ++ "\n"))) = lines.flatMap includesIn := by
  induction lines with
  | nil => rfl
  | cons text lines ih =>
    rw [List.map_cons, String.join_cons, includesIn_line, ih, List.flatMap_cons]

theorem includesIn_of_unbroken {text : String} (h : Unbroken text) :
    includesIn text = (includeOf? text.toList).toList := by
  have hplain : ∀ c ∈ text.toList, (c == '\n') = false :=
    fun c hc => beq_eq_false_iff_ne.2 fun heq => h (heq ▸ hc)
  rw [includesIn, List.splitOn, List.splitOnP_eq_singleton hplain, List.filterMap_cons,
    List.filterMap_nil]
  cases includeOf? text.toList <;> rfl

end Includes

/-- the lines of a header file before its includes -/
def guardLines (name : String) : GuardStyle → List String
  | .pragma => ["#pragma once", ""]
  | .define => ["#ifndef " ++ guardName name, "#define " ++ guardName name, ""]

/-- the lines of a header file behind its prototypes, of which there may be none -/
def guardEnd (name : String) (bare : Bool) : GuardStyle → List String
  | .pragma => []
  | .define => (if bare then [] else [""]) ++ ["#endif // " ++ guardName name]

theorem join_gap (none : Bool) :
    String.join ((if none then [] else [""]).map (· ++ "\n")) = if none then "" else "\n" := by
  cases none <;> rfl

/-- a header file line by line -/
theorem Program.headerText_eq (p : Program) (name : String) (style : GuardStyle) :
    p.headerText name style = String.join ((guardLines name style ++ p.headers.map ("#include " ++ ·) ++
      (if p.headers.isEmpty then [] else [""]) ++ p.prototypes.map (· ++ ";") ++
      guardEnd name p.prototypes.isEmpty style).map (· ++ "\n")) := by
  have hincludes : (p.headers.map ("#include " ++ ·)).map (· ++ "\n") =
      p.headers.map fun h => "#include " ++ h ++ "\n" := List.map_map
  have hdeclared : (p.prototypes.map (· ++ ";")).map (· ++ "\n") = p.prototypes.map (· ++ ";\n") := by
    rw [List.map_map]
    exact List.map_congr_left fun text _ => String.append_assoc
  rw [List.map_append, List.map_append, List.map_append, List.map_append, hincludes, hdeclared]
  simp only [String.join_append, join_gap]
  unfold headerText
  dsimp only
  rw [List.isEmpty_map, List.isEmpty_map]
  congr 1
  · congr 3
    cases style with
    | pragma => rfl
    | define =>
      have hdefine : "\n#define " = "\n" ++ "#define " := rfl
      simp only [guardLines, List.map_cons, List.map_nil, String.join_cons, String.join_nil,
        String.append_assoc, hdefine]
      rfl
  · cases style with
    | pragma => rfl
    | define =>
      rw [guardEnd, List.map_append, String.join_append, join_gap]
      simp [String.append_assoc]

section Lines

variable {name : String}

theorem toUpper_ne_newline {c : Char} (h : c.isAlphanum) : c.toUpper ≠ '\n' := by
  unfold Char.toUpper
  split
  · rename_i hlower
    obtain ⟨hfirst, hlast⟩ := hlower
    intro heq
    have hval := congrArg Char.val heq
    simp only at hval
    grind
  · rintro rfl
    cases h

/-- a guard is spelled with letters, digits and underscores -/
theorem unbroken_guardName : Unbroken (guardName name) := by
  refine .append ?_ (by decide)
  rw [Unbroken, String.toList_ofList, List.mem_map]
  rintro ⟨c, -, hc⟩
  split at hc
  · rename_i hword
    exact toUpper_ne_newline hword hc
  · cases hc

/-- a directive of another kind includes nothing, whatever stands behind its first word -/
theorem includesIn_guard {front : String} (hfront : Unbroken front)
    (h : ∀ cs, includeOf? (front.toList ++ cs) = none) : includesIn (front ++ guardName name) = [] := by
  rw [includesIn_of_unbroken (hfront.append unbroken_guardName), String.toList_append, h]
  rfl

theorem includesIn_guardLines (style : GuardStyle) :
    (guardLines name style).flatMap includesIn = [] := by
  cases style with
  | pragma =>
    rw [guardLines]
    decide
  | define =>
    have hifndef : includesIn ("#ifndef " ++ guardName name) = [] :=
      includesIn_guard (by decide) fun _ => rfl
    have hdefine : includesIn ("#define " ++ guardName name) = [] :=
      includesIn_guard (by decide) fun _ => rfl
    rw [guardLines, List.flatMap_cons, List.flatMap_cons, hifndef, hdefine]
    rfl

theorem includesIn_guardEnd (style : GuardStyle) (bare : Bool) :
    (guardEnd name bare style).flatMap includesIn = [] := by
  cases style with
  | pragma => rfl
  | define =>
    have hendif : includesIn ("#endif // " ++ guardName name) = [] :=
      includesIn_guard (by decide) fun _ => rfl
    rw [guardEnd, List.flatMap_append, List.flatMap_cons, hendif]
    cases bare <;> rfl

end Lines

def systemHeaders : List String := ["<stdio.h>", "<stddef.h>", "<stdbool.h>", "<stdint.h>"]

/-- a header file includes what is asked for, and what the lines of its prototypes do -/
theorem Program.includesIn_headerText {p : Program} (h : ∀ k ∈ p.headers, k ∈ systemHeaders)
    (name : String) (style : GuardStyle) : includesIn (p.headerText name style) =
      p.headers ++ p.prototypes.flatMap fun d => includesIn (d ++ ";") := by
  have hsystem : ∀ k ∈ systemHeaders, includesIn ("#include " ++ k) = [k] := by decide
  have hheaders : (p.headers.map ("#include " ++ ·)).flatMap includesIn = p.headers := by
    rw [List.flatMap_map, List.flatMap_congr fun k hk => hsystem k (h k hk), List.flatMap_singleton']
  have hgap (none : Bool) : (if none then [] else [""]).flatMap includesIn = [] := by
    cases none <;> rfl
  rw [p.headerText_eq, includesIn_lines, List.flatMap_append, List.flatMap_append, List.flatMap_append,
    List.flatMap_append, includesIn_guardLines, includesIn_guardEnd, hheaders, hgap, List.flatMap_map,
    List.nil_append, List.append_nil, List.append_nil]

/-- a prototype whose names are words is no directive -/
theorem includesIn_prototype {f : Function} (h : f.Announced (isIdentifier · = true)) :
    includesIn (f.prototype ++ ";") = [] := by
  have hok : OfWords (isIdentifier · = true) := fun _ hn => hn
  obtain ⟨w, more, hw, hresult, -⟩ := (IsSpelling.result h).exists_word hok
  obtain ⟨c, cs, hcs, hc, -⟩ := exists_cons_of_isIdentifier hw
  have htext : ∃ ds, (f.prototype ++ ";").toList = c :: ds := by
    rw [Function.prototype]
    simp only [String.toList_append, hresult, hcs, List.cons_append]
    exact ⟨_, rfl⟩
  obtain ⟨ds, hds⟩ := htext
  have hnone : includeOf? (c :: ds) = none := by
    have hblank := isWhitespace_of_isWordChar (Lexeme.isWordChar_of_isWordStart hc)
    rw [includeOf?, List.dropWhile_cons_of_neg (by simp [hblank])]
    split
    · rename_i heq
      obtain ⟨rfl, -⟩ := List.cons.inj heq
      cases hc
    · rfl
  rw [includesIn_of_unbroken ((inline_prototype hok h).unbroken.append (by decide)), hds, hnone]
  rfl

theorem Program.includesIn_prototypes {p : Program}
    (h : ∀ f ∈ p.functions, f.Announced (isIdentifier · = true)) :
    p.prototypes.flatMap (fun d => includesIn (d ++ ";")) = [] := by
  refine List.flatMap_eq_nil_iff.2 fun d hd => ?_
  rcases List.mem_append.1 hd with hd | hd
  · obtain ⟨f, hf, rfl⟩ := List.mem_map.1 hd
    exact includesIn_prototype (h f hf)
  · split at hd
    · obtain rfl := List.mem_singleton.1 hd
      decide
    · cases hd

end C

theorem mem_ownHeaders {e : Expr} {h : String} : h ∈ e.ownHeaders ↔
    e.isPrint ∧ h = "<stdio.h>" ∨ e.isNothing ∧ h = "<stddef.h>" ∨ e.isTruth ∧ h = "<stdbool.h>" := by
  simp only [Expr.ownHeaders, List.mem_append]
  refine or_congr ?_ (or_congr ?_ ?_) <;> split <;> simp_all

theorem exists_ownHeaders {code : Code} {h : String} : (∃ n, NodeOf code n ∧ h ∈ n.ownHeaders) ↔
    ∃ e, NodeOf code (.expr e) ∧ h ∈ e.ownHeaders := by
  constructor
  · rintro ⟨n, hn, hh⟩
    cases n with
    | expr e => exact ⟨e, hn, hh⟩
    | stmt x => cases hh
  · rintro ⟨e, he, hh⟩
    exact ⟨.expr e, he, hh⟩

/-- Over any scopes, the lines of a compiled header file that include something are one for each system
header that the program needs, and none twice: for `print` called by its name, for `nil`, `null` and a
conditional expression without `else`, for `true` and `false`, and for types that are a `bool` or a
`byte` in the end, which may be types of variables (given, or found from their values), of parameters
and of results. Only names that are no words can make a prototype include anything. -/
theorem headers_as_needed (scopes : ScopeTree) (hscopes : scopes.Reachable) (code : Code)
    (name : String) (style : C.GuardStyle) (files : CFiles)
    (h : (compileOver scopes code name style).1 = .ok files) :
    ∃ p, ((C.Compile.program code).run.run scopes).1 = .ok p ∧
      files.header = p.headerText name style ∧
      C.includesIn files.header =
        p.headers ++ p.prototypes.flatMap (fun prototype => C.includesIn (prototype ++ ";")) ∧
      ((∀ n, NodeOf code n → AreWords n.names) → C.includesIn files.header = p.headers) ∧
      p.headers.Nodup ∧
      (∀ k ∈ p.headers, k ∈ ["<stdio.h>", "<stddef.h>", "<stdbool.h>", "<stdint.h>"]) ∧
      ("<stdio.h>" ∈ p.headers ↔ ∃ e, NodeOf code (.expr e) ∧ e.isPrint) ∧
      ("<stddef.h>" ∈ p.headers ↔ ∃ e, NodeOf code (.expr e) ∧ e.isNothing) ∧
      ("<stdbool.h>" ∈ p.headers ↔
        (∃ e, NodeOf code (.expr e) ∧ e.isTruth) ∨ ∃ ty ∈ code.spelled scopes, ty.Reaches .bool) ∧
      ("<stdint.h>" ∈ p.headers ↔ ∃ ty ∈ code.spelled scopes, ty.Reaches .byte) := by
  obtain ⟨p, hp, rfl⟩ := files_of_compileOver h
  obtain ⟨after, hgives⟩ := C.Compile.headers_program code hscopes.wellFormed
  have hcovers := (hgives scopes hscopes.wellFormed rfl p hp).1
  obtain ⟨hnodup, hmem⟩ := C.Writer.headers_foldl_require
    (p.functions.flatMap C.Function.headers ++ (p.main.map C.stmtsHeaders).getD []) .empty .nil
  have hall (k : String) : k ∈ p.headers ↔
      (∃ e, NodeOf code (.expr e) ∧ k ∈ e.ownHeaders) ∨
        ∃ ty ∈ code.spelled scopes, k ∈ C.tyHeaders ty := by
    rw [← exists_ownHeaders, ← C.needsInside_program, ← hcovers k]
    exact (hmem k).trans (or_iff_right List.not_mem_nil)
  simp only [mem_ownHeaders, C.mem_tyHeaders] at hall
  have hsystem : ∀ k ∈ p.headers, k ∈ C.systemHeaders := by
    intro k hk
    rcases (hall k).1 hk with ⟨e, -, ⟨-, rfl⟩ | ⟨-, rfl⟩ | ⟨-, rfl⟩⟩ | ⟨ty, -, ⟨rfl, -⟩ | ⟨rfl, -⟩⟩ <;>
      decide
  have hincludes := C.Program.includesIn_headerText hsystem name style
  refine ⟨p, hp, rfl, hincludes, fun hcode => ?_, hnodup, hsystem, ?_, ?_, ?_, ?_⟩
  · have hfunctions := C.Compile.announced_program code (fun y hy => hcode _ (.statement hy)) scopes p hp
    exact hincludes.trans (by rw [C.Program.includesIn_prototypes hfunctions, List.append_nil])
  all_goals simp [hall]

namespace Samples

/-- no constant here is a truth value, but the type of `ok` is found to be one; the `byte` stands behind
a pointer -/
def everyHeader : Code :=
  let x := Expr.ident .nowhere "x"
  let once := Expr.cond .nowhere (.ident .nowhere "ok") (.literal .nowhere (.int 1)) none
  [.function .nowhere "f" [⟨"x", some (.ptrTo (.simple .byte))⟩] none [.store .nowhere "y" none x],
    .store .nowhere "ok" none (.unary .nowhere .not x),
    .expr .nowhere (.call .nowhere (.ident .nowhere "print") [once])]

end Samples

open Samples

theorem headers_as_needed_everyHeader : ∃ files : CFiles,
    (compileOver .empty everyHeader "m" .pragma).1 = .ok files ∧ (C.includesIn files.header).Nodup ∧
      ∀ k, k ∈ C.includesIn files.header ↔
        k ∈ ["<stdio.h>", "<stddef.h>", "<stdbool.h>", "<stdint.h>"] := by
  have hok : (compileOver .empty everyHeader "m" .pragma).1.isOk = true := by decide
  cases hfiles : (compileOver .empty everyHeader "m" .pragma).1 with
  | error u =>
    rw [hfiles] at hok
    cases hok
  | ok files =>
    have hcall : NodeOf everyHeader (.expr (.call .nowhere (.ident .nowhere "print")
        [.cond .nowhere (.ident .nowhere "ok") (.literal .nowhere (.int 1)) none])) :=
      .child (.statement (List.mem_of_getElem? (i := 2) rfl)) List.mem_cons_self
    have honce := hcall.child (List.mem_of_getElem? (i := 1) rfl)
    have hwords : ∀ n, NodeOf everyHeader n → AreWords n.names :=
      Code.named_of_check 9 (by decide)
    obtain ⟨p, -, -, -, hlines, hnodup, hsystem, hprint, hnothing, htruth, hbyte⟩ :=
      headers_as_needed .empty ⟨[], rfl⟩ everyHeader "m" .pragma files hfiles
    have hspelled : everyHeader.spelled .empty =
        [.ptrTo (.simple .byte), .ptrTo (.simple .byte), .simple .bool] := rfl
    refine ⟨files, rfl, (hlines hwords).symm ▸ hnodup, fun k => ?_⟩
    rw [hlines hwords]
    refine ⟨hsystem k, fun hk => ?_⟩
    have hall : ∀ k ∈ ["<stdio.h>", "<stddef.h>", "<stdbool.h>", "<stdint.h>"], k ∈ p.headers := by
      simp only [List.forall_mem_cons]
      refine ⟨hprint.2 ⟨_, hcall, rfl⟩, hnothing.2 ⟨_, honce, rfl⟩, htruth.2 (.inr ?_), hbyte.2 ?_,
        nofun⟩
      · exact ⟨.simple .bool, by simp [hspelled], .self⟩
      · exact ⟨.ptrTo (.simple .byte), by simp [hspelled], .pointer .self⟩
    exact hall k hk

end AutoLang
