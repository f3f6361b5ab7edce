import AutoLang.Proofs.C.Declarations
import AutoLang.Proofs.C.Supported
import AutoLang.Proofs.Parse.Nodes
import Mathlib

/-! Constants on their way into C. The compiler leaves none out, and the writer takes nothing back, so
every constant that a program says stands in the text of the C program. -/

namespace AutoLang.C

/-- the constant is written in the text -/
def Shows (v : Literal) (text : String) : Prop := (literalText v).toList <:+: text.toList

section Texts

variable {v : Literal} {text : String}

namespace Shows

theorem self (v : Literal) : Shows v (literalText v) := List.infix_rfl

theorem before (h : Shows v text) (after : String) : Shows v (text ++ after) := by
  unfold Shows
  rw [String.toList_append]
  exact h.trans (List.prefix_append _ _).isInfix

theorem behind (h : Shows v text) (front : String) : Shows v (front ++ text) := by
  unfold Shows
  rw [String.toList_append]
  exact h.trans (List.suffix_append _ _).isInfix

theorem inParens (h : Shows v text) : Shows v (inParens text) := (h.behind "(").before ")"

theorem inBraces (h : Shows v text) : Shows v (inBraces text) := (h.behind "\x7b").before "\x7d"

theorem asOperand (h : Shows v text) (e : Expr) : Shows v (asOperand e text) := by
  unfold C.asOperand
  split
  · exact h.inParens
  · exact h

theorem commaList {texts : List String} (h : ∃ text ∈ texts, Shows v text) :
    Shows v (commaList texts) := by
  unfold C.commaList
  induction texts with
  | nil =>
    obtain ⟨_, hmem, -⟩ := h
    cases hmem
  | cons text texts ih =>
    cases texts with
    | nil =>
      obtain ⟨_, hmem, hshows⟩ := h
      obtain rfl := List.mem_singleton.1 hmem
      exact hshows
    | cons next texts =>
      rw [String.intercalate_cons_cons]
      obtain ⟨_, hmem, hshows⟩ := h
      rcases List.mem_cons.1 hmem with rfl | hmem
      · exact (hshows.before _).before _
      · exact (ih ⟨_, hmem, hshows⟩).behind _

theorem pushn (h : Shows v text) (c : Char) (n : ℕ) : Shows v (text.pushn c n) := by
  change Shows v (n.repeat (·.push c) text)
  induction n with
  | zero => exact h
  | succ n ih =>
    unfold Shows
    rw [Nat.repeat, String.toList_push]
    exact ih.trans (List.prefix_append _ _).isInfix

/-- a bound stands in the head of a loop -/
theorem loopHead (n : String) {start test : String} (h : Shows v start ∨ Shows v test) :
    Shows v ("int " ++ n ++ " = " ++ start ++ "; " ++ test ++ "; " ++ n ++ "++") := by
  rcases h with h | h
  · exact (((((h.behind _).before _).before _).before _).before _).before _
  · exact (((h.behind _).before _).before _).before _

variable {w : Writer}

theorem line (h : Shows v w.output) (text : String) : Shows v (w.line text).output :=
  ((h.pushn ' ' _).before text).before "\n"

theorem ofLine (h : Shows v text) (w : Writer) : Shows v (w.line text).output :=
  (h.behind _).before "\n"

theorem indent (h : Shows v w.output) : Shows v w.indent.output := h

theorem dedent (h : Shows v w.output) : Shows v w.dedent.output := h

end Shows

end Texts

section Writing

variable {v : Literal}

mutual

/-- what is written stays written -/
theorem shows_writeStmt : (s : Stmt) → (w : Writer) → Shows v w.output →
    Shows v (writeStmt s w).output
  | .expr _, _, h | .declare _ _ _, _, h | .leave, _, h | .result _, _, h => by
    rw [writeStmt]
    exact h.line _
  | .block b, w, h => by
    rw [writeStmt]
    exact (shows_writeStmts b _ (h.line _).indent).dedent.line _
  | .cond _ y r, w, h => by
    rw [writeStmt]
    exact (shows_writeRest r _ (shows_writeStmts y _ (h.line _).indent).dedent).line _
  | .loop _ _ _ _ b, w, h => by
    rw [writeStmt]
    exact (shows_writeStmts b _ (h.line _).indent).dedent.line _

theorem shows_writeStmts : (ss : List Stmt) → (w : Writer) → Shows v w.output →
    Shows v (writeStmts ss w).output
  | [], _, h => h
  | s :: ss, w, h => by
    rw [writeStmts]
    exact shows_writeStmts ss _ (shows_writeStmt s w h)

theorem shows_writeRest : (r : Rest) → (w : Writer) → Shows v w.output →
    Shows v (writeRest r w).output
  | .done, _, h => h
  | .orElse b, w, h => by
    rw [writeRest]
    exact (shows_writeStmts b _ (h.line _).indent).dedent
  | .orIf _ y r, w, h => by
    rw [writeRest]
    exact shows_writeRest r _ (shows_writeStmts y _ (h.line _).indent).dedent

end

theorem writeStmts_append (ss ss' : List Stmt) (w : Writer) :
    writeStmts (ss ++ ss') w = writeStmts ss' (writeStmts ss w) := by
  induction ss generalizing w with
  | nil => rfl
  | cons s ss ih => exact ih (writeStmt s w)

end Writing

namespace Compile

variable {v : Literal}

mutual

/-- the constants of an expression are in its text -/
theorem shows_expr : (e : AutoLang.Expr) →
    Gives (expr e) fun c => .value v ∈ e.atoms → Shows v (exprText c)
  | .literal _ w => by
    rw [expr]
    refine .pure fun h => ?_
    obtain rfl : v = w := by simpa [Expr.atoms] using h
    exact .self v
  | .ident _ n | .ref _ n => by
    rw [expr]
    exact .pure fun h => by simp [Expr.atoms] at h
  | .unary _ op e => by
    rw [expr]
    refine (shows_expr e).bind fun c hc => .pure fun h => ?_
    rw [exprText]
    exact ((hc (by simpa [Expr.atoms] using h)).asOperand c).behind _
  | .binary _ l op r => by
    rw [expr]
    refine (shows_expr l).bind fun c hc => (shows_expr r).bind fun c' hc' => .pure fun h => ?_
    have h : .value v ∈ l.atoms ∨ .value v ∈ r.atoms := by simpa [Expr.atoms] using h
    split
    · rw [exprText]
      rcases h with h | h
      · exact (((hc h).asOperand c).before _).before _
      · exact (hc' h).behind _
    · rw [exprText]
      rcases h with h | h
      · exact (((((hc h).asOperand c).before _).before _).before _).before _
      · exact ((hc' h).asOperand c').behind _
  | .array _ es => by
    rw [expr]
    refine (shows_exprs es).bind fun cs hcs => .pure fun h => ?_
    rw [exprText]
    exact (Shows.commaList (hcs (by simpa [Expr.atoms] using h))).inBraces
  | .pair _ (.mk k e) => by
    rw [expr]
    refine (shows_expr e).bind fun c hc => .pure fun h => ?_
    have h : .value v ∈ e.atoms := by simpa [Expr.atoms, Field.atoms] using h
    rw [exprText]
    exact (Shows.commaList ⟨_, List.mem_cons_self, (hc h).behind _⟩).inBraces
  | .object _ fs => by
    rw [expr]
    refine (shows_fields fs).bind fun cs hcs => .pure fun h => ?_
    rw [exprText]
    exact (Shows.commaList (hcs (by simpa [Expr.atoms] using h))).inBraces
  | .call _ f es => by
    rw [expr]
    have hargs := shows_exprs es
    split
    · -- the callee is not compiled, but it is a name
      rename_i hname
      refine .after fun _ => hargs.bind fun cs hcs => .pure fun h => ?_
      have h : .value v ∈ atomsOfExprs es := by
        cases f with
        | ident _ n => simpa [Expr.atoms] using h
        | _ => cases hname
      obtain ⟨text, hmem, hshows⟩ := hcs h
      rw [exprText]
      exact (Shows.commaList ⟨text, List.mem_cons_of_mem _ hmem, hshows⟩).inParens.behind _
    · refine (shows_expr f).bind fun c hc => hargs.bind fun cs hcs => .pure fun h => ?_
      have h : .value v ∈ f.atoms ∨ .value v ∈ atomsOfExprs es := by simpa [Expr.atoms] using h
      rw [exprText]
      rcases h with h | h
      · exact ((hc h).asOperand c).before _
      · exact (Shows.commaList (hcs h)).inParens.behind _
  | .index _ a i => by
    rw [expr]
    refine (shows_expr a).bind fun c hc => (shows_expr i).bind fun c' hc' => .pure fun h => ?_
    have h : .value v ∈ a.atoms ∨ .value v ∈ i.atoms := by simpa [Expr.atoms] using h
    rw [exprText]
    rcases h with h | h
    · exact ((((hc h).asOperand c).before _).before _).before _
    · exact ((hc' h).behind _).before _
  | .cond _ t y (some n) => by
    rw [expr]
    refine (shows_expr t).bind fun c hc => (shows_expr y).bind fun c' hc' =>
      (shows_expr n).bind fun c'' hc'' => .pure fun h => ?_
    have h : .value v ∈ t.atoms ∨ .value v ∈ y.atoms ∨ .value v ∈ n.atoms := by
      simpa [Expr.atoms, atomsOfExpr?] using h
    rw [exprText]
    rcases h with h | h | h
    · exact ((((hc h).inParens.before _).before _).before _).before _
    · exact (((hc' h).inParens.behind _).before _).before _
    · exact (hc'' h).inParens.behind _
  | .cond _ t y none => by
    rw [expr]
    refine (shows_expr t).bind fun c hc => (shows_expr y).bind fun c' hc' => .pure fun h => ?_
    have h : .value v ∈ t.atoms ∨ .value v ∈ y.atoms := by
      simpa [Expr.atoms, atomsOfExpr?] using h
    rw [exprText]
    rcases h with h | h
    · exact ((((hc h).inParens.before _).before _).before _).before _
    · exact (((hc' h).inParens.behind _).before _).before _
  | .block _ b => by
    rcases b with _ | ⟨x, _ | ⟨x', xs⟩⟩
    · rw [expr]
      · exact .throw _
      · nofun
      · nofun
    · cases x with
      | expr _ e =>
        rw [expr]
        refine (shows_expr e).bind fun c hc => .pure fun h => ?_
        rw [exprText]
        exact hc (by simpa [Expr.atoms, atomsOfStmts, Stmt.atoms] using h)
      | _ =>
        rw [expr]
        · exact .throw _
        · nofun
    · rw [expr]
      · exact .throw _
      · nofun
      · nofun
  | .range _ _ _ _ => by
    rw [expr]
    exact .throw _
  | .format _ _ => by
    rw [expr]
    exact .throw _

theorem shows_exprs : (es : List AutoLang.Expr) →
    Gives (exprs es) fun cs => .value v ∈ atomsOfExprs es → ∃ text ∈ exprTexts cs, Shows v text
  | [] => by
    rw [exprs]
    exact .pure fun h => by simp [atomsOfExprs] at h
  | e :: es => by
    rw [exprs]
    refine (shows_expr e).bind fun c hc => (shows_exprs es).bind fun cs hcs => .pure fun h => ?_
    have h : .value v ∈ e.atoms ∨ .value v ∈ atomsOfExprs es := by simpa [atomsOfExprs] using h
    rw [exprTexts]
    rcases h with h | h
    · exact ⟨_, List.mem_cons_self, hc h⟩
    · obtain ⟨text, hmem, hshows⟩ := hcs h
      exact ⟨text, List.mem_cons_of_mem _ hmem, hshows⟩

theorem shows_fields : (fs : List Field) →
    Gives (fields fs) fun cs => .value v ∈ atomsOfFields fs → ∃ text ∈ fieldTexts cs, Shows v text
  | [] => by
    rw [fields]
    exact .pure fun h => by simp [atomsOfFields] at h
  | .mk k e :: fs => by
    rw [fields]
    refine (shows_expr e).bind fun c hc => (shows_fields fs).bind fun cs hcs => .pure fun h => ?_
    have h : .value v ∈ e.atoms ∨ .value v ∈ atomsOfFields fs := by
      simpa [atomsOfFields, Field.atoms] using h
    rw [fieldTexts]
    rcases h with h | h
    · exact ⟨_, List.mem_cons_self, (hc h).behind _⟩
    · obtain ⟨text, hmem, hshows⟩ := hcs h
      exact ⟨text, List.mem_cons_of_mem _ hmem, hshows⟩

end

/-- wherever they are written, the statements show the constant -/
def ShowsIn (v : Literal) (out : List Stmt) : Prop := ∀ w, Shows v (writeStmts out w).output

theorem ShowsIn.before {out : List Stmt} (h : ShowsIn v out) (out' : List Stmt) :
    ShowsIn v (out ++ out') := by
  intro w
  rw [writeStmts_append]
  exact shows_writeStmts out' _ (h w)

theorem ShowsIn.behind {out' : List Stmt} (h : ShowsIn v out') (out : List Stmt) :
    ShowsIn v (out ++ out') := by
  intro w
  rw [writeStmts_append]
  exact h _

/-- a test, its branch and the branches behind it, whatever stands before the test -/
theorem shows_branches {test : String} {out : List Stmt} {r : Rest} (front : String)
    (h : Shows v test ∨ ShowsIn v out ∨ ∀ w, Shows v (writeRest r w).output) (w : Writer) :
    Shows v (writeRest r (writeStmts out
      (w.line (front ++ inParens test ++ " \x7b")).indent).dedent).output := by
  rcases h with h | h | h
  · have hline := Shows.ofLine ((h.inParens.behind front).before " \x7b") w
    exact shows_writeRest r _ (shows_writeStmts out _ hline.indent).dedent
  · exact shows_writeRest r _ (h _).dedent
  · exact h _

/-- a statement alone, as a body and behind `else` -/
structure ShowsStmt (v : Literal) (y : AutoLang.Stmt) : Prop where
  stmt : Gives (stmt y) fun out => .value v ∈ y.atoms → ShowsIn v out
  body : Gives (body y) fun out => .value v ∈ y.atoms → ShowsIn v out
  rest : Gives (rest (some y)) fun r => .value v ∈ y.atoms → ∀ w, Shows v (writeRest r w).output

theorem Gives.orElse {y : AutoLang.Stmt} (hcond : isCond y = false)
    (h : Gives (Compile.body y) fun out => .value v ∈ y.atoms → ShowsIn v out) :
    Gives (Compile.rest (some y)) fun r => .value v ∈ y.atoms → ∀ w, Shows v (writeRest r w).output := by
  rw [rest_some hcond]
  refine (h.inScope .block).bind fun out hout => .pure fun h w => ?_
  rw [writeRest]
  exact (hout h _).dedent

theorem ShowsStmt.of_stmt {y : AutoLang.Stmt} (hblock : isBlock y = false) (hcond : isCond y = false)
    (h : Gives (Compile.stmt y) fun out => .value v ∈ y.atoms → ShowsIn v out) : ShowsStmt v y := by
  have hbody : Gives (Compile.body y) fun out => .value v ∈ y.atoms → ShowsIn v out := by
    cases y with
    | block _ _ => cases hblock
    | _ => exact h
  exact ⟨h, hbody, .orElse hcond hbody⟩

/-- a type says names -/
theorem value_notMem_ty : (y : Ty) → .value v ∉ y.atoms
  | .mk kind name none => by cases kind <;> simp [Ty.atoms]
  | .mk kind name (some e) => by
    have hinner := value_notMem_ty e
    cases kind <;> simp [Ty.atoms, hinner]

theorem value_notMem_ty? (y : Option Ty) : .value v ∉ atomsOfTy? y := by
  cases y with
  | none => exact List.not_mem_nil
  | some y => exact value_notMem_ty y

mutual

theorem shows_stmt : (y : AutoLang.Stmt) → ShowsStmt v y
  | .expr _ e => by
    apply ShowsStmt.of_stmt rfl rfl
    rw [stmt]
    refine (shows_expr (v := v) e).bind fun c hc => .pure fun h w => ?_
    rw [writeStmts, writeStmt]
    exact .ofLine ((hc (by simpa [Stmt.atoms] using h)).before _) w
  | .store _ n ty e => by
    apply ShowsStmt.of_stmt rfl rfl
    rw [stmt]
    refine .after fun _ => (shows_expr (v := v) e).bind fun c hc => .after fun _ => .pure fun h w => ?_
    have h : .value v ∈ e.atoms := by simpa [Stmt.atoms, value_notMem_ty?] using h
    rw [writeStmts, writeStmt]
    exact .ofLine (((hc h).behind _).before _) w
  | .block sp b => by
    have hb : Gives (stmts b) fun out => .value v ∈ atomsOfStmts b → ShowsIn v out := shows_stmts b
    have hbody : Gives (body (.block sp b)) fun out =>
        .value v ∈ (AutoLang.Stmt.block sp b).atoms → ShowsIn v out := by
      rw [AutoLang.Stmt.atoms]
      exact hb
    refine ⟨?_, hbody, .orElse rfl hbody⟩
    rw [stmt]
    refine (hb.inScope .block).bind fun out hout => .pure fun h w => ?_
    rw [writeStmts, writeStmt]
    exact (hout (by simpa [Stmt.atoms] using h) _).dedent.line _
  | .cond sp t y no => by
    have hy := (shows_stmt y).body.inScope .block
    have hcond : Gives (stmt (.cond sp t y no)) fun out =>
        .value v ∈ (AutoLang.Stmt.cond sp t y no).atoms → ShowsIn v out := by
      rw [stmt_cond]
      refine (shows_expr (v := v) t).bind fun c hc => hy.bind fun out hout =>
        (shows_rest no).bind fun r hr => .pure fun h w => ?_
      have h : .value v ∈ t.atoms ∨ .value v ∈ y.atoms ∨ .value v ∈ atomsOfStmt? no := by
        simpa [Stmt.atoms] using h
      rw [writeStmts, writeStmt]
      exact (shows_branches "if " (h.imp hc (.imp hout hr)) w).line _
    refine ⟨hcond, hcond, ?_⟩
    rw [rest_cond]
    refine (shows_expr (v := v) t).bind fun c hc => hy.bind fun out hout =>
      (shows_rest no).bind fun r hr => .pure fun h w => ?_
    have h : .value v ∈ t.atoms ∨ .value v ∈ y.atoms ∨ .value v ∈ atomsOfStmt? no := by
      simpa [Stmt.atoms] using h
    rw [writeRest]
    exact shows_branches "\x7d else if " (h.imp hc (.imp hout hr)) w
  | .loop _ n e y => by
    apply ShowsStmt.of_stmt rfl rfl
    cases e with
    | range _ a b inclusive =>
      rw [stmt_loop]
      have hy : Gives (do declareTy n (.simple .int); body y) fun out =>
          .value v ∈ y.atoms → ShowsIn v out := .after fun _ => (shows_stmt y).body
      refine (shows_expr (v := v) a).bind fun c hc => (shows_expr (v := v) b).bind fun c' hc' =>
        (hy.inScope .block).bind fun out hout => .pure fun h w => ?_
      have h : (.value v ∈ a.atoms ∨ .value v ∈ b.atoms) ∨ .value v ∈ y.atoms := by
        simpa [Stmt.atoms, Expr.atoms, or_assoc] using h
      rw [writeStmts, writeStmt]
      rcases h with h | h
      · have hhead := Shows.loopHead n (h.imp hc fun h => (hc' h).behind
          (n ++ if inclusive then " <= " else " < "))
        exact (shows_writeStmts out _
          (Shows.ofLine ((hhead.inParens.behind _).before _) w).indent).dedent.line _
      · exact (hout h _).dedent.line _
    | _ =>
      rw [stmt]
      · exact .throw _
      · nofun
  | .function _ _ _ _ _ => by
    apply ShowsStmt.of_stmt rfl rfl
    rw [stmt]
    exact .throw _
  | .leave _ | .blank _ => by
    apply ShowsStmt.of_stmt rfl rfl
    rw [stmt]
    exact .pure fun h => by simp [Stmt.atoms] at h

theorem shows_stmts : (ys : List AutoLang.Stmt) →
    Gives (stmts ys) fun out => .value v ∈ atomsOfStmts ys → ShowsIn v out
  | [] => by
    rw [stmts]
    exact .pure fun h => by simp [atomsOfStmts] at h
  | y :: ys => by
    rw [stmts]
    refine (shows_stmt y).stmt.bind fun out hout => (shows_stmts ys).bind fun out' hout' =>
      .pure fun h => ?_
    have h : .value v ∈ y.atoms ∨ .value v ∈ atomsOfStmts ys := by simpa [atomsOfStmts] using h
    rcases h with h | h
    · exact (hout h).before out'
    · exact (hout' h).behind out

theorem shows_rest : (no : Option AutoLang.Stmt) →
    Gives (rest no) fun r => .value v ∈ atomsOfStmt? no → ∀ w, Shows v (writeRest r w).output
  | none => by
    rw [rest]
    exact .pure fun h => by simp [atomsOfStmt?] at h
  | some y => (shows_stmt y).rest

end

theorem shows_resultStmts (ys : List AutoLang.Stmt) :
    Gives (resultStmts ys) fun out => .value v ∈ atomsOfStmts ys → ShowsIn v out := by
  induction ys with
  | nil =>
    rw [resultStmts]
    exact .pure fun h => by simp [atomsOfStmts] at h
  | cons y ys ih =>
    have hmore : Gives (do let first ← stmt y; return first ++ (← resultStmts ys)) fun out =>
        .value v ∈ atomsOfStmts (y :: ys) → ShowsIn v out := by
      refine (shows_stmt (v := v) y).stmt.bind fun out hout => ih.bind fun out' hout' => .pure fun h => ?_
      have h : .value v ∈ y.atoms ∨ .value v ∈ atomsOfStmts ys := by simpa [atomsOfStmts] using h
      rcases h with h | h
      · exact (hout h).before out'
      · exact (hout' h).behind out
    rcases ys with _ | ⟨y', ys⟩
    · cases y with
      | expr _ e =>
        rw [resultStmts]
        refine (shows_expr (v := v) e).bind fun c hc => .pure fun h w => ?_
        rw [writeStmts, writeStmt]
        exact .ofLine (((hc (by simpa [atomsOfStmts, Stmt.atoms] using h)).behind _).before _) w
      | _ =>
        rw [resultStmts]
        · exact hmore
        · intros
          contradiction
    · rw [resultStmts]
      · exact hmore
      · intros
        contradiction

theorem shows_write {f : Function} {w : Writer} (h : Shows v w.output) :
    Shows v (f.write w).output :=
  ((shows_writeStmts f.body _ (h.line _).indent).dedent.line _).before _

theorem shows_function (name : String) (params : List Param) (result : Option Ty)
    (b : List AutoLang.Stmt) : Gives (function name params result b) fun f =>
      .value v ∈ atomsOfStmts b → ∀ w, Shows v (f.write w).output := by
  have hbody := Gives.ite (c := result.any (·.kind != .void)) (shows_resultStmts (v := v) b)
    (shows_stmts b)
  rw [function]
  refine (Gives.inScope .function (.after fun _ => hbody)).bind fun out hout => .pure fun h w => ?_
  exact ((hout h _).dedent.line _).before _

theorem shows_functions (code : Code) : Gives (functions code) fun fs =>
    ∀ y ∈ code, isFunction y → .value v ∈ y.atoms →
      ∃ f ∈ fs, ∀ w, Shows v (f.write w).output := by
  induction code with
  | nil =>
    rw [functions]
    exact .pure fun y hy => absurd hy List.not_mem_nil
  | cons y code ih =>
    cases y with
    | function sp n ps r b =>
      rw [functions]
      refine (shows_function (v := v) n ps r b).bind fun f hf => ih.bind fun fs hfs => .pure ?_
      intro y hy hfun h
      rcases List.mem_cons.1 hy with rfl | hy
      · refine ⟨f, List.mem_cons_self, hf ?_⟩
        simpa [Stmt.atoms, Param.atoms, value_notMem_ty?] using h
      · obtain ⟨g, hg, hshows⟩ := hfs y hy hfun h
        exact ⟨g, List.mem_cons_of_mem f hg, hshows⟩
    | _ =>
      rw [functions]
      · intro t fs hfs y hy hfun h
        rcases List.mem_cons.1 hy with rfl | hy
        · cases hfun
        · exact ih t fs hfs y hy hfun h
      · intros
        contradiction

end Compile

section Programs

variable {v : Literal}

/-- the functions of a file -/
def writeFunctions (fs : List Function) (w : Writer) : Writer := fs.foldl (fun w f => f.write w) w

theorem shows_writeFunctions {fs : List Function} {w : Writer}
    (h : Shows v w.output ∨ ∃ f ∈ fs, ∀ w, Shows v (f.write w).output) :
    Shows v (writeFunctions fs w).output := by
  induction fs generalizing w with
  | nil =>
    obtain h | ⟨_, hmem, -⟩ := h
    · exact h
    · cases hmem
  | cons f fs ih =>
    refine ih ?_
    obtain h | ⟨g, hmem, hg⟩ := h
    · exact .inl (Compile.shows_write h)
    · rcases List.mem_cons.1 hmem with rfl | hmem
      · exact .inl (hg w)
      · exact .inr ⟨g, hmem, hg⟩

theorem Program.shows_body {p : Program} (h : (∃ f ∈ p.functions, ∀ w, Shows v (f.write w).output) ∨
    ∃ b, p.main = some b ∧ Compile.ShowsIn v b) : Shows v p.body := by
  have hfunctions (h : ∃ f ∈ p.functions, ∀ w, Shows v (f.write w).output) :
      Shows v (writeFunctions p.functions .empty).output := shows_writeFunctions (.inr h)
  unfold Program.body
  dsimp only
  cases hmain : p.main with
  | none =>
    obtain h | ⟨b, hb, -⟩ := h
    · exact hfunctions h
    · rw [hmain] at hb
      cases hb
  | some b =>
    have hinner : Shows v (writeStmts b ((writeFunctions p.functions .empty).line
        (mainPrototype ++ " \x7b")).indent).output := by
      obtain h | ⟨b', hb, hshows⟩ := h
      · exact shows_writeStmts b _ ((hfunctions h).line _).indent
      · rw [hmain] at hb
        cases hb
        exact hshows _
    exact (hinner.line _).dedent.line _

theorem Compile.shows_program (code : Code) :
    Gives (program code) fun p => .value v ∈ atomsOfStmts code → Shows v p.body := by
  rw [program]
  refine (shows_functions (v := v) code).bind fun fs hfs => ?_
  dsimp only
  split
  · rename_i hnone
    refine .pure fun h => Program.shows_body (.inl ?_)
    obtain ⟨y, hy, h⟩ := mem_atomsOfStmts.1 h
    refine hfs y hy ?_ h
    have hempty := List.isEmpty_iff.1 hnone
    simpa using List.filter_eq_nil_iff.1 hempty y hy
  · refine (shows_stmts (v := v) _).bind fun out hout => .pure fun h => Program.shows_body ?_
    obtain ⟨y, hy, h⟩ := mem_atomsOfStmts.1 h
    cases hf : isFunction y with
    | true => exact .inl (hfs y hy hf h)
    | false =>
      have hother : y ∈ code.filter (!isFunction ·) := by simp [hy, hf]
      exact .inr ⟨out, rfl, hout (mem_atomsOfStmts.2 ⟨y, hother, h⟩)⟩

end Programs

end AutoLang.C

namespace AutoLang

section Compiled

variable {scopes : ScopeTree} {code : Code} {name : String} {style : C.GuardStyle} {files : CFiles}

/-- a constant of a program that was compiled is one of those it says, and its text shows it -/
theorem constant_of_compileOver (h : (compileOver scopes code name style).1 = .ok files) {s : Span}
    {v : Literal} (hn : NodeOf code (.expr (.literal s v))) :
    .value v ∈ atomsOfStmts code ∧ C.Shows v files.source := by
  have hplain (p : Node) (hp : NodeOf code p) : p.isFormat = false := by
    unfold Node.isFormat
    split
    · exact absurd .format (not_lacks_of_compileOver h hp)
    · rfl
  have hv : .value v ∈ atomsOfStmts code := hn.atoms hplain (List.mem_singleton.2 rfl)
  obtain ⟨p, hp, hsource⟩ := program_of_compileOver h
  rw [hsource]
  exact ⟨hv, (C.Compile.shows_program code scopes p hp hv).behind _⟩

end Compiled

end AutoLang
