import AutoLang.Program
import AutoLang.Proofs.C.Bodies
import AutoLang.Proofs.C.Counting
import AutoLang.Proofs.C.Statements
import Mathlib

/-! The compiler preserves what programs of the common part print. Statement by statement, it emits C
that simulates the run of the statement, and that is read back off its text; a program is its statements
in an empty block. -/

namespace AutoLang

namespace C

variable {c c' c'' : Context} {sp : Span} {n : String} {t : AutoLang.Expr} {y : AutoLang.Stmt}
  {no : Option AutoLang.Stmt}

/-- what a run does for the rest of a conditional -/
def runElse : Option AutoLang.Stmt → Eval Value
  | none => return .void
  | some y => Eval.stmt y

theorem stmt_cond : Eval.stmt (.cond sp t y no) =
    (do if (← Eval.expr t).isTrue then Eval.stmt y else runElse no) := by
  cases no <;> simp only [Eval.stmt, runElse]

section Plain

/-- integers are emitted as plain expressions, and not as comparisons -/
theorem plain_int : (e : AutoLang.Expr) → isInt c e → (inC e).IsPlain ∧ isSum (inC e) = true
  | .literal _ (.int _), _ | .ident _ _, _ => ⟨trivial, rfl⟩
  | .binary _ l op r, h => by
    simp only [isInt, Bool.and_eq_true] at h
    obtain ⟨⟨hop, hl⟩, hr⟩ := h
    refine ⟨⟨?_, (plain_int l hl).1, (plain_int r hr).1⟩, hop⟩
    rintro rfl
    cases hop

theorem plain_test : (e : AutoLang.Expr) → isTest c e → (inC e).IsPlain
  | .binary _ l op r, h => by
    simp only [isTest, Bool.and_eq_true] at h
    obtain ⟨⟨hop, hl⟩, hr⟩ := h
    refine ⟨?_, (plain_int l hl).1, (plain_int r hr).1⟩
    rintro rfl
    cases hop

theorem StmtsPlain.single {s : Stmt} (h : s.IsPlain) : StmtsPlain [s] := ⟨h, trivial⟩

theorem StmtsPlain.append {ss ss' : List Stmt} (h : StmtsPlain ss) (h' : StmtsPlain ss') :
    StmtsPlain (ss ++ ss') := by
  induction ss with
  | nil => exact h'
  | cons s ss ih => exact ⟨h.1, ih h.2⟩

end Plain

/-- a statement is compiled to C statements that simulate it -/
def Preserved (c c' : Context) (work : Compile (List Stmt)) (ev : Eval Value) : Prop :=
  ∃ ss, Emits c c' work ss ∧ StmtsPlain ss ∧
    ∀ rounds, 2 ^ 32 < rounds → Simulates rounds c c' ss ev

/-- statements are compiled to C statements that simulate them, whatever was the value before -/
def PreservedAll (c c' : Context) (ss : List AutoLang.Stmt) : Prop :=
  ∃ out, Emits c c' (Compile.stmts ss) out ∧ StmtsPlain out ∧
    ∀ last rounds, 2 ^ 32 < rounds → Simulates rounds c c' out (Eval.sequence ss last)

/-- a body is compiled, in a scope of its own, to what simulates it between braces -/
def PreservedBody (c : Context) (work : Compile (List Stmt)) (ev : Eval Value) : Prop :=
  ∃ ss c₁ c₂, (∀ x, c₁.knows x → c.knows x) ∧ Emits c₁ c₂ work ss ∧ StmtsPlain ss ∧
    ∀ rounds, 2 ^ 32 < rounds → SimulatesBody rounds c ss ev

def PreservedRest (c : Context) (work : Compile Rest) (ev : Eval Value) : Prop :=
  ∃ r, Emits c c work r ∧ r.IsPlain ∧ ∀ rounds, 2 ^ 32 < rounds → SimulatesRest rounds c r ev

section Rules

theorem Preserved.blank :
    Preserved c c (Compile.stmt (.blank sp)) (Eval.stmt (.blank sp)) := by
  rw [Compile.stmt, Eval.stmt]
  exact ⟨[], .pure, trivial, fun _ _ => .skip⟩

theorem PreservedAll.nil : PreservedAll c c [] := by
  refine ⟨[], ?_, trivial, fun last _ _ => ?_⟩
  · rw [Compile.stmts]
    exact .pure
  · rw [Eval.sequence]
    exact .skip

theorem PreservedAll.cons {st : AutoLang.Stmt} {ss : List AutoLang.Stmt}
    (hst : Preserved c c' (Compile.stmt st) (Eval.stmt st)) (hss : PreservedAll c' c'' ss) :
    PreservedAll c c'' (st :: ss) := by
  obtain ⟨out, hemit, hplain, hsim⟩ := hst
  obtain ⟨out', hemit', hplain', hsim'⟩ := hss
  refine ⟨out ++ out', ?_, hplain.append hplain', fun last rounds hrounds => ?_⟩
  · rw [Compile.stmts]
    exact hemit.bind hemit'.map
  · rw [Eval.sequence]
    exact (hsim rounds hrounds).seq fun v => hsim' v rounds hrounds

theorem Preserved.assign {sp' sp'' : Span} {e : AutoLang.Expr} (he : isInt c e)
    (hn : c.find? n = some false) :
    Preserved c c (Compile.stmt (.expr sp (.binary sp' (.ident sp'' n) .assign e)))
      (Eval.stmt (.expr sp (.binary sp' (.ident sp'' n) .assign e))) := by
  have hplain : (Expr.binary (.name n) .assign (inC e)).IsPlain :=
    ⟨by decide, trivial, (plain_int e he).1⟩
  refine ⟨[.expr (.binary (.name n) .assign (inC e))], ?_, .single hplain, fun rounds _ => ?_⟩
  · rw [Compile.stmt, Compile.expr, Compile.expr]
    have hpure : Emits c c (pure (Expr.name n) : Compile Expr) (.name n) := .pure
    exact (hpure.bind (Emits.expr e he).map).map
  · rw [Eval.stmt]
    exact .assign he hn

theorem Preserved.print {sp' sp'' : Span} {es : List AutoLang.Expr}
    (hprint : c.knows Eval.printName = false) (hne : es ≠ []) (hes : es.all (isInt c)) :
    Preserved c c (Compile.stmt (.expr sp (.call sp' (.ident sp'' Eval.printName) es)))
      (Eval.stmt (.expr sp (.call sp' (.ident sp'' Eval.printName) es))) := by
  have hplain : Stmt.IsPlain (.expr (.printf (es.map fun _ => .decimal) (es.map inC))) := by
    refine ⟨by simpa using hne, fun x hx => ?_⟩
    obtain ⟨e, he, rfl⟩ := List.mem_map.1 hx
    exact (plain_int e (List.all_eq_true.1 hes e he)).1
  rw [Compile.stmt, Eval.stmt]
  exact ⟨_, (Emits.print hes).map, .single hplain, fun rounds _ => .print hprint hes⟩

theorem Preserved.store {e : AutoLang.Expr} (he : isInt c e) (hn : c.isFree n)
    (hne : n ∉ names e) : Preserved c (c.declare n) (Compile.stmt (.store sp n none e))
      (Eval.stmt (.store sp n none e)) := by
  rcases c with _ | ⟨_ | b, c⟩
  · cases hn
  · cases hn
  · have hplain : Stmt.IsPlain (.declare (.simple .int) n (inC e)) := ⟨rfl, (plain_int e he).1⟩
    exact ⟨_, .store he, .single hplain, fun rounds _ => .store he (Option.isNone_iff_eq_none.1 hn) hne⟩

theorem PreservedRest.done : PreservedRest c (Compile.rest none) (runElse none) := by
  rw [Compile.rest, runElse]
  exact ⟨.done, .pure, trivial, fun _ _ => .done⟩

theorem PreservedBody.block {ss : List AutoLang.Stmt} {b : Block}
    (h : PreservedAll (some [] :: c) (some b :: c) ss) :
    PreservedBody c (Compile.body (.block sp ss)) (Eval.stmt (.block sp ss)) := by
  obtain ⟨out, hemit, hplain, hsim⟩ := h
  refine ⟨out, _, _, fun x hx => hx, hemit, hplain, fun rounds hrounds => ?_⟩
  rw [Eval.stmt]
  exact .block (hsim .void rounds hrounds)

theorem PreservedBody.bare (hy : isBlock y = false)
    (h : Preserved (none :: c) (none :: c) (Compile.stmt y) (Eval.stmt y)) :
    PreservedBody c (Compile.body y) (Eval.stmt y) := by
  obtain ⟨out, hemit, hplain, hsim⟩ := h
  have hbody : Compile.body y = Compile.stmt y := by
    cases y with
    | block _ _ => cases hy
    | _ => rfl
  rw [hbody]
  exact ⟨out, _, _, fun x hx => hx, hemit, hplain, fun rounds hrounds =>
    .bare (hsim rounds hrounds)⟩

theorem Preserved.block {ss : List AutoLang.Stmt}
    (h : PreservedBody c (Compile.body (.block sp ss)) (Eval.stmt (.block sp ss))) :
    Preserved c c (Compile.stmt (.block sp ss)) (Eval.stmt (.block sp ss)) := by
  obtain ⟨out, c₁, c₂, hknows, hemit, hplain, hsim⟩ := h
  refine ⟨[.block out], ?_, .single hplain, fun rounds hrounds => .block (hsim rounds hrounds)⟩
  rw [Compile.stmt]
  exact (hemit.inScope hknows).map

theorem Preserved.cond (ht : isTest c t) (hy : PreservedBody c (Compile.body y) (Eval.stmt y))
    (hno : PreservedRest c (Compile.rest no) (runElse no)) :
    Preserved c c (Compile.stmt (.cond sp t y no)) (Eval.stmt (.cond sp t y no)) := by
  obtain ⟨yes, c₁, c₂, hknows, hemit, hplain, hsim⟩ := hy
  obtain ⟨r, hemit', hplain', hsim'⟩ := hno
  have hcond : Stmt.IsPlain (.cond (inC t) yes r) := ⟨plain_test t ht, hplain, hplain'⟩
  refine ⟨[.cond (inC t) yes r], ?_, .single hcond, fun rounds hrounds => ?_⟩
  · rw [Compile.stmt_cond]
    exact (Emits.test t ht).bind ((hemit.inScope hknows).bind hemit'.map)
  · rw [stmt_cond]
    exact .cond ht (hsim rounds hrounds) (hsim' rounds hrounds)

theorem PreservedRest.cond (ht : isTest c t) (hy : PreservedBody c (Compile.body y) (Eval.stmt y))
    (hno : PreservedRest c (Compile.rest no) (runElse no)) :
    PreservedRest c (Compile.rest (some (.cond sp t y no))) (runElse (some (.cond sp t y no))) := by
  obtain ⟨yes, c₁, c₂, hknows, hemit, hplain, hsim⟩ := hy
  obtain ⟨r, hemit', hplain', hsim'⟩ := hno
  refine ⟨.orIf (inC t) yes r, ?_, ⟨plain_test t ht, hplain, hplain'⟩, fun rounds hrounds => ?_⟩
  · rw [Compile.rest_cond]
    exact (Emits.test t ht).bind ((hemit.inScope hknows).bind hemit'.map)
  · rw [runElse, stmt_cond]
    exact .orIf ht (hsim rounds hrounds) (hsim' rounds hrounds)

theorem PreservedRest.body (hcond : isCond y = false)
    (hy : PreservedBody c (Compile.body y) (Eval.stmt y)) :
    PreservedRest c (Compile.rest (some y)) (runElse (some y)) := by
  obtain ⟨out, c₁, c₂, hknows, hemit, hplain, hsim⟩ := hy
  refine ⟨.orElse out, ?_, hplain, fun rounds hrounds => .orElse (hsim rounds hrounds)⟩
  rw [Compile.rest_some hcond]
  exact (hemit.inScope hknows).map

theorem Preserved.loop {sp' : Span} {a b : AutoLang.Expr} {inclusive : Bool} (ha : isInt c a)
    (hb : isInt c b) (hn : c.knows n = false)
    (hy : PreservedBody (c.loop n b) (Compile.body y) (Eval.stmt y)) :
    Preserved c c (Compile.stmt (.loop sp n (.range sp' a b inclusive) y))
      (Eval.stmt (.loop sp n (.range sp' a b inclusive) y)) := by
  obtain ⟨out, c₁, c₂, hknows, hemit, hplain, hsim⟩ := hy
  have hn : c.find? n = none := by
    rwa [Context.knows, Option.isSome_eq_false_iff, Option.isNone_iff_eq_none] at hn
  have hloop : Stmt.IsPlain (.loop n (inC a) (inC b) inclusive out) :=
    ⟨(plain_int a ha).1, (plain_int b hb).1, (plain_int b hb).2, hplain⟩
  refine ⟨[.loop n (inC a) (inC b) inclusive out], ?_, .single hloop, fun rounds hrounds =>
    .loop ha hb hn (hsim rounds hrounds) hrounds⟩
  rw [Compile.stmt_loop]
  have hdeclare : Emits c c₁ (Compile.declareTy n (.simple .int)) () :=
    .declareTy fun x hx => Context.knows_loop (hknows x hx)
  exact (Emits.expr a ha).bind ((Emits.expr b hb).bind
    ((hdeclare.bind hemit).inScope fun x hx => hx).map)

end Rules

/-- a statement is preserved as it stands, a block also as a body, and a conditional also after
`else` -/
structure Kept (c : Context) (st : AutoLang.Stmt) : Prop where
  stmt : Preserved c (c.after st) (Compile.stmt st) (Eval.stmt st)
  body : isBlock st → PreservedBody c (Compile.body st) (Eval.stmt st)
  rest : isCond st → PreservedRest c (Compile.rest (some st)) (runElse (some st))

namespace Kept

theorem of_stmt {st : AutoLang.Stmt} (hb : isBlock st = false) (hc : isCond st = false)
    (h : Preserved c (c.after st) (Compile.stmt st) (Eval.stmt st)) : Kept c st := by
  refine ⟨h, fun hb' => ?_, fun hc' => ?_⟩
  · rw [hb] at hb'
    cases hb'
  · rw [hc] at hc'
    cases hc'

theorem asBody (h : Kept (c.inside true (isBlock y)) y) :
    PreservedBody c (Compile.body y) (Eval.stmt y) := by
  cases hy : isBlock y with
  | true =>
    rw [hy] at h
    exact h.body hy
  | false =>
    rw [hy] at h
    have hst := h.stmt
    rw [Context.inside, if_neg Bool.false_ne_true, if_pos rfl, Context.after_bare] at hst
    exact .bare hy hst

theorem asRest (h : Kept (c.inside true (isBlock y || isCond y)) y) :
    PreservedRest c (Compile.rest (some y)) (runElse (some y)) := by
  cases hy : isCond y with
  | true =>
    rw [hy, Bool.or_true] at h
    exact h.rest hy
  | false =>
    rw [hy, Bool.or_false] at h
    exact .body hy h.asBody

end Kept

theorem kept_expr {e : AutoLang.Expr} (h : fits true c (.expr sp e)) : Kept c (.expr sp e) := by
  refine .of_stmt rfl rfl ?_
  unfold fits at h
  split at h
  · rename_i heq
    cases heq
    simp only [Bool.and_eq_true, Bool.not_true, Bool.false_or, beq_iff_eq] at h
    exact .assign h.1.1 h.2
  · rename_i heq
    cases heq
    simp only [Bool.and_eq_true, beq_iff_eq, Bool.not_eq_true', List.isEmpty_eq_false_iff] at h
    obtain ⟨⟨⟨rfl, hprint⟩, hne⟩, has⟩ := h
    exact .print hprint hne has
  all_goals contradiction

mutual

theorem stmt_kept (c : Context) : (st : AutoLang.Stmt) → fits true c st → Kept c st
  | .expr _ e, h => kept_expr h
  | .store _ n none e, h => by
    simp only [fits, Bool.and_eq_true, Bool.not_true, Bool.false_or, Bool.not_eq_true'] at h
    obtain ⟨⟨⟨he, hfree⟩, -⟩, hne⟩ := h
    exact .of_stmt rfl rfl (.store he hfree (by simpa using hne))
  | .block _ b, h => by
    obtain ⟨b', hb⟩ := stmts_preserved c [] b h
    exact ⟨.block (.block hb), fun _ => .block hb, nofun⟩
  | .cond _ t y no, h => by
    simp only [fits, Bool.and_eq_true] at h
    have hy := (stmt_kept _ y h.1.2).asBody
    have hno := rest_preserved c no h.2
    exact ⟨.cond h.1.1 hy hno, nofun, fun _ => .cond h.1.1 hy hno⟩
  | .loop _ n (.range _ a b inclusive) y, h => by
    simp only [fits, Bool.and_eq_true, Bool.not_true, Bool.false_or, Bool.not_eq_true'] at h
    obtain ⟨⟨⟨⟨ha, hb⟩, -⟩, hn⟩, hy⟩ := h
    exact .of_stmt rfl rfl (.loop ha hb hn (stmt_kept _ y hy).asBody)
  | .blank _, _ => .of_stmt rfl rfl .blank

theorem stmts_preserved (c : Context) (b : Block) : (ss : List AutoLang.Stmt) →
    fitsAll true (some b :: c) ss → ∃ b', PreservedAll (some b :: c) (some b' :: c) ss
  | [], _ => ⟨b, .nil⟩
  | st :: ss, h => by
    simp only [fitsAll, Bool.and_eq_true] at h
    have hst := (stmt_kept (some b :: c) st h.1).stmt
    obtain ⟨b₁, hb₁⟩ := Context.after_block (c := c) b st
    rw [hb₁] at hst h
    obtain ⟨b₂, hss⟩ := stmts_preserved c b₁ ss h.2
    exact ⟨b₂, .cons hst hss⟩

theorem rest_preserved (c : Context) : (no : Option AutoLang.Stmt) → fitsRest true c no →
    PreservedRest c (Compile.rest no) (runElse no)
  | none, _ => .done
  | some y, h => (stmt_kept _ y h).asRest

end

section Whole

theorem isFunction_of_fits {careful : Bool} {st : AutoLang.Stmt} (h : fits careful c st) :
    Compile.isFunction st = false := by
  cases st with
  | function _ _ _ _ _ => simp [fits] at h
  | _ => rfl

theorem not_isFunction_of_fitsAll {careful : Bool} {ss : List AutoLang.Stmt}
    (h : fitsAll careful c ss) : ∀ st ∈ ss, Compile.isFunction st = false := by
  induction ss generalizing c with
  | nil => simp
  | cons st ss ih =>
    rw [fitsAll, Bool.and_eq_true] at h
    intro x hx
    rcases List.mem_cons.1 hx with rfl | hx
    · exact isFunction_of_fits h.1
    · exact ih h.2 x hx

theorem functions_eq_nil {code : Code} (h : ∀ st ∈ code, Compile.isFunction st = false) :
    Compile.functions code = pure [] := by
  induction code with
  | nil => rw [Compile.functions]
  | cons st code ih =>
    rw [List.forall_mem_cons] at h
    rw [Compile.functions.eq_3, ih h.2]
    rintro _ _ _ _ _ rfl
    cases h.1

theorem alike_start : Alike [some []] [[]] .start ⟨.empty, "", false⟩ :=
  ⟨.block .empty .nil, ScopeTree.wellFormed_empty, rfl, rfl⟩

theorem Emits.result {α : Type} {work : Compile α} {out : α} (h : Emits [some []] c work out) :
    (work.run.run .empty).1 = .ok out := by
  obtain ⟨t, f, hrun, -⟩ := h .empty [] [] ScopeTree.wellFormed_empty rfl nofun
  rw [hrun]

theorem program_preserved {code : Code} (h : isCommon true code) :
    ∃ main, ((Compile.program code).run.run .empty).1 =
        .ok ⟨[], if code.isEmpty then none else some main⟩ ∧
      ((Compile.stmts code).run.run .empty).1 = .ok main ∧ StmtsPlain main ∧
      ∀ rounds, 2 ^ 32 < rounds → Reaches (printed rounds main) (· = (runCode code).2.output) := by
  obtain ⟨b, main, hemit, hplain, hsim⟩ := stmts_preserved [] [] code h
  refine ⟨main, ?_, hemit.result, hplain, fun rounds hrounds => ?_⟩
  · have hothers := not_isFunction_of_fitsAll h
    have hall : code.filter (!Compile.isFunction ·) = code :=
      List.filter_eq_self.2 fun st hst => by rw [hothers st hst]; rfl
    rw [Compile.program, functions_eq_nil hothers, pure_bind]
    dsimp only
    rw [hall]
    by_cases hempty : code.isEmpty
    · rw [if_pos hempty, if_pos hempty]
      rfl
    · rw [if_neg hempty, if_neg hempty]
      exact Emits.result (hemit.map (g := fun main => Program.mk [] (some main)))
  · refine (hsim .void rounds hrounds _ _ _ alike_start).bind fun m hm => .ok ?_
    exact hm.output

end Whole

end C

/-- A program of the common part that is written with care is compiled without fail, and unless an
operation of it overflows, its `main` prints what a run prints. If its names are words that C takes for
variables, this `main` is what is read off the text of the source. -/
theorem compiled_prints_same (code : Code) (h : C.isCommon true code) (name : String)
    (style : C.GuardStyle) : ∃ p : C.Program,
      ((C.Compile.program code).run.run .empty).1 = .ok p ∧
      (compileCode code name style).1 = .ok ⟨p.headerText name style, p.sourceText name⟩ ∧
      p.functions = [] ∧ (p.main = none ↔ code = []) ∧
      (∀ rounds, 2 ^ 32 < rounds → C.printed rounds (p.main.getD []) ≠ .error .overflow →
        C.printed rounds (p.main.getD []) = .ok (runCode code).2.output) ∧
      ((∀ n, NodeOf code n → ∀ m ∈ n.names, C.isVariable m = true) →
        ∃ text, p.sourceText name = "#include \"" ++ name ++ ".h\"\n" ++ text ∧
          C.main? text = p.main) := by
  obtain ⟨main, hprogram, hnil, hplain, hprinted⟩ := C.program_preserved h
  refine ⟨_, hprogram, ?_, rfl, ?_, fun rounds hrounds hover => ?_, fun hnames => ?_⟩
  · change ((C.Compile.program code).run.run .empty).1.map _ = _
    rw [hprogram]
    rfl
  · cases code <;> simp
  · have hmain : (if code.isEmpty then none else some main).getD [] = main := by
      cases code with
      | nil => cases hnil; rfl
      | cons st code => rfl
    rw [hmain] at hover ⊢
    rcases hprinted rounds hrounds with hover' | ⟨out, hout, rfl⟩
    · exact absurd hover' hover
    · exact hout
  · have hnamed := C.Program.named_of_compile ScopeTree.wellFormed_empty .empty (.of_code hnames) hprogram
    refine ⟨_, C.Program.sourceText_eq _ name, C.Program.main?_body rfl ?_ hnamed⟩
    intro b hb
    dsimp only at hb
    split at hb
    · cases hb
    · cases hb
      exact hplain

namespace Samples

def int (v : Int32) : Expr := .literal .nowhere (.int v)

def name (n : String) : Expr := .ident .nowhere n

def sum (l r : Expr) : Expr := .binary .nowhere l .add r

def less (l r : Expr) : Expr := .binary .nowhere l .lt r

def var (n : String) (e : Expr) : Stmt := .store .nowhere n none e

def set (n : String) (e : Expr) : Stmt := .expr .nowhere (.binary .nowhere (name n) .assign e)

def print (es : List Expr) : Stmt := .expr .nowhere (.call .nowhere (name Eval.printName) es)

def block (b : List Stmt) : Stmt := .block .nowhere b

def count (n : String) (a b : Expr) (body : List Stmt) : Stmt :=
  .loop .nowhere n (.range .nowhere a b false) (block body)

/-- a variable that hides another one, loops inside each other, and a conditional -/
def sums : Code :=
  [var "total" (int 0),
    count "i" (int 1) (int 4) [
      var "last" (sum (name "i") (int 1)),
      count "j" (int 0) (name "last") [set "total" (sum (name "total") (name "j"))],
      .cond .nowhere (less (name "total") (int 4)) (block [print [name "i", name "total"]])
        (some (block [var "total" (int 7), print [name "total"]]))],
    print [name "total"]]

/-- the counter can already be seen: a run assigns it, C declares another one -/
def sharedCounter : Code := [var "i" (int 100), count "i" (int 0) (int 3) [], print [name "i"]]

/-- the body assigns the counter: a run still visits all members, C goes on from what was assigned -/
def assignedCounter : Code := [count "i" (int 0) (int 3) [set "i" (int 5), print [name "i"]]]

/-- the body assigns the end: a run took it before the loop, C asks for it before every round -/
def movingEnd : Code :=
  [var "n" (int 2), count "i" (int 0) (name "n") [set "n" (int 1), print [name "i"]]]

/-- the value mentions the name: a run reads the outer variable, C the one it declares -/
def ownValue : Code :=
  [var "x" (int 1), block [var "x" (sum (name "x") (int 1)), print [name "x"]]]

/-- a body without braces declares: a run does so in the block around it, C in braces it adds -/
def bareDeclaration : Code :=
  [var "x" (int 1), .cond .nowhere (less (int 1) (int 2)) (var "x" (int 2)) none, print [name "x"]]

/-- the statements of `main` -/
def emitted (code : Code) : List C.Stmt :=
  (((C.Compile.program code).run.run .empty).1.toOption.bind C.Program.main).getD []

/-- what the C program prints and what a run prints -/
def outputs (code : Code) : Except C.Fault String × String :=
  (C.printed (2 ^ 32 + 1) (emitted code), (runCode code).2.output)

end Samples

open Samples

theorem compiled_prints_same_sums : C.isCommon true sums ∧ ∃ (p : C.Program) (text : String),
    ((C.Compile.program sums).run.run .empty).1 = .ok p ∧
    C.printed (2 ^ 32 + 1) (p.main.getD []) = .ok (runCode sums).2.output ∧
    (runCode sums).2.output = "1 1\n7\n7\n10\n" ∧
    p.sourceText "sums" = "#include \"sums.h\"\n" ++ text ∧ C.main? text = p.main := by
  obtain ⟨p, hp, -, -, -, hprinted, hread⟩ := compiled_prints_same sums (by decide) "sums" .pragma
  obtain ⟨text, htext, hread⟩ := hread (Code.named_of_check 9 (by decide +kernel))
  have hemitted : emitted sums = p.main.getD [] := by
    rw [emitted, hp]
    rfl
  refine ⟨by decide, p, text, hp, hprinted _ (by omega) ?_, by decide +kernel, htext, hread⟩
  rw [← hemitted]
  decide +kernel

/-- each of the five ways to be careless makes a difference -/
theorem careless_programs_differ :
    (C.isCommon false sharedCounter ∧ outputs sharedCounter = (.ok "100\n", "2\n")) ∧
    (C.isCommon false assignedCounter ∧ outputs assignedCounter = (.ok "5\n", "5\n5\n5\n")) ∧
    (C.isCommon false movingEnd ∧ outputs movingEnd = (.ok "0\n", "0\n1\n")) ∧
    (C.isCommon false ownValue ∧ outputs ownValue = (.error (.uninitialized "x"), "2\n")) ∧
    (C.isCommon false bareDeclaration ∧ outputs bareDeclaration = (.ok "1\n", "2\n")) := by
  refine ⟨⟨?_, ?_⟩, ⟨?_, ?_⟩, ⟨?_, ?_⟩, ⟨?_, ?_⟩, ⟨?_, ?_⟩⟩ <;> decide +kernel

end AutoLang
