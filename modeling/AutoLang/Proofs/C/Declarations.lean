import AutoLang.Program
import AutoLang.Proofs.C.Bodies
import AutoLang.Proofs.Parse.Evaluation
import Mathlib

/-! Where names are declared. The compiler neither renames nor leaves out a declaration and moves none
from one block to another, so the blocks of the C program declare what those of the source do. The
source may declare a name again in the same block, and then C is made to do it too. -/

namespace AutoLang

namespace C

/-- the name that a statement declares in the block it stands in; the counter of a loop belongs to the
head of the loop -/
def Stmt.declared : Stmt → List String
  | .declare _ n _ => [n]
  | _ => []

/-- what a block declares itself -/
def declaredIn (ss : List Stmt) : List String := ss.flatMap Stmt.declared

mutual

/-- for each block inside a statement the names it declares -/
def Stmt.blocks : Stmt → List (List String)
  | .block b => declaredIn b :: blocksIn b
  | .cond _ y r => declaredIn y :: blocksIn y ++ r.blocks
  | .loop _ _ _ _ b => declaredIn b :: blocksIn b
  | .expr _ | .declare _ _ _ | .leave | .result _ => []

def blocksIn : List Stmt → List (List String)
  | [] => []
  | s :: ss => s.blocks ++ blocksIn ss

def Rest.blocks : Rest → List (List String)
  | .done => []
  | .orElse b => declaredIn b :: blocksIn b
  | .orIf _ y r => declaredIn y :: blocksIn y ++ r.blocks

end

/-- parameters are declared in the body -/
def Function.blocks (f : Function) : List (List String) :=
  (f.params.map (·.2) ++ declaredIn f.body) :: blocksIn f.body

def Program.blocks (p : Program) : List (List String) :=
  p.functions.flatMap Function.blocks ++
    (p.main.map fun b => declaredIn b :: blocksIn b).getD []

theorem declaredIn_append (ss ss' : List Stmt) :
    declaredIn (ss ++ ss') = declaredIn ss ++ declaredIn ss' := List.flatMap_append

theorem blocksIn_append (ss ss' : List Stmt) :
    blocksIn (ss ++ ss') = blocksIn ss ++ blocksIn ss' := by
  induction ss with
  | nil => rfl
  | cons s ss ih => rw [List.cons_append, blocksIn, ih, blocksIn, List.append_assoc]

end C

namespace Stmt

def declared : Stmt → List String
  | .store _ n _ _ => [n]
  | _ => []

/-- a body that is not a block is one all the same -/
def asBody : Stmt → List (List String) → List (List String)
  | .block _ _, inside => inside
  | y, inside => y.declared :: inside

/-- another condition behind `else` begins no block -/
def asElse : Stmt → List (List String) → List (List String)
  | .cond _ _ _ _, inside => inside
  | y, inside => y.asBody inside

end Stmt

def declaredIn (ss : List Stmt) : List String := ss.flatMap Stmt.declared

mutual

/-- for each block inside a statement the names it declares -/
def Stmt.blocks : Stmt → List (List String)
  | .block _ b => declaredIn b :: blocksIn b
  | .cond _ _ y no => y.asBody y.blocks ++ elseBlocks no
  | .loop _ _ _ y => y.asBody y.blocks
  | .expr _ _ | .store _ _ _ _ | .function _ _ _ _ _ | .leave _ | .blank _ => []

def blocksIn : List Stmt → List (List String)
  | [] => []
  | s :: ss => s.blocks ++ blocksIn ss

def elseBlocks : Option Stmt → List (List String)
  | none => []
  | some y => y.asElse y.blocks

end

/-- parameters are declared in the body -/
def Stmt.functionBlocks : Stmt → List (List String)
  | .function _ _ ps _ b => (ps.map (·.name) ++ declaredIn b) :: blocksIn b
  | _ => []

/-- the blocks of the functions, and one for what stands outside of them -/
def Code.blocks (code : Code) : List (List String) :=
  let others := code.filter (!C.Compile.isFunction ·)
  code.flatMap Stmt.functionBlocks ++
    if others.isEmpty then [] else declaredIn others :: blocksIn others

namespace C.Compile

variable {α β : Type} {x y : Compile α} {g : α → Compile β} {P : α → Prop} {Q : β → Prop}

/-- from any scopes, what the work results in is as said -/
def Gives (x : Compile α) (P : α → Prop) : Prop := ∀ t a, (x.run.run t).1 = .ok a → P a

namespace Gives

theorem any (x : Compile α) : Gives x fun _ => True := fun _ _ _ => trivial

theorem pure {a : α} (h : P a) : Gives (pure a) P := by
  intro t b hb
  cases hb
  exact h

theorem throw (u : Unsupported) : Gives (throw u) P := fun _ _ h => nomatch h

theorem bind (hx : Gives x P) (hg : ∀ a, P a → Gives (g a) Q) : Gives (x >>= g) Q := by
  intro t b hb
  have hfirst := hx t
  rw [run_bind] at hb
  split at hb
  · rename_i a t' hrun
    rw [hrun] at hfirst
    exact hg a (hfirst a rfl) t' b hb
  · cases hb

/-- what comes first does not matter -/
theorem after (hg : ∀ a, Gives (g a) Q) : Gives (x >>= g) Q := (any x).bind fun a _ => hg a

theorem ite {c : Prop} [Decidable c] (hx : Gives x P) (hy : Gives y P) :
    Gives (if c then x else y) P := by
  split
  · exact hx
  · exact hy

theorem inScope (kind : ScopeKind) (hx : Gives x P) : Gives (inScope kind x) P :=
  fun t => hx (t.enter kind)

end Gives

/-- the same names, in the same blocks -/
structure Same (ss : List AutoLang.Stmt) (out : List Stmt) : Prop where
  declared : declaredIn out = AutoLang.declaredIn ss
  blocks : blocksIn out = AutoLang.blocksIn ss

theorem Same.append {s : AutoLang.Stmt} {ss : List AutoLang.Stmt} {out out' : List Stmt}
    (h : Same [s] out) (h' : Same ss out') : Same (s :: ss) (out ++ out') := by
  constructor
  · rw [declaredIn_append, h.declared, h'.declared]
    simp [AutoLang.declaredIn]
  · rw [blocksIn_append, h.blocks, h'.blocks]
    simp [AutoLang.blocksIn]

/-- a statement alone, as a body and behind `else` -/
structure GivesStmt (s : AutoLang.Stmt) : Prop where
  stmt : Gives (stmt s) (Same [s])
  body : Gives (body s) fun out => declaredIn out :: blocksIn out = s.asBody s.blocks
  rest : Gives (rest (some s)) fun out => out.blocks = s.asElse s.blocks

/-- what is not a block gets braces as a body -/
theorem Gives.bare {s : AutoLang.Stmt} (hblock : isBlock s = false)
    (h : Gives (stmt s) (Same [s])) :
    Gives (body s) fun out => declaredIn out :: blocksIn out = s.asBody s.blocks := by
  have hbody : body s = stmt s := by
    cases s with
    | block _ _ => cases hblock
    | _ => rfl
  have hasBody : s.asBody s.blocks = s.declared :: s.blocks := by
    cases s with
    | block _ _ => cases hblock
    | _ => rfl
  intro t out hout
  rw [hbody] at hout
  obtain ⟨hdeclared, hblocks⟩ := h t out hout
  rw [hdeclared, hblocks, hasBody]
  simp [AutoLang.declaredIn, AutoLang.blocksIn]

theorem GivesStmt.of_stmt {s : AutoLang.Stmt} (hblock : isBlock s = false) (hcond : isCond s = false)
    (h : Gives (Compile.stmt s) (Same [s])) : GivesStmt s := by
  have hasElse : s.asElse s.blocks = s.asBody s.blocks := by
    cases s with
    | cond _ _ _ _ => cases hcond
    | _ => rfl
  refine ⟨h, h.bare hblock, ?_⟩
  rw [rest_some hcond, hasElse]
  exact ((h.bare hblock).inScope .block).bind fun out hout => .pure hout

mutual

theorem gives_stmt : (s : AutoLang.Stmt) → GivesStmt s
  | .expr _ e => by
    apply GivesStmt.of_stmt rfl rfl
    rw [stmt]
    exact .after fun _ => .pure ⟨rfl, rfl⟩
  | .store _ n ty e => by
    apply GivesStmt.of_stmt rfl rfl
    rw [stmt]
    exact .after fun _ => .after fun _ => .after fun _ => .pure ⟨rfl, rfl⟩
  | .block sp b => by
    have hb : Gives (stmts b) fun out =>
        declaredIn out :: blocksIn out = (AutoLang.Stmt.block sp b).blocks := by
      intro t out hout
      obtain ⟨hdeclared, hblocks⟩ := gives_stmts b t out hout
      rw [hdeclared, hblocks, AutoLang.Stmt.blocks]
    constructor
    case stmt =>
      rw [stmt]
      refine (hb.inScope .block).bind fun out hout => .pure ⟨rfl, ?_⟩
      rw [blocksIn, Stmt.blocks, hout]
      rfl
    case body => exact hb
    case rest =>
      rw [rest_some rfl]
      exact (hb.inScope .block).bind fun out hout => .pure hout
  | .cond sp t y no => by
    have hy := (gives_stmt y).body.inScope .block
    have hcond : Gives (stmt (.cond sp t y no)) (Same [.cond sp t y no]) := by
      rw [stmt_cond]
      refine .after fun _ => hy.bind fun out hout => (gives_rest no).bind fun out' hout' => ?_
      refine .pure ⟨rfl, ?_⟩
      simp only [blocksIn, Stmt.blocks, hout, hout', AutoLang.blocksIn, AutoLang.Stmt.blocks]
    refine ⟨hcond, hcond.bare rfl, ?_⟩
    rw [rest_cond]
    refine .after fun _ => hy.bind fun out hout => (gives_rest no).bind fun out' hout' => .pure ?_
    rw [Rest.blocks, hout, hout']
    rfl
  | .loop _ n e y => by
    apply GivesStmt.of_stmt rfl rfl
    cases e with
    | range _ a b inclusive =>
      rw [stmt_loop]
      refine .after fun _ => .after fun _ => ?_
      refine (Gives.inScope .block (.after fun _ => (gives_stmt y).body)).bind fun out hout => ?_
      refine .pure ⟨rfl, ?_⟩
      rw [blocksIn, Stmt.blocks, hout]
      rfl
    | _ =>
      rw [stmt]
      · exact .throw _
      · nofun
  | .function _ _ _ _ _ => by
    apply GivesStmt.of_stmt rfl rfl
    rw [stmt]
    exact .throw _
  | .leave _ => by
    apply GivesStmt.of_stmt rfl rfl
    rw [stmt]
    exact .pure ⟨rfl, rfl⟩
  | .blank _ => by
    apply GivesStmt.of_stmt rfl rfl
    rw [stmt]
    exact .pure ⟨rfl, rfl⟩

theorem gives_stmts : (ss : List AutoLang.Stmt) → Gives (stmts ss) (Same ss)
  | [] => by
    rw [stmts]
    exact .pure ⟨rfl, rfl⟩
  | s :: ss => by
    rw [stmts]
    refine (gives_stmt s).stmt.bind fun out hout => ?_
    exact (gives_stmts ss).bind fun out' hout' => .pure (hout.append hout')

theorem gives_rest : (no : Option AutoLang.Stmt) → Gives (rest no) fun out => out.blocks = elseBlocks no
  | none => by
    rw [rest]
    exact .pure rfl
  | some y => (gives_stmt y).rest

end

/-- a result declares nothing, nor does the expression it comes from -/
theorem gives_resultStmts (ss : List AutoLang.Stmt) : Gives (resultStmts ss) (Same ss) := by
  induction ss with
  | nil =>
    rw [resultStmts]
    exact .pure ⟨rfl, rfl⟩
  | cons s ss ih =>
    have hmore : Gives (do let first ← stmt s; return first ++ (← resultStmts ss)) (Same (s :: ss)) :=
      (gives_stmt s).stmt.bind fun _ hout => ih.bind fun _ hout' => .pure (hout.append hout')
    rcases ss with _ | ⟨s', ss⟩
    · cases s with
      | expr _ e =>
        rw [resultStmts]
        exact .after fun _ => .pure ⟨rfl, rfl⟩
      | _ =>
        rw [resultStmts]
        · exact hmore
        · nofun
    · rw [resultStmts]
      · exact hmore
      · nofun

theorem gives_function (sp : Span) (name : String) (params : List Param) (result : Option Ty)
    (body : List AutoLang.Stmt) : Gives (function name params result body) fun f =>
      f.blocks = (AutoLang.Stmt.function sp name params result body).functionBlocks := by
  have hbody := Gives.ite (c := result.any (·.kind != .void)) (gives_resultStmts body) (gives_stmts body)
  rw [function]
  refine (Gives.inScope .function (.after fun _ => hbody)).bind fun out hout => .pure ?_
  have hparams : (params.map fun p => (p.ty.getD (.simple .int), p.name)).map (·.2) =
      params.map (·.name) := by
    rw [List.map_map]
    rfl
  rw [Function.blocks, hparams, hout.declared, hout.blocks]
  rfl

theorem gives_functions (code : Code) : Gives (functions code) fun fs =>
    fs.flatMap Function.blocks = code.flatMap AutoLang.Stmt.functionBlocks := by
  induction code with
  | nil =>
    rw [functions]
    exact .pure rfl
  | cons s code ih =>
    cases s with
    | function sp n ps r b =>
      rw [functions]
      refine (gives_function sp n ps r b).bind fun f hf => ih.bind fun fs hfs => .pure ?_
      rw [List.flatMap_cons, List.flatMap_cons, hf, hfs]
    | _ =>
      rw [functions]
      · exact ih
      · nofun

theorem gives_program (code : Code) : Gives (program code) fun p => p.blocks = Code.blocks code := by
  rw [program]
  refine (gives_functions code).bind fun fs hfs => ?_
  simp only [Program.blocks, Code.blocks, ← hfs]
  split
  · exact .pure rfl
  · refine (gives_stmts _).bind fun out hout => .pure ?_
    rw [← hout.declared, ← hout.blocks]
    rfl

end C.Compile

/-- the files of a program that was compiled -/
theorem files_of_compileOver {scopes : ScopeTree} {code : Code} {name : String}
    {style : C.GuardStyle} {files : CFiles} (h : (compileOver scopes code name style).1 = .ok files) :
    ∃ p, ((C.Compile.program code).run.run scopes).1 = .ok p ∧
      files = ⟨p.headerText name style, p.sourceText name⟩ := by
  change Except.map _ ((C.Compile.program code).run.run scopes).1 = _ at h
  cases hrun : ((C.Compile.program code).run.run scopes).1 with
  | error u =>
    rw [hrun] at h
    cases h
  | ok p =>
    rw [hrun] at h
    cases h
    exact ⟨p, rfl, rfl⟩

theorem program_of_compileOver {scopes : ScopeTree} {code : Code} {name : String}
    {style : C.GuardStyle} {files : CFiles} (h : (compileOver scopes code name style).1 = .ok files) :
    ∃ p, ((C.Compile.program code).run.run scopes).1 = .ok p ∧ files.source = p.sourceText name := by
  obtain ⟨p, hp, rfl⟩ := files_of_compileOver h
  exact ⟨p, hp, rfl⟩

theorem Parsed.compile_of_clean {p : Parsed} {name : String} {style : C.GuardStyle} {files : CFiles}
    (hclean : p.diagnostics = []) (hfiles : (compileCode p.code name style).1 = .ok files) :
    p.compile name style = .ok files := by
  obtain ⟨htokens, herrors⟩ := List.append_eq_nil_iff.1 hclean
  have haccepted : p.rejection? = none := by rw [rejection?, htokens, herrors]
  rw [compile, haccepted, hfiles]

end AutoLang
