import AutoLang.Proofs.C.Declarators
import Mathlib

/-! The blocks of the text of a C program and the names they declare. What is read off the text, line
by line and block by block, is what the tree declares that was written; and that is what the source
declares in the same blocks. -/

namespace AutoLang

namespace C

/-- the name that a line declares -/
def Outline.declared : Outline → List String
  | .line text => (declared? text).toList
  | .block _ _ => []

mutual

/-- for each block in a text the names it declares -/
def Outline.blocks : Outline → List (List String)
  | .line _ => []
  | .block _ body => body.flatMap Outline.declared :: outlineBlocks body

def outlineBlocks : List Outline → List (List String)
  | [] => []
  | item :: items => item.blocks ++ outlineBlocks items

end

/-- the blocks of a function; its first line declares parameters in its body -/
def Outline.functionBlocks : Outline → List (List String)
  | .line _ => []
  | .block head body => (parameters head ++ body.flatMap Outline.declared) :: outlineBlocks body

/-- what the blocks of a text declare, function by function, if the braces match -/
def readBlocks? (text : String) : Option (List (List String)) :=
  (outline? text).map (·.flatMap Outline.functionBlocks)

/-- a word that begins no statement -/
def isPlainName (n : String) : Bool := isIdentifier n && n != "return"

theorem ofWords_isPlainName : OfWords (isPlainName · = true) :=
  fun _ h => (Bool.and_eq_true_iff.1 h).1

theorem outlineBlocks_append (items items' : List Outline) :
    outlineBlocks (items ++ items') = outlineBlocks items ++ outlineBlocks items' := by
  induction items with
  | nil => rfl
  | cons item items ih => rw [List.cons_append, outlineBlocks, ih, outlineBlocks, List.append_assoc]

section Texts

variable {ok : String → Prop}

/-- a line that ends with a semicolon behind a text that is no declaration -/
theorem declared?_undeclaring {text : String} (h : Undeclaring text) :
    declared? (text ++ ";").toList = none := by
  rw [String.toList_append]
  exact h _ (.mark (by decide) [])

theorem declared?_result (text : String) : declared? ("return " ++ text ++ ";").toList = none := by
  have hline : ("return " ++ text ++ ";").toList = "return".toList ++ ' ' :: (text ++ ";").toList := by
    simp [String.toList_append]
  rw [hline, declared?_word (by decide) (by rintro c ⟨⟩; rfl), List.dropWhile_cons_of_neg (by decide)]
  split
  · rw [if_neg (by simp)]
  · rfl

/-- branches declare nothing in the block they stand in -/
theorem declared_rest : (r : Rest) → r.outline.flatMap Outline.declared = []
  | .done => rfl
  | .orElse _ => rfl
  | .orIf _ _ r => declared_rest r

theorem declared_outline (hok : OfWords ok) (hreturn : ¬ ok "return") (s : Stmt) (h : s.Named ok) :
    s.outline.flatMap Outline.declared = s.declared := by
  have single (text : List Char) :
      [Outline.line text].flatMap Outline.declared = (declared? text).toList :=
    List.append_nil _
  cases s with
  | expr e =>
    rw [Stmt.outline, single, declared?_undeclaring (undeclaring_exprText hok e h)]
    rfl
  | declare ty n e =>
    have hline : (declarator ty n ++ " = " ++ exprText e ++ ";").toList =
        (declarator ty n).toList ++ ' ' :: '=' :: ' ' :: (exprText e ++ ";").toList := by
      simp [String.toList_append]
    rw [Stmt.outline, single, hline, declared?_declarator hok hreturn h.1 (hok n h.2.1)]
    rfl
  | result e =>
    rw [Stmt.outline, single, declared?_result]
    rfl
  | cond t y r => exact declared_rest r
  | block b | loop n a b inclusive body => rfl
  | leave =>
    rw [Stmt.outline, single]
    decide

theorem declared_outlines (hok : OfWords ok) (hreturn : ¬ ok "return") (ss : List Stmt)
    (h : StmtsNamed ok ss) : (outlines ss).flatMap Outline.declared = declaredIn ss := by
  induction ss with
  | nil => rfl
  | cons s ss ih =>
    rw [outlines, List.flatMap_append, declared_outline hok hreturn s h.1, ih h.2]
    rfl

mutual

theorem blocks_outline (hok : OfWords ok) (hreturn : ¬ ok "return") :
    (s : Stmt) → s.Named ok → outlineBlocks s.outline = s.blocks
  | .expr _, _ | .declare _ _ _, _ | .leave, _ | .result _, _ => rfl
  | .block b, h => by
    rw [Stmt.outline, outlineBlocks, outlineBlocks, List.append_nil, Outline.blocks,
      declared_outlines hok hreturn b h, blocks_outlines hok hreturn b h, Stmt.blocks]
  | .cond t y r, h => by
    rw [Stmt.outline, outlineBlocks, Outline.blocks, declared_outlines hok hreturn y h.2.1,
      blocks_outlines hok hreturn y h.2.1, blocks_restOutline hok hreturn r h.2.2, Stmt.blocks]
  | .loop n a b _ body, h => by
    rw [Stmt.outline, outlineBlocks, outlineBlocks, List.append_nil, Outline.blocks,
      declared_outlines hok hreturn body h.2.2.2, blocks_outlines hok hreturn body h.2.2.2, Stmt.blocks]

theorem blocks_outlines (hok : OfWords ok) (hreturn : ¬ ok "return") :
    (ss : List Stmt) → StmtsNamed ok ss → outlineBlocks (outlines ss) = blocksIn ss
  | [], _ => rfl
  | s :: ss, h => by
    rw [outlines, outlineBlocks_append, blocks_outline hok hreturn s h.1,
      blocks_outlines hok hreturn ss h.2, blocksIn]

theorem blocks_restOutline (hok : OfWords ok) (hreturn : ¬ ok "return") :
    (r : Rest) → r.Named ok → outlineBlocks r.outline = r.blocks
  | .done, _ => rfl
  | .orElse b, h => by
    rw [Rest.outline, outlineBlocks, outlineBlocks, List.append_nil, Outline.blocks,
      declared_outlines hok hreturn b h, blocks_outlines hok hreturn b h, Rest.blocks]
  | .orIf t y r, h => by
    rw [Rest.outline, outlineBlocks, Outline.blocks, declared_outlines hok hreturn y h.2.1,
      blocks_outlines hok hreturn y h.2.1, blocks_restOutline hok hreturn r h.2.2, Rest.blocks]

end

variable (hok : OfWords ok) (hreturn : ¬ ok "return")
include hok hreturn

theorem functionBlocks_outline {f : Function} (h : f.Announced ok ∧ StmtsNamed ok f.body) :
    f.outline.functionBlocks = f.blocks := by
  rw [Function.outline, Outline.functionBlocks, parameters_prototype hok h.1,
    declared_outlines hok hreturn _ h.2, blocks_outlines hok hreturn _ h.2, Function.blocks]

/-- `main` has no parameters, and its last line declares nothing -/
theorem functionBlocks_main {b : List Stmt} (h : StmtsNamed ok b) :
    Outline.functionBlocks (.block Program.mainPrototype.toList
      (outlines (b ++ [.result (.literal (.int 0))]))) = declaredIn b :: blocksIn b := by
  have hall : StmtsNamed ok (b ++ [.result (.literal (.int 0))]) := h.append (.single trivial)
  have hparameters : parameters Program.mainPrototype.toList = [] := by decide
  rw [Outline.functionBlocks, hparameters, declared_outlines hok hreturn _ hall,
    blocks_outlines hok hreturn _ hall, declaredIn_append, blocksIn_append]
  simp [declaredIn, Stmt.declared, blocksIn, Stmt.blocks]

/-- what the text of a program declares is what the program does -/
theorem Program.readBlocks?_body {p : Program} (h : p.Named ok) :
    readBlocks? ("\n" ++ p.body) = some p.blocks := by
  have hfunctions : (p.functions.map Function.outline).flatMap Outline.functionBlocks =
      p.functions.flatMap Function.blocks := by
    rw [List.flatMap_map]
    exact List.flatMap_congr fun f hf => functionBlocks_outline hok hreturn (h.functions f hf)
  rw [readBlocks?, p.outline?_body hok h, Option.map_some, outline, List.flatMap_append, hfunctions,
    blocks]
  cases hmain : p.main with
  | none => rfl
  | some b =>
    have hb := functionBlocks_main hok hreturn (h.main b hmain)
    simp [hb]

end Texts

end C

/-- The C program declares in each of its blocks what the source does in the same block, parameters
with the body of their function; so a name is declared twice in a block of C exactly if it is declared
twice in a block of the source. If names are words other than `return`, this is what is read off the
text of the program, from its first to its last block. -/
theorem compiled_blocks_eq (scopes : ScopeTree) (code : Code) (name : String) (style : C.GuardStyle)
    (files : CFiles) (h : (compileOver scopes code name style).1 = .ok files) :
    ∃ p, ((C.Compile.program code).run.run scopes).1 = .ok p ∧ files.source = p.sourceText name ∧
      p.blocks = Code.blocks code ∧
      ((∀ b ∈ p.blocks, b.Nodup) ↔ ∀ b ∈ Code.blocks code, b.Nodup) ∧
      (scopes.Reachable → scopes.Named (C.isPlainName · = true) →
        (∀ n, NodeOf code n → ∀ m ∈ n.names, C.isPlainName m = true) →
        ∃ text, files.source = "#include \"" ++ name ++ ".h\"\n" ++ text ∧
          C.readBlocks? text = some (Code.blocks code)) := by
  obtain ⟨p, hp, hsource⟩ := program_of_compileOver h
  have hblocks := C.Compile.gives_program code scopes p hp
  refine ⟨p, hp, hsource, hblocks, by rw [hblocks], fun hscopes hknown hcode => ?_⟩
  have hnamed := C.Program.named_of_compile hscopes.wellFormed hknown (.of_code hcode) hp
  refine ⟨"\n" ++ p.body, hsource.trans (p.sourceText_eq name), ?_⟩
  rw [C.Program.readBlocks?_body C.ofWords_isPlainName (by decide) hnamed, hblocks]

namespace C.Samples

/-- a function whose branches, one of them without braces, hide its parameters, and a loop whose body
hides the counter -/
def hiddenNames : Code :=
  let x := AutoLang.Expr.ident .nowhere "x"
  let zero := AutoLang.Expr.literal .nowhere (.int 0)
  [.function .nowhere "f" [⟨"x", none⟩, ⟨"y", none⟩] none [
      .cond .nowhere x (.store .nowhere "x" none x)
        (some (.block .nowhere [.store .nowhere "y" none x])),
      .store .nowhere "z" none x],
    .store .nowhere "i" none zero,
    .loop .nowhere "i" (.range .nowhere zero x true) (.block .nowhere [.store .nowhere "i" none x])]

/-- a parameter and a variable, each declared again -/
def again : String := "fn f(a int) \x7b var a = 1 \x7d\nvar x = 1\nvar x = 2"

end C.Samples

open C.Samples

theorem compiled_blocks_eq_hidden_names : ∃ (files : CFiles) (p : C.Program) (text : String),
    (compileOver .empty hiddenNames "m" .pragma).1 = .ok files ∧ files.source = p.sourceText "m" ∧
      p.blocks = [["x", "y", "z"], ["x"], ["y"], ["i"], ["i"]] ∧ (∀ b ∈ p.blocks, b.Nodup) ∧
      files.source = "#include \"m.h\"\n" ++ text ∧
      C.readBlocks? text = some [["x", "y", "z"], ["x"], ["y"], ["i"], ["i"]] := by
  have hok : (compileOver .empty hiddenNames "m" .pragma).1.isOk = true := by decide
  cases hfiles : (compileOver .empty hiddenNames "m" .pragma).1 with
  | error u =>
    rw [hfiles] at hok
    cases hok
  | ok files =>
    obtain ⟨p, -, hsource, hblocks, hnodup, hread⟩ :=
      compiled_blocks_eq .empty hiddenNames "m" .pragma files hfiles
    have hnames : ∀ n, NodeOf hiddenNames n → ∀ m ∈ n.names, C.isPlainName m = true :=
      Code.named_of_check 9 (by decide)
    obtain ⟨text, htext, hread⟩ := hread ⟨[], rfl⟩ .empty hnames
    exact ⟨files, p, text, rfl, hsource, hblocks, hnodup.2 (by decide), htext, hread⟩

/-- what is declared again in the source is declared twice in a block of C, as its text shows -/
theorem compiled_redeclares : (parse again).diagnostics = [] ∧
    ∃ (files : CFiles) (p : C.Program) (text : String), compile again "m" .pragma = .ok files ∧
      ((C.Compile.program (parse again).code).run.run .empty).1 = .ok p ∧
      files.source = p.sourceText "m" ∧ p.blocks = [["a", "a"], ["x", "x"]] ∧
      ¬ (∀ b ∈ p.blocks, b.Nodup) ∧ files.source = "#include \"m.h\"\n" ++ text ∧
      C.readBlocks? text = some [["a", "a"], ["x", "x"]] := by
  have run : Parse.runsClean 60 again Lexer.defaultMarker = true := by decide +kernel
  have clean := Parse.diagnostics_parse_of_runsClean run
  have lexed : (Lexer.runTokens? 60 again Lexer.defaultMarker).isSome = true := by decide
  have code := Parse.code_parse_of_runTokens lexed
  have hok : (compileCode (parse again).code "m" .pragma).1.isOk = true := by
    rw [code]
    decide
  refine ⟨clean, ?_⟩
  cases hfiles : (compileCode (parse again).code "m" .pragma).1 with
  | error u =>
    rw [hfiles] at hok
    cases hok
  | ok files =>
    obtain ⟨p, hp, hsource⟩ := program_of_compileOver hfiles
    have hblocks : p.blocks = [["a", "a"], ["x", "x"]] := by
      rw [C.Compile.gives_program _ _ _ hp, code]
      decide
    have hnames : ∀ n, NodeOf (parse again).code n → ∀ m ∈ n.names, C.isPlainName m = true := by
      rw [code]
      exact Code.named_of_check 9 (by decide)
    have hnamed := C.Program.named_of_compile ScopeTree.wellFormed_empty .empty (.of_code hnames) hp
    have hread := C.Program.readBlocks?_body C.ofWords_isPlainName (by decide) hnamed
    refine ⟨files, p, "\n" ++ p.body, Parsed.compile_of_clean clean hfiles, hp, hsource, hblocks, ?_,
      hsource.trans (p.sourceText_eq "m"), hread.trans (congrArg some hblocks)⟩
    rw [hblocks]
    decide

end AutoLang
