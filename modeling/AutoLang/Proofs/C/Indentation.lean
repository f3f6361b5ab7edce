import AutoLang.Proofs.C.Layout
import AutoLang.Proofs.C.Strings
import AutoLang.Proofs.C.Wording
import AutoLang.Proofs.Decimal.Spelling
import Mathlib

/-! The layout of a compiled program. Constants are written on one line whatever they say, so if names
are words, each statement is written on lines of its own: what is compiled is well indented and closes
all it opens, function by function. -/

namespace AutoLang

namespace C

section Constants

variable {text : String}

/-- what numbers are made of -/
theorem Inline.number (hne : text.toList ≠ [])
    (h : ∀ c ∈ text.toList, c.isAlphanum ∨ c ∈ ['.', '-', '+']) : Inline text := by
  refine .of_forall hne fun c hc => ?_
  rcases h c hc with hword | hother
  · refine ⟨?_, ?_, ?_⟩ <;> rintro rfl <;> cases hword
  · have plain : ∀ c ∈ ['.', '-', '+'], c ≠ ' ' ∧ c ≠ '\n' ∧ c ≠ '\x7d' := by simp
    exact plain c hother

theorem Inline.identifier (h : isIdentifier text = true) : Inline text := by
  obtain ⟨c, cs, htext, hc, hcs⟩ := exists_cons_of_isIdentifier h
  refine .of_cons htext ⟨?_, ?_⟩ fun hmem => ?_
  · rintro rfl
    cases hc
  · rintro rfl
    cases hc
  · rw [htext] at hmem
    rcases List.mem_cons.1 hmem with rfl | hmem
    · cases hc
    · cases hcs _ hmem

theorem isAlphanum_of_isDigit {c : Char} (h : c.isDigit) : c.isAlphanum := by
  simp [Char.isAlphanum, h]

theorem inline_nat (n : ℕ) : Inline (toString n) := by
  have hdigits : (toString n).toList = Nat.toDigits 10 n := String.toList_ofList
  refine .number (hdigits ▸ Nat.toDigits_ne_nil) fun c hc => .inl ?_
  exact isAlphanum_of_isDigit (Decimal.isDigit_toDigits n c (hdigits ▸ hc))

theorem inline_int (n : ℤ) : Inline (toString n) := by
  cases n with
  | ofNat n => exact inline_nat n
  | negSucc n => exact (by decide : Inline "-").append (inline_nat (n + 1)).unbroken

theorem inline_byte (b : UInt8) : Inline ("0x" ++ Value.hexByte b) := by
  have hall : ∀ n : Fin 256, Unbroken (Value.hexByte (.ofFin n)) := by decide +kernel
  exact (by decide : Inline "0x").append (hall b.toFin)

theorem mem_chars {s : Decimal.Spelling} (h : s.IsProper) :
    ∀ c ∈ s.chars, c.isAlphanum ∨ c ∈ ['.', '-', '+'] := by
  obtain ⟨whole, fraction, exponent⟩ := s
  have digit {c : Char} (hc : c.isDigit) : c.isAlphanum ∨ c ∈ ['.', '-', '+'] :=
    .inl (isAlphanum_of_isDigit hc)
  simp only [Decimal.Spelling.chars, List.forall_mem_append]
  refine ⟨⟨fun c hc => digit (h.whole.2 c hc), fun c hc => ?_⟩, fun c hc => ?_⟩
  · cases fraction with
    | none => cases hc
    | some f =>
      rcases List.mem_cons.1 hc with rfl | hc
      · exact .inr (by decide)
      · exact digit ((h.fraction f rfl).2 c hc)
  · cases exponent with
    | none => cases hc
    | some e =>
      obtain ⟨negative, ds⟩ := e
      rcases List.mem_cons.1 hc with rfl | hc
      · exact .inl rfl
      rcases List.mem_cons.1 hc with rfl | hc
      · cases negative <;> exact .inr (by decide)
      · exact digit ((h.exponent _ rfl).2 c hc)

theorem inline_parts (f : Decimal.NumberFormat) (p : Decimal.Parts) : Inline (f.writeParts p) := by
  cases p with
  | nan => exact (by decide : Inline "nan")
  | infinite negative =>
    cases negative
    · exact (by decide : Inline "inf")
    · exact (by decide : Inline "-inf")
  | finite negative m q =>
    have hmagnitude {cs : List Char} (hne : cs ≠ [])
        (h : ∀ c ∈ cs, c.isAlphanum ∨ c ∈ ['.', '-', '+']) :
        Inline (String.ofList (if negative then '-' :: cs else cs)) := by
      refine .number ?_ ?_ <;> rw [String.toList_ofList] <;> cases negative
      · exact hne
      · exact List.cons_ne_nil _ _
      · exact h
      · exact List.forall_mem_cons.2 ⟨.inr (by decide), h⟩
    unfold Decimal.NumberFormat.writeParts
    dsimp only
    by_cases hm : m = 0
    · rw [if_pos hm]
      exact hmagnitude (List.cons_ne_nil _ _) fun c hc => .inl (List.mem_singleton.1 hc ▸ rfl)
    · rw [if_neg hm, ← f.chars_spelling]
      have hproper := (f.isTidy_spelling
        (.ofQuotient f.places (m * Nat.pow 2 q.toNat) (Nat.pow 2 (-q).toNat))).toIsProper
      have hne := List.append_ne_nil_of_left_ne_nil hproper.whole.1
      exact hmagnitude (List.append_ne_nil_of_left_ne_nil (hne _) _) (mem_chars hproper)

theorem inline_text (d : Float) : Inline (Decimal.text d) := inline_parts _ _

theorem inline_double (d : Float) : Inline (doubleText d) := by
  unfold doubleText
  dsimp only
  split
  · exact (inline_text d).append (by decide)
  · exact inline_text d

theorem inline_char (c : Char) : Inline (charText c) := by
  unfold charText
  split
  · decide
  · decide
  · have hescaped : Unbroken ((controlEscape? c).getD c.toString) := by
      change '\n' ∉ escaped c
      obtain ⟨he, hplain, -⟩ | ⟨-, d, hd, he⟩ := escaped_cases c
      · rw [he]
        exact fun hmem => hplain (List.mem_singleton.1 hmem).symm
      · have plain : ∀ d ∈ ['n', 'r', 't', '0'], '\n' ∉ ['\\', d] := by simp
        exact he ▸ plain d hd
    exact ((by decide : Inline "'").append hescaped).append (by decide)

theorem inline_string (s : String) : Inline (stringText s) := by
  obtain ⟨⟨cs, hcs⟩, hplain⟩ := quoted_stringText s
  exact .of_cons hcs (by decide) fun hmem => (hplain _ hmem).1 rfl

theorem inline_literal (v : Literal) : Inline (literalText v) := by
  cases v with
  | byte b | u8 b => exact inline_byte b
  | int n | i8 n | i64 n => exact inline_int n.toInt
  | uint n => exact (inline_nat n.toNat).append (by decide)
  | double d => exact inline_double d
  | bool b => cases b <;> decide
  | char c => exact inline_char c
  | str s | cstr s => exact inline_string s
  | nil | null => decide

end Constants

section Names

variable {ok : String → Prop}

/-- what is asked of names is met by words only -/
def OfWords (ok : String → Prop) : Prop := ∀ n, ok n → isIdentifier n = true

/-- the words that spellings of types without a name begin with -/
def typeWords : List String := ["uint8_t", "int", "unsigned", "float", "double", "bool", "char", "void"]

theorem isIdentifier_of_typeWords (hok : OfWords ok) {w : String} (hw : w ∈ typeWords ∨ ok w) :
    isIdentifier w = true := by
  have hall : ∀ w ∈ typeWords, isIdentifier w = true := by decide
  exact hw.elim (hall w) (hok w)

/-- how types are spelled: a word, in one case another one, and stars -/
def IsSpelling (ok : String → Prop) (text : String) : Prop :=
  ∃ w more stars, (w ∈ typeWords ∨ ok w) ∧ (more = [] ∨ more = " int".toList) ∧
    text.toList = w.toList ++ (more ++ List.replicate stars '*')

namespace IsSpelling

variable {text : String}

theorem word (h : text ∈ typeWords ∨ ok text) : IsSpelling ok text :=
  ⟨text, [], 0, h, .inl rfl, (List.append_nil _).symm⟩

theorem star (h : IsSpelling ok text) : IsSpelling ok (text ++ "*") := by
  obtain ⟨w, more, stars, hw, hmore, htext⟩ := h
  refine ⟨w, more, stars + 1, hw, hmore, ?_⟩
  rw [String.toList_append, htext, List.replicate_succ', List.append_assoc, List.append_assoc]
  rfl

theorem tyName : (ty : Ty) → (∀ m ∈ ty.names, ok m) → IsSpelling ok (tyName ty)
  | .mk kind name elem, h => by
    have hvoid : IsSpelling ok "void" := word (.inl (by decide))
    have hchar : IsSpelling ok "char" := word (.inl (by decide))
    cases kind
    case byte | int | float | double | bool | char | void | unknown =>
      exact word (.inl (by simp [C.tyName, typeWords]))
    case uint =>
      rw [C.tyName]
      exact ⟨"unsigned", " int".toList, 0, .inl (by decide), .inr rfl, by decide⟩
    case str | cstr => exact hchar.star
    case array | ptr =>
      cases elem with
      | none => exact hvoid.star
      | some e => exact (tyName e fun n hn => h n (List.mem_append_right _ hn)).star
    case user =>
      cases name with
      | none => exact hvoid
      | some n =>
        refine word (.inr (h n ?_))
        cases elem <;> simp [Ty.names]

/-- a spelling begins with a word -/
theorem exists_word (hok : OfWords ok) (h : IsSpelling ok text) :
    ∃ w more, isIdentifier w = true ∧ text.toList = w.toList ++ more ∧ '\n' ∉ more := by
  obtain ⟨w, more, stars, hw, hmore, htext⟩ := h
  refine ⟨w, more ++ List.replicate stars '*', isIdentifier_of_typeWords hok hw, htext, ?_⟩
  rw [List.mem_append, not_or]
  refine ⟨?_, fun hmem => nomatch List.eq_of_mem_replicate hmem⟩
  rcases hmore with rfl | rfl <;> decide

theorem inline (hok : OfWords ok) (h : IsSpelling ok text) : Inline text := by
  obtain ⟨w, more, hw, htext, hmore⟩ := h.exists_word hok
  have heq : text = w ++ String.ofList more := by
    rw [← String.toList_inj, htext, String.toList_append, String.toList_ofList]
  have hunbroken : Unbroken (String.ofList more) := by
    rwa [Unbroken, String.toList_ofList]
  exact heq ▸ (Inline.identifier hw).append hunbroken

end IsSpelling

theorem inline_declarator (hok : OfWords ok) {ty : Ty} {n : String} (hty : ∀ m ∈ ty.names, ok m)
    (hn : ok n) : Inline (declarator ty n) := by
  have hname := (Inline.identifier (hok n hn)).unbroken
  unfold declarator
  split
  · rename_i e _ he
    have hword := (IsSpelling.tyName e (TypeNamed.elem (TypeNamed.some hty) e he)).inline hok
    exact ((hword.append (by decide)).append hname).append (by decide)
  · exact (((IsSpelling.tyName ty hty).inline hok).append (by decide)).append hname

mutual

theorem inline_exprText (hok : OfWords ok) : (e : Expr) → e.Named ok → Inline (exprText e)
  | .literal v, _ => inline_literal v
  | .name n, h => .identifier (hok n h)
  | .unary op e, h => by
    rw [exprText]
    exact Inline.append (by cases op <;> decide) ((inline_exprText hok e h).asOperand e).unbroken
  | .binary l op r, h => by
    rw [exprText]
    have hop : Unbroken op.symbol := by cases op <;> decide
    exact (((((inline_exprText hok l h.1).asOperand l).append (by decide)).append hop).append
      (by decide)).append ((inline_exprText hok r h.2).asOperand r).unbroken
  | .member o f, h => by
    rw [exprText]
    exact (((inline_exprText hok o h.1).asOperand o).append (by decide)).append
      (inline_exprText hok f h.2).unbroken
  | .items es, h => by
    rw [exprText]
    exact .inBraces (.commaList (unbroken_exprTexts hok es h))
  | .fields fs, h => by
    rw [exprText]
    exact .inBraces (.commaList (unbroken_fieldTexts hok fs h))
  | .call c as, h => by
    rw [exprText]
    exact ((inline_exprText hok c h.1).asOperand c).append
      (Inline.inParens (.commaList (unbroken_exprTexts hok as h.2))).unbroken
  | .printf conversions as, h => by
    -- a format ends no line, though it says that one ends
    have htexts : ∀ text ∈ conversions.map (·.text), Unbroken text := by
      intro text htext
      obtain ⟨conversion, -, rfl⟩ := List.mem_map.1 htext
      cases conversion <;> decide
    have hformat := ((by decide : Unbroken "\"").append
      (.intercalate (by decide : Unbroken " ") htexts)).append (by decide : Unbroken "\\n\"")
    rw [exprText]
    have harguments := List.forall_mem_cons.2 ⟨hformat, unbroken_exprTexts hok as h⟩
    exact (by decide : Inline "printf").append (Inline.inParens (.commaList harguments)).unbroken
  | .index a i, h => by
    rw [exprText]
    exact ((((inline_exprText hok a h.1).asOperand a).append (by decide)).append
      (inline_exprText hok i h.2).unbroken).append (by decide)
  | .choice t y n, h => by
    rw [exprText]
    exact ((((Inline.inParens (inline_exprText hok t h.1).unbroken).append (by decide)).append
      (Inline.inParens (inline_exprText hok y h.2.1).unbroken).unbroken).append (by decide)).append
      (Inline.inParens (inline_exprText hok n h.2.2).unbroken).unbroken
  | .bare e, h => by
    rw [exprText]
    exact inline_exprText hok e h

theorem unbroken_exprTexts (hok : OfWords ok) :
    (es : List Expr) → ExprsNamed ok es → ∀ text ∈ exprTexts es, Unbroken text
  | [], _ => nofun
  | e :: es, h =>
    List.forall_mem_cons.2 ⟨(inline_exprText hok e h.1).unbroken, unbroken_exprTexts hok es h.2⟩

theorem unbroken_fieldTexts (hok : OfWords ok) : (fs : List (String × Expr)) → FieldsNamed ok fs →
    ∀ text ∈ fieldTexts fs, Unbroken text
  | [], _ => nofun
  | (k, e) :: fs, h => by
    have hfield := (((by decide : Unbroken ".").append (Inline.identifier (hok k h.1)).unbroken).append
      (by decide : Unbroken " = ")).append (inline_exprText hok e h.2.1).unbroken
    exact List.forall_mem_cons.2 ⟨hfield, unbroken_fieldTexts hok fs h.2.2⟩

end

mutual

theorem laid_stmt (hok : OfWords ok) : (s : Stmt) → s.Named ok → s.Laid
  | .expr e, h => .expr (inline_exprText hok e h)
  | .declare _ _ e, h => .declare (inline_declarator hok h.1 h.2.1) (inline_exprText hok e h.2.2)
  | .block b, h => .block (laid_stmts hok b h)
  | .cond t y r, h => .cond (inline_exprText hok t h.1) (laid_stmts hok y h.2.1) (laid_rest hok r h.2.2)
  | .loop n a b _ body, h =>
    .loop (.identifier (hok n h.1)) (inline_exprText hok a h.2.1) (inline_exprText hok b h.2.2.1)
      (laid_stmts hok body h.2.2.2)
  | .leave, _ => .leave
  | .result e, h => .result (inline_exprText hok e h)

theorem laid_stmts (hok : OfWords ok) : (ss : List Stmt) → StmtsNamed ok ss → Laid ss
  | [], _ => .nil
  | s :: ss, h => .cons (laid_stmt hok s h.1) (laid_stmts hok ss h.2)

theorem laid_rest (hok : OfWords ok) : (r : Rest) → r.Named ok → r.Laid
  | .done, _ => .done
  | .orElse b, h => .orElse (laid_stmts hok b h)
  | .orIf t y r, h => .orIf (inline_exprText hok t h.1) (laid_stmts hok y h.2.1) (laid_rest hok r h.2.2)

end

/-- a function without a result is said to have none -/
theorem IsSpelling.result {f : Function} (h : f.Announced ok) :
    IsSpelling ok ((f.result.map C.tyName).getD "void") := by
  cases hresult : f.result with
  | none => exact word (.inl (by decide))
  | some ty => exact tyName ty (h.result ty hresult)

theorem inline_prototype (hok : OfWords ok) {f : Function} (h : f.Announced ok) : Inline f.prototype := by
  have hty := (IsSpelling.result h).inline hok
  have hlist : Unbroken (if f.params.isEmpty then "void"
      else commaList (f.params.map fun p => declarator p.1 p.2)) := by
    split
    · decide
    · refine .commaList fun text htext => ?_
      obtain ⟨p, hp, rfl⟩ := List.mem_map.1 htext
      exact (inline_declarator hok (h.params p hp).1 (h.params p hp).2).unbroken
  exact ((hty.append (by decide : Unbroken " ")).append (Inline.identifier (hok _ h.name)).unbroken).append
    (Inline.inParens hlist).unbroken

end Names

/-- what the text of a function says -/
def Function.outline (f : Function) : Outline := .block f.prototype.toList (outlines f.body)

/-- what the text of a program says behind the line that includes the header; `main` has a last line of
its own -/
def Program.outline (p : Program) : List Outline :=
  p.functions.map Function.outline ++ p.main.toList.map fun b =>
    .block mainPrototype.toList (outlines (b ++ [.result (.literal (.int 0))]))

/-- wherever a function is written, it is well indented, closes what it opens and is read as it is -/
def Function.Laid (f : Function) : Prop :=
  ∀ w p, w.depth = p.depth → Adds p (p.add [f.outline]) w (f.write w)

section Programs

variable {ok : String → Prop} (hok : OfWords ok)
include hok

theorem Function.laid {f : Function} (h : f.Announced ok ∧ StmtsNamed ok f.body) : f.Laid := by
  intro w p hw
  have hlast : f.prototype.toList.getLast? ≠ some ' ' := getLast?_inParens _ _
  have hline : Adds p _ w (w.line (f.prototype ++ " \x7b")) :=
    .opening (inline_prototype hok h.1) hlast hw
  exact ((laid_stmts hok _ h.2).braced hline hw).trans (.newline _ _)

theorem adds_writeFunctions {fs : List Function} (h : ∀ f ∈ fs, f.Announced ok ∧ StmtsNamed ok f.body) :
    ∀ w p, w.depth = p.depth → Adds p (p.add (fs.map Function.outline)) w (writeFunctions fs w) := by
  induction fs with
  | nil => exact fun w p _ => (p.add_nil).symm ▸ .refl p w
  | cons f fs ih =>
    intro w p hw
    obtain ⟨hf, hfs⟩ := List.forall_mem_cons.1 h
    have hfirst := Function.laid hok hf w p hw
    have hrest := ih hfs (f.write w) (p.add [f.outline]) (hfirst.depth.trans hw)
    rw [Place.add_add] at hrest
    exact hfirst.trans hrest

/-- the body of a program is written function by function, and then `main` -/
theorem Program.adds_body {p : Program} (h : p.Named ok) : ∃ w, w.output = p.body ∧
    Adds (Place.start.add (p.functions.map Function.outline)) (Place.start.add p.outline)
      (writeFunctions p.functions .empty) w := by
  have hdepth : (writeFunctions p.functions .empty).depth = 0 :=
    (adds_writeFunctions hok h.functions .empty .start rfl).depth
  have hmain := h.main
  unfold body outline writeFunctions at *
  dsimp only
  generalize p.functions.foldl (fun w f => f.write w) Writer.empty = w at *
  cases hb : p.main with
  | none =>
    rw [Option.toList_none, List.map_nil, List.append_nil]
    exact ⟨w, rfl, .refl _ w⟩
  | some b =>
    -- the last line is that of a result
    have hresult : StmtsNamed ok [.result (.literal (.int 0))] := .single trivial
    have hall := laid_stmts hok _ ((hmain b hb).append hresult)
    have hline : Adds (Place.start.add (p.functions.map Function.outline)) _ w
        (w.line (mainPrototype ++ " \x7b")) := .opening (by decide) (by decide) hdepth
    have hbody := hall.braced hline hdepth
    rw [writeStmts_append, Place.add_add] at hbody
    exact ⟨_, rfl, hbody⟩

end Programs

/-- what is written from the beginning closes all it opens -/
theorem Adds.openBehind {w : Writer} {items : List Outline}
    (h : Adds .start (Place.start.add items) .empty w) :
    openBehind ("\n" ++ w.output) = some 0 ∧ outline? ("\n" ++ w.output) = some items := by
  obtain ⟨cs, hcs, hreads⟩ := h.reads
  have hall : Reads .start ([] ++ '\n' :: cs) (Place.start.add items) :=
    .line List.not_mem_nil rfl rfl hreads
  have htext : ("\n" ++ w.output).toList = [] ++ '\n' :: cs := by
    rw [String.toList_append, hcs]
    rfl
  obtain ⟨houtline, hdepth⟩ := hall.foldlM
  rw [C.openBehind, outline?, htext, houtline]
  exact ⟨hdepth, rfl⟩

/-- the text of a program is read line by line and block by block -/
theorem Program.outline?_body {ok : String → Prop} (hok : OfWords ok)
    {p : Program} (h : p.Named ok) : outline? ("\n" ++ p.body) = some p.outline := by
  obtain ⟨w, hw, hmain⟩ := p.adds_body hok h
  have hfunctions := adds_writeFunctions hok h.functions .empty .start rfl
  exact hw ▸ (hfunctions.trans hmain).openBehind.2

end C

/-- the source of a program has its text behind the line that includes the header -/
theorem C.Program.sourceText_eq (p : C.Program) (name : String) :
    p.sourceText name = "#include \"" ++ name ++ ".h\"\n" ++ ("\n" ++ p.body) := by
  have hbreaks : ".h\"\n\n" = ".h\"\n" ++ "\n" := rfl
  simp only [C.Program.sourceText, hbreaks, String.append_assoc]

/-- Over any scopes whose types are made of words, a program whose names, keys and types are words is
compiled to a source whose lines, those behind the first one, are well indented: four blanks for each
block that is open at the line. No block is open behind the last line, nor behind any of the functions. -/
theorem blocks_indented (scopes : ScopeTree) (hscopes : scopes.Reachable) (hknown : scopes.Worded)
    (code : Code) (hcode : ∀ n, NodeOf code n → AreWords n.names) (name : String)
    (style : C.GuardStyle) (files : CFiles) (h : (compileOver scopes code name style).1 = .ok files) :
    ∃ p, ((C.Compile.program code).run.run scopes).1 = .ok p ∧
      files.source = "#include \"" ++ name ++ ".h\"\n" ++ ("\n" ++ p.body) ∧
      C.openBehind ("\n" ++ p.body) = some 0 ∧
      ∀ fs, fs <+: p.functions → (C.writeFunctions fs .empty).output.toList <+: p.body.toList ∧
        C.openBehind ("\n" ++ (C.writeFunctions fs .empty).output) = some 0 := by
  obtain ⟨p, hp, rfl⟩ := files_of_compileOver h
  have hok : C.OfWords (C.isIdentifier · = true) := fun _ hn => hn
  have hnamed := C.Program.named_of_compile hscopes.wellFormed hknown (.of_code hcode) hp
  obtain ⟨w, hw, hmain⟩ := p.adds_body hok hnamed
  have hfunctions := C.adds_writeFunctions hok hnamed.functions .empty .start rfl
  refine ⟨p, hp, p.sourceText_eq name, hw ▸ (hfunctions.trans hmain).openBehind.1, ?_⟩
  rintro fs ⟨gs, hgs⟩
  have hall := hnamed.functions
  rw [← hgs] at hall
  obtain ⟨hfs, hgs'⟩ := List.forall_mem_append.1 hall
  have hfirst := C.adds_writeFunctions hok hfs .empty .start rfl
  have hrest := C.adds_writeFunctions hok hgs' (C.writeFunctions fs .empty)
    (C.Place.start.add (fs.map C.Function.outline)) hfirst.depth
  rw [C.writeFunctions, C.writeFunctions, ← List.foldl_append, hgs, C.Place.add_add, ← List.map_append,
    hgs] at hrest
  obtain ⟨cs, hcs, -⟩ := (hrest.trans hmain).reads
  exact ⟨⟨cs, hw ▸ hcs.symm⟩, hfirst.openBehind.1⟩

namespace Samples

/-- branches of every form in a function, and a loop in `main` -/
def nested : Code :=
  let x := Expr.ident .nowhere "x"
  let inner := Stmt.cond .nowhere x (.leave .nowhere) (some (.block .nowhere [.expr .nowhere x]))
  [.function .nowhere "f" [⟨"x", some (.user "point")⟩] none
      [.cond .nowhere x (.block .nowhere [.store .nowhere "y" none x]) (some inner)],
    .loop .nowhere "i" (.range .nowhere x x false) (.block .nowhere [.block .nowhere []])]

end Samples

open Samples

theorem worded_nested : ∀ n, NodeOf nested n → AreWords n.names :=
  Code.named_of_check 9 (by decide)

theorem blocks_indented_nested : ∃ (files : CFiles) (p : C.Program),
    (compileOver .empty nested "m" .pragma).1 = .ok files ∧
      files.source = "#include \"m.h\"\n" ++ ("\n" ++ p.body) ∧
      C.openBehind ("\n" ++ p.body) = some 0 := by
  have hok : (compileOver .empty nested "m" .pragma).1.isOk = true := by decide
  cases hfiles : (compileOver .empty nested "m" .pragma).1 with
  | error u =>
    rw [hfiles] at hok
    cases hok
  | ok files =>
    obtain ⟨p, -, hsource, hopen, -⟩ :=
      blocks_indented .empty ⟨[], rfl⟩ nofun nested worded_nested "m" .pragma files hfiles
    exact ⟨files, p, rfl, hsource, hopen⟩

end AutoLang
