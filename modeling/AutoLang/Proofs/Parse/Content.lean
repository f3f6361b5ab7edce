import AutoLang.Proofs.Parse.Evaluation
import AutoLang.Proofs.Parse.Rendering
import AutoLang.Proofs.Parse.Soundness
import AutoLang.Proofs.Parse.Values
import Mathlib

/-! A parse without problems makes nothing up, and all it can lose is the value of a constant. What a tree
says, node by node in the order of the text, are the names, constants, operators and types that the text
says, token by token; the tokens left over only shape phrases, and the brackets among them match. -/

namespace AutoLang

/-- something that a text has to say -/
inductive Atom where
  /-- of a variable, a parameter, a function or a type -/
  | name (n : String)
  /-- of an entry of an object -/
  | key (k : String)
  | value (v : Literal)
  /-- a string among the parts of a format string, which may be its text or stand in an interpolation -/
  | text (t : String)
  | sign (op : UnaryOp)
  | link (l : Link)
  /-- of a type -/
  | pointer

namespace Atom

/-- what is said is what the token says; `values` are the constants that tokens may stand for -/
inductive Denotes (values : Token → Literal → Prop) : Atom → Token → Prop
  | name {t : Token} : t.kind = .ident → Denotes values (.name t.text) t
  | key {t : Token} : t.kind = .ident ∨ t.kind = .str → Denotes values (.key t.text) t
  | value {t : Token} {v : Literal} : values t v → Denotes values (.value v) t
  | text {t : Token} : t.kind = .formatText ∨ t.kind = .str → Denotes values (.text t.text) t
  | sign {t : Token} {op : UnaryOp} : t.kind = op.token → Denotes values (.sign op) t
  | link {t : Token} {l : Link} : t.kind = l.token → Denotes values (.link l) t
  | pointer {t : Token} : t.kind = .star → Denotes values .pointer t

/-- the constants being those that the parser reads -/
def IsRead : Atom → Token → Prop := Denotes (Parse.literal? · = some ·)

theorem Denotes.imp {values values' : Token → Literal → Prop} {a : Atom} {t : Token}
    (h : a.Denotes values t) (himp : ∀ v, values t v → values' t v) : a.Denotes values' t := by
  cases h with
  | name hk => exact .name hk
  | key hk => exact .key hk
  | value hv => exact .value (himp _ hv)
  | text hk => exact .text hk
  | sign hk => exact .sign hk
  | link hk => exact .link hk
  | pointer hk => exact .pointer hk

end Atom

section Atoms

/-- a type says the name it ends with and the pointers before; an unknown one says nothing -/
def Ty.atoms : Ty → List Atom
  | mk kind name elem =>
    let inner := match elem with
      | some e => e.atoms
      | none => []
    match kind with
    | .unknown => []
    | .array => inner
    | .ptr => .pointer :: inner
    | .user => name.toList.map .name
    | k => [.name k.name]

def atomsOfTy? : Option Ty → List Atom
  | none => []
  | some y => y.atoms

def Param.atoms (p : Param) : List Atom := .name p.name :: atomsOfTy? p.ty

mutual

/-- what an expression says, in the order of the text -/
@[simp]
def Expr.atoms : Expr → List Atom
  | .literal _ v => [.value v]
  | .ident _ n | .ref _ n => [.name n]
  | .unary _ op e => .sign op :: e.atoms
  | .binary _ l op r => l.atoms ++ .link (.binary op) :: r.atoms
  | .range _ a b inclusive => a.atoms ++ .link (.range inclusive) :: b.atoms
  | .array _ es => atomsOfExprs es
  | .pair _ f => f.atoms
  | .object _ fs => atomsOfFields fs
  | .block _ b => atomsOfStmts b
  | .format _ ps => atomsOfParts ps
  | .call _ c as => c.atoms ++ atomsOfExprs as
  | .index _ a i => a.atoms ++ i.atoms
  | .cond _ t y n => t.atoms ++ (y.atoms ++ atomsOfExpr? n)

@[simp]
def Field.atoms : Field → List Atom
  | .mk k e => .key k :: e.atoms

@[simp]
def Stmt.atoms : Stmt → List Atom
  | .expr _ e => e.atoms
  | .cond _ t y n => t.atoms ++ (y.atoms ++ atomsOfStmt? n)
  | .loop _ n e b => .name n :: (e.atoms ++ b.atoms)
  | .store _ n y e => .name n :: (atomsOfTy? y ++ .link (.binary .assign) :: e.atoms)
  | .block _ b => atomsOfStmts b
  | .function _ n ps r b => .name n :: (ps.flatMap Param.atoms ++ (atomsOfTy? r ++ atomsOfStmts b))
  | .blank _ | .leave _ => []

@[simp]
def atomsOfExpr? : Option Expr → List Atom
  | none => []
  | some e => e.atoms

@[simp]
def atomsOfStmt? : Option Stmt → List Atom
  | none => []
  | some s => s.atoms

@[simp]
def atomsOfExprs : List Expr → List Atom
  | [] => []
  | e :: es => e.atoms ++ atomsOfExprs es

@[simp]
def atomsOfParts : List Expr → List Atom
  | [] => []
  | .literal _ (.str t) :: ps => .text t :: atomsOfParts ps
  | e :: ps => e.atoms ++ atomsOfParts ps

@[simp]
def atomsOfFields : List Field → List Atom
  | [] => []
  | f :: fs => f.atoms ++ atomsOfFields fs

@[simp]
def atomsOfStmts : List Stmt → List Atom
  | [] => []
  | s :: ss => s.atoms ++ atomsOfStmts ss

end

theorem Expr.atoms_withSpan (s : Span) (e : Expr) : (e.withSpan s).atoms = e.atoms := by
  cases e <;> simp [Expr.withSpan]

theorem atoms_join (l : Link) (a b : Expr) :
    (l.join a b).atoms = a.atoms ++ .link l :: b.atoms := by
  cases l <;> simp [Link.join]

theorem atomsOfParts_cons (e : Expr) (ps : List Expr) :
    atomsOfParts (e :: ps) = atomsOfParts [e] ++ atomsOfParts ps := by
  cases e with
  | literal s v => cases v <;> simp
  | _ => simp

theorem atoms_ofName (n : String) : (Ty.ofName n).atoms = [.name n] := by
  unfold Ty.ofName
  split
  · rename_i kind hk
    have hmem := List.mem_of_find?_eq_some hk
    have hname : kind.name = n := by simpa using List.find?_some hk
    rw [← hname]
    revert hmem
    cases kind <;> simp [TyKind.builtin, Ty.simple, Ty.atoms]
  · simp [Ty.user, Ty.atoms]

theorem atoms_arrayOf (y : Option Ty) :
    (Ty.arrayOf (y.getD (.simple .unknown))).atoms = atomsOfTy? y := by
  cases y <;> simp [Ty.arrayOf, Ty.simple, Ty.atoms, atomsOfTy?]

theorem atoms_ptrTo (y : Option Ty) :
    (Ty.ptrTo (y.getD (.simple .unknown))).atoms = .pointer :: atomsOfTy? y := by
  cases y <;> simp [Ty.ptrTo, Ty.simple, Ty.atoms, atomsOfTy?]

end Atoms
/-- the tokens that shape phrases and say nothing themselves -/
def TokenKind.isShape : TokenKind → Bool
  | openParen | closeParen | openSquare | closeSquare | openBrace | closeBrace
  | comma | semicolon | newline | colon
  | varKw | letKw | mutKw | ifKw | elseKw | forKw | inKw | breakKw | fnKw
  | formatOpen | formatMark | formatClose | eof => true
  | _ => false

theorem Parse.isShape_of_literal? {t : Token} {v : Literal} (h : literal? t = some v) :
    t.kind.isShape = false := by
  unfold literal? at h
  split at h
  case h_14 => cases h
  all_goals
    rename_i hk
    rw [hk]
    rfl

theorem Parse.str_of_literal? {t : Token} {x : String} (h : literal? t = some (.str x)) :
    t.kind = .str ∧ t.text = x := by
  unfold literal? at h
  split at h
  case h_11 hk =>
    cases h
    exact ⟨hk, rfl⟩
  all_goals cases h

/-- what denotes something shapes nothing -/
theorem Atom.IsRead.isShape {a : Atom} {t : Token} (h : a.IsRead t) : t.kind.isShape = false := by
  cases h with
  | name hk | pointer hk => rw [hk]; rfl
  | key hk | text hk => rcases hk with hk | hk <;> rw [hk] <;> rfl
  | value hv => exact Parse.isShape_of_literal? hv
  | @sign _ op hk => rw [hk]; cases op <;> rfl
  | @link _ l hk =>
    rw [hk]
    rcases l with op | inclusive
    · cases op <;> rfl
    · cases inclusive <;> rfl

theorem Atom.IsRead.literal? {v : Literal} {t : Token} (h : IsRead (.value v) t) :
    Parse.literal? t = some v := by
  cases h with
  | value hv => exact hv

namespace TokenKind

/-- the bracket that closes this one -/
def closer? : TokenKind → Option TokenKind
  | openParen => some closeParen
  | openSquare => some closeSquare
  | openBrace => some closeBrace
  | _ => none

end TokenKind

/-- the brackets to be closed after a token, `pending` being those before it; a bracket can only close
the last one that was opened -/
def TokenKind.track (pending : List TokenKind) (k : TokenKind) : Option (List TokenKind) :=
  match k.closer? with
  | some c => some (c :: pending)
  | none =>
    if k.isCloser then
      match pending with
      | [] => none
      | c :: outer => if c = k then some outer else none
    else some pending

/-- the brackets to be closed after some tokens, if those among them match -/
def pendingAfter (pending : List TokenKind) (ts : List Token) : Option (List TokenKind) :=
  ts.foldlM (fun pending t => t.kind.track pending) pending

/-- the tokens `ts` say `as`, and their brackets match but for those that close `closing` -/
structure Says (as : List Atom) (closing : List TokenKind) (ts : List Token) : Prop where
  content : List.Forall₂ Atom.IsRead as (ts.filter (!·.kind.isShape))
  nested : ∀ pending, pendingAfter (closing ++ pending) ts = some pending

namespace Says

variable {as bs : List Atom} {cs : List TokenKind} {t : Token} {ts us : List Token}

theorem nil : Says [] [] [] := ⟨.nil, fun _ => rfl⟩

/-- a token in front that says `bs` and after which `cs'` are to be closed -/
theorem cons {cs' : List TokenKind} (h : Says as cs' ts) (bs : List Atom)
    (hb : List.Forall₂ Atom.IsRead bs ([t].filter (!·.kind.isShape)))
    (hn : ∀ pending, t.kind.track (cs ++ pending) = some (cs' ++ pending)) :
    Says (bs ++ as) cs (t :: ts) := by
  constructor
  · rw [← List.singleton_append, List.filter_append]
    exact List.rel_append hb h.content
  · intro pending
    rw [pendingAfter, List.foldlM_cons, hn]
    exact h.nested pending

theorem append {ds : List TokenKind} (h : Says as cs ts) (h' : Says bs ds us) :
    Says (as ++ bs) (cs ++ ds) (ts ++ us) := by
  constructor
  · rw [List.filter_append]
    exact List.rel_append h.content h'.content
  · intro pending
    have hts := h.nested (ds ++ pending)
    rw [pendingAfter] at hts
    rw [pendingAfter, List.foldlM_append, List.append_assoc, hts]
    exact h'.nested pending

/-- a token that says nothing and is no bracket -/
theorem shape {k : TokenKind} (hk : t.kind = k)
    (hshape : k.isShape = true ∧ k.closer? = none ∧ k.isCloser = false) (h : Says as cs ts) :
    Says as cs (t :: ts) := by
  refine h.cons [] (by simp [hk, hshape]) fun pending => ?_
  simp [TokenKind.track, hk, hshape]

theorem opening {o c : TokenKind} (hk : t.kind = o) (hc : o.closer? = some c)
    (h : Says as (c :: cs) ts) : Says as cs (t :: ts) := by
  have hshape : o.isShape = true := by
    revert hc
    cases o <;> simp [TokenKind.closer?, TokenKind.isShape]
  refine h.cons [] (by simp [hk, hshape]) fun pending => ?_
  simp [TokenKind.track, hk, hc]

theorem closing {c : TokenKind} (hk : t.kind = c) (hc : c.isCloser = true) (h : Says as cs ts) :
    Says as (c :: cs) (t :: ts) := by
  have hshape : c.isShape = true ∧ c.closer? = none := by
    revert hc
    cases c <;> simp [TokenKind.isCloser, TokenKind.closer?, TokenKind.isShape]
  refine h.cons [] (by simp [hk, hshape]) fun pending => ?_
  simp [TokenKind.track, hk, hshape, hc]

theorem atom {a : Atom} (ha : a.IsRead t) (h : Says as cs ts) : Says (a :: as) cs (t :: ts) := by
  have hk := ha.isShape
  have hbrackets : t.kind.closer? = none ∧ t.kind.isCloser = false := by
    revert hk
    cases t.kind <;> simp [TokenKind.isCloser, TokenKind.closer?, TokenKind.isShape]
  refine h.cons [a] (by simpa [hk] using ha) fun pending => ?_
  simp [TokenKind.track, hbrackets]

/-- separators say nothing -/
theorem skip {ns : List Token} (hn : Separators ns) (h : Says as cs ts) :
    Says as cs (ns ++ ts) := by
  induction ns with
  | nil => exact h
  | cons n ns ih =>
    obtain ⟨hkind, hns⟩ := List.forall_mem_cons.1 hn
    rcases hkind with hk | hk
    · exact shape hk (by decide) (ih hns)
    · exact shape hk (by decide) (ih hns)

/-- a phrase up to the bracket that closes it -/
theorem ends {c : TokenKind} {ns : List Token} (h : Says as [] ts) (hn : Separators ns)
    (hk : t.kind = c) (hc : c.isCloser = true) : Says as [c] (ts ++ (ns ++ [t])) := by
  have hlast := h.append (.skip hn (.closing hk hc .nil))
  rwa [List.append_nil] at hlast

/-- an expression that stands as a part of a format string -/
theorem asPart {e : Expr} (h : Says e.atoms [] ts) : Says (atomsOfParts [e]) [] ts := by
  cases e with
  | literal s v =>
    cases v with
    | str x =>
      refine ⟨?_, h.nested⟩
      obtain ⟨t, us, hvalue, hus, hcontent⟩ := List.forall₂_cons_left_iff.1 h.content
      obtain ⟨hk, rfl⟩ := Parse.str_of_literal? hvalue.literal?
      obtain rfl := List.forall₂_nil_left_iff.1 hus
      rw [hcontent]
      exact .cons (.text (.inr hk)) .nil
    | _ => simpa [atomsOfParts] using h
  | _ => simpa [atomsOfParts] using h

end Says

/-- what a reading says -/
@[simp]
def Reading.atoms : Reading → List Atom
  | ty y => atomsOfTy? y
  | param p => p.atoms
  | expr e | choice e => e.atoms
  | field f => f.atoms
  | items _ rs => atomsOf rs
  | parts ps => atomsOfParts ps
  | hole e => atomsOfParts [e]
  | braces _ xs | stmts xs => atomsOfStmts xs
  | otherwise no => atomsOfExpr? no
  | stmt x | body x => x.atoms
  | alternative no => atomsOfStmt? no
where
  @[simp]
  atomsOf : List Reading → List Atom
    | [] => []
    | r :: rs => r.atoms ++ atomsOf rs

/-- a series stands with its closing bracket -/
def Reading.closing : Reading → List TokenKind
  | items close _ => [close]
  | _ => []

theorem Reading.IsItem.closing {r : Reading} (h : r.IsItem) : r.closing = [] := by
  cases r with
  | items => cases h
  | _ => rfl

theorem atomsOf_exprs (es : List Expr) : Reading.atoms.atomsOf (es.map .expr) = atomsOfExprs es := by
  induction es with
  | nil => rfl
  | cons e es ih => simp [ih]

theorem atomsOf_fields (fs : List Field) :
    Reading.atoms.atomsOf (fs.map .field) = atomsOfFields fs := by
  induction fs with
  | nil => rfl
  | cons f fs ih => simp [ih]

theorem atomsOf_params (ps : List Param) :
    Reading.atoms.atomsOf (ps.map .param) = ps.flatMap Param.atoms := by
  induction ps with
  | nil => rfl
  | cons p ps ih => simp [ih]

/-- tokens say what is read from them -/
theorem Derives.says {r : Reading} {ts : List Token} (h : Derives r ts) :
    Says r.atoms r.closing ts := by
  have none : Separators [] := by simp [Separators]
  induction h with
  | tyNone | partsOpen | otherwiseNone | alternativeNone => exact .nil
  | tyName hk =>
    rw [Reading.atoms, atomsOfTy?, atoms_ofName]
    exact .atom (.name hk) .nil
  | tyArray ho hc _ ih =>
    rw [Reading.atoms, atomsOfTy?, atoms_arrayOf]
    exact .opening ho rfl (.closing hc rfl ih)
  | tyPtr hk _ ih =>
    rw [Reading.atoms, atomsOfTy?, atoms_ptrTo]
    exact .atom (.pointer hk) ih
  | param hk _ ih => exact .atom (.name hk) ih
  | literal hv => exact .atom (.value hv) .nil
  | ident hk => exact .atom (.name hk) .nil
  | group ho hns _ hms hc ih =>
    rw [Reading.atoms, Expr.atoms_withSpan]
    exact .opening ho rfl (.skip hns.separators (ih.ends hms.separators hc rfl))
  | array ho _ ih =>
    rw [Reading.atoms, Expr.atoms, ← atomsOf_exprs]
    exact .opening ho rfl ih
  | object ho _ ih =>
    rw [Reading.atoms, Expr.atoms, ← atomsOf_fields]
    exact .opening ho rfl ih
  | cond hk _ _ _ iht ihy ihn =>
    rw [Reading.atoms, Expr.atoms, Expr.atoms]
    exact .shape hk (by decide) (iht.append (ihy.append ihn))
  | choice _ ih | exprStmt _ ih | block _ ih => exact ih
  | format ho _ ih => exact .shape ho (by decide) ih
  | sign hop _ ih => exact .atom (.sign (UnaryOp.eq_token hop)) ih
  | link _ hl hns _ iha ihb =>
    rw [Reading.atoms, atoms_join]
    exact iha.append (.atom (.link (Link.eq_token hl)) (.skip hns.separators ihb))
  | call _ ho _ ihf ihs =>
    rw [Reading.atoms, Expr.atoms, ← atomsOf_exprs]
    exact ihf.append (.opening ho rfl ihs)
  | @index _ _ i _ _ _ ho _ iha ihi =>
    have hone : Reading.atoms.atomsOf [.expr i] = i.atoms := List.append_nil _
    rw [Reading.atoms, Expr.atoms, ← hone]
    exact iha.append (.opening ho rfl ihi)
  | field hk hc hns _ ih =>
    exact .atom (.key hk) (.shape hc (by decide) (.skip hns.separators ih))
  | itemsNone hcl hns hc => exact .skip hns.separators (.closing hc hcl .nil)
  | itemsLast hcl hr hns _ hms hc ih =>
    rw [hr.closing] at ih
    rw [Reading.atoms, Reading.atoms.atomsOf, Reading.atoms.atomsOf, List.append_nil]
    exact .skip hns.separators (ih.ends hms.separators hc hcl)
  | itemsMore hr hns _ hms hk _ ihr ihs =>
    rw [hr.closing] at ihr
    exact .skip hns.separators (ihr.append (.skip hms.separators (.shape hk (by decide) ihs)))
  | partsClose hc => exact .shape hc (by decide) .nil
  | partsText hk _ ih => exact .atom (.text (.inl hk)) ih
  | partsHole hm _ _ ihe ihs =>
    rw [Reading.atoms, atomsOfParts_cons]
    exact .shape hm (by decide) (ihe.append ihs)
  | holeName hk => exact .atom (.name hk) .nil
  | holeCode ho _ hc ih => exact .opening ho rfl (ih.asPart.ends none hc rfl)
  | braces ho _ hc ih => exact .opening ho rfl (ih.ends none hc rfl)
  | otherwiseBlock hns hk _ ih => exact .skip hns.separators (.shape hk (by decide) ih)
  | otherwiseCond hns hk _ ih => exact .skip hns.separators (.shape hk (by decide) ih)
  | store hk hn _ ha hns _ ihy ihe =>
    have hlink := Says.atom (.link (show _ = (Link.binary .assign).token from ha))
      (.skip hns.separators ihe)
    have hrest := Says.atom (.name hn) (ihy.append hlink)
    rcases hk with hk | hk | hk
    · exact hrest.shape hk (by decide)
    · exact hrest.shape hk (by decide)
    · exact hrest.shape hk (by decide)
  | condStmt hk _ _ _ iht ihy ihn => exact .shape hk (by decide) (iht.append (ihy.append ihn))
  | loop hk hn hi _ _ ihe ihb =>
    exact .shape hk (by decide) (.atom (.name hn) (.shape hi (by decide) (ihe.append ihb)))
  | function hk hn ho _ _ _ ihp ihy ihb =>
    rw [Reading.atoms, Stmt.atoms, ← atomsOf_params]
    exact .shape hk (by decide) (.atom (.name hn) (.opening ho rfl (ihp.append (ihy.append ihb))))
  | leave hk => exact .shape hk (by decide) .nil
  | body hns _ ih => exact .skip hns ih
  | alternativeSome hns hk _ ih => exact .skip hns.separators (.shape hk (by decide) ih)
  | stmtsNone hns =>
    have hskip := Says.nil.skip hns
    rwa [List.append_nil] at hskip
  | stmtsMore _ _ ihx ihs => exact ihx.append ihs

section Source

variable {source : String} {marker : Char}

theorem Parse.says_ofLexer
    (h : (ofLexer { Lexer.ofSource source with marker := marker }).diagnostics = []) :
    Says (atomsOfStmts (ofLexer { Lexer.ofSource source with marker := marker }).code) []
      { Lexer.ofSource source with marker := marker }.significant := by
  obtain ⟨ts, last, hsplit, hlast, hderives⟩ := derives_ofLexer h
  -- the end token says nothing either
  have hend : Says [] [] [last] := .shape hlast (by decide) .nil
  have hwhole := hderives.says.append hend
  rwa [List.append_nil, ← hsplit] at hwhole

end Source

theorem exists_of_mem_forall₂ {α β : Type} {R : α → β → Prop} {as : List α} {bs : List β}
    (h : List.Forall₂ R as bs) {a : α} (ha : a ∈ as) : ∃ b ∈ bs, R a b := by
  induction h with
  | nil => cases ha
  | @cons a' b as bs hb _ ih =>
    rcases List.mem_cons.1 ha with rfl | ha
    · exact ⟨b, List.mem_cons_self, hb⟩
    · obtain ⟨c, hc, hr⟩ := ih ha
      exact ⟨c, List.mem_cons_of_mem b hc, hr⟩

/-- an integer says its value only -/
theorem Atom.Denotes.exists_value {values : Token → Literal → Prop} {a : Atom} {t : Token}
    (h : a.Denotes values t) (hk : t.kind = .int) : ∃ v, a = .value v ∧ values t v := by
  cases h with
  | value hv => exact ⟨_, rfl, hv⟩
  | name ht | pointer ht => cases hk.symm.trans ht
  | key ht | text ht => rcases ht with ht | ht <;> cases hk.symm.trans ht
  | @sign _ op ht => cases op <;> cases hk.symm.trans ht
  | @link _ l ht =>
    rcases l with op | inclusive
    · cases op <;> cases hk.symm.trans ht
    · cases inclusive <;> cases hk.symm.trans ht

/-- an integer denotes what is read from it, if tokens denote what a program says -/
theorem denotes_of_forall₂ {as : List Atom} {ts : List Token} (hread : List.Forall₂ Atom.IsRead as ts)
    (hdenotes : List.Forall₂ (Atom.Denotes Token.Denotes) as ts) {t : Token} (ht : t ∈ ts)
    (hk : t.kind = .int) {v : Literal} (hv : Parse.literal? t = some v) : t.Denotes v := by
  have both : List.Forall₂ (fun a t => Atom.IsRead a t ∧ Atom.Denotes Token.Denotes a t) as ts :=
    List.Forall₂.mp (fun _ _ => And.intro) hread hdenotes
  obtain ⟨a, -, ha, hdenoted⟩ := exists_of_mem_forall₂ (List.Forall₂.flip both) ht
  obtain ⟨w, rfl, hw⟩ := hdenoted.exists_value hk
  rwa [Option.some.inj (hv.symm.trans ha.literal?)]

/-- A text that is parsed without problems and the program read from it say the same: the tokens that do
more than shape a phrase denote, one by one and in their order, what the program says, and the brackets
of the text match. Only the value of a constant can be lost, where the parser falls back on another. -/
theorem parse_keeps_content (source : String) (marker : Char)
    (h : (Parse.ofLexer { Lexer.ofSource source with marker := marker }).diagnostics = []) :
    List.Forall₂ (Atom.Denotes fun t v => t.Denotes v ∨ t.FallsBack v)
        (atomsOfStmts (Parse.ofLexer { Lexer.ofSource source with marker := marker }).code)
        ({ Lexer.ofSource source with marker := marker }.significant.filter (!·.kind.isShape)) ∧
      pendingAfter [] { Lexer.ofSource source with marker := marker }.significant = some [] := by
  have hsays := Parse.says_ofLexer h
  refine ⟨?_, hsays.nested []⟩
  obtain ⟨hlength, hread⟩ := List.forall₂_iff_zip.1 hsays.content
  refine List.forall₂_iff_zip.2 ⟨hlength, fun {a t} hmem => (hread hmem).imp fun v hv => ?_⟩
  have hsignificant := (List.mem_filter.1 (List.of_mem_zip hmem).2).1
  exact Token.value_of_literal? (List.mem_filter.1 hsignificant).1 hv

/-- pointer and list types, a format text with a hole, an object, a comment, an index and a sign -/
def sampleProgram : String :=
  "fn f(a *int, b []str) \x7b var o = \x7bk: f\"n @\x7ba+1\x7d m\", \"s\": 1.5\x7d // c\n o.k[0] += -(2)\x7d"

/-- the texts of the sample, brackets apart, are those its tree says -/
theorem parse_keeps_content_sample :
    (Parse.ofLexer { Lexer.ofSource sampleProgram with marker := '@' }).diagnostics = [] ∧
      List.Forall₂ (Atom.Denotes fun t v => t.Denotes v ∨ t.FallsBack v)
        (atomsOfStmts (Parse.ofLexer { Lexer.ofSource sampleProgram with marker := '@' }).code)
        ({ Lexer.ofSource sampleProgram with marker := '@' }.significant.filter
          (!·.kind.isShape)) ∧
      pendingAfter [] { Lexer.ofSource sampleProgram with marker := '@' }.significant = some [] := by
  have run : Parse.runsClean 200 sampleProgram '@' = true := by decide +kernel
  have clean := Parse.diagnostics_of_runsClean run
  exact ⟨clean, parse_keeps_content _ _ clean⟩

/-- an integer from `2 ^ 63` on is lost without a word -/
theorem parse_loses_large_integer :
    ¬ ∀ (source : String) (marker : Char),
      (Parse.ofLexer { Lexer.ofSource source with marker := marker }).diagnostics = [] →
        List.Forall₂ (Atom.Denotes Token.Denotes)
            (atomsOfStmts (Parse.ofLexer { Lexer.ofSource source with marker := marker }).code)
            ({ Lexer.ofSource source with marker := marker }.significant.filter
              (!·.kind.isShape)) ∧
          pendingAfter [] { Lexer.ofSource source with marker := marker }.significant = some [] := by
  intro keeps
  set text := "print(9223372036854775809)" with htext
  have run : Parse.runsClean 30 text '$' = true := by
    rw [htext]
    decide +kernel
  have clean := Parse.diagnostics_of_runsClean run
  have hmem : ⟨.int, ⟨1, 6, 6, 19⟩, "9223372036854775809"⟩ ∈
      { Lexer.ofSource text with marker := '$' }.significant.filter fun t : Token =>
        !t.kind.isShape := by
    have lexed : (Lexer.runTokens? 30 text '$').isSome = true := by
      rw [htext]
      decide
    rw [Lexer.significant, Lexer.tokens_of_runTokens lexed, htext]
    decide
  obtain ⟨hcontent, -⟩ := keeps text '$' clean
  have hzero : Int32.ofNat (Parse.natOfText "i" "9223372036854775809") = 0 := by decide
  have hdenotes := denotes_of_forall₂ (Parse.says_ofLexer clean).content hcontent hmem rfl
    (congrArg (some ∘ Literal.int) hzero)
  cases hdenotes with
  | integer hchars hkind hwraps =>
    have hdigits : "9223372036854775809".toList.all Char.isDigit = true := by decide
    rw [Numeral.value_of_digits hchars hkind rfl (List.all_eq_true.1 hdigits)] at hwraps
    obtain ⟨hvalue⟩ := hwraps
    exact absurd hvalue (by decide)

end AutoLang
