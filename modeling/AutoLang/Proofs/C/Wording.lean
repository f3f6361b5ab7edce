import AutoLang.Proofs.C.Known
import AutoLang.Proofs.C.Reading
import AutoLang.Proofs.C.Supported
import Mathlib

/-! The names in a compiled program. The compiler makes up no names: all that it writes are said by the
program itself, or stand in the types that names are known to have. So whatever holds of the names in the
source, such as that they are words, holds of the names in the C program. -/

namespace AutoLang

/-- the names in a type, of whatever kind it is -/
def Ty.names : Ty → List String
  | .mk _ n none => n.toList
  | .mk _ n (some e) => n.toList ++ e.names

/-- the names that an expression says apart from its parts, keys included -/
def Expr.names : Expr → List String
  | .ident _ n | .ref _ n => [n]
  | .pair _ f => [f.key]
  | .object _ fs => fs.map Field.key
  | _ => []

def Param.names (p : Param) : List String := p.name :: p.ty.toList.flatMap Ty.names

/-- the names that a statement says apart from its parts, those of types included -/
def Stmt.names : Stmt → List String
  | .store _ n ty _ => n :: ty.toList.flatMap Ty.names
  | .loop _ n _ _ => [n]
  | .function _ n ps r _ => n :: (ps.flatMap Param.names ++ r.toList.flatMap Ty.names)
  | _ => []

def Node.names : Node → List String
  | expr e => e.names
  | stmt x => x.names

/-- all names are words -/
def AreWords (ns : List String) : Prop := ∀ n ∈ ns, C.isIdentifier n = true

instance (ns : List String) : Decidable (AreWords ns) :=
  inferInstanceAs (Decidable (∀ n ∈ ns, C.isIdentifier n = true))

/-- the types that names have are made of words -/
def ScopeTree.Worded (t : ScopeTree) : Prop := ∀ n, ∀ ty ∈ t.ty? n, AreWords ty.names

variable {ok : String → Prop} {known : ScopeTree}

/-- the names in a node and in its parts are as asked -/
def Node.Named (ok : String → Prop) (n : Node) : Prop :=
  ∀ p, Relation.ReflTransGen (fun p c => c ∈ p.children) n p → ∀ m ∈ p.names, ok m

namespace Node.Named

variable {n c : Node}

theorem own (h : n.Named ok) : ∀ m ∈ n.names, ok m := h n .refl

theorem child (h : n.Named ok) (hc : c ∈ n.children) : c.Named ok := fun p hp => h p (.head hc hp)

theorem node (h : ∀ m ∈ n.names, ok m) (hchildren : ∀ c ∈ n.children, c.Named ok) : n.Named ok := by
  intro p hp
  rcases hp.cases_head with rfl | ⟨c, hc, hcp⟩
  · exact h
  · exact hchildren c hc p hcp

/-- the statements of a program -/
theorem of_code {code : Code} (h : ∀ n, NodeOf code n → ∀ m ∈ n.names, ok m) :
    ∀ y ∈ code, Node.Named ok (.stmt y) :=
  fun y hy n hn => h n (nodeOf_iff.2 ⟨y, hy, hn⟩)

end Node.Named

/-- whether the names in a node and in its parts are as asked, if the tree is not too high -/
def Node.check (ok : String → Bool) : ℕ → Node → Bool
  | 0, _ => false
  | fuel + 1, n => n.names.all ok && n.children.all (check ok fuel)

theorem Node.named_of_check {ok : String → Bool} {fuel : ℕ} {n : Node} (h : n.check ok fuel) :
    n.Named (ok · = true) := by
  induction fuel generalizing n with
  | zero => cases h
  | succ fuel ih =>
    obtain ⟨hnames, hchildren⟩ := Bool.and_eq_true_iff.1 h
    exact .node (List.all_eq_true.1 hnames) fun c hc => ih (List.all_eq_true.1 hchildren c hc)

theorem Code.named_of_check {ok : String → Bool} (fuel : ℕ) {code : Code}
    (h : code.all fun y => Node.check ok fuel (.stmt y)) :
    ∀ n, NodeOf code n → ∀ m ∈ n.names, ok m = true := by
  intro n hn
  obtain ⟨y, hy, hn⟩ := nodeOf_iff.1 hn
  exact Node.named_of_check (List.all_eq_true.1 h y hy) n hn

section Types

variable {ty : Ty} {o o' : Option Ty}

/-- the names in the type there is, if any, are as asked -/
def TypeNamed (ok : String → Prop) (o : Option Ty) : Prop := ∀ ty ∈ o, ∀ m ∈ ty.names, ok m

/-- the names in the types that names have are as asked -/
def ScopeTree.Named (ok : String → Prop) (t : ScopeTree) : Prop := ∀ n, TypeNamed ok (t.ty? n)

namespace TypeNamed

theorem of_names (h : ∀ m ∈ o.toList.flatMap Ty.names, ok m) : TypeNamed ok o :=
  fun _ hty m hm => h m (List.mem_flatMap_of_mem (Option.mem_toList.2 hty) hm)

theorem none : TypeNamed ok none := nofun

theorem some (h : ∀ m ∈ ty.names, ok m) : TypeNamed ok (some ty) :=
  fun _ hty => Option.some.inj hty ▸ h

theorem simple (kind : TyKind) : TypeNamed ok (.some (.simple kind)) :=
  some (List.forall_mem_nil _)

theorem or (h : TypeNamed ok o) (h' : TypeNamed ok o') : TypeNamed ok (o.or o') := by
  cases o with
  | none => exact h'
  | some ty => exact h

theorem arithmetic (h : TypeNamed ok o) (h' : TypeNamed ok o') :
    TypeNamed ok (C.arithmeticTy? o o') := by
  unfold C.arithmeticTy?
  split
  · exact simple .double
  · exact h.or h'

theorem elem (h : TypeNamed ok o) : TypeNamed ok (o.bind (·.elem)) := by
  intro e he
  obtain ⟨⟨kind, name, elem⟩, hty, he⟩ := Option.bind_eq_some_iff.1 he
  obtain rfl : elem = .some e := he
  exact fun m hm => h _ hty m (List.mem_append_right _ hm)

theorem getD (h : TypeNamed ok o) : ∀ m ∈ (o.getD (.simple .int)).names, ok m := by
  cases o with
  | none => exact List.forall_mem_nil _
  | some ty => exact h ty rfl

/-- what shows of a type says nothing that the types of names do not say -/
theorem ty? (hk : known.Named ok) (e : Expr) : TypeNamed ok (e.ty? known) := by
  fun_induction Expr.ty? known e
  case case1 v => exact some (by cases v <;> exact List.forall_mem_nil _)
  case case2 n | case3 n => exact hk n
  case case12 hl hr | case13 hl hr | case14 hl hr | case15 hl hr => exact hl.arithmetic hr
  case case16 hl hr | case17 hl hr | case18 hl hr | case19 hl hr | case20 hl hr => exact hl.or hr
  case case23 he => exact some he.getD
  case case25 ha => exact ha.elem
  case case5 ih | case26 ih | case27 ih => exact ih
  case case21 | case28 => exact none
  case case22 => exact some (List.forall_mem_nil _)
  all_goals exact simple _

/-- the type of a variable -/
theorem variableTy (hk : known.Named ok) (e : Expr) (h : TypeNamed ok o) :
    ∀ m ∈ (e.variableTy known o).names, ok m := (h.or (.ty? hk e)).getD

end TypeNamed

theorem ScopeTree.Named.empty : ScopeTree.empty.Named ok := fun _ => .none

theorem ScopeTree.Named.declare (hw : known.WellFormed) (hk : known.Named ok) {n : String}
    (h : ∀ m ∈ ty.names, ok m) : (known.declare n ty).Named ok := by
  intro m
  rw [ScopeTree.ty?_declare hw, Function.update_apply]
  split
  · exact TypeNamed.some h
  · exact hk m

/-- what is known behind a statement says no more than what is known before it and the statement -/
theorem Stmt.named_knownBehind (hw : known.WellFormed) (hk : known.Named ok) {y : Stmt}
    (hy : Node.Named ok (.stmt y)) : (y.knownBehind known).Named ok := by
  cases y with
  | store s n ty e =>
    have hty := TypeNamed.of_names (List.forall_mem_cons.1 hy.own).2
    exact hk.declare hw (hty.variableTy hk e)
  | _ => exact hk

theorem named_knownIn (params : List Param) : ∀ {known : ScopeTree}, known.WellFormed →
    known.Named ok → (∀ p ∈ params, ∀ m ∈ p.names, ok m) → (knownIn known params).Named ok := by
  induction params with
  | nil => exact fun _ hk _ => hk
  | cons p params ih =>
    intro known hw hk h
    obtain ⟨hp, hps⟩ := List.forall_mem_cons.1 h
    have hgiven := (TypeNamed.of_names (List.forall_mem_cons.1 hp).2).getD
    exact ih (ScopeTree.declare_spec (n := p.name) hw).1 (hk.declare hw hgiven) hps

end Types

namespace C

mutual

/-- the names in a C expression are as asked -/
def Expr.Named (ok : String → Prop) : Expr → Prop
  | .literal _ => True
  | .name n => ok n
  | .unary _ e => e.Named ok
  | .binary l _ r => l.Named ok ∧ r.Named ok
  | .member o f => o.Named ok ∧ f.Named ok
  | .items es => ExprsNamed ok es
  | .fields fs => FieldsNamed ok fs
  | .call c as => c.Named ok ∧ ExprsNamed ok as
  | .printf _ as => ExprsNamed ok as
  | .index a i => a.Named ok ∧ i.Named ok
  | .choice t y n => t.Named ok ∧ y.Named ok ∧ n.Named ok
  | .bare e => e.Named ok

def ExprsNamed (ok : String → Prop) : List Expr → Prop
  | [] => True
  | e :: es => e.Named ok ∧ ExprsNamed ok es

def FieldsNamed (ok : String → Prop) : List (String × Expr) → Prop
  | [] => True
  | (k, e) :: fs => ok k ∧ e.Named ok ∧ FieldsNamed ok fs

end

mutual

/-- the names in a C statement are as asked, those of types included -/
def Stmt.Named (ok : String → Prop) : Stmt → Prop
  | .expr e => e.Named ok
  | .declare ty n e => (∀ m ∈ ty.names, ok m) ∧ ok n ∧ e.Named ok
  | .block b => StmtsNamed ok b
  | .cond t y r => t.Named ok ∧ StmtsNamed ok y ∧ r.Named ok
  | .loop n a b _ body => ok n ∧ a.Named ok ∧ b.Named ok ∧ StmtsNamed ok body
  | .leave => True
  | .result e => e.Named ok

def StmtsNamed (ok : String → Prop) : List Stmt → Prop
  | [] => True
  | s :: ss => s.Named ok ∧ StmtsNamed ok ss

def Rest.Named (ok : String → Prop) : Rest → Prop
  | .done => True
  | .orElse b => StmtsNamed ok b
  | .orIf t y r => t.Named ok ∧ StmtsNamed ok y ∧ r.Named ok

end

theorem StmtsNamed.append {ss ss' : List Stmt} (h : StmtsNamed ok ss) (h' : StmtsNamed ok ss') :
    StmtsNamed ok (ss ++ ss') := by
  induction ss with
  | nil => exact h'
  | cons s ss ih => exact ⟨h.1, ih h.2⟩

theorem StmtsNamed.single {s : Stmt} (h : s.Named ok) : StmtsNamed ok [s] := ⟨h, trivial⟩

theorem Rest.Named.orElse {b : List Stmt} (h : StmtsNamed ok b) : Rest.Named ok (.orElse b) := h

/-- the names in the first line of a function are as asked -/
structure Function.Announced (ok : String → Prop) (f : Function) : Prop where
  result : TypeNamed ok f.result
  name : ok f.name
  params : ∀ p ∈ f.params, (∀ m ∈ p.1.names, ok m) ∧ ok p.2

/-- the names in a program are as asked -/
structure Program.Named (ok : String → Prop) (p : Program) : Prop where
  functions : ∀ f ∈ p.functions, f.Announced ok ∧ StmtsNamed ok f.body
  main : ∀ b ∈ p.main, StmtsNamed ok b

namespace Compile

mutual

theorem named_expr : (e : AutoLang.Expr) → Node.Named ok (.expr e) →
    GivesKnowing known known (expr e) (Expr.Named ok)
  | .literal s v, h => by
    rw [expr]
    exact .pure trivial
  | .ident s n, h | .ref s n, h => by
    rw [expr]
    exact .pure (h.own n List.mem_cons_self)
  | .unary s op e, h => by
    rw [expr]
    exact (named_expr e (h.child List.mem_cons_self)).bind fun c hc => .pure hc
  | .binary s l op r, h => by
    rw [expr]
    refine (named_expr l (h.child List.mem_cons_self)).bind fun c hc =>
      (named_expr r (h.child (List.mem_cons_of_mem _ List.mem_cons_self))).bind fun c' hc' => .pure ?_
    split
    · exact ⟨hc, hc'⟩
    · exact ⟨hc, hc'⟩
  | .array s es, h => by
    rw [expr]
    exact (named_exprs es fun e he => h.child (List.mem_map_of_mem he)).bind fun cs hcs => .pure hcs
  | .pair s (.mk k e), h => by
    rw [expr]
    exact (named_expr e (h.child List.mem_cons_self)).bind fun c hc =>
      .pure ⟨h.own k List.mem_cons_self, hc, trivial⟩
  | .object s fs, h => by
    rw [expr]
    have hfields : ∀ f ∈ fs, ok f.key ∧ Node.Named ok (.expr f.value) :=
      fun f hf => ⟨h.own _ (List.mem_map_of_mem hf), h.child (List.mem_map_of_mem hf)⟩
    exact (named_fields fs hfields).bind fun cs hcs => .pure hcs
  | .call s f es, h => by
    rw [expr]
    have hargs := named_exprs es fun e he =>
      h.child (List.mem_cons_of_mem _ (List.mem_map_of_mem he))
    split
    · exact .get fun _ _ => hargs.bind fun cs hcs => .pure hcs
    · exact (named_expr f (h.child List.mem_cons_self)).bind fun c hc =>
        hargs.bind fun cs hcs => .pure ⟨hc, hcs⟩
  | .index s a i, h => by
    rw [expr]
    exact (named_expr a (h.child List.mem_cons_self)).bind fun c hc =>
      (named_expr i (h.child (List.mem_cons_of_mem _ List.mem_cons_self))).bind fun c' hc' =>
      .pure ⟨hc, hc'⟩
  | .cond s t y (some n), h => by
    rw [expr]
    exact (named_expr t (h.child List.mem_cons_self)).bind fun c hc =>
      (named_expr y (h.child (List.mem_cons_of_mem _ List.mem_cons_self))).bind fun c' hc' =>
      (named_expr n (h.child (List.mem_of_getElem? (i := 2) rfl))).bind fun c'' hc'' =>
      .pure ⟨hc, hc', hc''⟩
  | .cond s t y none, h => by
    rw [expr]
    exact (named_expr t (h.child List.mem_cons_self)).bind fun c hc =>
      (named_expr y (h.child (List.mem_cons_of_mem _ List.mem_cons_self))).bind fun c' hc' =>
      .pure ⟨hc, hc', trivial⟩
  | .block s b, h => by
    rcases b with _ | ⟨x, _ | ⟨x', xs⟩⟩
    · rw [expr]
      · exact .throw _
      · nofun
      · nofun
    · cases x with
      | expr s' e =>
        rw [expr]
        have hx := h.child (c := .stmt (.expr s' e)) List.mem_cons_self
        exact (named_expr e (hx.child List.mem_cons_self)).bind fun c hc => .pure hc
      | _ =>
        rw [expr]
        · exact .throw _
        · nofun
    · rw [expr]
      · exact .throw _
      · nofun
      · nofun
  | .range _ _ _ _, _ => by
    rw [expr]
    exact .throw _
  | .format _ _, _ => by
    rw [expr]
    exact .throw _

theorem named_exprs : (es : List AutoLang.Expr) → (∀ e ∈ es, Node.Named ok (.expr e)) →
    GivesKnowing known known (exprs es) (ExprsNamed ok)
  | [], _ => by
    rw [exprs]
    exact .pure trivial
  | e :: es, h => by
    obtain ⟨he, hes⟩ := List.forall_mem_cons.1 h
    rw [exprs]
    exact (named_expr e he).bind fun c hc => (named_exprs es hes).bind fun cs hcs => .pure ⟨hc, hcs⟩

theorem named_fields : (fs : List Field) →
    (∀ f ∈ fs, ok f.key ∧ Node.Named ok (.expr f.value)) →
    GivesKnowing known known (fields fs) (FieldsNamed ok)
  | [], _ => by
    rw [fields]
    exact .pure trivial
  | .mk k e :: fs, h => by
    obtain ⟨⟨hk, he⟩, hfs⟩ := List.forall_mem_cons.1 h
    rw [fields]
    exact (named_expr e he).bind fun c hc => (named_fields fs hfs).bind fun cs hcs =>
      .pure ⟨hk, hc, hcs⟩

end

mutual

theorem named_stmt : (y : AutoLang.Stmt) → {known : ScopeTree} → known.WellFormed → known.Named ok →
    Node.Named ok (.stmt y) → KnowingStmt known y (StmtsNamed ok) (Rest.Named ok)
  | .expr s e, known, hw, hk, h => by
    apply KnowingStmt.of_stmt rfl rfl fun _ => .orElse
    rw [stmt]
    exact (named_expr e (h.child List.mem_cons_self)).bind fun c hc => .pure (.single hc)
  | .store s n ty e, known, hw, hk, h => by
    apply KnowingStmt.of_stmt rfl rfl fun _ => .orElse
    rw [stmt]
    refine .get fun t ht => (named_expr e (h.child List.mem_cons_self)).bind fun c hc => ?_
    have hty : (ty.or (e.ty? t)).getD (.simple .int) = e.variableTy known ty := by
      rw [Expr.variableTy, Expr.ty?_congr ht]
    rw [hty]
    refine (GivesKnowing.declareTy hw n _).bind fun _ _ => .pure (.single ?_)
    obtain ⟨hn, hnames⟩ := List.forall_mem_cons.1 h.own
    exact ⟨(TypeNamed.of_names hnames).variableTy hk e, hn, hc⟩
  | .block s b, known, hw, hk, h => by
    obtain ⟨after, hb⟩ := named_stmts b hw hk fun y hy => h.child (List.mem_map_of_mem hy)
    have hbody : GivesKnowing known after (body (.block s b)) (StmtsNamed ok) := hb
    refine ⟨?_, ⟨after, hbody⟩, .orElse rfl (fun _ => .orElse) hbody⟩
    rw [stmt]
    exact (hb.inScope .block (declares_stmts b)).bind fun out hout => .pure (.single hout)
  | .cond s t y no, known, hw, hk, h => by
    have ht : GivesKnowing known known (expr t) _ := named_expr t (h.child List.mem_cons_self)
    obtain ⟨after, hbody⟩ :=
      (named_stmt y hw hk (h.child (List.mem_cons_of_mem _ List.mem_cons_self))).body
    have hy := hbody.inScope .block (declares_stmt y).body
    have hno := named_rest no hw hk fun y' hy' =>
      h.child (List.mem_cons_of_mem _ (List.mem_cons_of_mem _ (List.mem_map_of_mem (Option.mem_toList.2 hy'))))
    have hcond : GivesKnowing known known (stmt (.cond s t y no)) (StmtsNamed ok) := by
      rw [stmt_cond]
      exact ht.bind fun c hc => hy.bind fun out hout => hno.bind fun r hr =>
        .pure (.single ⟨hc, hout, hr⟩)
    refine ⟨hcond, ⟨known, hcond⟩, ?_⟩
    rw [rest_cond]
    exact ht.bind fun c hc => hy.bind fun out hout => hno.bind fun r hr => .pure ⟨hc, hout, hr⟩
  | .loop s n e y, known, hw, hk, h => by
    apply KnowingStmt.of_stmt rfl rfl fun _ => .orElse
    cases e with
    | range s' a b inclusive =>
      rw [stmt_loop]
      have hrange := h.child (c := .expr (.range s' a b inclusive)) List.mem_cons_self
      have hy := h.child (c := .stmt y) (List.mem_cons_of_mem _ List.mem_cons_self)
      obtain ⟨after, hbody⟩ := (named_stmt y (ScopeTree.declare_spec (n := n) hw).1
        (hk.declare hw (TypeNamed.simple .int _ rfl)) hy).body
      have hinner := (GivesKnowing.declareTy hw n (.simple .int)).bind fun _ _ => hbody
      have hdeclares : Declares (do declareTy n (.simple .int); body y) :=
        (Declares.declareTy n _).bind fun _ => (declares_stmt y).body
      exact (named_expr a (hrange.child List.mem_cons_self)).bind fun c hc =>
        (named_expr b (hrange.child (List.mem_cons_of_mem _ List.mem_cons_self))).bind fun c' hc' =>
        (hinner.inScope .block hdeclares).bind fun out hout =>
        .pure (.single ⟨h.own n List.mem_cons_self, hc, hc', hout⟩)
    | _ =>
      rw [stmt]
      · exact .throw _
      · nofun
  | .function _ _ _ _ _, known, _, _, _ => by
    apply KnowingStmt.of_stmt rfl rfl fun _ => .orElse
    rw [stmt]
    exact .throw _
  | .leave s, known, _, _, _ => by
    apply KnowingStmt.of_stmt rfl rfl fun _ => .orElse
    rw [stmt]
    exact .pure (.single trivial)
  | .blank s, known, _, _, _ => by
    apply KnowingStmt.of_stmt rfl rfl fun _ => .orElse
    rw [stmt]
    exact .pure trivial

theorem named_stmts : (ys : List AutoLang.Stmt) → {known : ScopeTree} → known.WellFormed →
    known.Named ok → (∀ y ∈ ys, Node.Named ok (.stmt y)) →
    ∃ after, GivesKnowing known after (stmts ys) (StmtsNamed ok)
  | [], known, _, _, _ => by
    rw [stmts]
    exact ⟨known, .pure trivial⟩
  | y :: ys, known, hw, hk, h => by
    obtain ⟨hy, hys⟩ := List.forall_mem_cons.1 h
    obtain ⟨after, hrest⟩ :=
      named_stmts ys (y.wellFormed_knownBehind hw) (y.named_knownBehind hw hk hy) hys
    rw [stmts]
    exact ⟨after, (named_stmt y hw hk hy).stmt.bind fun out hout => hrest.bind fun out' hout' =>
      .pure (hout.append hout')⟩

theorem named_rest : (no : Option AutoLang.Stmt) → {known : ScopeTree} → known.WellFormed →
    known.Named ok → (∀ y ∈ no, Node.Named ok (.stmt y)) →
    GivesKnowing known known (rest no) (Rest.Named ok)
  | none, _, _, _, _ => by
    rw [rest]
    exact .pure trivial
  | some y, _, hw, hk, h => (named_stmt y hw hk (h y rfl)).rest

end

theorem named_resultStmts (ys : List AutoLang.Stmt) : ∀ {known : ScopeTree}, known.WellFormed →
    known.Named ok → (∀ y ∈ ys, Node.Named ok (.stmt y)) →
    ∃ after, GivesKnowing known after (resultStmts ys) (StmtsNamed ok) := by
  induction ys with
  | nil =>
    intro known _ _ _
    rw [resultStmts]
    exact ⟨known, .pure trivial⟩
  | cons y ys ih =>
    intro known hw hk h
    obtain ⟨hy, hys⟩ := List.forall_mem_cons.1 h
    obtain ⟨after, hrest⟩ := ih (y.wellFormed_knownBehind hw) (y.named_knownBehind hw hk hy) hys
    have hmore : GivesKnowing known after (do let first ← stmt y; return first ++ (← resultStmts ys))
        (StmtsNamed ok) :=
      (named_stmt y hw hk hy).stmt.bind fun out hout => hrest.bind fun out' hout' =>
        .pure (hout.append hout')
    obtain ⟨s, e, rfl, rfl, hresult⟩ | hresult := resultStmts_cases y ys
    · rw [hresult]
      exact ⟨known, (named_expr e (hy.child List.mem_cons_self)).bind fun c hc => .pure (.single hc)⟩
    · rw [hresult]
      exact ⟨after, hmore⟩

/-- the first line of a function is that of the source, whatever is known -/
theorem announced_function {s : Span} {name : String} {params : List Param} {result : Option Ty}
    {b : List AutoLang.Stmt} (h : ∀ m ∈ (AutoLang.Stmt.function s name params result b).names, ok m) :
    Gives (function name params result b) (Function.Announced ok) := by
  obtain ⟨hname, hnames⟩ := List.forall_mem_cons.1 h
  obtain ⟨hps, hresult⟩ := List.forall_mem_append.1 hnames
  rw [function]
  refine .after fun out => .pure ⟨.of_names hresult, hname, fun p hp => ?_⟩
  obtain ⟨q, hq, rfl⟩ := List.mem_map.1 hp
  obtain ⟨hqname, hqty⟩ := List.forall_mem_cons.1 fun m hm => hps m (List.mem_flatMap_of_mem hq hm)
  exact ⟨(TypeNamed.of_names hqty).getD, hqname⟩

theorem announced_functions (code : Code) (h : ∀ y ∈ code, ∀ m ∈ y.names, ok m) :
    Gives (functions code) fun fs => ∀ f ∈ fs, f.Announced ok := by
  induction code with
  | nil =>
    rw [functions]
    exact .pure (List.forall_mem_nil _)
  | cons y code ih =>
    obtain ⟨hy, hcode⟩ := List.forall_mem_cons.1 h
    cases y with
    | function s n ps r b =>
      rw [functions]
      exact (announced_function hy).bind fun f hf => (ih hcode).bind fun fs hfs =>
        .pure (List.forall_mem_cons.2 ⟨hf, hfs⟩)
    | _ =>
      rw [functions_other rfl]
      exact ih hcode

theorem announced_program (code : Code) (h : ∀ y ∈ code, ∀ m ∈ y.names, ok m) :
    Gives (program code) fun p => ∀ f ∈ p.functions, f.Announced ok := by
  rw [program]
  refine (announced_functions code h).bind fun fs hfs => ?_
  dsimp only
  split
  · exact .pure hfs
  · exact .after fun _ => .pure hfs

theorem named_function (s : Span) (name : String) (params : List Param) (result : Option Ty)
    (b : List AutoLang.Stmt) (hw : known.WellFormed) (hk : known.Named ok)
    (h : Node.Named ok (.stmt (.function s name params result b))) :
    GivesKnowing known known (function name params result b) fun f => StmtsNamed ok f.body := by
  obtain ⟨hps, -⟩ := List.forall_mem_append.1 (List.forall_mem_cons.1 h.own).2
  obtain ⟨hin, hparams⟩ := knowing_params params hw
  have hknown := named_knownIn params hw hk fun p hp m hm => hps m (List.mem_flatMap_of_mem hp hm)
  have hb : ∀ y ∈ b, Node.Named ok (.stmt y) := fun y hy => h.child (List.mem_map_of_mem hy)
  have hbody : ∃ after, GivesKnowing (knownIn known params) after
      (if result.any (·.kind != .void) then resultStmts b else stmts b) (StmtsNamed ok) := by
    split
    · exact named_resultStmts b hin hknown hb
    · exact named_stmts b hin hknown hb
  obtain ⟨after, hbody⟩ := hbody
  have hinner := hparams.bind fun _ _ => hbody
  have hdeclares := (declares_params (params.map fun p => (p.givenTy, p.name))).bind fun _ =>
    Declares.ite (c := result.any (·.kind != .void)) (declares_resultStmts b) (declares_stmts b)
  rw [function]
  exact (hinner.inScope .function hdeclares).bind fun out hout => .pure hout

theorem named_functions (code : Code) (hw : known.WellFormed) (hk : known.Named ok)
    (h : ∀ y ∈ code, Node.Named ok (.stmt y)) :
    GivesKnowing known known (functions code) fun fs => ∀ f ∈ fs, StmtsNamed ok f.body := by
  induction code with
  | nil =>
    rw [functions]
    exact .pure (List.forall_mem_nil _)
  | cons y code ih =>
    obtain ⟨hy, hcode⟩ := List.forall_mem_cons.1 h
    cases y with
    | function s n ps r b =>
      rw [functions]
      exact (named_function s n ps r b hw hk hy).bind fun f hf => (ih hcode).bind fun fs hfs =>
        .pure (List.forall_mem_cons.2 ⟨hf, hfs⟩)
    | _ =>
      rw [functions_other rfl]
      exact ih hcode

end Compile

/-- a compiled program says no names but those of the source, which are as asked -/
theorem Program.named_of_compile {code : Code} {p : Program} (hw : known.WellFormed)
    (hk : known.Named ok) (h : ∀ y ∈ code, Node.Named ok (.stmt y))
    (hp : ((Compile.program code).run.run known).1 = .ok p) : p.Named ok := by
  have hannounced := Compile.announced_program code (fun y hy => (h y hy).own) known p hp
  have hfunctions := Compile.named_functions code hw hk h
  have hothers : ∀ y ∈ code.filter (!Compile.isFunction ·), Node.Named ok (.stmt y) :=
    fun y hy => h y (List.mem_filter.1 hy).1
  obtain ⟨after, hmain⟩ := Compile.named_stmts _ hw hk hothers
  have hprogram : ∃ after, Compile.GivesKnowing known after (Compile.program code) fun p =>
      (∀ f ∈ p.functions, StmtsNamed ok f.body) ∧ ∀ b ∈ p.main, StmtsNamed ok b := by
    rw [Compile.program]
    dsimp only
    split
    · exact ⟨known, hfunctions.bind fun fs hfs => .pure ⟨hfs, by simp⟩⟩
    · exact ⟨after, hfunctions.bind fun fs hfs => hmain.bind fun out hout =>
        .pure ⟨hfs, fun _ hb => Option.some.inj hb ▸ hout⟩⟩
  obtain ⟨after, hgives⟩ := hprogram
  obtain ⟨hbodies, hmain⟩ := (hgives known hw rfl p hp).1
  exact ⟨fun f hf => ⟨hannounced f hf, hbodies f hf⟩, hmain⟩

end C

end AutoLang
