import AutoLang.Proofs.C.Declarations
import AutoLang.Proofs.C.Scopes
import Mathlib

/-! What the compiler knows of names. It looks a name up in scopes that it enters and leaves, and the types
it finds are those of a walk over the tree that never leaves anything: what a block declares is forgotten
behind it because the walk goes on with what was known before. So the type of a declaration can be said
without the scopes that the compiler opens. -/

namespace AutoLang

namespace ScopeTree

variable {t t' : ScopeTree} {kind : ScopeKind}

theorem ty?_declare (hw : t.WellFormed) (n : String) (ty : Ty) :
    (t.declare n ty).ty? = Function.update t.ty? n (some ty) := by
  funext m
  obtain ⟨-, htypes, -⟩ := declare_spec (t := t) (n := n) hw
  obtain ⟨f, fs, hf⟩ : ∃ f fs, t.types = f :: fs := List.exists_cons_of_ne_nil (framesOf_ne_nil hw)
  rw [ty?_eq, htypes, hf, List.modifyHead_cons, List.findSome?_cons]
  by_cases hm : m = n
  · rw [hm, lookup_bind_self, Function.update_self]
  · rw [lookup_bind_of_ne hm, Function.update_of_ne hm, ty?_eq, hf, List.findSome?_cons]

theorem ty?_enter (hw : t.WellFormed) : (t.enter kind).ty? = t.ty? := by
  funext m
  rw [ty?_eq, types_enter hw, List.findSome?_cons, ty?_eq]
  rfl

/-- what is declared between entering a scope and leaving it is forgotten -/
theorem ty?_exit (hw : t.WellFormed) (h : Disciplined (t.enter kind) t') : t'.exit.ty? = t.ty? := by
  have hchain := (Disciplined.block hw h).chain_eq hw
  have htypes : t'.exit.types = t.types := by
    rw [types, types, framesOf, framesOf, hchain]
    refine List.map_congr_left fun id hid => ?_
    have hlt : id < t.size := lt_size_of_mem_chain hw hid
    have hgrown := size_enter t kind
    have hcurrent : (t.enter kind).current = t.size := rfl
    rw [get_exit, h.types id (by omega) (by omega), part_enter Scope.types (fun _ _ => rfl) hw hlt]
  funext m
  rw [ty?_eq, ty?_eq, htypes]

end ScopeTree

/-- the type that a variable gets: its own, else one that its value shows, else `int` -/
def Expr.variableTy (known : ScopeTree) (ty : Option Ty) (e : Expr) : Ty :=
  (ty.or (e.ty? known)).getD (.simple .int)

/-- a parameter without a type is an `int` -/
def Param.givenTy (p : Param) : Ty := p.ty.getD (.simple .int)

/-- what is known behind a statement; only a variable that is not inside of it adds to that -/
def Stmt.knownBehind (known : ScopeTree) : Stmt → ScopeTree
  | .store _ n ty e => known.declare n (e.variableTy known ty)
  | _ => known

theorem Stmt.wellFormed_knownBehind {known : ScopeTree} (hk : known.WellFormed) (y : Stmt) :
    (y.knownBehind known).WellFormed := by
  cases y with
  | store _ n ty e => exact (ScopeTree.declare_spec hk).1
  | _ => exact hk

/-- what is known in the body of a function -/
def knownIn (known : ScopeTree) (params : List Param) : ScopeTree :=
  params.foldl (fun known p => known.declare p.name p.givenTy) known

/-- the type of an expression comes from the types of names alone -/
theorem Expr.ty?_congr {t t' : ScopeTree} (h : t.ty? = t'.ty?) (e : Expr) : e.ty? t = e.ty? t' := by
  fun_induction Expr.ty? t e <;> simp_all [Expr.ty?]

namespace C.Compile

variable {α β : Type} {known after later : ScopeTree} {x y : Compile α} {g : α → Compile β}
  {P : α → Prop} {Q : β → Prop}

/-- from scopes in which names have the types that are known, what the work results in is as said, and
then names have the types that are known after it -/
def GivesKnowing (known after : ScopeTree) (x : Compile α) (P : α → Prop) : Prop :=
  ∀ t, t.WellFormed → t.ty? = known.ty? → ∀ a, (x.run.run t).1 = .ok a →
    P a ∧ (x.run.run t).2.WellFormed ∧ (x.run.run t).2.ty? = after.ty?

namespace GivesKnowing

theorem pure {a : α} (h : P a) : GivesKnowing known known (pure a) P := by
  rintro t hw ht b ⟨⟩
  exact ⟨h, hw, ht⟩

theorem throw (u : Unsupported) : GivesKnowing known after (throw u) P := nofun

theorem bind (hx : GivesKnowing known after x P)
    (hg : ∀ a, P a → GivesKnowing after later (g a) Q) : GivesKnowing known later (x >>= g) Q := by
  intro t hw ht b hb
  have hfirst := hx t hw ht
  rw [run_bind] at hb ⊢
  split at hb
  · rename_i a t' hrun
    simp only [hrun] at hfirst ⊢
    obtain ⟨ha, hw', ht'⟩ := hfirst a rfl
    exact hg a ha t' hw' ht' b hb
  · cases hb

theorem get {g : ScopeTree → Compile β}
    (hg : ∀ t, t.ty? = known.ty? → GivesKnowing known after (g t) Q) :
    GivesKnowing known after (MonadState.get >>= g) Q :=
  fun t hw ht => hg t ht t hw ht

theorem ite {c : Prop} [Decidable c] (hx : GivesKnowing known after x P)
    (hy : GivesKnowing known after y P) : GivesKnowing known after (if c then x else y) P := by
  split
  · exact hx
  · exact hy

theorem declareTy (hk : known.WellFormed) (n : String) (ty : Ty) :
    GivesKnowing known (known.declare n ty) (declareTy n ty) fun _ => True := by
  intro t hw ht _ _
  have hdeclare : (t.declare n ty).ty? = (known.declare n ty).ty? := by
    rw [ScopeTree.ty?_declare hw, ScopeTree.ty?_declare hk, ht]
  exact ⟨trivial, (ScopeTree.declare_spec hw).1, hdeclare⟩

/-- what is declared in a scope is not known behind it -/
theorem inScope (kind : ScopeKind) (hdeclares : Declares x) (hx : GivesKnowing known after x P) :
    GivesKnowing known known (inScope kind x) P := by
  intro t hw ht a ha
  have hinner := hx (t.enter kind) (hw.enter kind) ((ScopeTree.ty?_enter hw).trans ht) a ha
  have hd := ((hdeclares (t.enter kind)).disciplined (hw.enter kind)).2
  exact ⟨hinner.1, hinner.2.1.exit, (ScopeTree.ty?_exit hw hd).trans ht⟩

theorem orElse {y : AutoLang.Stmt} {P : List Stmt → Prop} {Q : Rest → Prop} (hcond : isCond y = false)
    (hPQ : ∀ out, P out → Q (.orElse out)) (h : GivesKnowing known after (Compile.body y) P) :
    GivesKnowing known known (Compile.rest (some y)) Q := by
  rw [rest_some hcond]
  exact (h.inScope .block (declares_stmt y).body).bind fun out hout => .pure (hPQ out hout)

end GivesKnowing

/-- what the compiler makes of a statement alone, as a body and behind `else`; what is known behind a
body does not matter -/
structure KnowingStmt (known : ScopeTree) (y : AutoLang.Stmt) (P : List Stmt → Prop)
    (Q : Rest → Prop) : Prop where
  stmt : GivesKnowing known (y.knownBehind known) (stmt y) P
  body : ∃ after, GivesKnowing known after (body y) P
  rest : GivesKnowing known known (rest (some y)) Q

theorem KnowingStmt.of_stmt {y : AutoLang.Stmt} {P : List Stmt → Prop} {Q : Rest → Prop}
    (hblock : isBlock y = false) (hcond : isCond y = false) (hPQ : ∀ out, P out → Q (.orElse out))
    (h : GivesKnowing known (y.knownBehind known) (Compile.stmt y) P) : KnowingStmt known y P Q := by
  have hbody := h
  rw [← body_of_stmt hblock] at hbody
  exact ⟨h, ⟨_, hbody⟩, .orElse hcond hPQ hbody⟩

theorem knowing_params (params : List Param) : ∀ {known : ScopeTree}, known.WellFormed →
    (knownIn known params).WellFormed ∧
      GivesKnowing known (knownIn known params)
        ((params.map fun p => (p.givenTy, p.name)).forM fun (ty, n) => declareTy n ty)
        fun _ => True := by
  induction params with
  | nil => exact fun hk => ⟨hk, .pure trivial⟩
  | cons p params ih =>
    intro known hk
    obtain ⟨hk', hrest⟩ := ih (ScopeTree.declare_spec (n := p.name) hk).1
    exact ⟨hk', (GivesKnowing.declareTy hk p.name p.givenTy).bind fun _ _ => hrest⟩

end C.Compile

end AutoLang
