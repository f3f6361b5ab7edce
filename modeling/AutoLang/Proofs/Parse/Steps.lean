import AutoLang.Proofs.Diagnostic.Queue
import AutoLang.Proofs.Parse.Progress
import Mathlib

/-! A parser does two things to its state: it moves on by a token and it reports a problem. What both
of them keep holds along every parse: `Trace` lists what is to be shown of a relation of states, and
every parser then leads along it. Above all a report is never taken back, so a parse that ends without
problems was free of them all the way. -/

namespace AutoLang

namespace DiagnosticQueue

/-- an empty queue keeps whatever comes first -/
theorem kept_push_empty (d : Diagnostic) : ((empty defaultLimit).push d).2.kept = [d] := by
  have hempty := Holds.empty defaultLimit
  have hfirst := hempty.accepts_first (by simp) d
  have hkept := (hempty.push d).kept
  rwa [if_pos hfirst, List.nil_append] at hkept

/-- a queue loses nothing to another diagnostic -/
theorem kept_prefix_push (q : DiagnosticQueue) (d : Diagnostic) : q.kept <+: (q.push d).2.kept := by
  obtain ⟨-, hpush⟩ | ⟨-, -, hpush⟩ | ⟨-, -, -, hpush⟩ := push_cases q d
  · rw [hpush]
    exact List.prefix_append _ _
  · rw [hpush]
  · rw [hpush]
    exact List.prefix_append _ _

/-- no queue is empty after a diagnostic -/
theorem push_ne_empty (q : DiagnosticQueue) (d : Diagnostic) :
    (q.push d).2 ≠ empty defaultLimit := by
  intro h
  have hnone : (q.push d).2.kept = [] := congrArg kept h
  have hq : q = empty defaultLimit := by
    obtain ⟨-, hpush⟩ | ⟨-, -, hpush⟩ | ⟨-, -, -, hpush⟩ := push_cases q d
    · simp [hpush] at hnone
    · rwa [hpush] at h
    · simp [hpush] at hnone
  rw [hq, kept_push_empty] at hnone
  cases hnone

end DiagnosticQueue

/-- an error of the grammar at a place -/
structure Diagnostic.Concerns (d : Diagnostic) (span : Span) : Prop where
  error : d.isError = true
  grammatical : d.code.isGrammatical = true
  place : d.primarySpan? = some span

/-- an error of the grammar with nothing to be seen at another place -/
structure Diagnostic.Confined (d : Diagnostic) (span : Span) : Prop extends d.Concerns span where
  labels : ∀ label ∈ d.labels, label.span = span

theorem Diagnostic.confined_errorAt {code : ProblemCode} (hcode : code.isGrammatical = true)
    (span : Span) (message label : String) (notes : List String) :
    (errorAt code span message label notes).Confined span where
  error := rfl
  grammatical := hcode
  place := rfl
  labels _ hlabel := congrArg Label.span (List.mem_singleton.1 hlabel)

namespace ParseState

variable {s t : ParseState}

inductive Step : ParseState → ParseState → Prop
  | advance (s : ParseState) : Step s s.advance
  | report (s : ParseState) (d : Diagnostic) : Step s (s.report d)

abbrev Steps : ParseState → ParseState → Prop := Relation.ReflTransGen Step

@[simp] theorem problems_advance (s : ParseState) : s.advance.problems = s.problems := by
  unfold advance
  split <;> rfl

/-- wherever a parser stands, it may report that the delimiter at the place was not closed -/
class Opened (R : ParseState → ParseState → Prop) (span : Span) : Prop where
  unclosed (s : ParseState) (delimiter : Char) :
    R s (s.report (.unclosedDelimiter span s.current.span delimiter))

/-- a parser leads along the relation if moving on and reporting do. A problem is reported at the current
token, but for a body that is missing behind the last token passed and an index that began before. A
delimiter that is reported as not closed was the current token at some time. -/
class Trace (R : ParseState → ParseState → Prop) : Prop where
  refl (s : ParseState) : R s s
  trans {s t u : ParseState} : R s t → R t u → R s u
  advance (s : ParseState) : R s s.advance
  here (s : ParseState) {d : Diagnostic} : d.Confined s.current.span → R s (s.report d)
  opening {s t : ParseState} : (Opened R s.current.span → R s t) → R s t
  missingBody (s : ParseState) (construct : String) :
    R s (s.report (.missingBody s.previous construct))
  malformedIndex {s t : ParseState} :
    R s t → R s (t.report (.malformedIndex (s.current.span.merge t.previous)))

instance (span : Span) : Opened Steps span := ⟨fun s _ => .single (.report s _)⟩

instance : Trace Steps where
  refl _ := .refl
  trans := .trans
  advance s := .single (.advance s)
  here s d _ := .single (.report s d)
  opening h := h inferInstance
  missingBody s _ := .single (.report s _)
  malformedIndex h := .tail h (.report _ _)

section Trace

variable {R : ParseState → ParseState → Prop} [Trace R]

/-- skipping moves on as often as it passes a token -/
theorem Trace.skipFrom (p : TokenKind → Bool) (us : List Token) :
    ∀ s : ParseState, R { s with upcoming := us } (s.skipFrom p us) := by
  induction us with
  | nil => exact fun _ => Trace.refl _
  | cons u us ih =>
    intro s
    rw [ParseState.skipFrom]
    split
    · exact Trace.trans (Trace.advance _) (ih { s with current := u, previous := s.current.span })
    · exact Trace.refl _

theorem Trace.skip (p : TokenKind → Bool) (s : ParseState) : R s (s.skip p) :=
  Trace.skipFrom p s.upcoming s

end Trace

/-- no problem was reported so far -/
def Clean (s : ParseState) : Prop := s.problems = .empty DiagnosticQueue.defaultLimit

theorem not_clean_report (s : ParseState) (d : Diagnostic) : ¬ (s.report d).Clean :=
  DiagnosticQueue.push_ne_empty s.problems d

/-- a report is never taken back -/
theorem Steps.clean (h : Steps s t) (ht : t.Clean) : s.Clean := by
  induction h with
  | refl => exact ht
  | tail _ hstep ih =>
    cases hstep with
    | advance => exact ih ((problems_advance _).symm.trans ht)
    | report => exact absurd ht (not_clean_report _ _)

/-- where nothing is kept nothing was reported -/
theorem Steps.clean_of_kept (h : Steps s t) (hs : s.Clean) (ht : t.problems.kept = []) :
    t.Clean := by
  induction h with
  | refl => exact hs
  | @tail u _ _ hstep ih =>
    cases hstep with
    | advance =>
      rw [problems_advance] at ht
      exact (problems_advance u).trans (ih ht)
    | report d =>
      have hu := ih (List.prefix_nil.1 (ht ▸ DiagnosticQueue.kept_prefix_push u.problems d))
      rw [report, show u.problems = _ from hu, DiagnosticQueue.kept_push_empty] at ht
      cases ht

end ParseState

namespace Parser

open ParseState (Opened Steps Trace)

variable {α β : Type}

/-- wherever it starts, the parser leads along the relation -/
class Along (R : ParseState → ParseState → Prop) (p : Parser α) : Prop where
  steps : ∀ s : ParseState, R s (p.run s).2

/-- wherever it starts, the parser moves on and reports, and does nothing else -/
abbrev Steady (p : Parser α) : Prop := Along Steps p

instance (d : Diagnostic) : Steady (report d) := ⟨fun s => .single (.report s d)⟩

/-- what is reported where the parser stands -/
class Describes (describe : ParseState → Diagnostic) : Prop where
  reported (R : ParseState → ParseState → Prop) [Trace R] (s : ParseState) :
    R s (s.report (describe s))

instance (expected : String) (found : ParseState → String) :
    Describes fun s => .expectedToken s.current.span expected (found s) :=
  ⟨fun _ _ s => Trace.here s (Diagnostic.confined_errorAt rfl _ _ _ _)⟩

instance (construct : String) : Describes fun s => .missingBody s.previous construct :=
  ⟨fun _ _ s => Trace.missingBody s construct⟩

section Along

variable {R : ParseState → ParseState → Prop} [Trace R]

instance (a : α) : Along R (pure a : Parser α) := ⟨fun s => Trace.refl s⟩

instance (p : Parser α) (f : α → Parser β) [hp : Along R p] [hf : ∀ a, Along R (f a)] :
    Along R (p >>= f) :=
  ⟨fun s => Trace.trans (hp.steps s) ((hf _).steps _)⟩

/-- what comes after may ask whether something was found -/
instance (priority := low) (p : Parser (Option α)) (f : Option α → Parser β) [Along R p]
    [hnone : Along R (f none)] [hsome : ∀ a, Along R (f (some a))] : Along R (p >>= f) := by
  have hf : ∀ found, Along R (f found) := by
    rintro (_ | a)
    · exact hnone
    · exact hsome a
  infer_instance

instance (span : { span // Opened R span }) : Opened R span.1 := span.2

instance (t : { t : Token // Opened R t.span }) : Opened R t.1.span := t.2

/-- what comes after may look back to the token that is passed -/
instance (f : Token → Parser β) [hf : ∀ t : { t : Token // Opened R t.span }, Along R (f t.1)] :
    Along R (advance >>= f) :=
  ⟨fun s => Trace.opening fun h => Trace.trans (Trace.advance s) ((hf ⟨s.current, h⟩).steps _)⟩

/-- what comes after may look back to the current token -/
instance (f : Span → Parser β) [hf : ∀ span : { span // Opened R span }, Along R (f span.1)] :
    Along R (currentSpan >>= f) :=
  ⟨fun s => Trace.opening fun h => (hf ⟨s.current.span, h⟩).steps s⟩

instance (p : Parser α) (f : α → β) [hp : Along R p] : Along R (f <$> p) := ⟨hp.steps⟩

instance (c : Prop) [Decidable c] (p q : Parser α) [Along R p] [Along R q] :
    Along R (if c then p else q) := by
  split <;> infer_instance

instance : Along R (get : Parser ParseState) := ⟨fun s => Trace.refl s⟩

instance : Along R advance := ⟨fun s => Trace.advance s⟩

instance (describe : ParseState → Diagnostic) [h : Describes describe] :
    Along R (reportHere describe) :=
  ⟨h.reported R⟩

instance (opened : Span) (delimiter : Char) [h : Opened R opened] :
    Along R (reportHere fun s => .unclosedDelimiter opened s.current.span delimiter) :=
  ⟨fun s => h.unclosed s delimiter⟩

instance : Along R kind := ⟨fun s => Trace.refl s⟩

instance : Along R currentSpan := ⟨fun s => Trace.refl s⟩

instance : Along R previousSpan := ⟨fun s => Trace.refl s⟩

instance (k : TokenKind) : Along R (check k) := ⟨fun s => Trace.refl s⟩

instance : Along R atEnd := ⟨fun s => Trace.refl s⟩

instance : Along R skipNewlines := ⟨Trace.skip _⟩

instance : Along R skipSeparators := ⟨Trace.skip _⟩

instance (k : TokenKind) : Along R (eat k) := by
  refine ⟨fun s => ?_⟩
  rw [eat_run]
  split
  · exact Trace.advance s
  · exact Trace.refl s

instance (k : TokenKind) : Along R (expect k) := by
  unfold expect
  infer_instance

/-- a token that is passed over under some condition -/
instance (c : ParseState → Prop) [DecidablePred c] (p : Parser α) [hp : Along R p] :
    Along R (get >>= fun s => if c s then set s.advance >>= fun _ => p else p) := by
  refine ⟨fun s => ?_⟩
  rw [get_bind_run]
  split
  · exact Trace.trans (Trace.advance s) (hp.steps s.advance)
  · exact hp.steps s

/-- a report about the token that the parser stands at, and what comes after it -/
theorem Along.report {d : Diagnostic} {f : PUnit → Parser β} [hf : ∀ a, Along R (f a)]
    {s : ParseState} (h : d.Confined s.current.span) : R s ((Parser.report d >>= f).run s).2 :=
  Trace.trans (Trace.here s h) ((hf _).steps _)

end Along

end Parser

/-- a grammar whose phrases lead along the relation -/
class Grammar.Along (R : ParseState → ParseState → Prop) (g : Grammar) : Prop where
  expr : ∀ floor, Parser.Along R (g.expr floor)
  cond : Parser.Along R g.cond
  stmt : Parser.Along R g.stmt

/-- a grammar whose phrases only move on and report -/
abbrev Grammar.Steady (g : Grammar) : Prop := g.Along ParseState.Steps

section Along

open ParseState (Opened Trace)

variable {R : ParseState → ParseState → Prop}

instance (g : Grammar) [h : g.Along R] (floor : Nat) : Parser.Along R (g.expr floor) := h.expr floor

instance (g : Grammar) [h : g.Along R] : Parser.Along R g.cond := h.cond

instance (g : Grammar) [h : g.Along R] : Parser.Along R g.stmt := h.stmt

variable [Trace R]

-- a production is one instance problem, as long as its body
set_option synthInstance.maxSize 1024

namespace Parse

open AutoLang.Parser (Along get_bind_run kind_bind_run)

variable (g : Grammar) [g.Along R]

section Series

variable {α : Type} (opened : Span) (close : TokenKind) (delimiter : Char) (item : Parser α)
  [Opened R opened] [Along R item]

instance (rounds : Nat) (x : α) (read : List α)
    [Along R (seriesFrom opened close delimiter item rounds (x :: read))] :
    Along R (seriesRest opened close delimiter item rounds x read) := by
  unfold seriesRest
  infer_instance

instance (rounds : Nat) (read : List α)
    [∀ x, Along R (seriesFrom opened close delimiter item rounds (x :: read))] :
    Along R (seriesItem opened close delimiter item rounds read) := by
  unfold seriesItem
  infer_instance

instance (rounds : Nat) (read : List α) :
    Along R (seriesFrom opened close delimiter item rounds read) := by
  induction rounds generalizing read with
  | zero =>
    unfold seriesFrom
    infer_instance
  | succ rounds ih =>
    rw [seriesFrom_succ]
    infer_instance

instance : Along R (series g opened close delimiter item) := by
  unfold series
  infer_instance

end Series

instance (stmt : Parser (Option Stmt)) [Along R stmt] (opened : Span) [Opened R opened] (rounds : Nat)
    (read : List Stmt) : Along R (blockFrom stmt opened rounds read) := by
  induction rounds generalizing read with
  | zero =>
    unfold blockFrom
    infer_instance
  | succ rounds ih =>
    unfold blockFrom
    infer_instance

instance : Along R (blockBody g) := by
  unfold blockBody
  infer_instance

instance : Along R eatElse := by
  unfold eatElse
  infer_instance

instance : Along R (group g) := by
  unfold group
  infer_instance

instance : Along R (array g) := by
  unfold array
  infer_instance

instance : Along R fieldKey := by
  refine ⟨fun s => ?_⟩
  rw [fieldKey, get_bind_run]
  split
  · exact Along.steps s
  · exact Along.report (Diagnostic.confined_errorAt rfl _ _ _ _)

instance : Along R (field g) := by
  unfold field
  infer_instance

instance : Along R (object g) := by
  unfold object
  infer_instance

instance : Along R (blockExpr g) := by
  unfold blockExpr
  infer_instance

instance : Along R (condExpr g) := by
  unfold condExpr
  infer_instance

instance : Along R (interpolation g) := by
  unfold interpolation
  infer_instance

instance (rounds : Nat) (read : List Expr) : Along R (formatFrom g rounds read) := by
  induction rounds generalizing read with
  | zero =>
    unfold formatFrom
    infer_instance
  | succ rounds ih =>
    refine ⟨fun s => ?_⟩
    rw [formatFrom, get_bind_run]
    split
    case h_5 => exact Along.report (Diagnostic.confined_errorAt rfl _ _ _ _)
    all_goals exact Along.steps s

instance : Along R (format g) := by
  unfold format
  infer_instance

instance : Along R (primary g) := by
  refine ⟨fun s => ?_⟩
  rw [primary, get_bind_run]
  split
  case h_7 =>
    split
    · exact Along.steps s
    · exact Along.report (Diagnostic.confined_errorAt rfl _ _ _ _)
  all_goals exact Along.steps s

instance (callee : Expr) : Along R (call g callee) := by
  unfold call
  infer_instance

instance (array : Expr) : Along R (index g array) := by
  refine ⟨fun s => Trace.opening fun _ => ?_⟩
  have hitems : R s ((series g s.current.span .closeSquare '[' (g.expr 0)).run s.advance).2 :=
    Trace.trans (Trace.advance s) (Along.steps _)
  rw [index, Parser.bind_run, Parser.advance_run, Parser.bind_run, Parser.bind_run]
  split
  · exact Trace.malformedIndex hitems
  · exact hitems

instance : Along R (operand g) := by
  refine ⟨fun s => ?_⟩
  rw [operand, kind_bind_run]
  split <;> exact Along.steps s

instance (floor rounds : Nat) (left : Expr) : Along R (climb g floor rounds left) := by
  induction rounds generalizing left with
  | zero =>
    unfold climb
    infer_instance
  | succ rounds ih =>
    refine ⟨fun s => ?_⟩
    rw [climb, kind_bind_run]
    split
    · exact Along.steps s
    · split
      · exact Along.steps s
      · split <;> exact Along.steps s

instance (floor : Nat) : Along R (expr g floor) := by
  unfold expr
  infer_instance

instance (depth : Nat) : Along R (tyWithin depth) := by
  induction depth with
  | zero =>
    unfold tyWithin
    infer_instance
  | succ depth ih =>
    refine ⟨fun s => ?_⟩
    rw [tyWithin, kind_bind_run]
    split <;> exact Along.steps s

instance : Along R ty := by
  unfold ty
  infer_instance

instance (what : String) : Along R (name what) := by
  refine ⟨fun s => ?_⟩
  rw [name, get_bind_run]
  split
  · exact Along.steps s
  · exact Along.report (Diagnostic.confined_errorAt rfl _ _ _ _)

instance (construct : String) : Along R (body g construct) := by
  unfold body
  infer_instance

instance : Along R (store g) := by
  unfold store
  infer_instance

instance : Along R (condStmt g) := by
  unfold condStmt
  infer_instance

instance : Along R (loop g) := by
  unfold loop
  infer_instance

instance : Along R (blockStmt g) := by
  unfold blockStmt
  infer_instance

instance : Along R param := by
  unfold param
  infer_instance

instance : Along R (function g) := by
  unfold function
  infer_instance

instance (whole : Parser Expr) [Along R whole] : Along R (phrase g whole) := by
  refine ⟨fun s => ?_⟩
  rw [phrase, kind_bind_run]
  split <;> exact Along.steps s

instance (whole : Parser Expr) [Along R whole] : Along R (stmt g whole) := by
  rw [stmt_eq]
  infer_instance

end Parse

instance Grammar.steady_ofDepth (depth : Nat) : (ofDepth depth).Along R := by
  induction depth with
  | zero =>
    constructor <;> intros <;> unfold ofDepth <;> infer_instance
  | succ depth ih =>
    constructor <;> intros <;> unfold ofDepth <;> infer_instance

instance Parse.along_codeFrom (stmt : Parser (Option Stmt)) [Parser.Along R stmt] (rounds : Nat)
    (read : Code) : Parser.Along R (codeFrom stmt rounds read) := by
  induction rounds generalizing read with
  | zero =>
    unfold codeFrom
    infer_instance
  | succ rounds ih =>
    unfold codeFrom
    infer_instance

instance : Parser.Along R Parse.code := by
  unfold Parse.code
  infer_instance

end Along

end AutoLang
