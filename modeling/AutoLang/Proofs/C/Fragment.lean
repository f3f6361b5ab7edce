import AutoLang.Eval.Basic
import Mathlib

/-! The part of the language that C has too: variables and counting loops over integers, conditions that
compare integers, blocks, and `print`. The two languages scope and loop differently, so a program means
the same in both only with some care: no loop counts with a name that can already be seen, its body
assigns neither the counter nor a variable of its end, no variable is declared by a value that mentions
its name, and a body without braces is no declaration. -/

namespace AutoLang.C

/-- the names declared in a block, each with whether it must keep its value -/
abbrev Block := List (String × Bool)

/-- the blocks around a point, inner ones first; `none` is a body without braces, where nothing can be
declared -/
abbrev Context := List (Option Block)

namespace Context

/-- whether the innermost variable with a name must keep its value -/
def find? (c : Context) (n : String) : Option Bool := c.findSome? fun b => b.bind (·.lookup n)

def knows (c : Context) (n : String) : Bool := (c.find? n).isSome

/-- whether the innermost block can declare a name -/
def isFree (n : String) : Context → Bool
  | some b :: _ => (b.lookup n).isNone
  | _ => false

def declare (n : String) : Context → Context
  | some b :: c => some ((n, false) :: b) :: c
  | c => c

/-- the innermost variables with these names must keep their values -/
def fix (ns : List String) : Context → Context
  | [] => []
  | none :: c => none :: fix ns c
  | some b :: c => some (b.map fun (n, fixed) => (n, fixed || ns.contains n)) ::
    fix (ns.filter fun n => (b.lookup n).isNone) c

/-- the context of a body -/
def inside (careful braced : Bool) (c : Context) : Context :=
  if braced then c else (if careful then none else some []) :: c

end Context

def keywords : List String := ["auto", "break", "case", "char", "const", "continue", "default", "do",
  "double", "else", "enum", "extern", "float", "for", "goto", "if", "inline", "int", "long", "register",
  "restrict", "return", "short", "signed", "sizeof", "static", "struct", "switch", "typedef", "union",
  "unsigned", "void", "volatile", "while", "_Bool", "_Complex", "_Imaginary"]

/-- the names that C programs cannot give to variables, or that would hide what `main` needs -/
def reserved : List String := keywords ++ ["main", "printf", Eval.printName]

def isArithmetic : BinaryOp → Bool
  | .add | .sub | .mul => true
  | _ => false

def isComparison : BinaryOp → Bool
  | .eq | .ne | .lt | .gt | .le | .ge => true
  | _ => false

/-- integer expressions over known names -/
def isInt (c : Context) : AutoLang.Expr → Bool
  | .literal _ (.int _) => true
  | .ident _ n => c.knows n
  | .binary _ l op r => isArithmetic op && isInt c l && isInt c r
  | _ => false

def isTest (c : Context) : AutoLang.Expr → Bool
  | .binary _ l op r => isComparison op && isInt c l && isInt c r
  | _ => false

/-- the names in an integer expression -/
def names : AutoLang.Expr → List String
  | .ident _ n => [n]
  | .binary _ l _ r => names l ++ names r
  | _ => []

def isBlock : AutoLang.Stmt → Bool
  | .block _ _ => true
  | _ => false

def isCond : AutoLang.Stmt → Bool
  | .cond _ _ _ _ => true
  | _ => false

/-- what can be seen after a statement -/
def Context.after (c : Context) : AutoLang.Stmt → Context
  | .store _ n _ _ => c.declare n
  | _ => c

/-- the context of a loop's body, around its braces -/
def Context.loop (n : String) (stop : AutoLang.Expr) (c : Context) : Context :=
  some [(n, true)] :: c.fix (names stop)

mutual

/-- whether a statement is in the common part: its names are declared before they are used, and only
once in a block. The two languages agree on it if it is written with care. -/
def fits (careful : Bool) (c : Context) : AutoLang.Stmt → Bool
  | .expr _ (.binary _ (.ident _ n) .assign e) =>
    isInt c e && c.knows n && (!careful || c.find? n == some false)
  | .expr _ (.call _ (.ident _ f) as) =>
    f == Eval.printName && !c.knows f && !as.isEmpty && as.all (isInt c)
  | .store _ n none e =>
    isInt c e && c.isFree n && !reserved.contains n && (!careful || !(names e).contains n)
  | .block _ b => fitsAll careful (some [] :: c) b
  | .cond _ t y no =>
    isTest c t && fits careful (c.inside careful (isBlock y)) y && fitsRest careful c no
  | .loop _ n (.range _ a b _) body =>
    isInt c a && isInt c b && !reserved.contains n && (!careful || !c.knows n) &&
      fits careful ((c.loop n b).inside careful (isBlock body)) body
  | .blank _ => true
  | _ => false

def fitsAll (careful : Bool) (c : Context) : List AutoLang.Stmt → Bool
  | [] => true
  | s :: ss => fits careful c s && fitsAll careful (c.after s) ss

/-- an `else` goes on with another condition without opening a block -/
def fitsRest (careful : Bool) (c : Context) : Option AutoLang.Stmt → Bool
  | none => true
  | some y => fits careful (c.inside careful (isBlock y || isCond y)) y

end

/-- whether a program is in the common part -/
def isCommon (careful : Bool) (code : Code) : Bool := fitsAll careful [some []] code

namespace Context

variable {c : Context} {n x : String}

theorem knows_cons {b : Block} :
    knows (some b :: c) x = ((b.lookup x).isSome || c.knows x) := by
  rw [knows, find?, List.findSome?_cons]
  cases h : b.lookup x with
  | none => simp [h, knows, find?]
  | some fixed => simp [h]

theorem knows_declare (h : (c.declare n).knows x) : x = n ∨ c.knows x := by
  rcases c with _ | ⟨_ | b, c⟩
  · exact .inr h
  · exact .inr h
  · by_cases hx : x = n
    · exact .inl hx
    · rw [declare, knows_cons, List.lookup_cons, beq_eq_false_iff_ne.2 hx] at h
      rw [knows_cons]
      exact .inr h

theorem lookup_fixed (b : Block) (ns : List String) :
    (b.map fun (n, fixed) => (n, fixed || ns.contains n)).lookup x =
      (b.lookup x).map (· || ns.contains x) := by
  induction b with
  | nil => rfl
  | cons p b ih =>
    obtain ⟨k, fixed⟩ := p
    rw [List.map_cons, List.lookup_cons, List.lookup_cons]
    by_cases hx : x = k
    · subst hx
      simp
    · rw [beq_eq_false_iff_ne.2 hx]
      exact ih

theorem find?_fix (ns : List String) :
    (c.fix ns).find? x = (c.find? x).map (· || ns.contains x) := by
  induction c generalizing ns with
  | nil => rfl
  | cons b c ih =>
    rcases b with _ | b
    · exact ih ns
    · rw [fix, find?, find?, List.findSome?_cons, List.findSome?_cons, Option.bind_some,
        Option.bind_some, lookup_fixed]
      cases h : b.lookup x with
      | none =>
        have hmem : (ns.filter fun n => (b.lookup n).isNone).contains x = ns.contains x := by
          rw [Bool.eq_iff_iff, List.contains_iff_mem, List.contains_iff_mem, List.mem_filter, h]
          simp
        have hrest := ih (ns.filter fun n => (b.lookup n).isNone)
        rw [hmem] at hrest
        exact hrest
      | some fixed => rfl

theorem knows_fix (ns : List String) : (c.fix ns).knows x = c.knows x := by
  rw [knows, knows, find?_fix, Option.isSome_map]

/-- in a loop the counter can be seen, and what can be seen around it -/
theorem knows_loop {stop : AutoLang.Expr} (h : (c.loop n stop).knows x) : x = n ∨ c.knows x := by
  rw [loop, knows_cons, knows_fix, Bool.or_eq_true] at h
  rcases h with h | h
  · by_cases hx : x = n
    · exact .inl hx
    · rw [List.lookup_cons, beq_eq_false_iff_ne.2 hx] at h
      cases h
  · exact .inr h

theorem after_block (b : Block) (st : AutoLang.Stmt) :
    ∃ b', after (some b :: c) st = some b' :: c := by
  cases st <;> exact ⟨_, rfl⟩

theorem after_bare (st : AutoLang.Stmt) : after (none :: c) st = none :: c := by
  cases st <;> rfl

end Context

theorem knows_of_mem_names {c : Context} : (e : AutoLang.Expr) → isInt c e → ∀ n ∈ names e, c.knows n
  | .literal _ _, _, _, hn => by cases hn
  | .ident _ _, h, n, hn => by
    rw [List.mem_singleton.1 hn]
    exact h
  | .binary _ l op r, h, n, hn => by
    simp only [isInt, Bool.and_eq_true] at h
    rcases List.mem_append.1 hn with hn | hn
    · exact knows_of_mem_names l h.1.2 n hn
    · exact knows_of_mem_names r h.2 n hn

end AutoLang.C
