import AutoLang.C.Print
import AutoLang.Proofs.C.Constants
import Mathlib

/-! Lines, braces and margins. A reader that knows nothing of C follows a text line by line: a line that
ends in an opening brace opens a block, one that begins with a closing brace closes one, and every line
stands four blanks further in for each block around it. Another such reader keeps what it reads, line by
line and block by block. Whoever writes keeps a depth of its own, raised and lowered apart from the
braces; what is shown here of statements as they are written says when it agrees with the readers, and
what the second one makes of them. -/

namespace AutoLang.C

/-- The blocks that are open behind a line, if the line is well indented: an empty line always is, any
other has four blanks for each block that is open at it, where one that it closes is not counted. -/
def readLine (blocks : ℕ) (line : List Char) : Option ℕ :=
  let text := line.dropWhile (· == ' ')
  if line = [] then some blocks
  else if text.head? = some '\x7d' ∧ blocks = 0 then none
  else
    let around := if text.head? = some '\x7d' then blocks - 1 else blocks
    if line.takeWhile (· == ' ') = List.replicate (4 * around) ' ' then
      some (if line.getLast? = some '\x7b' then around + 1 else around)
    else none

/-- the blocks that are open behind a text that begins with none, if each of its lines is well indented -/
def openBehind (text : String) : Option ℕ := (text.toList.splitOn '\n').foldlM readLine 0

/-- what a text says: lines, and blocks with what stands before their opening brace -/
inductive Outline where
  | line (text : List Char)
  | block (head : List Char) (body : List Outline)

/-- a place in a text: for each block around it, its head and what stands before it, inner ones first, and
what stands in the innermost one so far -/
structure Place where
  around : List (List Char × List Outline)
  here : List Outline

namespace Place

def start : Place := ⟨[], []⟩

/-- how many blocks are open -/
def depth (p : Place) : ℕ := p.around.length

def add (p : Place) (items : List Outline) : Place := { p with here := p.here ++ items }

def enter (p : Place) (head : List Char) : Place := ⟨(head, p.here) :: p.around, []⟩

def leave? (p : Place) : Option Place :=
  match p.around with
  | [] => none
  | (head, before) :: around => some ⟨around, before ++ [.block head p.here]⟩

/-- read a text on one line that closes nothing -/
def say (p : Place) (text : List Char) : Place :=
  if text.getLast? = some '\x7b' then p.enter (text.dropLast.rdropWhile (· == ' ')) else p.add [.line text]

/-- read a line; its margin does not matter -/
def readLine (p : Place) (line : List Char) : Option Place :=
  match line.dropWhile (· == ' ') with
  | [] => some p
  | '\x7d' :: more => p.leave?.map fun p =>
    match more.dropWhile (· == ' ') with
    | [] => p
    | text => p.say text
  | text => some (p.say text)

end Place

/-- what a text says, if it closes all its blocks and no others -/
def outline? (text : String) : Option (List Outline) := do
  let p ← (text.toList.splitOn '\n').foldlM Place.readLine .start
  if p.around.isEmpty then return p.here else none

/-- no line ends in the text -/
def Unbroken (text : String) : Prop := '\n' ∉ text.toList

instance (text : String) : Decidable (Unbroken text) :=
  inferInstanceAs (Decidable ('\n' ∉ text.toList))

/-- a text on one line that begins neither with a blank nor with a closing brace -/
structure Inline (text : String) : Prop where
  unbroken : Unbroken text
  begins : text.toList.head?.any fun c => c != ' ' && c != '\x7d'

instance (text : String) : Decidable (Inline text) :=
  decidable_of_iff (Unbroken text ∧ text.toList.head?.any fun c => c != ' ' && c != '\x7d')
    ⟨fun h => ⟨h.1, h.2⟩, fun h => ⟨h.1, h.2⟩⟩

section Texts

variable {text more : String}

theorem Unbroken.append (h : Unbroken text) (h' : Unbroken more) : Unbroken (text ++ more) := by
  unfold Unbroken at *
  rw [String.toList_append, List.mem_append]
  exact not_or.2 ⟨h, h'⟩

theorem not_mem_intercalate {c : Char} {between : String} {texts : List String}
    (hbetween : c ∉ between.toList) (h : ∀ text ∈ texts, c ∉ text.toList) :
    c ∉ (between.intercalate texts).toList := by
  induction texts with
  | nil => exact List.not_mem_nil
  | cons text texts ih =>
    obtain ⟨htext, htexts⟩ := List.forall_mem_cons.1 h
    cases texts with
    | nil => exact htext
    | cons next texts =>
      rw [String.intercalate_cons_cons, String.toList_append, String.toList_append, List.mem_append,
        List.mem_append]
      exact not_or.2 ⟨not_or.2 ⟨htext, hbetween⟩, ih htexts⟩

theorem Unbroken.intercalate {between : String} {texts : List String} (hbetween : Unbroken between)
    (h : ∀ text ∈ texts, Unbroken text) : Unbroken (between.intercalate texts) :=
  not_mem_intercalate hbetween h

theorem Unbroken.commaList {texts : List String} (h : ∀ text ∈ texts, Unbroken text) :
    Unbroken (commaList texts) := .intercalate (by decide) h

namespace Inline

theorem exists_cons (h : Inline text) :
    ∃ c cs, text.toList = c :: cs ∧ c ≠ ' ' ∧ c ≠ '\x7d' := by
  have hbegins := h.begins
  cases htext : text.toList with
  | nil =>
    rw [htext] at hbegins
    cases hbegins
  | cons c cs =>
    rw [htext] at hbegins
    exact ⟨c, cs, rfl, by simpa using hbegins⟩

theorem of_cons {c : Char} {cs : List Char} (htext : text.toList = c :: cs)
    (hc : c ≠ ' ' ∧ c ≠ '\x7d') (h : Unbroken text) : Inline text :=
  ⟨h, by simpa [htext] using hc⟩

/-- what has no blanks and no braces at all -/
theorem of_forall (hne : text.toList ≠ [])
    (h : ∀ c ∈ text.toList, c ≠ ' ' ∧ c ≠ '\n' ∧ c ≠ '\x7d') : Inline text := by
  obtain ⟨c, cs, hcs⟩ := List.exists_cons_of_ne_nil hne
  have hc := h c (hcs ▸ List.mem_cons_self)
  exact of_cons hcs ⟨hc.1, hc.2.2⟩ fun hmem => (h _ hmem).2.1 rfl

theorem append (h : Inline text) (h' : Unbroken more) : Inline (text ++ more) := by
  obtain ⟨c, cs, hcs, hc⟩ := h.exists_cons
  exact of_cons (by rw [String.toList_append, hcs]; rfl) hc (h.unbroken.append h')

theorem inParens (h : Unbroken text) : Inline (inParens text) :=
  ((by decide : Inline "(").append h).append (by decide)

theorem inBraces (h : Unbroken text) : Inline (inBraces text) :=
  ((by decide : Inline "\x7b").append h).append (by decide)

theorem asOperand (h : Inline text) (e : Expr) : Inline (asOperand e text) := by
  unfold C.asOperand
  split
  · exact inParens h.unbroken
  · exact h

end Inline

end Texts

/-- the part before the first separator -/
theorem splitOn_append_cons {α : Type} [BEq α] [LawfulBEq α] {sep : α} {front : List α}
    (h : sep ∉ front) (rest : List α) :
    (front ++ sep :: rest).splitOn sep = front :: rest.splitOn sep := by
  have hplain : ∀ a ∈ front, (a == sep) = false :=
    fun a ha => beq_eq_false_iff_ne.2 fun heq => h (heq ▸ ha)
  have hsplit := List.splitOnP_append_cons (p := (· == sep)) front rest (beq_self_eq_true sep)
  rw [List.splitOnP_eq_singleton hplain] at hsplit
  exact hsplit

section Reading

variable {blocks : ℕ} {before next behind p : Place} {c : Char} {cs cs' text : List Char}

theorem takeWhile_margin (hc : c ≠ ' ') (cs : List Char) (n : ℕ) :
    (List.replicate n ' ' ++ c :: cs).takeWhile (· == ' ') = List.replicate n ' ' ∧
      (List.replicate n ' ' ++ c :: cs).dropWhile (· == ' ') = c :: cs := by
  induction n with
  | zero => simp [hc]
  | succ n ih => simpa [List.replicate_succ] using ih

theorem getLast?_margin (n : ℕ) :
    (List.replicate n ' ' ++ c :: cs).getLast? = (c :: cs).getLast? :=
  List.getLast?_append_of_ne_nil _ (List.cons_ne_nil c cs)

/-- a line that closes nothing -/
theorem readLine_inline (hc : c ≠ ' ' ∧ c ≠ '\x7d') (blocks : ℕ) :
    readLine blocks (List.replicate (4 * blocks) ' ' ++ c :: cs) =
      some (if (c :: cs).getLast? = some '\x7b' then blocks + 1 else blocks) := by
  obtain ⟨htake, hdrop⟩ := takeWhile_margin hc.1 cs (4 * blocks)
  simp only [readLine, htake, hdrop, getLast?_margin, List.head?_cons, Option.some.injEq, hc.2, if_false]
  simp

/-- a line that closes a block stands where the one that opened it does -/
theorem readLine_closing (cs : List Char) (around : ℕ) :
    readLine (around + 1) (List.replicate (4 * around) ' ' ++ '\x7d' :: cs) =
      some (if ('\x7d' :: cs).getLast? = some '\x7b' then around + 1 else around) := by
  obtain ⟨htake, hdrop⟩ := takeWhile_margin (c := '\x7d') (by decide) cs (4 * around)
  simp only [readLine, htake, hdrop, getLast?_margin, List.head?_cons]
  simp

namespace Place

theorem add_nil (p : Place) : p.add [] = p := by rw [add, List.append_nil]

theorem add_add (p : Place) (items items' : List Outline) :
    (p.add items).add items' = p.add (items ++ items') := by
  rw [add, add, add, List.append_assoc]

theorem leave?_enter (p : Place) (head : List Char) (items : List Outline) :
    ((p.enter head).add items).leave? = some (p.add [.block head items]) := rfl

theorem depth_of_leave? {p' : Place} (h : p.leave? = some p') : p.depth = p'.depth + 1 := by
  obtain ⟨around, here⟩ := p
  cases around with
  | nil => cases h
  | cons a around =>
    cases h
    rfl

theorem depth_say (p : Place) (text : List Char) :
    (p.say text).depth = if text.getLast? = some '\x7b' then p.depth + 1 else p.depth := by
  unfold say
  split <;> rfl

theorem readLine_inline (hc : c ≠ ' ' ∧ c ≠ '\x7d') (p : Place) (n : ℕ) :
    p.readLine (List.replicate n ' ' ++ c :: cs) = some (p.say (c :: cs)) := by
  unfold readLine
  rw [(takeWhile_margin hc.1 cs n).2]
  split
  · rename_i heq
    cases heq
  · rename_i heq
    exact absurd (List.cons.inj heq).1 hc.2
  · rfl

theorem readLine_closing {p' : Place} (h : p.leave? = some p') (n : ℕ) :
    p.readLine (List.replicate n ' ' ++ ['\x7d']) = some p' := by
  unfold readLine
  rw [(takeWhile_margin (c := '\x7d') (by decide) [] n).2]
  simp [h]

theorem readLine_reopening {p' : Place} (h : p.leave? = some p') (hc : c ≠ ' ') (n : ℕ) :
    p.readLine (List.replicate n ' ' ++ '\x7d' :: ' ' :: c :: cs) = some (p'.say (c :: cs)) := by
  unfold readLine
  rw [(takeWhile_margin (c := '\x7d') (by decide) (' ' :: c :: cs) n).2]
  simp [h, hc]

/-- the head of a block is what stands before the brace and the blank before it -/
theorem say_opening {head : List Char} (h : head.getLast? ≠ some ' ') (p : Place) :
    p.say (head ++ [' ', '\x7b']) = p.enter head := by
  have hsplit : head ++ [' ', '\x7b'] = (head ++ [' ']) ++ ['\x7b'] := by simp
  have hhead : head.rdropWhile (· == ' ') = head :=
    List.rdropWhile_eq_self_iff.2 fun hne hlast =>
      h ((List.getLast?_eq_some_getLast hne).trans (congrArg some (beq_iff_eq.1 hlast)))
  rw [say, hsplit, List.getLast?_concat, if_pos rfl, List.dropLast_concat,
    List.rdropWhile_concat_pos _ _ _ rfl, hhead]

end Place

/-- A text of whole lines, read from one place in an outline to another; at each line both readers go on,
and they agree on the blocks that are open. -/
inductive Reads : Place → List Char → Place → Prop
  | nil {p : Place} : Reads p [] p
  | line {before next behind : Place} {line rest : List Char} : '\n' ∉ line →
    before.readLine line = some next → readLine before.depth line = some next.depth →
    Reads next rest behind → Reads before (line ++ '\n' :: rest) behind

namespace Reads

theorem append (h : Reads before cs next) (h' : Reads next cs' behind) :
    Reads before (cs ++ cs') behind := by
  induction h with
  | nil => exact h'
  | line hline hread hdepth _ ih =>
    rw [List.append_assoc, List.cons_append]
    exact .line hline hread hdepth (ih h')

/-- whole lines are read as the lines of any text -/
theorem foldlM (h : Reads before cs behind) :
    (cs.splitOn '\n').foldlM Place.readLine before = some behind ∧
      (cs.splitOn '\n').foldlM readLine before.depth = some behind.depth := by
  induction h with
  | nil => exact ⟨rfl, rfl⟩
  | line hline hread hdepth _ ih =>
    rw [splitOn_append_cons hline, List.foldlM_cons, List.foldlM_cons, hread, hdepth]
    exact ih

end Reads

end Reading

theorem toList_pushn (text : String) (c : Char) (n : ℕ) :
    (text.pushn c n).toList = text.toList ++ List.replicate n c := by
  change (n.repeat (·.push c) text).toList = _
  induction n with
  | zero => exact (List.append_nil _).symm
  | succ n ih => rw [Nat.repeat, String.toList_push, ih, List.append_assoc, List.replicate_succ']

theorem getLast?_brace (text : String) : (text ++ " \x7b").toList.getLast? = some '\x7b' := by
  simp [String.toList_append]

/-- Something is written and the depth is as it was. What is written is whole lines that are read from
one place to another. -/
structure Adds (before behind : Place) (w w' : Writer) : Prop where
  depth : w'.depth = w.depth
  reads : ∃ cs, w'.output.toList = w.output.toList ++ cs ∧ Reads before cs behind

namespace Adds

variable {before next behind p p' : Place} {w w' w'' : Writer} {text : String} {head : List Char}

theorem refl (p : Place) (w : Writer) : Adds p p w w := ⟨rfl, [], (List.append_nil _).symm, .nil⟩

theorem trans (h : Adds before next w w') (h' : Adds next behind w' w'') : Adds before behind w w'' := by
  obtain ⟨cs, hcs, hreads⟩ := h.reads
  obtain ⟨cs', hcs', hreads'⟩ := h'.reads
  refine ⟨h'.depth.trans h.depth, cs ++ cs', ?_, hreads.append hreads'⟩
  rw [hcs', hcs, List.append_assoc]

/-- what is written one step further in -/
theorem further (h : Adds before behind w.indent w') : Adds before behind w w'.dedent :=
  ⟨congrArg (· - 1) h.depth, h.reads⟩

theorem newline (p : Place) (w : Writer) : Adds p p w w.newline := by
  refine ⟨rfl, ['\n'], String.toList_append, ?_⟩
  exact (.line List.not_mem_nil rfl rfl .nil : Reads p ([] ++ '\n' :: []) p)

theorem line (h : Unbroken text)
    (hread : before.readLine (List.replicate (4 * w.depth) ' ' ++ text.toList) = some behind)
    (hdepth : readLine before.depth (List.replicate (4 * w.depth) ' ' ++ text.toList) = some behind.depth) :
    Adds before behind w (w.line text) := by
  refine ⟨rfl, (List.replicate (4 * w.depth) ' ' ++ text.toList) ++ ['\n'], ?_, .line ?_ hread hdepth .nil⟩
  · simp [Writer.line, Writer.margin, Writer.write, Writer.newline, toList_pushn]
  · rw [List.mem_append, not_or]
    exact ⟨fun hmem => (nomatch List.eq_of_mem_replicate hmem), h⟩

/-- a line that closes nothing -/
theorem inline (h : Inline text) (hw : w.depth = p.depth) : Adds p (p.say text.toList) w (w.line text) := by
  obtain ⟨c, cs, hcs, hc⟩ := h.exists_cons
  refine line h.unbroken ?_ ?_
  · rw [hcs, Place.readLine_inline hc]
  · rw [hcs, hw, readLine_inline hc, Place.depth_say]

/-- a line that opens and closes nothing -/
theorem plain (h : Inline text) (hw : w.depth = p.depth) :
    Adds p (p.add [.line (text ++ ";").toList]) w (w.line (text ++ ";")) := by
  have hall : Inline (text ++ ";") := h.append (by decide)
  have hsay : p.say (text ++ ";").toList = p.add [.line (text ++ ";").toList] := by
    rw [Place.say, if_neg]
    simp [String.toList_append]
  exact hsay ▸ inline hall hw

/-- a line that opens a block -/
theorem opening {head : String} (h : Inline head) (hlast : head.toList.getLast? ≠ some ' ')
    (hw : w.depth = p.depth) : Adds p (p.enter head.toList) w (w.line (head ++ " \x7b")) := by
  have hsay : p.say (head ++ " \x7b").toList = p.enter head.toList := by
    rw [String.toList_append]
    exact Place.say_opening hlast p
  exact hsay ▸ inline (h.append (by decide)) hw

/-- a line that closes one block and opens another -/
theorem reopening {head : String} (h : Inline head) (hlast : head.toList.getLast? ≠ some ' ')
    (hp : p.leave? = some p') (hw : w.depth = p'.depth) :
    Adds p (p'.enter head.toList) w (w.line ("\x7d " ++ head ++ " \x7b")) := by
  obtain ⟨c, cs, hcs, hc⟩ := h.exists_cons
  have htext : ("\x7d " ++ head ++ " \x7b").toList = '\x7d' :: ' ' :: c :: (cs ++ [' ', '\x7b']) := by
    simp [String.toList_append, hcs]
  refine line ((((by decide : Unbroken "\x7d ").append h.unbroken).append (by decide))) ?_ ?_
  · rw [htext, Place.readLine_reopening hp hc.1, ← List.cons_append, ← hcs, Place.say_opening hlast]
  · have hbrace : ("\x7d " ++ head ++ " \x7b").toList.getLast? = some '\x7b' := getLast?_brace _
    rw [htext] at hbrace ⊢
    rw [hw, Place.depth_of_leave? hp, readLine_closing, if_pos hbrace]
    rfl

/-- a line that closes a block -/
theorem closing (hp : p.leave? = some p') (hw : w.depth = p'.depth) :
    Adds p p' w (w.line "\x7d") := by
  refine line (by decide) (Place.readLine_closing hp _) ?_
  rw [hw, Place.depth_of_leave? hp]
  exact readLine_closing [] p'.depth

end Adds

/-- the first line of a counting loop, without the brace -/
def loopHead (n : String) (a b : Expr) (inclusive : Bool) : String :=
  let test := n ++ (if inclusive then " <= " else " < ") ++ exprText b
  "for " ++ inParens ("int " ++ n ++ " = " ++ exprText a ++ "; " ++ test ++ "; " ++ n ++ "++")

mutual

/-- what the text of a statement says -/
def Stmt.outline : Stmt → List Outline
  | .expr e => [.line (exprText e ++ ";").toList]
  | .declare ty n e => [.line (declarator ty n ++ " = " ++ exprText e ++ ";").toList]
  | .block b => [.block [] (outlines b)]
  | .cond t y r => .block ("if " ++ inParens (exprText t)).toList (outlines y) :: r.outline
  | .loop n a b inclusive body => [.block (loopHead n a b inclusive).toList (outlines body)]
  | .leave => [.line "break;".toList]
  | .result e => [.line ("return " ++ exprText e ++ ";").toList]

def outlines : List Stmt → List Outline
  | [] => []
  | s :: ss => s.outline ++ outlines ss

def Rest.outline : Rest → List Outline
  | .done => []
  | .orElse b => [.block "else".toList (outlines b)]
  | .orIf t y r => .block ("else if " ++ inParens (exprText t)).toList (outlines y) :: r.outline

end

theorem outlines_append (ss ss' : List Stmt) : outlines (ss ++ ss') = outlines ss ++ outlines ss' := by
  induction ss with
  | nil => rfl
  | cons s ss ih => rw [List.cons_append, outlines, ih, outlines, List.append_assoc]

/-- wherever a statement is written, it is well indented, closes what it opens and is read as it is -/
def Stmt.Laid (s : Stmt) : Prop :=
  ∀ w p, w.depth = p.depth → Adds p (p.add s.outline) w (writeStmt s w)

/-- wherever statements are written -/
def Laid (out : List Stmt) : Prop :=
  ∀ w p, w.depth = p.depth → Adds p (p.add (outlines out)) w (writeStmts out w)

/-- the branches behind another one, which is still open; they leave their last block open too -/
def Rest.Laid (r : Rest) : Prop :=
  ∀ w p q, p.leave? = some q → w.depth = q.depth →
    ∃ last, Adds p last w (writeRest r w) ∧ last.leave? = some (q.add r.outline)

theorem getLast?_inParens (front text : String) :
    (front ++ inParens text).toList.getLast? ≠ some ' ' := by
  have htext : (front ++ inParens text).toList = (front ++ "(" ++ text).toList ++ [')'] := by
    simp [inParens, String.toList_append]
  rw [htext, List.getLast?_concat]
  decide

theorem Inline.withParens {front text : String} (h : Inline front) (htext : Unbroken text) :
    Inline (front ++ C.inParens text) := h.append (Inline.inParens htext).unbroken

namespace Laid

variable {out : List Stmt} {s : Stmt} {w w' : Writer} {p : Place} {head : List Char}

theorem nil : Laid [] := fun w p _ => (p.add_nil).symm ▸ .refl p w

theorem cons (h : s.Laid) (h' : Laid out) : Laid (s :: out) := by
  intro w p hw
  have hfirst := h w p hw
  have hrest := h' (writeStmt s w) (p.add s.outline) (hfirst.depth.trans hw)
  rw [Place.add_add] at hrest
  exact hfirst.trans hrest

/-- in a block that was opened -/
theorem inside (h : Laid out) {before : Place} (hline : Adds before (p.enter head) w w')
    (hw : w.depth = p.depth) :
    Adds before ((p.enter head).add (outlines out)) w (writeStmts out w'.indent).dedent :=
  hline.trans (h w'.indent (p.enter head) (congrArg (· + 1) (hline.depth.trans hw))).further

/-- in a block that is opened and closed -/
theorem braced (h : Laid out) (hline : Adds p (p.enter head) w w') (hw : w.depth = p.depth) :
    Adds p (p.add [.block head (outlines out)]) w ((writeStmts out w'.indent).dedent.line "\x7d") := by
  have hinside := h.inside hline hw
  exact hinside.trans (.closing (p.leave?_enter head _) (hinside.depth.trans hw))

end Laid

namespace Stmt.Laid

variable {out : List Stmt} {e : Expr} {r : Rest}

theorem expr (h : Inline (exprText e)) : Stmt.Laid (.expr e) := fun _ _ => .plain h

theorem result (h : Inline (exprText e)) : Stmt.Laid (.result e) :=
  fun _ _ => .plain ((by decide : Inline "return ").append h.unbroken)

theorem leave : Stmt.Laid .leave := fun _ _ => .plain (by decide : Inline "break")

theorem declare {ty : Ty} {n : String} (hname : Inline (declarator ty n)) (h : Inline (exprText e)) :
    Stmt.Laid (.declare ty n e) :=
  fun _ _ => .plain ((hname.append (by decide)).append h.unbroken)

theorem block (h : C.Laid out) : Stmt.Laid (.block out) :=
  fun w p hw => h.braced (.inline (by decide : Inline "\x7b") hw) hw

theorem loop {n : String} {a b : Expr} {inclusive : Bool} (hname : Inline n)
    (ha : Inline (exprText a)) (hb : Inline (exprText b)) (h : C.Laid out) :
    Stmt.Laid (.loop n a b inclusive out) := by
  intro w p hw
  have htest : Unbroken (n ++ (if inclusive then " <= " else " < ") ++ exprText b) := by
    refine (hname.unbroken.append ?_).append hb.unbroken
    cases inclusive <;> decide
  have hstart := (((by decide : Unbroken "int ").append hname.unbroken).append
    (by decide : Unbroken " = ")).append ha.unbroken
  have hhead := (((hstart.append (by decide : Unbroken "; ")).append htest).append
    (by decide : Unbroken "; ")).append hname.unbroken
  have hline := (by decide : Inline "for ").withParens (hhead.append (by decide : Unbroken "++"))
  exact h.braced (.opening hline (getLast?_inParens _ _) hw) hw

theorem cond (he : Inline (exprText e)) (h : C.Laid out) (hr : r.Laid) : Stmt.Laid (.cond e out r) := by
  intro w p hw
  have hline := (by decide : Inline "if ").withParens he.unbroken
  have hyes := h.inside (.opening hline (getLast?_inParens _ _) hw) hw
  obtain ⟨last, hrest, hleave⟩ := hr _ _ _ (p.leave?_enter _ _) (hyes.depth.trans hw)
  have hall := hyes.trans hrest
  rw [Place.add_add] at hleave
  exact hall.trans (.closing hleave (hall.depth.trans hw))

end Stmt.Laid

namespace Rest.Laid

variable {out : List Stmt} {e : Expr} {r : Rest}

theorem done : Rest.Laid .done := fun w p q hp _ => ⟨p, .refl p w, (q.add_nil).symm ▸ hp⟩

theorem orElse (h : C.Laid out) : Rest.Laid (.orElse out) := by
  intro w p q hp hw
  have hline : Adds p (q.enter "else".toList) w (w.line "\x7d else \x7b") :=
    .reopening (by decide : Inline "else") (by decide) hp hw
  exact ⟨_, h.inside hline hw, q.leave?_enter _ _⟩

theorem orIf (he : Inline (exprText e)) (h : C.Laid out) (hr : r.Laid) : Rest.Laid (.orIf e out r) := by
  intro w p q hp hw
  have hhead := (by decide : Inline "else if ").withParens he.unbroken
  have hline := Adds.reopening hhead (getLast?_inParens _ _) hp hw
  have hyes := h.inside hline hw
  obtain ⟨last, hrest, hleave⟩ := hr _ _ _ (q.leave?_enter _ _) (hyes.depth.trans hw)
  rw [Place.add_add] at hleave
  refine ⟨last, ?_, hleave⟩
  have htext : "\x7d " ++ ("else if " ++ inParens (exprText e)) ++ " \x7b" =
      "\x7d else if " ++ inParens (exprText e) ++ " \x7b" := by
    rw [← String.append_assoc]
    rfl
  rw [htext] at hrest hyes
  exact hyes.trans hrest

end Rest.Laid

end AutoLang.C
