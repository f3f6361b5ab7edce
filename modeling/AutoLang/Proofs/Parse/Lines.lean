import AutoLang.Proofs.Parse.Evaluation
import AutoLang.Proofs.Parse.Following
import Mathlib

/-! One text behind another. The statements of the first are read up to the newline between the two and
those of the second behind it, as if each text stood alone. What is read at the seam are separators, and
neither the end of a statement nor the beginning of the next depends on how many there are. -/

namespace AutoLang

open AutoLang.ParseState (Beside Tied Within Clean)
open AutoLang.Parser (Gives Steady)

namespace Parse

variable {σ : Shift} {rest all ts : List Token} {m : Nat} {s s' t : ParseState} {c : Code}

section Separators

/-- a separator in front of a statement is passed with it -/
theorem nextStmt_advance (ht : t.Within all m) (hk : t.kind = .newline ∨ t.kind = .semicolon) :
    nextStmt.run t = nextStmt.run t.advance := by
  have hne := TokenKind.ne_eof_of_separator hk
  have hsep : (t.kind == .newline || t.kind == .semicolon) = true := by simpa using hk
  have hshort : t.advance.remaining ≤ t.remaining := by
    obtain ⟨u, us, hu⟩ := ht.upcoming_eq_cons hne
    simp [ParseState.advance, hu, ParseState.remaining]
  rw [← stmt_run_eq_nextStmt ht.advance hshort, nextStmt_run, ParseState.remaining,
    Grammar.ofDepth]
  change (phrase _ _).run (t.skip _) = (phrase _ _).run (t.advance.skip _)
  rw [ParseState.skip_advance hsep (ht.upcoming_ne_nil hne)]

theorem Reads.of_advance (ht : t.Within all m) (hk : t.kind = .newline ∨ t.kind = .semicolon)
    (h : Reads t.advance c s') : Reads t c s' := by
  have hnext := nextStmt_advance ht hk
  have hne := TokenKind.ne_eof_of_separator hk
  cases h with
  | done hn => exact .done (hnext.trans hn)
  | @step _ u _ _ _ taken _ htok hn hrest =>
    have htokens : t.tokens = (t.current :: taken) ++ u.tokens := by
      rw [List.cons_append, ← htok, ParseState.advance_tokens (ht.upcoming_ne_nil hne)]
      rfl
    exact .step (List.cons_ne_nil _ _) htokens (hnext.trans hn) hrest

/-- what is read behind separators is read with them in front -/
theorem Reads.exists_behind (hts : ts ≠ []) (seps : List Token) : ∀ t : ParseState,
    Separators seps → t.tokens = seps ++ ts → t.Within all m →
      ∃ u : ParseState, u.tokens = ts ∧ u.problems = t.problems ∧ u.Within all m ∧
        ∀ c s', Reads u c s' → Reads t c s' := by
  induction seps with
  | nil => exact fun t _ htok ht => ⟨t, htok, rfl, ht, fun _ _ => id⟩
  | cons a seps ih =>
    intro t hseps htok ht
    obtain ⟨hsep, hmore⟩ := List.forall_mem_cons.1 hseps
    obtain ⟨rfl, hupcoming⟩ := List.cons.inj htok
    have hupcoming : t.upcoming = seps ++ ts := hupcoming
    have hadvance : t.advance.tokens = seps ++ ts := by
      rw [ParseState.advance_tokens (by simp [hupcoming, hts]), hupcoming]
    obtain ⟨u, htokens, hproblems, hu, hreads⟩ := ih t.advance hmore hadvance ht.advance
    refine ⟨u, htokens, hproblems.trans (ParseState.problems_advance t), hu, fun c s' h => ?_⟩
    exact (hreads c s' h).of_advance ht hsep

end Separators

section Statements

theorem clean_of_nextStmt {found : Option Stmt} (h : nextStmt.run s = (found, s'))
    (hclean : s'.Clean) : s.Clean := by
  rw [nextStmt_run] at h
  have hsteps : ParseState.Steps s ((Grammar.ofDepth s.remaining).stmt.run s).2 :=
    Parser.Along.steps s
  rw [h] at hsteps
  exact hsteps.clean hclean

theorem Reads.clean (h : Reads s c s') (hclean : s'.Clean) : s.Clean := by
  induction h with
  | done hn => exact clean_of_nextStmt hn hclean
  | step _ _ hn _ ih => exact clean_of_nextStmt hn (ih hclean)

/-- a statement that is read without problems is read the same further down -/
theorem nextStmt_beside {x : Stmt} (hb : Beside σ rest s.remaining 0 s t) (ht : t.Within all m)
    (h : nextStmt.run s = (some x, s')) (hclean : s'.Clean) :
    ∃ t', nextStmt.run t = (some (x.shift σ), t') ∧ Tied σ rest s'.remaining 0 s' t' := by
  have hgives := (Grammar.tracks_ofDepth σ rest t.remaining).stmt 0 s t (hb.mono hb.remaining_le)
  unfold Gives at hgives
  rw [stmt_run_eq_nextStmt hb.ready.within hb.remaining_le, stmt_run_eq_nextStmt ht le_rfl, h]
    at hgives
  obtain ⟨hx, htied⟩ := hgives hclean x rfl
  exact ⟨_, Prod.ext hx rfl, htied.sharpen⟩

/-- The statements up to the end of a text are the first ones of the longer text, and what is read next
there is read behind the seam. -/
theorem Reads.beside (h : Reads s c s') (hclean : s'.Clean) (hb : Beside σ rest s.remaining 0 s t)
    (ht : t.Within all m) :
    ∃ u : ParseState, u.tokens = rest ∧ u.Clean ∧ u.Within all m ∧
      ∀ d u', Reads u d u' → Reads t (c.map (Stmt.shift σ) ++ d) u' := by
  induction h generalizing t m with
  | @done s s' hn =>
    have hsound := (Grammar.sound_ofDepth s.remaining).stmt s hb.ready
    unfold Gives at hsound
    rw [← nextStmt_run, hn] at hsound
    obtain ⟨ts, hmoved, hseps, hend⟩ := hsound hclean
    have htokens : t.tokens = ts.map (Token.shift σ) ++ rest := by
      rw [hb.tokens, hmoved.tokens, ParseState.tokens,
        (hb.ready.moved hmoved).within.upcoming_eq_nil hend, List.dropLast_concat]
    have hseps : Separators (ts.map (Token.shift σ)) := List.forall_mem_map.2 hseps
    obtain ⟨u, hu, hproblems, hwithin, hreads⟩ :=
      Reads.exists_behind hb.seam.ne_nil _ t hseps htokens ht
    exact ⟨u, hu, hproblems.trans hb.clean, hwithin, hreads⟩
  | step _ _ hn hrest ih =>
    obtain ⟨t', hnext, htied⟩ := nextStmt_beside hb ht hn (hrest.clean hclean)
    obtain ⟨hwithin, taken, htaken, hsplit⟩ := nextStmt_some ht hnext
    obtain ⟨u, hu, hcleanu, hwithinu, hreads⟩ :=
      ih hclean htied.toBeside (hwithin.mono (Nat.sub_le m 1))
    exact ⟨u, hu, hcleanu, hwithinu, fun d u' hd => .step htaken hsplit hnext (hreads d u' hd)⟩

end Statements

section Else

/-- no statement begins with `else` -/
theorem stmt_else {g : Grammar} [g.Steady] (hk : s.kind = .elseKw) :
    Gives s (stmt g (expr g 0)) fun _ _ => False := by
  have hstay : s.skip (fun k => k == .newline || k == .semicolon) = s :=
    ParseState.skip_of_not (by rw [hk]; rfl)
  have hvalue : literal? s.current = none := by
    rw [literal?, show s.current.kind = _ from hk]
  rw [stmt_eq]
  refine .skipSeparators fun _ _ _ => ?_
  rw [hstay]
  refine .kind ?_
  rw [hk]
  refine .stuck (.stuck (.kind ?_))
  rw [hk]
  refine .get ?_
  rw [hk]
  dsimp only
  rw [hvalue]
  exact .report

theorem Reads.kind_ne_else (h : Reads s c s') (hclean : s'.Clean) : s.kind ≠ .elseKw := by
  intro hk
  have hstuck {found : Option Stmt} {t : ParseState} (hn : nextStmt.run s = (found, t))
      (ht : t.Clean) : False := by
    have hgives := stmt_else (g := Grammar.ofDepth s.upcoming.length) hk
    unfold Gives at hgives
    rw [← nextStmt_run_stmt, hn] at hgives
    exact hgives ht
  cases h with
  | done hn => exact hstuck hn hclean
  | step _ _ hn hrest => exact hstuck hn (hrest.clean hclean)

end Else

section Seam

variable {last newline : Token} {us : List Token}

/-- at the beginning of a text with a newline and more behind it -/
theorem beside_newline (hs : Orderly s.tokens) (ht : Orderly t.tokens) (hclean : t.Clean)
    (hformats : countKind .formatOpen s.tokens ≤ countKind .formatClose s.tokens)
    (hlast : s.tokens = ts ++ [last]) (hnewline : newline.kind = .newline)
    (helse : ∀ a ∈ us.head?, a.kind ≠ .elseKw) (htokens : t.tokens = ts ++ newline :: us) :
    Beside .none (newline :: us) s.remaining 0 s t := by
  constructor
  case ready => exact ⟨hs, le_rfl⟩
  case clean => exact hclean
  case seam => exact .newline hnewline helse
  case tokens =>
    have hsame : Token.shift .none = id := rfl
    rw [htokens, hlast, List.dropLast_concat, hsame, List.map_id]
  case apart => exact ht.apart
  case formats => exact fun _ => hformats

/-- at the beginning of a text with nothing behind it -/
theorem exists_beside_last (hs : Orderly s.tokens) (hclean : t.Clean)
    (hapart : t.tokens.Pairwise fun a b => a.span ≠ b.span)
    (htokens : t.tokens = s.tokens.map (Token.shift σ)) :
    ∃ e, e.kind = .eof ∧ Beside σ [e] s.remaining 0 s t := by
  obtain ⟨before, e, hsplit, he, -⟩ := hs.ends
  refine ⟨e.shift σ, he, ?_⟩
  constructor
  case ready => exact ⟨hs, le_rfl⟩
  case clean => exact hclean
  case seam => exact .last he
  case tokens => rw [htokens, hsplit, List.dropLast_concat, List.map_append, List.map_singleton]
  case apart => exact hapart
  case formats =>
    rintro ⟨x, hx, hk⟩
    obtain rfl : e.shift σ = x := Option.some.inj hx
    cases he.symm.trans hk

/-- two texts that are read without problems are read one after the other, with a newline between -/
theorem Reads.seam {u v w : ParseState} {d : Code} (h : Reads s c v) (hv : v.Clean)
    (h' : Reads u d w) (hw : w.Clean) (hs : Orderly s.tokens) (hu : Orderly u.tokens)
    (ht : Orderly t.tokens) (hclean : t.Clean)
    (hformats : countKind .formatOpen s.tokens ≤ countKind .formatClose s.tokens)
    (hlast : s.tokens = ts ++ [last]) (hnewline : newline.kind = .newline)
    (htokens : t.tokens = ts ++ newline :: u.tokens.map (Token.shift σ)) :
    ∃ t', t'.Clean ∧ Reads t (c ++ d.map (Stmt.shift σ)) t' := by
  have hwithin : t.Within t.tokens t.remaining := ⟨ht.ends, List.suffix_rfl, le_rfl⟩
  have helse : ∀ a ∈ (u.tokens.map (Token.shift σ)).head?, a.kind ≠ .elseKw := by
    intro a ha
    obtain rfl : u.current.shift σ = a := Option.some.inj ha
    exact h'.kind_ne_else hw
  -- the statements of the first text, then the newline, then those of the second
  obtain ⟨a, ha, hcleana, hwithina, hreadsa⟩ := h.beside hv
    (beside_newline hs ht hclean hformats hlast hnewline helse htokens) hwithin
  have hne : u.tokens.map (Token.shift σ) ≠ [] := List.cons_ne_nil _ _
  obtain ⟨b, hb, hproblems, hwithinb, hreadsb⟩ := Reads.exists_behind hne [newline] a
    (List.forall_mem_singleton.2 (.inl hnewline)) ha hwithina
  obtain ⟨e, he, hsecond⟩ := exists_beside_last hu (hproblems.trans hcleana)
    (ht.apart.sublist hwithinb.suffix.sublist) hb
  obtain ⟨x, hx, hcleanx, -, hreadsx⟩ := h'.beside hw hsecond hwithinb
  have hend : x.kind = .eof := (congrArg Token.kind (List.cons.inj hx).1).trans he
  have hstop : Reads x [] x := .done (by rw [nextStmt_run_stmt, stmt_of_eof hend])
  have hall := hreadsa _ _ (hreadsb _ _ (hreadsx [] x hstop))
  have hsame : Stmt.shift .none = id := funext Stmt.shift_none
  rw [hsame, List.map_id, List.append_nil] at hall
  exact ⟨x, hcleanx, hall⟩

end Seam

end Parse

section Source

open Lexer (ofSource)

/-- Two texts without problems, the first of which ends inside of no literal, are parsed without problems
with a newline between them, to the statements of the first and then those of the second, as far further
down as the first text and the newline reach. -/
theorem parse_lines_append (p q : String) (marker : Char)
    (hp : (Parse.ofLexer { ofSource p with marker := marker }).diagnostics = [])
    (hq : (Parse.ofLexer { ofSource q with marker := marker }).diagnostics = [])
    (ho : EndsOutside marker p.toList) :
    (Parse.ofLexer { ofSource (p ++ "\n" ++ q) with marker := marker }).diagnostics = [] ∧
      (Parse.ofLexer { ofSource (p ++ "\n" ++ q) with marker := marker }).code =
        (Parse.ofLexer { ofSource p with marker := marker }).code ++
          (Parse.ofLexer { ofSource q with marker := marker }).code.map (Stmt.shift (.past p)) := by
  obtain ⟨hlexp, herrorsp⟩ := List.append_eq_nil_iff.1 hp
  obtain ⟨hlexq, herrorsq⟩ := List.append_eq_nil_iff.1 hq
  obtain ⟨hlex, ts, last, newline, hnewline, hlast, htokens⟩ :=
    Lexer.significant_seam hlexp hlexq ho
  have hreadsp := Parse.reads_ofLexer { ofSource p with marker := marker }
  have hreadsq := Parse.reads_ofLexer { ofSource q with marker := marker }
  have hs := Lexer.orderly_significant hlexp
  have hu := Lexer.orderly_significant hlexq
  have ht := Lexer.orderly_significant hlex
  have hformats := (Lexer.formats_significant hlexp ho).le
  rw [← ParseState.tokens_ofLexer] at hs hu ht hformats hlast htokens
  rw [← ParseState.tokens_ofLexer] at htokens
  obtain ⟨t', hclean, hreads⟩ := hreadsp.seam (Parse.errors_eq_nil_iff.1 herrorsp) hreadsq
    (Parse.errors_eq_nil_iff.1 herrorsq) hs hu ht (ParseState.clean_ofTokens _) hformats hlast
    hnewline htokens
  obtain ⟨hcode, hfinal⟩ := (Parse.reads_ofLexer _).unique hreads
  refine ⟨List.append_eq_nil_iff.2 ⟨hlex, ?_⟩, hcode⟩
  exact Parse.errors_eq_nil_iff.2 (hfinal ▸ hclean)

/-- whether a text ends inside of no literal, as far as the fuel lasts -/
def EndsOutside.runs (fuel : Nat) (marker : Char) (cs : List Char) : Bool :=
  match Scan.runWhole fuel marker cs with
  | some scan => decide (QuotesClosed scan.pieces) && openings scan.pieces == closings scan.pieces
  | none => false

theorem EndsOutside.of_runs {fuel : Nat} {marker : Char} {cs : List Char}
    (h : runs fuel marker cs = true) : EndsOutside marker cs := by
  unfold runs at h
  split at h
  · rename_i scan hrun
    rw [Bool.and_eq_true, decide_eq_true_iff, beq_iff_eq, ← Scan.whole_of_runWhole hrun] at h
    exact ⟨h.1, h.2⟩
  · cases h

/-- ends with a comment, behind a format text and a condition without `else` -/
def firstLines : String := "var s = f\"é @x\"\nif s == \"\" \x7b f(1)\x7d // c"

/-- begins with a list, which would be an index on the line before -/
def laterLines : String := "[1,\n 2]\nfn f(n int) \x7b -n\x7d;\n"

theorem parse_lines_append_sample :
    (Parse.ofLexer { ofSource firstLines with marker := '@' }).diagnostics = [] ∧
      (Parse.ofLexer { ofSource laterLines with marker := '@' }).diagnostics = [] ∧
      EndsOutside '@' firstLines.toList ∧
      (Parse.ofLexer { ofSource (firstLines ++ "\n" ++ laterLines) with marker := '@' }).diagnostics =
        [] ∧
      (Parse.ofLexer { ofSource (firstLines ++ "\n" ++ laterLines) with marker := '@' }).code =
        (Parse.ofLexer { ofSource firstLines with marker := '@' }).code ++
          (Parse.ofLexer { ofSource laterLines with marker := '@' }).code.map
            (Stmt.shift (.past firstLines)) := by
  have runFirst : Parse.runsClean 100 firstLines '@' = true := by decide +kernel
  have runLater : Parse.runsClean 100 laterLines '@' = true := by decide +kernel
  have runOutside : EndsOutside.runs 100 '@' firstLines.toList = true := by decide +kernel
  have first := Parse.diagnostics_of_runsClean runFirst
  have later := Parse.diagnostics_of_runsClean runLater
  have outside := EndsOutside.of_runs runOutside
  exact ⟨first, later, outside, parse_lines_append _ _ _ first later outside⟩

end Source

end AutoLang
