import AutoLang.Proofs.Parse.Progress
import AutoLang.Proofs.Token.OnDemand
import Mathlib

/-! Reading a whole text. Statement after statement is read, each over tokens of its own, until the
end token is the only one left. No bound on rounds or depth is ever reached on the way, so reading
stops because the text does. -/

namespace AutoLang

open AutoLang.ParseState (Within)
open AutoLang.Parser

/-- the token list of a lexer is closed by its only end token -/
theorem Lexer.terminated_drain (l : Lexer) (read : Array Token)
    (h : ∀ t ∈ read.toList, t.kind ≠ .eof) : Terminated (l.drain read).1.toList := by
  induction l, read using Lexer.drain.induct with
  | case1 l read t l' made he =>
    rw [Lexer.drain_step, made, if_pos he]
    exact ⟨read.toList, t, by simp, he, h⟩
  | case2 l read t l' made he ih =>
    rw [Lexer.drain_step, made, if_neg he]
    refine ih fun u hu => ?_
    rw [Array.toList_push, List.mem_append, List.mem_singleton] at hu
    rcases hu with hu | rfl
    · exact h u hu
    · exact he

/-- leaving comments out keeps the end token -/
theorem Terminated.filter {all : List Token} (h : Terminated all) :
    Terminated (all.filter (!·.kind.isTrivia)) := by
  obtain ⟨before, last, rfl, hl, hb⟩ := h
  refine ⟨before.filter (!·.kind.isTrivia), last, ?_, hl, fun t ht => hb t (List.mem_filter.1 ht).1⟩
  simp [hl, TokenKind.isTrivia]

theorem ParseState.tokens_ofTokens {all : List Token} (h : Terminated all) :
    (ParseState.ofTokens all).tokens = all.filter (!·.kind.isTrivia) := by
  obtain ⟨before, last, hsplit, -⟩ := h.filter
  unfold ofTokens
  split
  · rename_i hnil
    simp [hnil] at hsplit
  · rename_i t ts hcons
    exact hcons.symm

namespace Parse

variable {all : List Token} {n m : Nat} {s : ParseState}

section Stmt

variable {g : Grammar} {whole : Parser Expr}

theorem phrase_of_eof (hk : s.kind = .eof) : (phrase g whole).run s = (none, s) := by
  rw [phrase, kind_bind_run, hk]
  rfl

/-- a statement is missing only at the end -/
theorem kind_of_phrase_none (h : ((phrase g whole).run s).1 = none) : s.kind = .eof := by
  by_contra hk
  rw [phrase, kind_bind_run] at h
  split at h
  case h_1 he => exact hk he
  all_goals exact Option.some_ne_none _ h

/-- where no statement is found the text is at its end, with nothing but separators passed -/
theorem stmt_none {s' : ParseState} (h : (stmt g whole).run s = (none, s')) : s'.kind = .eof := by
  rw [stmt_eq] at h
  change (phrase g whole).run (s.skip _) = _ at h
  have hk := kind_of_phrase_none (congrArg Prod.fst h)
  rw [phrase_of_eof hk] at h
  obtain ⟨-, rfl⟩ := Prod.mk.inj h
  exact hk

/-- at the end there is no statement -/
theorem stmt_of_eof (hk : s.kind = .eof) : (stmt g whole).run s = (none, s) := by
  rw [stmt_eq]
  change (phrase g whole).run (s.skip _) = _
  rw [ParseState.skip_of_not (by rw [hk]; rfl), phrase_of_eof hk]

end Stmt

section Next

variable {s' : ParseState} {x : Stmt}

theorem nextStmt_run (s : ParseState) :
    nextStmt.run s = (Grammar.ofDepth s.remaining).stmt.run s :=
  get_bind_run _ s

theorem nextStmt_run_stmt (s : ParseState) : nextStmt.run s =
    (stmt (Grammar.ofDepth s.upcoming.length)
      (expr (Grammar.ofDepth s.upcoming.length) 0)).run s := by
  rw [nextStmt_run, ParseState.remaining, Grammar.ofDepth]

theorem stmt_run_eq_nextStmt (hs : s.Within all m) {depth : Nat} (hd : s.remaining ≤ depth) :
    (Grammar.ofDepth depth).stmt.run s = nextStmt.run s := by
  rw [nextStmt_run]
  exact ((Grammar.agree_ofDepth all s.remaining depth s.remaining hd le_rfl).stmt s.remaining le_rfl
    s ⟨hs.ends, hs.suffix, le_rfl⟩).1

/-- a statement takes at least one token -/
theorem nextStmt_some (hs : s.Within all m) (h : nextStmt.run s = (some x, s')) :
    s'.Within all (m - 1) ∧ ∃ taken, taken ≠ [] ∧ s.tokens = taken ++ s'.tokens := by
  have hk : s.kind ≠ .eof := by
    intro he
    rw [nextStmt_run_stmt, stmt_of_eof he] at h
    cases h
  have hpass := (Grammar.agree_ofDepth all s.remaining s.remaining s.remaining le_rfl
    le_rfl).stmt_passes s.upcoming.length (Nat.lt_succ_self _) s ⟨hs.ends, hs.suffix, le_rfl⟩ hk
  have hw : s'.Within all s.upcoming.length := by
    have := hpass.2
    rwa [← nextStmt_run, h] at this
  have hlt : s'.remaining < s.remaining := Nat.lt_succ_of_le hw.bound
  have hbound := hs.bound
  refine ⟨hw.mono (by simp only [ParseState.remaining] at hbound; omega), ?_⟩
  have hsuf : s'.tokens <:+ s.tokens := List.suffix_of_suffix_length_le hw.suffix hs.suffix hlt.le
  obtain ⟨taken, ht⟩ := hsuf
  refine ⟨taken, ?_, ht.symm⟩
  rintro rfl
  have := congrArg List.length ht
  simp only [List.nil_append, ParseState.length_tokens] at this
  omega

/-- without a statement the end is reached -/
theorem nextStmt_none (hs : s.Within all m) (h : nextStmt.run s = (none, s')) :
    s'.kind = .eof ∧ s'.Within all m := by
  refine ⟨stmt_none (nextStmt_run_stmt s ▸ h), ?_⟩
  have hkeep := (Grammar.agree_ofDepth all s.remaining s.remaining s.remaining le_rfl
    le_rfl).stmt s.remaining le_rfl s ⟨hs.ends, hs.suffix, le_rfl⟩
  have := hkeep.2
  rw [← nextStmt_run, h] at this
  exact this.mono hs.bound

end Next

/-- statements that are read one after the other, each over tokens of its own, until none is found -/
inductive Reads : ParseState → Code → ParseState → Prop
  | done {s s' : ParseState} : nextStmt.run s = (none, s') → Reads s [] s'
  | step {s t s' : ParseState} {x : Stmt} {code : Code} {taken : List Token} :
    taken ≠ [] → s.tokens = taken ++ t.tokens → nextStmt.run s = (some x, t) → Reads t code s' →
      Reads s (x :: code) s'

namespace Reads

variable {s' t' : ParseState} {c d : Code}

theorem unique (h : Reads s c s') (h' : Reads s d t') : c = d ∧ s' = t' := by
  induction h generalizing d with
  | done hn =>
    cases h' with
    | done hn' =>
      rw [hn] at hn'
      exact ⟨rfl, (Prod.mk.inj hn').2⟩
    | step _ _ hn' _ =>
      rw [hn] at hn'
      cases hn'
  | step _ _ hn _ ih =>
    cases h' with
    | done hn' =>
      rw [hn] at hn'
      cases hn'
    | step _ _ hn' hrest =>
      rw [hn] at hn'
      obtain ⟨hx, rfl⟩ := Prod.mk.inj hn'
      obtain ⟨rfl, rfl⟩ := ih hrest
      exact ⟨by rw [Option.some.inj hx], rfl⟩

/-- the end token is the only one left, and every statement took one of the others -/
theorem ends (h : Reads s c s') (hs : s.Within all m) :
    s'.Within all m ∧ s'.upcoming = [] ∧ c.length < s.remaining := by
  induction h generalizing m with
  | done hn =>
    obtain ⟨hk, hw⟩ := nextStmt_none hs hn
    exact ⟨hw, hw.upcoming_eq_nil hk, Nat.succ_pos _⟩
  | step hne htok hn _ ih =>
    obtain ⟨hw, -⟩ := nextStmt_some hs hn
    obtain ⟨hw', hu, hlen⟩ := ih hw
    refine ⟨hw'.mono (Nat.sub_le m 1), hu, ?_⟩
    have hcount := congrArg List.length htok
    rw [List.length_append, ParseState.length_tokens, ParseState.length_tokens] at hcount
    have := List.length_pos_iff.2 hne
    rw [List.length_cons]
    omega

end Reads

theorem reads_codeFrom {depth : Nat} (m : Nat) : ∀ (rounds : Nat) (read : Code) (s : ParseState),
    s.Within all m → m ≤ rounds → m ≤ depth →
      ∃ c s', (codeFrom (Grammar.ofDepth depth).stmt rounds read).run s = (read.reverse ++ c, s') ∧
        Reads s c s' := by
  induction m with
  | zero => exact fun _ _ s hs => absurd hs s.not_within_zero
  | succ m ih =>
    intro rounds read s hs hr hd
    obtain ⟨rounds, rfl⟩ := Nat.exists_eq_add_of_le' (Nat.one_le_of_lt hr)
    have hnext := stmt_run_eq_nextStmt hs (hs.bound.trans hd)
    generalize hrun : nextStmt.run s = r at hnext
    obtain ⟨found, t⟩ := r
    cases found with
    | none =>
      have hstep : (codeFrom (Grammar.ofDepth depth).stmt (rounds + 1) read).run s =
          (read.reverse, t) := bind_run_of hnext
      exact ⟨[], t, by rw [hstep, List.append_nil], .done hrun⟩
    | some x =>
      have hstep : (codeFrom (Grammar.ofDepth depth).stmt (rounds + 1) read).run s =
          (codeFrom (Grammar.ofDepth depth).stmt rounds (x :: read)).run t := bind_run_of hnext
      obtain ⟨hw, taken, hne, htok⟩ := nextStmt_some hs hrun
      obtain ⟨c, s', hc, hreads⟩ := ih rounds (x :: read) t hw (by omega) (by omega)
      refine ⟨x :: c, s', ?_, .step hne htok hrun hreads⟩
      rw [hstep, hc]
      simp

theorem code_run (s : ParseState) :
    code.run s = (codeFrom (Grammar.ofDepth s.remaining).stmt s.remaining []).run s :=
  get_bind_run _ s

/-- from `start` on no bound on depth or on rounds is reached: larger ones read the same -/
structure Unhindered (start : ParseState) : Prop where
  code : ∀ depth rounds, start.remaining ≤ depth → start.remaining ≤ rounds →
    (codeFrom (Grammar.ofDepth depth).stmt rounds []).run start = code.run start
  stmt : ∀ s depth, s.tokens <:+ start.tokens → s.remaining ≤ depth →
    (Grammar.ofDepth depth).stmt.run s = nextStmt.run s
  expr : ∀ s depth floor, s.tokens <:+ start.tokens → s.remaining ≤ depth →
    ((Grammar.ofDepth depth).expr floor).run s = ((Grammar.ofDepth s.remaining).expr floor).run s
  ty : ∀ s depth, s.tokens <:+ start.tokens → s.remaining ≤ depth →
    (tyWithin depth).run s = ty.run s

theorem unhindered (hs : s.Within all m) : Unhindered s := by
  have hat {t : ParseState} (ht : t.tokens <:+ s.tokens) : t.Within all t.remaining :=
    ⟨hs.ends, ht.trans hs.suffix, le_rfl⟩
  constructor
  case code =>
    intro depth rounds hd hr
    have hs' := hat (t := s) List.suffix_rfl
    obtain ⟨c, t, hc, hreads⟩ := reads_codeFrom s.remaining rounds [] s hs' hr hd
    obtain ⟨c', t', hc', hreads'⟩ := reads_codeFrom s.remaining s.remaining [] s hs' le_rfl le_rfl
    obtain ⟨rfl, rfl⟩ := hreads.unique hreads'
    rw [hc, code_run, hc']
  case stmt => exact fun t depth ht hd => stmt_run_eq_nextStmt (hat ht) hd
  case expr => exact fun t depth floor ht hd =>
    ((Grammar.agree_ofDepth all t.remaining depth t.remaining hd le_rfl).expr _ le_rfl floor t
      (hat ht)).1
  case ty => exact fun t depth ht hd => (keeps_tyWithin t.remaining _ _ hd le_rfl t (hat ht)).1

end Parse

/-- Parsing what `l` reads passes the tokens in `before`, each once and in their order, and stops at
the end token `last`; no bound is reached on the way, and the problems with tokens are handed on. A cursor
that asks `l` for one token after the other has asked for all of them when it is at the end token, and so
it has been handed the same tokens and finds the same problems. -/
structure Parse.Exhausts (l : Lexer) (before : List Token) (last : Token) : Prop where
  tokens : l.tokens.filter (!·.kind.isTrivia) = before ++ [last]
  last_kind : last.kind = .eof
  before_kind : ∀ t ∈ before, t.kind ≠ .eof
  start : (ParseState.ofTokens l.tokens).tokens = before ++ [last]
  unhindered : Unhindered (.ofTokens l.tokens)
  progress : ∀ s x s', s.tokens <:+ before ++ [last] → nextStmt.run s = (some x, s') →
    ∃ taken, taken ≠ [] ∧ s.tokens = taken ++ s'.tokens
  reads : Reads (.ofTokens l.tokens) (ofLexer l).code (code.run (.ofTokens l.tokens)).2
  final : (code.run (.ofTokens l.tokens)).2.tokens = [last]
  length_code : (ofLexer l).code.length ≤ before.length
  tokenErrors : (ofLexer l).tokenErrors = l.allErrors
  onDemand : ∀ rs, .takeErrors ∉ rs → l.tokens.length ≤ rs.count .token →
    l.tokens <+: l.handed rs ∧ (l.after rs).errors = (ofLexer l).tokenErrors

theorem Parse.ofLexer_code (l : Lexer) :
    (ofLexer l).code = (code.run (.ofTokens l.tokens)).1 := rfl

section Source

variable (l : Lexer)

theorem Lexer.terminated_tokens : Terminated l.tokens := l.terminated_drain #[] (by simp)

theorem ParseState.within_ofLexer :
    (ofTokens l.tokens).Within (l.tokens.filter (!·.kind.isTrivia)) (ofTokens l.tokens).remaining := by
  have hterm := l.terminated_tokens
  exact ⟨hterm.filter, tokens_ofTokens hterm ▸ List.suffix_rfl, le_rfl⟩

/-- the program of a text is read statement by statement -/
theorem Parse.reads_ofLexer :
    Reads (.ofTokens l.tokens) (ofLexer l).code (code.run (.ofTokens l.tokens)).2 := by
  have hs := ParseState.within_ofLexer l
  obtain ⟨c, t, hc, hreads⟩ := reads_codeFrom _ _ [] _ hs le_rfl le_rfl
  rw [← code_run, List.reverse_nil, List.nil_append] at hc
  rw [ofLexer_code, hc]
  exact hreads

end Source

theorem parse_consumes_all_tokens (source : String) (marker : Char) :
    ∃ before last,
      Parse.Exhausts { Lexer.ofSource source with marker := marker } before last := by
  have hqueued := Lexer.queued_ofSource source marker
  generalize { Lexer.ofSource source with marker := marker } = l at hqueued
  have hterm := l.terminated_tokens
  have htokens := ParseState.tokens_ofTokens hterm
  have hs := ParseState.within_ofLexer l
  have hreads := Parse.reads_ofLexer l
  obtain ⟨ht, hu, hlen⟩ := hreads.ends hs
  obtain ⟨before, last, hsplit, hl, hb⟩ := hterm.filter
  rw [hsplit] at htokens hs ht
  refine ⟨before, last, ?_⟩
  constructor
  case tokens => exact hsplit
  case last_kind => exact hl
  case before_kind => exact hb
  case start => exact htokens
  case unhindered => exact Parse.unhindered hs
  case progress =>
    intro u x u' hsuf hx
    exact (Parse.nextStmt_some (hs.of_suffix (htokens ▸ hsuf)) hx).2
  case reads => exact hreads
  case final =>
    -- one token is left, and the last of the list is the end token
    obtain ⟨pre, hp⟩ := ht.suffix
    rw [ParseState.tokens, hu] at hp
    rw [ParseState.tokens, hu]
    exact (List.append_inj' hp rfl).2
  case length_code =>
    have hcount := congrArg List.length htokens
    rw [ParseState.length_tokens, List.length_append, List.length_singleton] at hcount
    omega
  case tokenErrors => rfl
  case onDemand => exact fun rs htake hcount => Lexer.handed_whole hqueued htake hcount

end AutoLang
