import AutoLang.Parse.State
import Mathlib

/-! Where a parser stands in its tokens. The tokens still ahead of a state are the end of a token list
that is closed by its only end token, so a state is placed by how many are left. `Keeps` and `Passes`
compare two parsers: from the same place they give the same result, and they leave as many tokens as
before, or one less. Comparing a production over two grammars with them shows that neither bound of
the grammar was reached. -/

namespace AutoLang

/-- the last token, and no other, is the end token -/
def Terminated (all : List Token) : Prop :=
  ∃ before last, all = before ++ [last] ∧ last.kind = .eof ∧ ∀ t ∈ before, t.kind ≠ .eof

namespace ParseState

variable {all : List Token} {m k : Nat} {s s' : ParseState}

/-- the tokens ahead, the current one included -/
def tokens (s : ParseState) : List Token := s.current :: s.upcoming

/-- the tokens ahead end the list `all` and are at most `m` -/
structure Within (all : List Token) (m : Nat) (s : ParseState) : Prop where
  ends : Terminated all
  suffix : s.tokens <:+ all
  bound : s.remaining ≤ m

theorem length_tokens (s : ParseState) : s.tokens.length = s.remaining := rfl

theorem Within.mono (h : s.Within all m) (hk : m ≤ k) : s.Within all k :=
  ⟨h.ends, h.suffix, h.bound.trans hk⟩

theorem not_within_zero (s : ParseState) : ¬ s.Within all 0 := by
  intro h
  have := h.bound
  simp [remaining] at this

theorem Within.upcoming_eq_nil (h : s.Within all m) (hk : s.kind = .eof) : s.upcoming = [] := by
  obtain ⟨before, last, rfl, -, hb⟩ := h.ends
  obtain ⟨pre, hp⟩ := h.suffix
  rcases List.eq_nil_or_concat s.upcoming with hu | ⟨mid, t, hu⟩
  · exact hu
  · have hsplit : (pre ++ s.current :: mid) ++ [t] = before ++ [last] := by
      rw [← hp, tokens, hu]
      simp
    have hbefore := (List.append_inj' hsplit rfl).1
    exact absurd hk (hb s.current (by simp [← hbefore]))

theorem Within.upcoming_eq_cons (h : s.Within all m) (hk : s.kind ≠ .eof) :
    ∃ t ts, s.upcoming = t :: ts := by
  obtain ⟨before, last, rfl, hl, -⟩ := h.ends
  obtain ⟨pre, hp⟩ := h.suffix
  cases hu : s.upcoming with
  | cons t ts => exact ⟨t, ts, rfl⟩
  | nil =>
    rw [tokens, hu] at hp
    have hlast := (List.append_inj' hp rfl).2
    simp only [List.cons.injEq, and_true] at hlast
    exact absurd (by rw [kind, hlast, hl]) hk

/-- a state whose tokens are the last of those of another -/
theorem Within.of_suffix (h : s.Within all m) (hs : s'.tokens <:+ s.tokens) : s'.Within all m := by
  refine ⟨h.ends, hs.trans h.suffix, ?_⟩
  have := hs.length_le
  rw [length_tokens, length_tokens] at this
  exact this.trans h.bound

theorem tokens_advance (s : ParseState) : s.advance.tokens <:+ s.tokens := by
  unfold advance
  split
  · exact List.suffix_rfl
  · rename_i t ts hu
    rw [tokens, tokens, hu]
    exact List.suffix_cons _ _

theorem tokens_skipFrom (p : TokenKind → Bool) (ts : List Token) :
    ∀ s : ParseState, (s.skipFrom p ts).tokens <:+ s.current :: ts := by
  induction ts with
  | nil => intro s; exact List.suffix_rfl
  | cons t ts ih =>
    intro s
    rw [skipFrom]
    split
    · exact (ih _).trans (List.suffix_cons _ _)
    · exact List.suffix_rfl

theorem tokens_skip (p : TokenKind → Bool) (s : ParseState) : (s.skip p).tokens <:+ s.tokens :=
  tokens_skipFrom p s.upcoming s

/-- a token that is not to be skipped stops the cursor -/
theorem skip_of_not {p : TokenKind → Bool} (h : p s.kind = false) : s.skip p = s := by
  unfold skip
  cases hu : s.upcoming with
  | nil => simp [skipFrom, ← hu]
  | cons t ts => simp [skipFrom, h, ← hu]

theorem Within.advance (h : s.Within all m) : s.advance.Within all m :=
  h.of_suffix (tokens_advance s)

theorem Within.skip (h : s.Within all m) (p : TokenKind → Bool) : (s.skip p).Within all m :=
  h.of_suffix (tokens_skip p s)

theorem Within.report (h : s.Within all m) (d : Diagnostic) : (s.report d).Within all m :=
  h.of_suffix List.suffix_rfl

/-- passing a token other than the end leaves one less -/
theorem Within.pass (h : s.Within all (m + 1)) (hk : s.kind ≠ .eof) : s.advance.Within all m := by
  refine ⟨h.ends, h.advance.suffix, ?_⟩
  obtain ⟨t, ts, hu⟩ := h.upcoming_eq_cons hk
  have := h.bound
  simp only [remaining, ParseState.advance, hu, List.length_cons] at this ⊢
  omega

/-- a token that is skipped leaves one less -/
theorem Within.skip_pass {p : TokenKind → Bool} (h : s.Within all (m + 1)) (hk : s.kind ≠ .eof)
    (hp : p s.kind = true) : (s.skip p).Within all m := by
  obtain ⟨t, ts, hu⟩ := h.upcoming_eq_cons hk
  refine (h.pass hk).of_suffix ?_
  rw [ParseState.skip, hu, skipFrom, if_pos hp, ParseState.advance, hu]
  exact tokens_skipFrom p ts _

/-- two places of one list with as many tokens left are the same place -/
theorem Within.tokens_eq (h : s.Within all m) (h' : s'.Within all k)
    (hr : s.remaining = s'.remaining) : s.tokens = s'.tokens := by
  have hs := List.suffix_iff_eq_drop.mp h.suffix
  have hs' := List.suffix_iff_eq_drop.mp h'.suffix
  rw [length_tokens] at hs hs'
  rw [hs, hs', hr]

end ParseState

namespace Parser

open ParseState (Within)

variable {α β : Type} {all : List Token} {m k : Nat} {s : ParseState}
  {p q : Parser α} {f f' : α → Parser β}

/-- from `s` two parsers give the same and leave at most `m` tokens -/
def Meets (all : List Token) (m : Nat) (s : ParseState) (p q : Parser α) : Prop :=
  p.run s = q.run s ∧ (p.run s).2.Within all m

/-- wherever at most `m` tokens are left -/
def Keeps (all : List Token) (m : Nat) (p q : Parser α) : Prop :=
  ∀ s : ParseState, s.Within all m → Meets all m s p q

/-- wherever at most one token more is left, and it is not the end -/
def Passes (all : List Token) (m : Nat) (p q : Parser α) : Prop :=
  ∀ s : ParseState, s.Within all (m + 1) → s.kind ≠ .eof → Meets all m s p q

theorem Meets.mono (h : Meets all m s p q) (hk : m ≤ k) : Meets all k s p q :=
  ⟨h.1, h.2.mono hk⟩

theorem Meets.seq (heq : p.run s = q.run s)
    (hf : Meets all m (p.run s).2 (f (p.run s).1) (f' (p.run s).1)) :
    Meets all m s (p >>= f) (q >>= f') := by
  refine ⟨?_, hf.2⟩
  change (f (p.run s).1).run (p.run s).2 = (f' (q.run s).1).run (q.run s).2
  rw [← heq]
  exact hf.1

theorem Meets.bind (hp : Meets all k s p q)
    (hf : ∀ a s', s'.Within all k → Meets all m s' (f a) (f' a)) :
    Meets all m s (p >>= f) (q >>= f') :=
  Meets.seq hp.1 (hf _ _ hp.2)

theorem Keeps.bind (hp : Keeps all m p q) (hf : ∀ a, Keeps all m (f a) (f' a)) :
    Keeps all m (p >>= f) (q >>= f') :=
  fun s hs => (hp s hs).bind hf

theorem Passes.bind (hp : Passes all m p q) (hf : ∀ a, Keeps all m (f a) (f' a)) :
    Passes all m (p >>= f) (q >>= f') :=
  fun s hs hk => (hp s hs hk).bind hf

theorem Meets.of_passes (hp : ∀ k < m, Passes all k p q) (hs : s.Within all m)
    (hk : s.kind ≠ .eof) : Meets all m s p q := by
  cases m with
  | zero => exact absurd hs s.not_within_zero
  | succ m => exact (hp m (Nat.lt_succ_self m) s hs hk).mono (Nat.le_succ m)

theorem Keeps.ite {c : Prop} [Decidable c] {p' q' : Parser α} (hp : Keeps all m p q)
    (hq : Keeps all m p' q') : Keeps all m (if c then p else p') (if c then q else q') := by
  split
  · exact hp
  · exact hq

/-- two ways to the same continuation -/
theorem Keeps.branch {c : Prop} [Decidable c] {p' q' : Parser α} (hp : Keeps all m p q)
    (hq : Keeps all m p' q') (hf : ∀ a, Keeps all m (f a) (f' a)) :
    Keeps all m (if c then p >>= f else p' >>= f) (if c then q >>= f' else q' >>= f') :=
  Keeps.ite (hp.bind hf) (hq.bind hf)

theorem keeps_pure (a : α) : Keeps all m (pure a) (pure a) := fun _ hs => ⟨rfl, hs⟩

theorem Keeps.map {g : α → β} (hp : Keeps all m p q) : Keeps all m (g <$> p) (g <$> q) :=
  hp.bind fun a => keeps_pure (g a)

theorem Passes.map {g : α → β} (hp : Passes all m p q) : Passes all m (g <$> p) (g <$> q) :=
  hp.bind fun a => keeps_pure (g a)

theorem bind_run (p : Parser α) (f : α → Parser β) (s : ParseState) :
    (p >>= f).run s = (f (p.run s).1).run (p.run s).2 := rfl

theorem bind_run_of {a : α} {t : ParseState} (h : p.run s = (a, t)) : (p >>= f).run s = (f a).run t := by
  rw [bind_run, h]

theorem advance_run (s : ParseState) : advance.run s = (s.current, s.advance) := rfl

theorem skipNewlines_run (h : s.kind ≠ .newline) : skipNewlines.run s = ((), s) := by
  change ((), s.skip (· == .newline)) = _
  rw [ParseState.skip_of_not (by simpa using h)]

theorem get_bind_run (f : ParseState → Parser β) (s : ParseState) :
    (get >>= f).run s = (f s).run s := rfl

theorem kind_bind_run (f : TokenKind → Parser β) (s : ParseState) :
    (kind >>= f).run s = (f s.kind).run s := rfl

theorem keeps_advance : Keeps all m advance advance := fun _ hs => ⟨rfl, hs.advance⟩

theorem passes_advance : Passes all m advance advance := fun _ hs hk => ⟨rfl, hs.pass hk⟩

theorem keeps_report (d : Diagnostic) : Keeps all m (report d) (report d) :=
  fun _ hs => ⟨rfl, hs.report d⟩

theorem keeps_reportHere (describe : ParseState → Diagnostic) :
    Keeps all m (reportHere describe) (reportHere describe) :=
  fun s hs => ⟨rfl, hs.report (describe s)⟩

theorem keeps_kind : Keeps all m kind kind := fun _ hs => ⟨rfl, hs⟩

theorem keeps_currentSpan : Keeps all m currentSpan currentSpan := fun _ hs => ⟨rfl, hs⟩

theorem keeps_previousSpan : Keeps all m previousSpan previousSpan := fun _ hs => ⟨rfl, hs⟩

theorem keeps_check (k : TokenKind) : Keeps all m (check k) (check k) := fun _ hs => ⟨rfl, hs⟩

theorem eat_run (k : TokenKind) (s : ParseState) :
    (eat k).run s = if s.kind == k then (true, s.advance) else (false, s) := by
  change ((if s.kind == k then (do set s.advance; return true) else return false) :
    Parser Bool).run s = _
  split <;> rfl

theorem eat_run_of_eq {k : TokenKind} (h : s.kind = k) : (eat k).run s = (true, s.advance) := by
  rw [eat_run, if_pos (by simpa using h)]

theorem eat_run_of_ne {k : TokenKind} (h : s.kind ≠ k) : (eat k).run s = (false, s) := by
  rw [eat_run, if_neg (by simpa using h)]

theorem keeps_eat (k : TokenKind) : Keeps all m (eat k) (eat k) := by
  intro s hs
  refine ⟨rfl, ?_⟩
  rw [eat_run]
  split
  · exact hs.advance
  · exact hs

/-- reading on from the token after the newlines -/
theorem Meets.skipNewlines {f f' : Unit → Parser β}
    (h : Meets all m (s.skip (· == .newline)) (f ()) (f' ())) :
    Meets all m s (skipNewlines >>= f) (skipNewlines >>= f') := h

theorem Meets.skipSeparators {f f' : Unit → Parser β}
    (h : Meets all m (s.skip fun k => k == .newline || k == .semicolon) (f ()) (f' ())) :
    Meets all m s (skipSeparators >>= f) (skipSeparators >>= f') := h

/-- reading on by what the state is -/
theorem Meets.get {f f' : ParseState → Parser β} (h : Meets all m s (f s) (f' s)) :
    Meets all m s (get >>= f) (get >>= f') := h

theorem Meets.set {t : ParseState} {f f' : PUnit → Parser β} (h : Meets all m t (f ⟨⟩) (f' ⟨⟩)) :
    Meets all m s (set t >>= f) (set t >>= f') := h

theorem Meets.report {d : Diagnostic} {f f' : PUnit → Parser β}
    (h : Meets all m (s.report d) (f ⟨⟩) (f' ⟨⟩)) :
    Meets all m s (report d >>= f) (report d >>= f') := h

theorem Meets.kind {f f' : TokenKind → Parser β} (h : Meets all m s (f s.kind) (f' s.kind)) :
    Meets all m s (kind >>= f) (kind >>= f') := h

theorem Meets.currentSpan {f f' : Span → Parser β}
    (h : Meets all m s (f s.current.span) (f' s.current.span)) :
    Meets all m s (currentSpan >>= f) (currentSpan >>= f') := h

theorem Meets.check {k : TokenKind} {f f' : Bool → Parser β}
    (yes : s.kind = k → Meets all m s (f true) (f' true))
    (no : s.kind ≠ k → Meets all m s (f false) (f' false)) :
    Meets all m s (check k >>= f) (check k >>= f') := by
  change Meets all m s (f (s.kind == k)) (f' (s.kind == k))
  by_cases hk : s.kind = k
  · rw [show (s.kind == k) = true from by simpa using hk]
    exact yes hk
  · rw [show (s.kind == k) = false from by simpa using hk]
    exact no hk

/-- reading on after a token that may be missing -/
theorem Meets.eat {k : TokenKind} {f f' : Bool → Parser β}
    (yes : s.kind = k → Meets all m s.advance (f true) (f' true))
    (no : s.kind ≠ k → Meets all m s (f false) (f' false)) :
    Meets all m s (eat k >>= f) (eat k >>= f') := by
  unfold Meets
  by_cases hk : s.kind = k
  · rw [bind_run_of (eat_run_of_eq hk), bind_run_of (eat_run_of_eq hk)]
    exact yes hk
  · rw [bind_run_of (eat_run_of_ne hk), bind_run_of (eat_run_of_ne hk)]
    exact no hk

theorem keeps_expect (k : TokenKind) : Keeps all m (expect k) (expect k) := by
  refine (keeps_eat k).bind fun eaten => ?_
  exact Keeps.ite (keeps_pure true) ((keeps_reportHere _).bind fun _ => keeps_pure false)

/-- a token that is there is passed -/
theorem Meets.expect {k : TokenKind} (hs : s.Within all (m + 1)) (hk : s.kind = k) (he : k ≠ .eof) :
    Meets all m s (expect k) (expect k) :=
  Meets.eat (fun _ => ⟨rfl, hs.pass (hk ▸ he)⟩) fun hno => absurd hk hno

theorem keeps_skipNewlines : Keeps all m skipNewlines skipNewlines :=
  fun _ hs => ⟨rfl, hs.skip _⟩

theorem keeps_skipSeparators : Keeps all m skipSeparators skipSeparators :=
  fun _ hs => ⟨rfl, hs.skip _⟩

/-- report `d` if a token is missing, and go on -/
theorem Keeps.reportUnless {c : Prop} [Decidable c] {describe : ParseState → Diagnostic}
    {next next' : Unit → Parser β} (h : Keeps all m (next ()) (next' ())) :
    Keeps all m (if c then reportHere describe >>= next else next ())
      (if c then reportHere describe >>= next' else next' ()) :=
  Keeps.ite ((keeps_reportHere describe).bind fun _ => h) h

end Parser

end AutoLang
