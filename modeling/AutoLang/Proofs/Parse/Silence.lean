import AutoLang.Proofs.Parse.Consumption
import AutoLang.Proofs.Parse.Derivation
import AutoLang.Proofs.Parse.Steps
import AutoLang.Proofs.Token.Order
import Mathlib

/-! Reading without a report. `Gives s p Q` says what holds after the parser `p` provided that it
reported nothing: a branch that reports gives anything, so what is left to follow is the tokens. The
rules follow the code of a parser from left to right, and a parser in the middle is replaced by what is
known of it. -/

namespace AutoLang

/-- tokens that end at the only end token, no two of them in the same place, every marker before what
it announces -/
structure Orderly (ts : List Token) : Prop where
  ends : Terminated ts
  apart : ts.Pairwise fun t u => t.span ≠ u.span
  marked : Marked ts

theorem Terminated.suffix {ts us : List Token} (h : Terminated (ts ++ us)) (hu : us ≠ []) :
    Terminated us := by
  obtain ⟨before, last, hsplit, hl, hb⟩ := h
  rcases List.eq_nil_or_concat us with rfl | ⟨mid, t, rfl⟩
  · exact absurd rfl hu
  · rw [List.concat_eq_append, ← List.append_assoc] at hsplit
    obtain ⟨rfl, hlast⟩ := List.append_inj' hsplit rfl
    obtain rfl := List.singleton_injective hlast
    exact ⟨mid, t, List.concat_eq_append, hl, fun u hu => hb u (List.mem_append_right ts hu)⟩

theorem Orderly.suffix {ts us : List Token} (h : Orderly (ts ++ us)) (hu : us ≠ []) :
    Orderly us :=
  ⟨h.ends.suffix hu, (List.pairwise_append.1 h.apart).2.1, h.marked.suffix⟩

namespace ParseState

variable {s t u : ParseState} {ts us : List Token} {n : Nat}

/-- at most `n` tokens are left, and they are in order -/
structure Ready (n : Nat) (s : ParseState) : Prop where
  orderly : Orderly s.tokens
  bound : s.remaining ≤ n

/-- between `s` and `t` the tokens `ts` were passed -/
structure Moved (s : ParseState) (ts : List Token) (t : ParseState) : Prop where
  tokens : s.tokens = ts ++ t.tokens
  previous : t.previous = lastSpan s.previous ts

theorem Moved.refl (s : ParseState) : s.Moved [] s := ⟨rfl, rfl⟩

theorem Moved.trans (h : s.Moved ts t) (h' : t.Moved us u) : s.Moved (ts ++ us) u := by
  constructor
  · rw [h.tokens, h'.tokens, List.append_assoc]
  · rw [h'.previous, h.previous, lastSpan_append]

/-- a token and those after it -/
theorem Moved.cons {a : Token} (h : s.Moved [a] t) (h' : t.Moved us u) : s.Moved (a :: us) u :=
  h.trans h'

theorem Ready.mono {m : Nat} (hs : s.Ready n) (h : n ≤ m) : s.Ready m :=
  ⟨hs.orderly, hs.bound.trans h⟩

theorem Ready.moved (hs : s.Ready n) (h : s.Moved ts t) : t.Ready n := by
  constructor
  · exact (h.tokens ▸ hs.orderly).suffix (List.cons_ne_nil _ _)
  · have := congrArg List.length h.tokens
    have hbound := hs.bound
    rw [List.length_append, length_tokens, length_tokens] at this
    omega

/-- passing a token leaves one less -/
theorem Ready.passed (hs : s.Ready (n + 1)) (h : s.Moved ts t) (hts : ts ≠ []) : t.Ready n := by
  refine ⟨(hs.moved h).orderly, ?_⟩
  have hlen := congrArg List.length h.tokens
  have hpos := List.length_pos_iff.2 hts
  have hbound := hs.bound
  rw [List.length_append, length_tokens, length_tokens] at hlen
  omega

theorem not_ready_zero (s : ParseState) : ¬ s.Ready 0 := by
  intro h
  have := h.bound
  simp [remaining] at this

/-- another place is another token -/
theorem Ready.span_ne (hs : s.Ready n) (h : s.Moved ts t) (hts : ts ≠ []) :
    t.current.span ≠ s.current.span := by
  obtain ⟨u, us, rfl⟩ := List.exists_cons_of_ne_nil hts
  have hcurrent : s.current = u := (List.cons.inj h.tokens).1
  have hapart := (h.tokens ▸ hs.orderly).apart
  rw [List.cons_append, List.pairwise_cons] at hapart
  rw [hcurrent]
  exact (hapart.1 t.current (by simp [tokens])).symm

theorem Ready.within (hs : s.Ready n) : s.Within s.tokens n :=
  ⟨hs.orderly.ends, List.suffix_rfl, hs.bound⟩

@[simp] theorem previous_advance (s : ParseState) : s.advance.previous = s.current.span := by
  unfold advance
  split <;> rfl

/-- a token other than the end is passed -/
theorem Ready.advance (hs : s.Ready n) (hk : s.kind ≠ .eof) : s.Moved [s.current] s.advance := by
  refine ⟨?_, previous_advance s⟩
  obtain ⟨u, us, hu⟩ := hs.within.upcoming_eq_cons hk
  simp [tokens, ParseState.advance, hu]

theorem moved_skipFrom (p : TokenKind → Bool) (us : List Token) : ∀ s : ParseState,
    ∃ ts, Moved { s with upcoming := us } ts (s.skipFrom p us) ∧ ∀ t ∈ ts, p t.kind = true := by
  induction us with
  | nil => exact fun s => ⟨[], .refl _, by simp⟩
  | cons u us ih =>
    intro s
    rw [skipFrom]
    split
    · rename_i hp
      obtain ⟨ts, hmoved, hall⟩ := ih { s with current := u, previous := s.current.span }
      refine ⟨s.current :: ts, ⟨?_, hmoved.previous⟩, List.forall_mem_cons.2 ⟨hp, hall⟩⟩
      exact congrArg (s.current :: ·) hmoved.tokens
    · exact ⟨[], .refl _, by simp⟩

theorem moved_skip (p : TokenKind → Bool) (s : ParseState) :
    ∃ ts, s.Moved ts (s.skip p) ∧ ∀ t ∈ ts, p t.kind = true :=
  moved_skipFrom p s.upcoming s

/-- skipping stops at the last token, or at one that is not to be skipped -/
theorem skipFrom_stops (p : TokenKind → Bool) (us : List Token) : ∀ s : ParseState,
    (s.skipFrom p us).upcoming = [] ∨ p (s.skipFrom p us).kind = false := by
  induction us with
  | nil => exact fun _ => .inl rfl
  | cons u us ih =>
    intro s
    rw [skipFrom]
    split
    · exact ih _
    · rename_i hp
      exact .inr (Bool.not_eq_true _ ▸ hp)

theorem Ready.skip_stops {p : TokenKind → Bool} (hs : (s.skip p).Ready n)
    (hk : (s.skip p).kind ≠ .eof) : p (s.skip p).kind = false := by
  rcases skipFrom_stops p s.upcoming s with hlast | hstop
  · obtain ⟨u, us, hu⟩ := hs.within.upcoming_eq_cons hk
    cases hlast.symm.trans hu
  · exact hstop

@[simp] theorem kind_advance (s : ParseState) : s.advance.kind = s.nextKind := by
  unfold advance nextKind
  cases s.upcoming <;> rfl

end ParseState

namespace Parser

open ParseState (Clean Moved Ready)

variable {α β : Type} {s : ParseState} {p : Parser α} {Q : β → ParseState → Prop}

/-- if reading `p` from `s` ends without problems, the result and the state after it satisfy `Q` -/
def Gives (s : ParseState) (p : Parser α) (Q : α → ParseState → Prop) : Prop :=
  (p.run s).2.Clean → Q (p.run s).1 (p.run s).2

/-- without problems `p` passes some tokens, and its result is related to them -/
abbrev Takes (s : ParseState) (p : Parser α) (R : α → List Token → Prop) : Prop :=
  Gives s p fun a t => ∃ ts, s.Moved ts t ∧ R a ts

namespace Gives

/-- what follows takes no report back, so `p` reported nothing either -/
theorem seq {f : α → Parser β} {P : α → ParseState → Prop} [hf : ∀ a, Steady (f a)]
    (hp : Gives s p P) (h : ∀ a t, P a t → Gives t (f a) Q) : Gives s (p >>= f) Q :=
  fun hclean => h _ _ (hp (((hf _).steps _).clean hclean)) hclean

/-- `seq` for a continuation that asks whether something was found -/
theorem seqOption {γ : Type} {r : Parser (Option γ)} {f : Option γ → Parser β}
    {P : Option γ → ParseState → Prop} [hnone : Steady (f none)] [hsome : ∀ c, Steady (f (some c))]
    (hr : Gives s r P) (h : ∀ found t, P found t → Gives t (f found) Q) : Gives s (r >>= f) Q := by
  have hf : ∀ found, Steady (f found) := by
    rintro (_ | c)
    · exact hnone
    · exact hsome c
  exact hr.seq h

theorem seqMap {γ : Type} {i : α → γ} {f : γ → Parser β} {P : α → ParseState → Prop}
    [∀ c, Steady (f c)] (hp : Gives s p P) (h : ∀ a t, P a t → Gives t (f (i a)) Q) :
    Gives s ((i <$> p) >>= f) Q :=
  seq (f := fun a => f (i a)) hp h

theorem mono {P : β → ParseState → Prop} {q : Parser β} (h : Gives s q P)
    (hPQ : ∀ b t, P b t → Q b t) : Gives s q Q :=
  fun hclean => hPQ _ _ (h hclean)

theorem pure {b : β} (h : Q b s) : Gives s (pure b) Q := fun _ => h

theorem given {a : α} {f : α → Parser β} (h : Gives s (f a) Q) : Gives s (Pure.pure a >>= f) Q := h

theorem map {f : α → β} (h : Gives s p fun a t => Q (f a) t) : Gives s (f <$> p) Q := h

/-- a parser that reports gives anything -/
theorem report {d : Diagnostic} {f : PUnit → Parser β} [hf : ∀ a, Steady (f a)] :
    Gives s (report d >>= f) Q :=
  fun hclean => absurd (((hf _).steps _).clean hclean) (ParseState.not_clean_report s d)

theorem reportHere {describe : ParseState → Diagnostic} {f : PUnit → Parser β}
    [hf : ∀ a, Steady (f a)] : Gives s (reportHere describe >>= f) Q :=
  fun hclean => absurd (((hf _).steps _).clean hclean) (ParseState.not_clean_report s _)

theorem get {f : ParseState → Parser β} (h : Gives s (f s) Q) : Gives s (get >>= f) Q := h

theorem set {t : ParseState} {f : PUnit → Parser β} (h : Gives t (f ⟨⟩) Q) :
    Gives s (set t >>= f) Q := h

theorem kind {f : TokenKind → Parser β} (h : Gives s (f s.kind) Q) : Gives s (kind >>= f) Q := h

theorem currentSpan {f : Span → Parser β} (h : Gives s (f s.current.span) Q) :
    Gives s (currentSpan >>= f) Q := h

theorem previousSpan {f : Span → Parser β} (h : Gives s (f s.previous) Q) :
    Gives s (previousSpan >>= f) Q := h

theorem advance {f : Token → Parser β} (h : Gives s.advance (f s.current) Q) :
    Gives s (advance >>= f) Q := h

/-- two ways to the same continuation -/
theorem branch {c : Prop} [Decidable c] {q : Parser α} {f : α → Parser β}
    {P : α → ParseState → Prop} [∀ a, Steady (f a)] (yes : c → Gives s p P)
    (no : ¬ c → Gives s q P) (h : ∀ a t, P a t → Gives t (f a) Q) :
    Gives s (if c then p >>= f else q >>= f) Q := by
  split
  · rename_i hc
    exact (yes hc).seq h
  · rename_i hc
    exact (no hc).seq h

theorem test {k : TokenKind} {f : Bool → Parser β} (h : Gives s (f (s.kind == k)) Q) :
    Gives s (Parser.check k >>= f) Q := h

theorem check {k : TokenKind} {f : Bool → Parser β} (yes : s.kind = k → Gives s (f true) Q)
    (no : s.kind ≠ k → Gives s (f false) Q) : Gives s (check k >>= f) Q := by
  change Gives s (f (s.kind == k)) Q
  by_cases hk : s.kind = k
  · rw [show (s.kind == k) = true from beq_iff_eq.2 hk]
    exact yes hk
  · rw [show (s.kind == k) = false from beq_eq_false_iff_ne.2 hk]
    exact no hk

/-- a parser that ends with a token that may be missing -/
theorem eatLast {k : TokenKind} {R : Bool → ParseState → Prop} (yes : s.kind = k → R true s.advance)
    (no : s.kind ≠ k → R false s) : Gives s (eat k) R := by
  unfold Gives
  by_cases hk : s.kind = k
  · rw [eat_run_of_eq hk]
    exact fun _ => yes hk
  · rw [eat_run_of_ne hk]
    exact fun _ => no hk

theorem eat {k : TokenKind} {f : Bool → Parser β} (yes : s.kind = k → Gives s.advance (f true) Q)
    (no : s.kind ≠ k → Gives s (f false) Q) : Gives s (eat k >>= f) Q := by
  unfold Gives
  by_cases hk : s.kind = k
  · rw [bind_run_of (eat_run_of_eq hk)]
    exact yes hk
  · rw [bind_run_of (eat_run_of_ne hk)]
    exact no hk

/-- a token that must be there is there -/
theorem expect {k : TokenKind} {f : Bool → Parser β} [∀ a, Steady (f a)]
    (yes : s.kind = k → Gives s.advance (f true) Q) : Gives s (expect k >>= f) Q := by
  rw [Parser.expect, bind_assoc]
  refine eat yes fun _ => ?_
  rw [if_neg Bool.false_ne_true, bind_assoc]
  exact reportHere

theorem skipNewlines {f : Unit → Parser β}
    (h : ∀ ns, Newlines ns → s.Moved ns (s.skip (· == .newline)) →
      Gives (s.skip (· == .newline)) (f ()) Q) : Gives s (skipNewlines >>= f) Q := by
  obtain ⟨ns, hmoved, hall⟩ := ParseState.moved_skip (· == .newline) s
  exact h ns (fun t ht => beq_iff_eq.1 (hall t ht)) hmoved

theorem skipSeparators {f : Unit → Parser β}
    (h : ∀ ns, Separators ns → s.Moved ns (s.skip fun k => k == .newline || k == .semicolon) →
      Gives (s.skip fun k => k == .newline || k == .semicolon) (f ()) Q) :
    Gives s (skipSeparators >>= f) Q := by
  obtain ⟨ns, hmoved, hall⟩ :=
    ParseState.moved_skip (fun k => k == .newline || k == .semicolon) s
  refine h ns (fun t ht => ?_) hmoved
  simpa using hall t ht

end Gives

end Parser

end AutoLang
