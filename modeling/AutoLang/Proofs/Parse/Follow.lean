import AutoLang.Proofs.Parse.Soundness
import AutoLang.Proofs.Token.Joined
import Mathlib

/-! Two runs side by side. One reads a text, the other the same text further down in a longer one, with
something else behind it. As long as the first run reports nothing the second does what it does: the
tokens that both are at have the same kind and text, and the places differ by a shift. Where the first
text ends the second run stands at the seam, and what decides there is that neither the end token nor a
newline continues a phrase. -/

namespace AutoLang

/-- what may come where the first text ends: the end, or a newline with no `else` behind it -/
inductive Seam : List Token → Prop
  | last {e : Token} : e.kind = .eof → Seam [e]
  | newline {e : Token} {ts : List Token} : e.kind = .newline →
    (∀ u ∈ ts.head?, u.kind ≠ .elseKw) → Seam (e :: ts)

/-- before a newline all `d` format strings and those that begin in the tokens end there too; before
the end token they may stay open -/
def ClosesFormats (rest : List Token) (d : Nat) (ts : List Token) : Prop :=
  (∃ u ∈ rest.head?, u.kind = .newline) →
    countKind .formatOpen ts + d ≤ countKind .formatClose ts

theorem Seam.ne_nil {ts : List Token} (h : Seam ts) : ts ≠ [] := by
  cases h <;> exact List.cons_ne_nil _ _

/-- the kinds that stand neither at the seam nor at the border of a format string -/
def TokenKind.isInner : TokenKind → Bool
  | eof | newline | formatOpen | formatClose => false
  | _ => true

theorem TokenKind.isInner_of_isCloser {k : TokenKind} (h : k.isCloser = true) : k.isInner = true := by
  cases k <;> first | rfl | cases h

theorem TokenKind.ne_eof_of_separator {k : TokenKind} (h : k = .newline ∨ k = .semicolon) :
    k ≠ .eof := by
  rcases h with rfl | rfl <;> decide

theorem countKind_cons_of_eq {k : TokenKind} {t : Token} {ts : List Token} (h : t.kind = k) :
    countKind k (t :: ts) = countKind k ts + 1 :=
  List.countP_cons_of_pos (beq_iff_eq.2 h)

theorem countKind_cons_of_ne {k : TokenKind} {t : Token} {ts : List Token} (h : t.kind ≠ k) :
    countKind k (t :: ts) = countKind k ts :=
  List.countP_cons_of_neg (by simpa using h)

namespace ParseState

variable {σ : Shift} {rest : List Token} {n m d : Nat} {s t : ParseState}

theorem Within.upcoming_ne_nil {all : List Token} (h : s.Within all n) (hk : s.kind ≠ .eof) :
    s.upcoming ≠ [] := by
  obtain ⟨u, us, hu⟩ := h.upcoming_eq_cons hk
  rw [hu]
  exact List.cons_ne_nil u us

theorem advance_tokens (hu : s.upcoming ≠ []) : s.advance.tokens = s.upcoming := by
  obtain ⟨u, us, hu⟩ := List.exists_cons_of_ne_nil hu
  rw [advance, hu]
  rfl

theorem skipFrom_upcoming (p : TokenKind → Bool) (ts us : List Token) :
    ∀ s : ParseState, skipFrom p { s with upcoming := us } ts = skipFrom p s ts := by
  induction ts with
  | nil => exact fun s => rfl
  | cons u ts ih =>
    intro s
    rw [skipFrom, skipFrom]
    by_cases hp : p s.kind = true
    · exact (if_pos hp).trans (.trans (ih { s with current := u, previous := s.current.span })
        (if_pos hp).symm)
    · exact (if_neg hp).trans (if_neg hp).symm

/-- at the end no token is passed -/
theorem Moved.eq_nil {ts : List Token} (h : s.Moved ts t) (hs : s.Ready n) (hk : s.kind = .eof) :
    ts = [] := by
  have htokens := h.tokens
  rw [ParseState.tokens, hs.within.upcoming_eq_nil hk] at htokens
  cases ts with
  | nil => rfl
  | cons u us => exact absurd (List.cons.inj htokens).2.symm (by simp [ParseState.tokens])

/-- skipping goes token by token -/
theorem skip_advance {p : TokenKind → Bool} (hp : p s.kind = true) (hu : s.upcoming ≠ []) :
    s.skip p = s.advance.skip p := by
  obtain ⟨u, us, hu⟩ := List.exists_cons_of_ne_nil hu
  rw [skip, skip, advance, hu, skipFrom, if_pos hp]
  exact (skipFrom_upcoming p us us { s with current := u, previous := s.current.span }).symm

/-- `t` is as far in the longer text as `s` is in its own, inside of `d` format strings -/
structure Beside (σ : Shift) (rest : List Token) (n d : Nat) (s t : ParseState) : Prop where
  ready : s.Ready n
  clean : t.Clean
  seam : Seam rest
  tokens : t.tokens = s.tokens.dropLast.map (Token.shift σ) ++ rest
  apart : t.tokens.Pairwise fun a b => a.span ≠ b.span
  formats : ClosesFormats rest d s.tokens

/-- and the last tokens that were passed correspond too -/
structure Tied (σ : Shift) (rest : List Token) (n d : Nat) (s t : ParseState) : Prop
    extends Beside σ rest n d s t where
  previous : t.previous = s.previous.shift σ

namespace Beside

theorem mono (h : Beside σ rest n d s t) (hm : n ≤ m) : Beside σ rest m d s t :=
  { h with ready := h.ready.mono hm }

/-- at the same token -/
theorem current (h : Beside σ rest n d s t) (hk : s.kind ≠ .eof) :
    t.current = s.current.shift σ ∧
      t.upcoming = s.upcoming.dropLast.map (Token.shift σ) ++ rest := by
  obtain ⟨u, us, hu⟩ := h.ready.within.upcoming_eq_cons hk
  have htokens := h.tokens
  rw [ParseState.tokens, ParseState.tokens, hu, List.dropLast_cons_cons, List.map_cons,
    List.cons_append] at htokens
  rw [hu]
  exact List.cons.inj htokens

theorem kind_eq (h : Beside σ rest n d s t) (hk : s.kind ≠ .eof) : t.kind = s.kind := by
  rw [kind, (h.current hk).1]
  rfl

/-- there are no fewer tokens left in the longer text -/
theorem remaining_le (h : Beside σ rest n d s t) : s.remaining ≤ t.remaining := by
  have hlength := congrArg List.length h.tokens
  have hrest := List.length_pos_iff.2 h.seam.ne_nil
  rw [List.length_append, List.length_map, List.length_dropLast, length_tokens, length_tokens]
    at hlength
  omega

/-- at the seam -/
theorem tokens_of_eof (h : Beside σ rest n d s t) (hk : s.kind = .eof) : t.tokens = rest := by
  rw [h.tokens, ParseState.tokens, h.ready.within.upcoming_eq_nil hk]
  rfl

theorem kind_of_eof (h : Beside σ rest n d s t) (hk : s.kind = .eof) :
    t.kind = .eof ∨ t.kind = .newline := by
  have htokens := h.tokens_of_eof hk
  cases h.seam with
  | last he => exact .inl ((congrArg Token.kind (List.cons.inj htokens).1).trans he)
  | newline hn _ => exact .inr ((congrArg Token.kind (List.cons.inj htokens).1).trans hn)

/-- either at the same token, or both where no phrase goes on -/
theorem kind_cases (h : Beside σ rest n d s t) :
    t.kind = s.kind ∨ s.kind = .eof ∧ t.kind = .newline := by
  by_cases hk : s.kind = .eof
  · rcases h.kind_of_eof hk with ht | ht
    · exact .inl (ht.trans hk.symm)
    · exact .inr ⟨hk, ht⟩
  · exact .inl (h.kind_eq hk)

theorem kind_iff {k : TokenKind} (h : Beside σ rest n d s t) (hk : k.isInner = true) :
    t.kind = k ↔ s.kind = k := by
  rcases h.kind_cases with heq | ⟨hs, ht⟩
  · rw [heq]
  · rw [hs, ht]
    constructor <;> (rintro rfl; cases hk)

theorem upcoming_ne_nil (h : Beside σ rest n d s t) (hk : s.kind ≠ .eof) : t.upcoming ≠ [] := by
  rw [(h.current hk).2]
  exact List.append_ne_nil_of_right_ne_nil _ h.seam.ne_nil

/-- both pass the same token -/
theorem passed {e : Nat} (h : Beside σ rest (n + 1) d s t) (hk : s.kind ≠ .eof)
    (hf : ClosesFormats rest e s.upcoming) :
    Tied σ rest n e s.advance t.advance := by
  obtain ⟨hcurrent, hupcoming⟩ := h.current hk
  have hs := h.ready.within.upcoming_ne_nil hk
  have ht := h.upcoming_ne_nil hk
  constructor
  · constructor
    case ready => exact h.ready.passed (h.ready.advance hk) (List.cons_ne_nil _ _)
    case clean => exact (problems_advance t).trans h.clean
    case seam => exact h.seam
    case tokens => rw [advance_tokens ht, advance_tokens hs, hupcoming]
    case apart =>
      rw [advance_tokens ht]
      exact (List.pairwise_cons.1 h.apart).2
    case formats => rwa [advance_tokens hs]
  · rw [previous_advance, previous_advance, hcurrent]
    rfl

theorem pass (h : Beside σ rest (n + 1) d s t) (hk : s.kind.isInner = true ∨ s.kind = .newline) :
    Tied σ rest n d s.advance t.advance := by
  have hother (k : TokenKind) (hkk : k.isInner = false) (hn : k ≠ .newline) : s.kind ≠ k := by
    rintro rfl
    rcases hk with hk | hk
    · rw [hk] at hkk
      cases hkk
    · exact hn hk
  refine h.passed (hother .eof rfl (by decide)) fun hn => ?_
  have hformats := h.formats hn
  rwa [ParseState.tokens, countKind_cons_of_ne (hother .formatOpen rfl (by decide)),
    countKind_cons_of_ne (hother .formatClose rfl (by decide))] at hformats

/-- a format string begins -/
theorem openFormat (h : Beside σ rest (n + 1) d s t) (hk : s.kind = .formatOpen) :
    Tied σ rest n (d + 1) s.advance t.advance := by
  refine h.passed (by rw [hk]; decide) fun hn => ?_
  have hformats := h.formats hn
  have hclose : s.current.kind ≠ .formatClose := by
    rw [show s.current.kind = _ from hk]
    decide
  rw [ParseState.tokens, countKind_cons_of_eq hk, countKind_cons_of_ne hclose] at hformats
  omega

/-- the innermost format string ends -/
theorem closeFormat (h : Beside σ rest (n + 1) (d + 1) s t) (hk : s.kind = .formatClose) :
    Tied σ rest n d s.advance t.advance := by
  refine h.passed (by rw [hk]; decide) fun hn => ?_
  have hformats := h.formats hn
  have hopen : s.current.kind ≠ .formatOpen := by
    rw [show s.current.kind = _ from hk]
    decide
  rw [ParseState.tokens, countKind_cons_of_eq hk, countKind_cons_of_ne hopen] at hformats
  omega

/-- inside of a format string the text ends only where the longer one does -/
theorem kind_of_eof_inside (h : Beside σ rest n (d + 1) s t) (hk : s.kind = .eof) :
    t.kind = .eof := by
  have htokens := h.tokens_of_eof hk
  cases h.seam with
  | last he => exact (congrArg Token.kind (List.cons.inj htokens).1).trans he
  | newline hn _ =>
    have hformats := h.formats ⟨_, rfl, hn⟩
    have hclose : s.current.kind ≠ .formatClose := by
      rw [show s.current.kind = _ from hk]
      decide
    rw [ParseState.tokens, h.ready.within.upcoming_eq_nil hk, countKind_cons_of_ne hclose]
      at hformats
    exact absurd hformats (Nat.not_succ_le_zero _)

/-- both skip the same tokens, unless the first skips up to the end -/
theorem skip {p : TokenKind → Bool} (hp : ∀ k, p k = true → k = .newline ∨ k = .semicolon)
    (h : Beside σ rest n d s t) (hend : (s.skip p).kind ≠ .eof) :
    Beside σ rest n d (s.skip p) (t.skip p) ∧
      (t.previous = s.previous.shift σ → (t.skip p).previous = (s.skip p).previous.shift σ) := by
  have stay {s t : ParseState} (h : Beside σ rest n d s t) (hk : s.kind ≠ .eof)
      (hno : p s.kind = false) : s.skip p = s ∧ t.skip p = t :=
    ⟨skip_of_not hno, skip_of_not (by rw [h.kind_eq hk, hno])⟩
  induction hu : s.upcoming generalizing s t with
  | nil =>
    rw [show s.skip p = s by rw [ParseState.skip, hu, skipFrom, ← hu]] at hend
    exact absurd hu (h.ready.within.upcoming_ne_nil hend)
  | cons u us ih =>
    have hs : s.upcoming ≠ [] := by
      rw [hu]
      exact List.cons_ne_nil u us
    cases hps : p s.kind with
    | true =>
      have hkind : s.kind.isInner = true ∨ s.kind = .newline := by
        rcases hp _ hps with hk | hk
        · exact .inr hk
        · exact .inl (by rw [hk]; rfl)
      have hk := TokenKind.ne_eof_of_separator (hp _ hps)
      have hnext := (h.mono (Nat.le_succ n)).pass hkind
      rw [skip_advance hps hs] at hend ⊢
      rw [skip_advance (by rw [h.kind_eq hk, hps]) (h.upcoming_ne_nil hk)]
      obtain ⟨hbeside, hprevious⟩ := ih hnext.toBeside hend (by rw [ParseState.advance, hu])
      exact ⟨hbeside, fun _ => hprevious hnext.previous⟩
    | false =>
      have hk : s.kind ≠ .eof := by rwa [skip_of_not hps] at hend
      obtain ⟨hstay, hstay'⟩ := stay h hk hps
      rw [hstay, hstay']
      exact ⟨h, id⟩

/-- where tokens were passed the second run has moved too -/
theorem span_ne {e : Nat} {s' t' : ParseState} {ts : List Token} (h : Beside σ rest n d s t)
    (h' : Beside σ rest m e s' t') (hm : s.Moved ts s') (hts : ts ≠ []) :
    t'.current.span ≠ t.current.span := by
  have htokens : t.tokens = ts.map (Token.shift σ) ++ t'.tokens := by
    have hs' : s'.tokens ≠ [] := List.cons_ne_nil _ _
    rw [h.tokens, hm.tokens, List.dropLast_append_of_ne_nil hs', List.map_append, List.append_assoc,
      h'.tokens]
  obtain ⟨u, us, rfl⟩ := List.exists_cons_of_ne_nil hts
  have hapart := h.apart
  rw [htokens, List.map_cons, List.cons_append, List.pairwise_cons] at hapart
  rw [(List.cons.inj htokens).1]
  exact (hapart.1 t'.current (by simp [ParseState.tokens])).symm

/-- at the seam no `else` comes after a newline -/
theorem nextKind_of_eof (h : Beside σ rest n d s t) (hk : s.kind = .eof) (hn : t.kind = .newline) :
    t.nextKind ≠ .elseKw := by
  have htokens := h.tokens_of_eof hk
  cases h.seam with
  | last he =>
    rw [kind, (List.cons.inj htokens).1, he] at hn
    cases hn
  | newline _ helse =>
    rw [← (List.cons.inj htokens).2] at helse
    unfold nextKind
    cases hu : t.upcoming with
    | nil =>
      rw [show ([].head?.getD t.current).kind = _ from hn]
      decide
    | cons u us => exact helse u (by rw [hu]; rfl)

end Beside

namespace Tied

theorem mono (h : Tied σ rest n d s t) (hm : n ≤ m) : Tied σ rest m d s t :=
  ⟨h.toBeside.mono hm, h.previous⟩

theorem advance (h : Tied σ rest n d s t) (hk : s.kind.isInner = true ∨ s.kind = .newline) :
    Tied σ rest n d s.advance t.advance :=
  ((h.toBeside.mono (Nat.le_succ n)).pass hk)

theorem skip {p : TokenKind → Bool} (hp : ∀ k, p k = true → k = .newline ∨ k = .semicolon)
    (h : Tied σ rest n d s t) (hend : (s.skip p).kind ≠ .eof) :
    Tied σ rest n d (s.skip p) (t.skip p) := by
  obtain ⟨hbeside, hprevious⟩ := h.toBeside.skip hp hend
  exact ⟨hbeside, hprevious h.previous⟩

/-- more format strings may end than must -/
theorem outer (h : Tied σ rest n (d + 1) s t) : Tied σ rest n d s t :=
  { h with formats := fun hn => (Nat.le_succ _).trans (h.formats hn) }

/-- the bound may be as small as the number of tokens left -/
theorem sharpen (h : Tied σ rest n d s t) : Tied σ rest s.remaining d s t :=
  { h with ready := ⟨h.ready.orderly, le_rfl⟩ }

end Tied

end ParseState

namespace Parser

open ParseState (Beside Tied Ready)

variable {α β : Type} {σ : Shift} {rest : List Token} {n m d e : Nat} {s t : ParseState}

/-- if reading `p` from `s` ends without problems, reading `q` from `t` gives the same result, as `f`
puts it further down, and the two runs are side by side again -/
abbrev Follows (σ : Shift) (rest : List Token) (n d : Nat) (f : α → α) (s t : ParseState)
    (p q : Parser α) : Prop :=
  Gives s p fun a s' => (q.run t).1 = f a ∧ Tied σ rest n d s' (q.run t).2

/-- where at least one token is read, nothing is read at the end without a problem -/
theorem Gives.at_end {p : Parser α} {R : α → List Token → Prop} {Q : α → ParseState → Prop}
    (hp : Takes s p R) (hs : s.Ready n) (hk : s.kind = .eof) (hR : ∀ a ts, R a ts → ts ≠ []) :
    Gives s p Q := by
  intro hclean
  obtain ⟨ts, m, hr⟩ := hp hclean
  exact absurd (m.eq_nil hs hk) (hR _ _ hr)

theorem Gives.eat_at_end {kd : TokenKind} {k : Bool → Parser β} {Q : β → ParseState → Prop}
    (hk : s.kind = .eof) (hi : kd.isInner = true) (h : Gives s (k false) Q) :
    Gives s (Parser.eat kd >>= k) Q := by
  refine .eat (fun heq => ?_) fun _ => h
  rw [← heq, hk] at hi
  cases hi

/-- what gives nothing gives nothing whatever comes after it -/
theorem Gives.stuck {p : Parser α} {k : α → Parser β} {Q : β → ParseState → Prop} [∀ a, Steady (k a)]
    (hp : Gives s p fun _ _ => False) : Gives s (p >>= k) Q :=
  hp.seq fun _ _ h => h.elim

namespace Follows

variable {p q : Parser α} {k k' : α → Parser β} {f : α → α} {g : β → β}

theorem mono (h : Follows σ rest n d f s t p q) (hm : n ≤ m) : Follows σ rest m d f s t p q :=
  Gives.mono h fun _ _ ⟨ha, ht⟩ => ⟨ha, ht.mono hm⟩

/-- one after the other, with what is known of the first run -/
theorem seqGiven [hk : ∀ a, Steady (k a)] {P : α → ParseState → Prop}
    (hp : Follows σ rest m e f s t p q) (hP : Gives s p P)
    (h : ∀ a s t, P a s → Tied σ rest m e s t → Follows σ rest n d g s t (k a) (k' (f a))) :
    Follows σ rest n d g s t (p >>= k) (q >>= k') := by
  intro hclean
  have hfirst := ((hk _).steps _).clean hclean
  obtain ⟨ha, ht⟩ := hp hfirst
  have hrest := h _ _ _ (hP hfirst) ht hclean
  rw [← ha] at hrest
  exact hrest

theorem seq [∀ a, Steady (k a)] (hp : Follows σ rest m e f s t p q)
    (h : ∀ a s t, Tied σ rest m e s t → Follows σ rest n d g s t (k a) (k' (f a))) :
    Follows σ rest n d g s t (p >>= k) (q >>= k') :=
  hp.seqGiven (P := fun _ _ => True) (fun _ => trivial) fun a s t _ => h a s t

/-- after something that may be missing; where it is missing nothing goes on without a problem -/
theorem seqFound {γ : Type} {p q : Parser (Option γ)} {k k' : Option γ → Parser β} {f : γ → γ}
    [hn : Steady (k none)] [hs : ∀ x, Steady (k (some x))] {P : Option γ → ParseState → Prop}
    (hp : Gives s p fun found s' => ∀ x, found = some x →
      (q.run t).1 = some (f x) ∧ Tied σ rest m e s' (q.run t).2)
    (hP : Gives s p P) (missing : ∀ s, P none s → Gives s (k none) fun _ _ => False)
    (h : ∀ x s t, P (some x) s → Tied σ rest m e s t →
      Follows σ rest n d g s t (k (some x)) (k' (some (f x)))) :
    Follows σ rest n d g s t (p >>= k) (q >>= k') := by
  have hk : ∀ found, Steady (k found) := by
    rintro (_ | x)
    · exact hn
    · exact hs x
  intro hclean
  have hfirst := ((hk _).steps _).clean hclean
  have hfound := hP hfirst
  have hsame := hp hfirst
  have hrest : ((k (p.run s).1).run (p.run s).2).2.Clean := hclean
  change ((k' (q.run t).1).run (q.run t).2).1 = g ((k (p.run s).1).run (p.run s).2).1 ∧
    Tied σ rest n d ((k (p.run s).1).run (p.run s).2).2 ((k' (q.run t).1).run (q.run t).2).2
  generalize (p.run s).1 = found at *
  cases found with
  | none => exact (missing _ hfound hrest).elim
  | some x =>
    obtain ⟨hx, ht⟩ := hsame x rfl
    rw [hx]
    exact h x _ _ hfound ht hrest

theorem map {i : α → β} (hp : Follows σ rest n d f s t p q) (h : ∀ a, i (f a) = g (i a)) :
    Follows σ rest n d g s t (i <$> p) (i <$> q) := by
  intro hclean
  obtain ⟨ha, ht⟩ := hp hclean
  exact ⟨(congrArg i ha).trans (h _), ht⟩

theorem pure {a b : α} (ht : Tied σ rest n d s t) (h : b = f a) :
    Follows σ rest n d f s t (pure a) (pure b) :=
  fun _ => ⟨h, ht⟩

theorem given {a b : α} (h : Follows σ rest n d g s t (k a) (k' b)) :
    Follows σ rest n d g s t (Pure.pure a >>= k) (Pure.pure b >>= k') := h

theorem get {k k' : ParseState → Parser β} (h : Follows σ rest n d g s t (k s) (k' t)) :
    Follows σ rest n d g s t (get >>= k) (get >>= k') := h

theorem set {s' t' : ParseState} {k k' : PUnit → Parser β}
    (h : Follows σ rest n d g s' t' (k ⟨⟩) (k' ⟨⟩)) :
    Follows σ rest n d g s t (set s' >>= k) (set t' >>= k') := h

theorem kind {k k' : TokenKind → Parser β} (h : Follows σ rest n d g s t (k s.kind) (k' t.kind)) :
    Follows σ rest n d g s t (Parser.kind >>= k) (Parser.kind >>= k') := h

theorem currentSpan {k k' : Span → Parser β} (ht : Beside σ rest m e s t) (hk : s.kind ≠ .eof)
    (h : Follows σ rest n d g s t (k s.current.span) (k' (s.current.span.shift σ))) :
    Follows σ rest n d g s t (Parser.currentSpan >>= k) (Parser.currentSpan >>= k') := by
  have hspan : t.current.span = s.current.span.shift σ := congrArg Token.span (ht.current hk).1
  rw [← hspan] at h
  exact h

theorem previousSpan {k k' : Span → Parser β} (ht : Tied σ rest m e s t)
    (h : Follows σ rest n d g s t (k s.previous) (k' (s.previous.shift σ))) :
    Follows σ rest n d g s t (Parser.previousSpan >>= k) (Parser.previousSpan >>= k') := by
  rw [← ht.previous] at h
  exact h

/-- both pass a token -/
theorem advance {k k' : Token → Parser β} (ht : Beside σ rest m e s t) (hk : s.kind ≠ .eof)
    (h : Follows σ rest n d g s.advance t.advance (k s.current) (k' (s.current.shift σ))) :
    Follows σ rest n d g s t (Parser.advance >>= k) (Parser.advance >>= k') := by
  rw [← (ht.current hk).1] at h
  exact h

/-- both pass the first token of a phrase -/
theorem pass {k k' : Token → Parser β} {kd : TokenKind} (ht : Beside σ rest (m + 1) e s t)
    (hk : s.kind = kd) (hi : kd.isInner = true)
    (h : Tied σ rest m e s.advance t.advance →
      Follows σ rest n d g s.advance t.advance (k s.current) (k' (s.current.shift σ))) :
    Follows σ rest n d g s t (Parser.advance >>= k) (Parser.advance >>= k') :=
  advance ht (by rintro he; rw [← hk, he] at hi; cases hi) (h (ht.pass (.inl (hk ▸ hi))))

theorem check {kd : TokenKind} {k k' : Bool → Parser β} (ht : Beside σ rest m e s t)
    (hi : kd.isInner = true) (yes : s.kind = kd → Follows σ rest n d g s t (k true) (k' true))
    (no : s.kind ≠ kd → Follows σ rest n d g s t (k false) (k' false)) :
    Follows σ rest n d g s t (Parser.check kd >>= k) (Parser.check kd >>= k') := by
  change Follows σ rest n d g s t (k (s.kind == kd)) (k' (t.kind == kd))
  have hiff := ht.kind_iff hi
  by_cases hk : s.kind = kd
  · rw [beq_iff_eq.2 hk, beq_iff_eq.2 (hiff.2 hk)]
    exact yes hk
  · rw [beq_eq_false_iff_ne.2 hk, beq_eq_false_iff_ne.2 (mt hiff.1 hk)]
    exact no hk

/-- one of two ways, then the same -/
theorem branch {kd : TokenKind} {p' q' : Parser α} [∀ a, Steady (k a)] (ht : Beside σ rest m e s t)
    (hi : kd.isInner = true) (yes : Follows σ rest m e f s t p q)
    (no : Follows σ rest m e f s t p' q')
    (h : ∀ a s t, Tied σ rest m e s t → Follows σ rest n d g s t (k a) (k' (f a))) :
    Follows σ rest n d g s t
      (Parser.check kd >>= fun b => if b = true then p >>= k else p' >>= k)
      (Parser.check kd >>= fun b => if b = true then q >>= k' else q' >>= k') :=
  check ht hi (fun _ => seq yes h) fun _ => seq no h

theorem atEnd {k k' : Bool → Parser β} (ht : Beside σ rest m e s t) (hk : s.kind ≠ .eof)
    (h : Follows σ rest n d g s t (k false) (k' false)) :
    Follows σ rest n d g s t (Parser.atEnd >>= k) (Parser.atEnd >>= k') := by
  change Follows σ rest n d g s t (k (s.kind == .eof)) (k' (t.kind == .eof))
  rw [ht.kind_eq hk, beq_eq_false_iff_ne.2 hk]
  exact h

theorem eat {kd : TokenKind} {k k' : Bool → Parser β} (ht : Beside σ rest m e s t)
    (hi : kd.isInner = true)
    (yes : s.kind = kd → Tied σ rest m e s.advance t.advance →
      Follows σ rest n d g s.advance t.advance (k true) (k' true))
    (no : s.kind ≠ kd → Follows σ rest n d g s t (k false) (k' false)) :
    Follows σ rest n d g s t (Parser.eat kd >>= k) (Parser.eat kd >>= k') := by
  have hiff := ht.kind_iff hi
  unfold Follows
  by_cases hk : s.kind = kd
  · unfold Gives
    rw [bind_run_of (eat_run_of_eq hk), bind_run_of (eat_run_of_eq (hiff.2 hk))]
    exact yes hk ((ht.mono (Nat.le_succ m)).pass (.inl (hk ▸ hi)))
  · unfold Gives
    rw [bind_run_of (eat_run_of_ne hk), bind_run_of (eat_run_of_ne (mt hiff.1 hk))]
    exact no hk

/-- a parser that ends with a token that may be missing -/
theorem eatLast {kd : TokenKind} (ht : Tied σ rest m e s t) (hi : kd.isInner = true) :
    Follows σ rest m e id s t (Parser.eat kd) (Parser.eat kd) := by
  have h : Follows σ rest m e id s t (Parser.eat kd >>= Pure.pure) (Parser.eat kd >>= Pure.pure) :=
    eat ht.toBeside hi (fun _ ht => pure ht rfl) fun _ => pure ht rfl
  rwa [bind_pure] at h

/-- a token that must be there is there in both -/
theorem expect {kd : TokenKind} {k k' : Bool → Parser β} [∀ a, Steady (k a)]
    (ht : Beside σ rest m e s t) (hi : kd.isInner = true)
    (yes : s.kind = kd → Tied σ rest m e s.advance t.advance →
      Follows σ rest n d g s.advance t.advance (k true) (k' true)) :
    Follows σ rest n d g s t (Parser.expect kd >>= k) (Parser.expect kd >>= k') := by
  rw [Parser.expect, bind_assoc, bind_assoc]
  refine eat ht hi yes fun _ => ?_
  rw [if_neg Bool.false_ne_true, bind_assoc]
  exact .reportHere

/-- after tokens that are skipped; where they reach to the end nothing may go on without a problem -/
theorem skip {u : TokenKind → Bool} (hu : ∀ k, u k = true → k = .newline ∨ k = .semicolon)
    {p q : Parser β} (ht : Tied σ rest m e s t)
    (stop : ∀ s : ParseState, s.Ready m → s.kind = .eof → Gives s p fun _ _ => False)
    (h : ∀ s t : ParseState, Tied σ rest m e s t → s.kind ≠ .eof → u s.kind = false →
      Follows σ rest n d g s t p q) :
    Follows σ rest n d g (s.skip u) (t.skip u) p q := by
  obtain ⟨ts, hmoved, -⟩ := ParseState.moved_skip u s
  have hready := ht.ready.moved hmoved
  by_cases hk : (s.skip u).kind = .eof
  · exact fun hclean => (stop _ hready hk hclean).elim
  · exact h _ _ (ht.skip hu hk) hk (hready.skip_stops hk)

theorem skipNewlines {k k' : Unit → Parser β} (ht : Tied σ rest m e s t)
    (stop : ∀ s : ParseState, s.Ready m → s.kind = .eof → Gives s (k ()) fun _ _ => False)
    (h : ∀ s t : ParseState, Tied σ rest m e s t → s.kind ≠ .eof →
      Follows σ rest n d g s t (k ()) (k' ())) :
    Follows σ rest n d g s t (Parser.skipNewlines >>= k) (Parser.skipNewlines >>= k') :=
  skip (fun _ hk => .inl (beq_iff_eq.1 hk)) ht stop fun s t ht hk _ => h s t ht hk

theorem skipSeparators {k k' : Unit → Parser β} (ht : Tied σ rest m e s t)
    (stop : ∀ s : ParseState, s.Ready m → s.kind = .eof → Gives s (k ()) fun _ _ => False)
    (h : ∀ s t : ParseState, Tied σ rest m e s t → s.kind ≠ .eof →
      (s.kind == .newline || s.kind == .semicolon) = false →
      Follows σ rest n d g s t (k ()) (k' ())) :
    Follows σ rest n d g s t (Parser.skipSeparators >>= k) (Parser.skipSeparators >>= k') :=
  skip (fun k hk => by simpa using hk) ht stop h

end Follows

end Parser

end AutoLang
