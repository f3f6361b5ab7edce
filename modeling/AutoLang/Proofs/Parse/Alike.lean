import AutoLang.Proofs.Parse.Silence
import AutoLang.Proofs.Tree.Placeless
import Mathlib

/-! Two runs on texts that say the same. The tokens of the two agree in kind and text; their places do
not, and where `blank` holds the second text may have more newlines where the first has one. What a run
sees of the places is whether it moved, and that is the same in both; so the runs do the same, and
report in the same places. With more newlines this is so as long as the first run reports nothing. -/

namespace AutoLang

/-- tokens that agree but for their places; if `blank`, there may be more newlines in the second list
where the first has one, unless an `else` comes next -/
inductive Respaced (blank : Prop) : List Token → List Token → Prop
  | nil : Respaced blank [] []
  | cons {t u : Token} {ts us : List Token} : t.kind = u.kind → t.text = u.text →
    Respaced blank ts us → Respaced blank (t :: ts) (u :: us)
  | again {t u v : Token} {ts us : List Token} : blank → t.kind = .newline → v.kind = .newline →
    t.text = v.text → (∀ a ∈ ts.head?, a.kind ≠ .elseKw) → Respaced blank (t :: ts) (u :: us) →
    Respaced blank (t :: ts) (v :: u :: us)

/-- how many tokens there are besides newlines -/
def countSolid (ts : List Token) : Nat := ts.countP (·.kind != .newline)

theorem countSolid_append (ts us : List Token) :
    countSolid (ts ++ us) = countSolid ts + countSolid us :=
  List.countP_append

theorem countSolid_newline {t : Token} {ts : List Token} (h : t.kind = .newline) :
    countSolid (t :: ts) = countSolid ts :=
  List.countP_cons_of_neg (by simp [h])

theorem countSolid_solid {t : Token} {ts : List Token} (h : t.kind ≠ .newline) :
    countSolid (t :: ts) = countSolid ts + 1 :=
  List.countP_cons_of_pos (by simpa using h)

namespace Respaced

variable {blank : Prop} {t u : Token} {ts us : List Token}

theorem head (h : Respaced blank (t :: ts) (u :: us)) : t.kind = u.kind ∧ t.text = u.text := by
  cases h with
  | cons hk ht _ => exact ⟨hk, ht⟩
  | again _ ht hv htext _ _ => exact ⟨ht.trans hv.symm, htext⟩

/-- only a newline may stand for more -/
theorem tail (h : Respaced blank (t :: ts) (u :: us)) (ht : blank → t.kind ≠ .newline) :
    Respaced blank ts us := by
  cases h with
  | cons _ _ h => exact h
  | again hb hn _ _ _ _ => exact absurd hn (ht hb)

theorem countSolid_eq (h : Respaced blank ts us) : countSolid ts = countSolid us := by
  induction h with
  | nil => rfl
  | @cons t u ts us hk _ _ ih =>
    by_cases hn : t.kind = .newline
    · rw [countSolid_newline hn, countSolid_newline (hk ▸ hn), ih]
    · rw [countSolid_solid hn, countSolid_solid (hk ▸ hn), ih]
  | again _ _ hv _ _ _ ih => rw [countSolid_newline hv, ih]

/-- an `else` behind one newline is behind one newline in both -/
theorem next_else {a b : Token} (h : Respaced blank (t :: a :: ts) (u :: b :: us)) :
    a.kind = .elseKw ↔ b.kind = .elseKw := by
  cases h with
  | cons _ _ h => rw [h.head.1]
  | again _ hn _ _ hnext h =>
    refine iff_of_false (hnext a rfl) ?_
    rw [← h.head.1, hn]
    decide

/-- what is left behind tokens that are not wanted, newlines among them -/
theorem dropWhile {p : TokenKind → Bool} (hn : p .newline = true) (h : Respaced blank ts us) :
    Respaced blank (ts.dropWhile (p ·.kind)) (us.dropWhile (p ·.kind)) := by
  induction h with
  | nil => exact .nil
  | @cons t u ts us hk ht h ih =>
    rw [List.dropWhile_cons, List.dropWhile_cons, ← hk]
    split
    · exact ih
    · exact .cons hk ht h
  | @again t u v ts us _ _ hv _ _ _ ih => rwa [List.dropWhile_cons (x := v), hv, if_pos hn]

/-- with `else` behind it a newline stands for one -/
theorem tail_else (h : Respaced blank (t :: ts) (u :: us))
    (helse : ∃ a ∈ ts.head?, a.kind = .elseKw) : Respaced blank ts us := by
  cases h with
  | cons _ _ h => exact h
  | again _ _ _ _ hnext _ =>
    obtain ⟨a, ha, hk⟩ := helse
    exact absurd hk (hnext a ha)

end Respaced

namespace ParseState

variable {blank : Prop} {s t s' t' : ParseState}

/-- tokens that end at the only end token, no two of them in the same place -/
structure Distinct (ts : List Token) : Prop where
  ends : Terminated ts
  apart : ts.Pairwise fun a b => a.span ≠ b.span

theorem Distinct.suffix {ts us : List Token} (h : Distinct us) (hs : ts <:+ us) (hne : ts ≠ []) :
    Distinct ts := by
  obtain ⟨vs, rfl⟩ := hs
  exact ⟨h.ends.suffix hne, (List.pairwise_append.1 h.apart).2.1⟩

theorem Distinct.within (h : Distinct s.tokens) : s.Within s.tokens s.remaining :=
  ⟨h.ends, List.suffix_rfl, le_rfl⟩

theorem Distinct.of_suffix (h : Distinct s.tokens) (hs : s'.tokens <:+ s.tokens) :
    Distinct s'.tokens :=
  h.suffix hs (List.cons_ne_nil _ _)

/-- the two runs stand at tokens that agree, and both or neither have reported a problem -/
structure Alike (blank : Prop) (s t : ParseState) : Prop where
  tokens : Respaced blank s.tokens t.tokens
  left : Distinct s.tokens
  right : Distinct t.tokens
  clean : s.Clean ↔ t.Clean

theorem Steps.tokens_suffix (h : Steps s t) : t.tokens <:+ s.tokens := by
  induction h with
  | refl => exact List.suffix_rfl
  | tail _ hstep ih =>
    cases hstep with
    | advance => exact (tokens_advance _).trans ih
    | report => exact ih

/-- with distinct places a run moved just if the place is another -/
theorem Distinct.span_eq_iff (h : Distinct s.tokens) (hs : s'.tokens <:+ s.tokens) :
    s'.current.span = s.current.span ↔ s'.tokens = s.tokens := by
  constructor
  · intro heq
    obtain ⟨us, hus⟩ := hs
    rcases us with _ | ⟨u, us⟩
    · exact hus
    · have hu : u = s.current := (List.cons.inj hus).1
      have hapart := h.apart
      rw [← hus, List.cons_append, List.pairwise_cons, hu] at hapart
      exact absurd heq.symm (hapart.1 s'.current (by simp [ParseState.tokens]))
  · intro heq
    rw [(List.cons.inj heq).1]

/-- a run that began at another token than a newline moved just if fewer of them are left -/
theorem tokens_eq_iff (hs : s'.tokens <:+ s.tokens) (hk : s.kind ≠ .newline) :
    s'.tokens = s.tokens ↔ countSolid s'.tokens = countSolid s.tokens := by
  constructor
  · rintro heq
    rw [heq]
  · intro heq
    obtain ⟨us, hus⟩ := hs
    rcases us with _ | ⟨u, us⟩
    · exact hus
    · have hu : u = s.current := (List.cons.inj hus).1
      rw [← hus, List.cons_append, countSolid_solid (hu ▸ hk), countSolid_append] at heq
      omega

@[simp] theorem problems_skip (p : TokenKind → Bool) (s : ParseState) :
    (s.skip p).problems = s.problems := by
  have hfrom (us : List Token) : ∀ s : ParseState, (s.skipFrom p us).problems = s.problems := by
    induction us with
    | nil => exact fun _ => rfl
    | cons u us ih =>
      intro s
      rw [skipFrom]
      split
      · exact ih _
      · rfl
  exact hfrom s.upcoming s

/-- skipping passes the tokens that are to be skipped and no others -/
theorem Distinct.tokens_skip {p : TokenKind → Bool} (h : Distinct s.tokens) (he : p .eof = false) :
    (s.skip p).tokens = s.tokens.dropWhile (p ·.kind) := by
  have hfrom (us : List Token) : ∀ s : ParseState, Terminated (s.current :: us) →
      (s.skipFrom p us).tokens = (s.current :: us).dropWhile (p ·.kind) := by
    induction us with
    | nil =>
      rintro s ⟨before, last, hsplit, hl, -⟩
      have hcurrent : s.current = last := by
        cases before with
        | nil => exact (List.cons.inj hsplit).1
        | cons b before => simp at hsplit
      rw [List.dropWhile_cons, hcurrent, hl, if_neg (by rw [he]; decide), ← hcurrent]
      rfl
    | cons u us ih =>
      intro s hends
      rw [skipFrom, List.dropWhile_cons]
      by_cases hp : p s.kind = true
      · rw [← List.singleton_append] at hends
        have hrest : Terminated (u :: us) := hends.suffix (List.cons_ne_nil u us)
        exact (congrArg tokens (if_pos hp)).trans
          ((ih { s with current := u, previous := s.current.span } hrest).trans (if_pos hp).symm)
      · exact (congrArg tokens (if_neg hp)).trans (if_neg hp).symm
  exact hfrom s.upcoming s h.ends

theorem Distinct.kind_skip {p : TokenKind → Bool} (h : Distinct s.tokens) (he : p .eof = false) :
    p (s.skip p).kind = false := by
  have hskip := h.of_suffix (ParseState.tokens_skip p s)
  rcases skipFrom_stops p s.upcoming s with hlast | hstop
  · by_cases hk : (s.skip p).kind = .eof
    · rw [hk, he]
    · obtain ⟨u, us, hu⟩ := hskip.within.upcoming_eq_cons hk
      cases hlast.symm.trans hu
  · exact hstop

namespace Alike

theorem kind_eq (h : Alike blank s t) : t.kind = s.kind := h.tokens.head.1.symm

theorem text_eq (h : Alike blank s t) : s.current.text = t.current.text := h.tokens.head.2

/-- both move on without a report, to tokens that agree again -/
theorem move (h : Alike blank s t) (hs : s'.tokens <:+ s.tokens) (ht : t'.tokens <:+ t.tokens)
    (hs' : s'.problems = s.problems) (ht' : t'.problems = t.problems)
    (htokens : Respaced blank s'.tokens t'.tokens) : Alike blank s' t' where
  tokens := htokens
  left := h.left.of_suffix hs
  right := h.right.of_suffix ht
  clean := by
    rw [Clean, Clean, hs', ht']
    exact h.clean

theorem of_upcoming (h : Alike blank s t) (he : s.kind ≠ .eof)
    (hrest : Respaced blank s.upcoming t.upcoming) : Alike blank s.advance t.advance := by
  refine h.move (tokens_advance s) (tokens_advance t) (problems_advance s) (problems_advance t) ?_
  obtain ⟨a, as, ha⟩ := h.left.within.upcoming_eq_cons he
  obtain ⟨b, bs, hb⟩ := h.right.within.upcoming_eq_cons (h.kind_eq ▸ he)
  simpa [ParseState.advance, ParseState.tokens, ha, hb] using hrest

/-- both pass their token; a newline is passed by itself only if there are no more -/
theorem advance (h : Alike blank s t) (hk : blank → s.kind ≠ .newline) :
    Alike blank s.advance t.advance := by
  by_cases he : s.kind = .eof
  · have hs := h.left.within.upcoming_eq_nil he
    have ht := h.right.within.upcoming_eq_nil (h.kind_eq.trans he)
    refine h.move (tokens_advance s) (tokens_advance t) (problems_advance s) (problems_advance t) ?_
    have htokens := h.tokens
    rw [ParseState.tokens, ParseState.tokens, hs, ht] at htokens
    simpa [ParseState.advance, ParseState.tokens, hs, ht] using htokens
  · exact h.of_upcoming he (h.tokens.tail hk)

/-- both or neither stand at a newline before an `else` -/
theorem before_else (h : Alike blank s t) : s.kind = .newline ∧ s.nextKind = .elseKw ↔
    t.kind = .newline ∧ t.nextKind = .elseKw := by
  rw [h.kind_eq]
  refine and_congr_right fun hn => ?_
  have he : s.kind ≠ .eof := by
    rw [hn]
    decide
  obtain ⟨a, as, ha⟩ := h.left.within.upcoming_eq_cons he
  obtain ⟨b, bs, hb⟩ := h.right.within.upcoming_eq_cons (h.kind_eq ▸ he)
  have htokens := h.tokens
  rw [ParseState.tokens, ParseState.tokens, ha, hb] at htokens
  simpa [nextKind, ha, hb] using htokens.next_else

/-- both pass the newline before an `else` -/
theorem advance_else (h : Alike blank s t) (hn : s.kind = .newline) (helse : s.nextKind = .elseKw) :
    Alike blank s.advance t.advance := by
  have he : s.kind ≠ .eof := by
    rw [hn]
    decide
  obtain ⟨a, as, ha⟩ := h.left.within.upcoming_eq_cons he
  refine h.of_upcoming he (h.tokens.tail_else ⟨a, by rw [ha]; rfl, ?_⟩)
  simpa [nextKind, ha] using helse

theorem report (h : Alike blank s t) (d e : Diagnostic) :
    Alike blank (s.report d) (t.report e) :=
  ⟨h.tokens, h.left, h.right, iff_of_false (not_clean_report s d) (not_clean_report t e)⟩

/-- both skip to the next token that is not to be skipped -/
theorem skip {p : TokenKind → Bool} (h : Alike blank s t) (hn : p .newline = true)
    (he : p .eof = false) : Alike blank (s.skip p) (t.skip p) := by
  refine h.move (ParseState.tokens_skip p s) (ParseState.tokens_skip p t) (problems_skip p s)
    (problems_skip p t) ?_
  rw [h.left.tokens_skip he, h.right.tokens_skip he]
  exact h.tokens.dropWhile hn

/-- both runs moved, or neither did, since they stood at `s` and `t` -/
theorem moved_iff (h : Alike blank s t) (h' : Alike blank s' t') (hs : s'.tokens <:+ s.tokens)
    (ht : t'.tokens <:+ t.tokens) (hk : s.kind ≠ .newline) :
    s'.current.span = s.current.span ↔ t'.current.span = t.current.span := by
  have hkt : t.kind ≠ .newline := by rwa [h.kind_eq]
  rw [h.left.span_eq_iff hs, h.right.span_eq_iff ht, tokens_eq_iff hs hk, tokens_eq_iff ht hkt,
    h.tokens.countSolid_eq, h'.tokens.countSolid_eq]

end Alike

end ParseState

namespace Parser

open ParseState (Alike Steps)

variable {α β γ δ : Type} {blank : Prop} {s t : ParseState} {p q : Parser α} {f : α → γ} {g : β → δ}

/-- reading `p` from `s` and `q` from `t` gives results that are the same in the view `f`, and ends
where the two runs are alike again; if `blank`, as long as the first reports nothing -/
def Agrees (blank : Prop) (f : α → γ) (s t : ParseState) (p q : Parser α) : Prop :=
  (blank → (p.run s).2.Clean) →
    f (p.run s).1 = f (q.run t).1 ∧ Alike blank (p.run s).2 (q.run t).2

namespace Agrees

variable {k k' : α → Parser β}

/-- one after the other, with where the two runs have moved -/
theorem seqMoved [hk : ∀ a, Steady (k a)] [hp : Steady p] [hq : Steady q]
    (h : Agrees blank f s t p q)
    (hrest : ∀ a b s' t', f a = f b → Alike blank s' t' → s'.tokens <:+ s.tokens →
      t'.tokens <:+ t.tokens → Agrees blank g s' t' (k a) (k' b)) :
    Agrees blank g s t (p >>= k) (q >>= k') := by
  intro hclean
  have hfirst (hb : blank) : (p.run s).2.Clean := ((hk _).steps _).clean (hclean hb)
  obtain ⟨hab, hst⟩ := h hfirst
  exact hrest _ _ _ _ hab hst (hp.steps s).tokens_suffix (hq.steps t).tokens_suffix hclean

theorem seq [hk : ∀ a, Steady (k a)] (h : Agrees blank f s t p q)
    (hrest : ∀ a b s' t', f a = f b → Alike blank s' t' → Agrees blank g s' t' (k a) (k' b)) :
    Agrees blank g s t (p >>= k) (q >>= k') := by
  intro hclean
  have hfirst (hb : blank) : (p.run s).2.Clean := ((hk _).steps _).clean (hclean hb)
  obtain ⟨hab, hst⟩ := h hfirst
  exact hrest _ _ _ _ hab hst hclean

/-- `seq` for a continuation that asks whether something was found -/
theorem seqOption {ε : Type} {p q : Parser (Option ε)} {f : ε → γ} {k k' : Option ε → Parser β}
    [hnone : Steady (k none)] [hsome : ∀ x, Steady (k (some x))]
    (h : Agrees blank (Option.map f) s t p q)
    (missing : ∀ s' t', Alike blank s' t' → Agrees blank g s' t' (k none) (k' none))
    (found : ∀ x y s' t', f x = f y → Alike blank s' t' →
      Agrees blank g s' t' (k (some x)) (k' (some y))) :
    Agrees blank g s t (p >>= k) (q >>= k') := by
  have hk : ∀ a, Steady (k a) := by
    rintro (_ | x)
    · exact hnone
    · exact hsome x
  refine h.seq fun a b s' t' hab hst => ?_
  cases a with
  | none =>
    cases b with
    | none => exact missing s' t' hst
    | some y => cases hab
  | some x =>
    cases b with
    | none => cases hab
    | some y => exact found x y s' t' (Option.some.inj hab) hst

theorem map {i : α → β} (h : Agrees blank f s t p q) (hi : ∀ a b, f a = f b → g (i a) = g (i b)) :
    Agrees blank g s t (i <$> p) (i <$> q) := by
  intro hclean
  obtain ⟨hab, hst⟩ := h hclean
  exact ⟨hi _ _ hab, hst⟩

theorem pure {a b : α} (h : Alike blank s t) (hab : f a = f b) :
    Agrees blank f s t (pure a) (pure b) :=
  fun _ => ⟨hab, h⟩

theorem given {a b : α} (h : Agrees blank g s t (k a) (k' b)) :
    Agrees blank g s t (Pure.pure a >>= k) (Pure.pure b >>= k') := h

theorem get {k k' : ParseState → Parser β} (h : Agrees blank g s t (k s) (k' t)) :
    Agrees blank g s t (get >>= k) (get >>= k') := h

theorem set {s' t' : ParseState} {k k' : PUnit → Parser β}
    (h : Agrees blank g s' t' (k ⟨⟩) (k' ⟨⟩)) :
    Agrees blank g s t (set s' >>= k) (set t' >>= k') := h

/-- what the two stand at is of one kind -/
theorem kind {k k' : TokenKind → Parser β} (h : Alike blank s t)
    (hrest : Agrees blank g s t (k s.kind) (k' s.kind)) :
    Agrees blank g s t (Parser.kind >>= k) (Parser.kind >>= k') := by
  change Agrees blank g s t (k s.kind) (k' t.kind)
  rw [h.kind_eq]
  exact hrest

theorem currentSpan {k k' : Span → Parser β}
    (h : Agrees blank g s t (k s.current.span) (k' t.current.span)) :
    Agrees blank g s t (Parser.currentSpan >>= k) (Parser.currentSpan >>= k') := h

theorem previousSpan {k k' : Span → Parser β}
    (h : Agrees blank g s t (k s.previous) (k' t.previous)) :
    Agrees blank g s t (Parser.previousSpan >>= k) (Parser.previousSpan >>= k') := h

/-- both pass a token, of which there are no more -/
theorem advance {k k' : Token → Parser β} (h : Alike blank s t) (hk : blank → s.kind ≠ .newline)
    (hrest : Alike blank s.advance t.advance →
      Agrees blank g s.advance t.advance (k s.current) (k' t.current)) :
    Agrees blank g s t (Parser.advance >>= k) (Parser.advance >>= k') :=
  hrest (h.advance hk)

/-- both pass a token of a kind that is no newline -/
theorem pass {k k' : Token → Parser β} {kd : TokenKind} (h : Alike blank s t) (hk : s.kind = kd)
    (hn : kd ≠ .newline) (hrest : Alike blank s.advance t.advance →
      Agrees blank g s.advance t.advance (k s.current) (k' t.current)) :
    Agrees blank g s t (Parser.advance >>= k) (Parser.advance >>= k') :=
  advance h (fun _ => hk ▸ hn) hrest

theorem check {kd : TokenKind} {k k' : Bool → Parser β} (h : Alike blank s t)
    (yes : s.kind = kd → Agrees blank g s t (k true) (k' true))
    (no : s.kind ≠ kd → Agrees blank g s t (k false) (k' false)) :
    Agrees blank g s t (Parser.check kd >>= k) (Parser.check kd >>= k') := by
  change Agrees blank g s t (k (s.kind == kd)) (k' (t.kind == kd))
  rw [h.kind_eq]
  by_cases hk : s.kind = kd
  · rw [beq_iff_eq.2 hk]
    exact yes hk
  · rw [beq_eq_false_iff_ne.2 hk]
    exact no hk

/-- one of two ways, then the same -/
theorem branch {kd : TokenKind} {p' q' : Parser α} [∀ a, Steady (k a)] (h : Alike blank s t)
    (yes : s.kind = kd → Agrees blank f s t p q) (no : s.kind ≠ kd → Agrees blank f s t p' q')
    (hrest : ∀ a b s' t', f a = f b → Alike blank s' t' → Agrees blank g s' t' (k a) (k' b)) :
    Agrees blank g s t
      (Parser.check kd >>= fun b => if b = true then p >>= k else p' >>= k)
      (Parser.check kd >>= fun b => if b = true then q >>= k' else q' >>= k') :=
  check h (fun hk => seq (yes hk) hrest) fun hk => seq (no hk) hrest

theorem eat {kd : TokenKind} {k k' : Bool → Parser β} (h : Alike blank s t) (hn : kd ≠ .newline)
    (yes : Alike blank s.advance t.advance →
      Agrees blank g s.advance t.advance (k true) (k' true))
    (no : s.kind ≠ kd → Agrees blank g s t (k false) (k' false)) :
    Agrees blank g s t (Parser.eat kd >>= k) (Parser.eat kd >>= k') := by
  unfold Agrees
  by_cases hk : s.kind = kd
  · rw [bind_run_of (eat_run_of_eq hk), bind_run_of (eat_run_of_eq (h.kind_eq.trans hk))]
    exact yes (h.advance fun _ => hk ▸ hn)
  · have hkt : t.kind ≠ kd := by rwa [h.kind_eq]
    rw [bind_run_of (eat_run_of_ne hk), bind_run_of (eat_run_of_ne hkt)]
    exact no hk

/-- a parser that ends with a token that may be missing -/
theorem eatLast {kd : TokenKind} (h : Alike blank s t) (hn : kd ≠ .newline) :
    Agrees blank id s t (Parser.eat kd) (Parser.eat kd) := by
  have hone : Agrees blank id s t (Parser.eat kd >>= Pure.pure) (Parser.eat kd >>= Pure.pure) :=
    eat h hn (fun h => pure h rfl) fun _ => pure h rfl
  rwa [bind_pure] at hone

/-- both report; the runs are followed further only if they stay in step -/
theorem report {d e : Diagnostic} {k k' : PUnit → Parser β} [hk : ∀ a, Steady (k a)]
    (h : Alike blank s t) (hrest : ¬ blank → Alike blank (s.report d) (t.report e) →
      Agrees blank g (s.report d) (t.report e) (k ⟨⟩) (k' ⟨⟩)) :
    Agrees blank g s t (Parser.report d >>= k) (Parser.report e >>= k') := by
  intro hclean
  by_cases hb : blank
  · exact absurd (((hk _).steps _).clean (hclean hb)) (ParseState.not_clean_report s d)
  · exact hrest hb (h.report d e) hclean

theorem reportHere {d e : ParseState → Diagnostic} {k k' : PUnit → Parser β}
    [hk : ∀ a, Steady (k a)] (h : Alike blank s t)
    (hrest : ¬ blank → ∀ s' t', Alike blank s' t' → Agrees blank g s' t' (k ⟨⟩) (k' ⟨⟩)) :
    Agrees blank g s t (Parser.reportHere d >>= k) (Parser.reportHere e >>= k') :=
  report (d := d s) (e := e t) h fun hb h => hrest hb _ _ h

/-- a token that should be there, reported if it is not -/
theorem expect {kd : TokenKind} (h : Alike blank s t) (hn : kd ≠ .newline) :
    Agrees blank id s t (Parser.expect kd) (Parser.expect kd) :=
  eat h hn (fun h => pure h rfl) fun _ => reportHere h fun _ _ _ h => pure h rfl

theorem skipNewlines {k k' : Unit → Parser β} (h : Alike blank s t)
    (hrest : ∀ s' t' : ParseState, Alike blank s' t' → s'.kind ≠ .newline →
      Agrees blank g s' t' (k ()) (k' ())) :
    Agrees blank g s t (Parser.skipNewlines >>= k) (Parser.skipNewlines >>= k') :=
  hrest _ _ (h.skip rfl rfl) (by simpa using h.left.kind_skip (p := (· == .newline)) rfl)

theorem skipSeparators {k k' : Unit → Parser β} (h : Alike blank s t)
    (hrest : ∀ s' t' : ParseState, Alike blank s' t' → s'.kind ≠ .newline →
      Agrees blank g s' t' (k ()) (k' ())) :
    Agrees blank g s t (Parser.skipSeparators >>= k) (Parser.skipSeparators >>= k') := by
  have hstop := h.left.kind_skip (p := fun k => k == .newline || k == .semicolon) rfl
  simp only [Bool.or_eq_false_iff, beq_eq_false_iff_ne] at hstop
  exact hrest _ _ (h.skip rfl rfl) hstop.1

end Agrees

end Parser

end AutoLang
