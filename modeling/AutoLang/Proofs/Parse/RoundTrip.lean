import AutoLang.Proofs.Parse.Runs
import AutoLang.Proofs.Tree.Placeless
import Mathlib

/-! Parsing inverts writing. An operand is read as far as its last token, and the climbing loop goes on
from there with the tree so far: `Resumes` says this for every floor that admits the operand. The loop
of an inner operand stops in time because the operator after it binds no tighter than its floor. -/

namespace AutoLang

open AutoLang.Parser

/-- a floor under everything that may stand bare in a place that asks for the level `least` -/
structure Admits (floor least : Nat) : Prop where
  link : ∀ l : Link, least ≤ l.level → floor < l.level
  call : least < atomLevel → floor < Parse.callLevel

/-- a token that ends everything that may stand bare in a place that asks for the level `least` -/
structure Stops (least : Nat) (k : TokenKind) : Prop where
  link : ∀ l : Link, least ≤ l.level → binding k ≤ l.rightLevel
  sign : least ≤ prefixLevel → binding k ≤ Parse.signLevel

section Levels

variable {floor least : Nat} {k : TokenKind} {l : Link}

theorem Admits.left (h : Admits floor least) (hl : least ≤ l.level) : Admits floor l.leftNeed := by
  have hfloor := h.link l hl
  have hcall := h.call
  have hgrade := l.grades
  simp only [atomLevel, Parse.callLevel] at hcall
  refine ⟨fun l' hl' => ?_, fun _ => ?_⟩
  · have := l'.grades
    omega
  · rw [Parse.callLevel]
    omega

theorem stops_left : Stops l.leftNeed l.token := by
  have hgrade := l.grades
  refine ⟨fun l' hl' => ?_, fun hs => ?_⟩ <;> rw [binding_token]
  · have := l'.grades
    omega
  · rw [prefixLevel] at hs
    rw [Parse.signLevel]
    omega

theorem admits_right : Admits l.rightLevel l.rightNeed := by
  rw [l.rightNeed_eq]
  refine ⟨fun l' hl' => hl', fun ha => ?_⟩
  have hgrade := l.grades
  rw [atomLevel] at ha
  rw [Parse.callLevel]
  omega

theorem stops_right (hk : binding k ≤ l.rightLevel) : Stops l.rightNeed k := by
  rw [l.rightNeed_eq]
  refine ⟨fun l' hl' => ?_, fun hs => ?_⟩
  · have hgrade := l'.grades
    omega
  · rw [prefixLevel] at hs
    rw [Parse.signLevel]
    omega

theorem admits_zero : Admits 0 0 := by
  refine ⟨fun l _ => ?_, fun _ => by decide⟩
  have := l.grades
  omega

theorem stops_of_binding_eq_zero (hk : binding k = 0) : Stops least k := by
  rw [← Nat.le_zero] at hk
  exact ⟨fun _ _ => hk.trans (Nat.zero_le _), fun _ => hk.trans (Nat.zero_le _)⟩

theorem admits_sign : Admits Parse.signLevel prefixLevel := by
  refine ⟨fun l hl => ?_, fun _ => by decide⟩
  have := l.grades
  rw [prefixLevel] at hl
  rw [Parse.signLevel]
  omega

theorem Stops.operand (h : Stops least k) (hl : least ≤ prefixLevel) : Stops prefixLevel k := by
  have hk := h.sign hl
  refine ⟨fun l hl' => hk.trans ?_, fun _ => hk⟩
  have := l.grades
  rw [prefixLevel] at hl'
  rw [Parse.signLevel]
  omega

theorem Admits.callee (h : Admits floor least) (hl : least ≤ postfixLevel) :
    Admits floor postfixLevel := by
  have hfloor := h.call (hl.trans_lt (by decide))
  exact ⟨fun l hl' => hfloor.trans_le hl', fun _ => hfloor⟩

theorem stops_callee (hk : binding k = Parse.callLevel) : Stops postfixLevel k := by
  rw [Parse.callLevel] at hk
  refine ⟨fun l hl => ?_, fun hs => absurd hs (by decide)⟩
  have := l.grades
  rw [postfixLevel] at hl
  omega

end Levels

/-- `s'` stands before `rest`, and no problem was found on the way from `s` -/
structure ParseState.Arrives (s : ParseState) (rest : List Token) (s' : ParseState) : Prop where
  tokens : s'.tokens = rest
  problems : s'.problems = s.problems

theorem ParseState.Arrives.trans {s s' s'' : ParseState} {rest rest' : List Token}
    (h : s.Arrives rest s') (h' : s'.Arrives rest' s'') : s.Arrives rest' s'' :=
  ⟨h'.tokens, h'.problems.trans h.problems⟩

theorem ParseState.arrives_advance {s : ParseState} {t : Token} {us : List Token}
    (h : s.tokens = t :: us) (hne : us ≠ []) : s.Arrives us s.advance := by
  obtain ⟨u, us, rfl⟩ := List.exists_cons_of_ne_nil hne
  have hu : s.upcoming = u :: us := (List.cons.inj h).2
  constructor
  · rw [tokens, advance, hu]
  · rw [advance, hu]

theorem ParseState.kind_of_tokens {s : ParseState} {t : Token} {ts : List Token}
    (h : s.tokens = t :: ts) : s.kind = t.kind := by
  rw [kind, (List.cons.inj h).1]

namespace Parse

/-- a parser reads the tree `e` up to `rest` -/
def ReadsTo (p : Parser Expr) (s : ParseState) (e : Expr) (rest : List Token) : Prop :=
  ∃ e' s', p.run s = (e', s') ∧ e'.placeless = e.placeless ∧ s.Arrives rest s'

/-- from `s` the climbing loop comes to stand before `rest` with the tree `e` on its left -/
def Resumes (d floor : Nat) (s : ParseState) (e : Expr) (rest : List Token) : Prop :=
  ∃ e' s', e'.placeless = e.placeless ∧ s.Arrives rest s' ∧ ∀ r, s.remaining ≤ r →
    ∃ r', rest.length ≤ r' ∧
      (operand (Grammar.ofDepth d) >>= climb (Grammar.ofDepth d) floor r).run s =
        (climb (Grammar.ofDepth d) floor r' e').run s'

section Resumes

variable {d floor : Nat} {s : ParseState} {e : Expr} {next : Token} {rest : List Token}

theorem rounds_ofDepth (d : Nat) : (Grammar.ofDepth d).rounds = d + 1 := by
  cases d <;> rfl

/-- the loop stops before a token that binds no tighter than its floor -/
theorem Resumes.readsTo (h : Resumes d floor s e (next :: rest)) (hk : binding next.kind ≤ floor)
    (hs : s.remaining ≤ d + 1) :
    ReadsTo ((Grammar.ofDepth (d + 1)).expr floor) s e (next :: rest) := by
  obtain ⟨e', s', he, ha, hrun⟩ := h
  obtain ⟨r', -, hr⟩ := hrun (Grammar.ofDepth d).rounds (by rwa [rounds_ofDepth])
  refine ⟨e', s', ?_, he, ha⟩
  rw [climb_stop (by rwa [ParseState.kind_of_tokens ha.tokens])] at hr
  exact hr

/-- an operand of one token or in brackets leaves the loop as it is -/
theorem ReadsTo.resumes (h : ReadsTo (operand (Grammar.ofDepth d)) s e rest)
    (hlen : rest.length ≤ s.remaining) : Resumes d floor s e rest := by
  obtain ⟨e', s', hrun, he, ha⟩ := h
  refine ⟨e', s', he, ha, fun r hr => ⟨r, hlen.trans hr, ?_⟩⟩
  rw [bind_run_of hrun]

end Resumes

/-- reading back what a phrase was written with: an operand wherever the floor admits it and the token
after it stops it, and a series up to the token that closes it -/
def ReadBack : Phrase → List String → Prop
  | .operand least e, ws => ∀ d floor s ts next rest, List.Forall₂ Token.Spells ts ws →
    s.tokens = ts ++ next :: rest → s.remaining ≤ d + 1 → Admits floor least →
    Stops least next.kind → Resumes d floor s e (next :: rest)
  | .items es, ws => ∀ d opened close delimiter r read s ts c next rest,
    List.Forall₂ Token.Spells ts ws → s.tokens = ts ++ c :: next :: rest → c.kind = close →
    close = .closeParen ∨ close = .closeSquare → s.remaining ≤ d → s.remaining ≤ r →
    ∃ es' s', (seriesFrom opened close delimiter ((Grammar.ofDepth d).expr 0) r read).run s =
        (read.reverse ++ es', s') ∧
      placelessExprs es' = placelessExprs es ∧ s.Arrives (next :: rest) s'

section ReadBack

variable {least : Nat} {span : Span} {ws vs : List String} {ts : List Token} {e a b c i : Expr}
  {es : List Expr} {s : ParseState}

theorem spells_append (h : List.Forall₂ Token.Spells ts (ws ++ vs)) :
    ∃ us us', ts = us ++ us' ∧ List.Forall₂ Token.Spells us ws ∧ List.Forall₂ Token.Spells us' vs :=
  ⟨_, _, (List.take_append_drop _ _).symm, List.forall₂_take_append _ _ _ h,
    List.forall₂_drop_append _ _ _ h⟩

theorem remaining_of_tokens {us : List Token} (h : s.tokens = us) : s.remaining = us.length := by
  rw [← s.length_tokens, h]

theorem readBack_ident {name : String} (hn : IsName name) :
    ReadBack (.operand least (.ident span name)) [name] := by
  intro d floor s ts next rest hts htok hd _ _
  obtain ⟨t, _, ht, hnil, rfl⟩ := List.forall₂_cons_right_iff.1 hts
  obtain rfl := List.forall₂_nil_right_iff.1 hnil
  have hk : s.kind = .ident := (ParseState.kind_of_tokens htok).trans (ht.lexes.unique hn.lexes)
  have hcur : s.current = t := (List.cons.inj htok).1
  refine ReadsTo.resumes ⟨_, _, operand_ident hk, ?_, ParseState.arrives_advance htok (by simp)⟩ ?_
  · rw [hcur, ht.text]
    rfl
  · rw [remaining_of_tokens htok]
    simp

theorem readBack_literal {v : Int32} {w : String} (hn : IsNumeral v w) :
    ReadBack (.operand least (.literal span (.int v))) [w] := by
  intro d floor s ts next rest hts htok hd _ _
  obtain ⟨t, _, ht, hnil, rfl⟩ := List.forall₂_cons_right_iff.1 hts
  obtain rfl := List.forall₂_nil_right_iff.1 hnil
  have hk : s.kind = .int := (ParseState.kind_of_tokens htok).trans (ht.lexes.unique hn.lexes)
  have hcur : s.current = t := (List.cons.inj htok).1
  refine ReadsTo.resumes ⟨_, _, operand_int hk, ?_, ParseState.arrives_advance htok (by simp)⟩ ?_
  · rw [hcur, ht.text, int_of_numeral hn]
    rfl
  · rw [remaining_of_tokens htok]
    simp

/-- the first token of an operand is not skipped, and closes nothing -/
theorem start_kind (h : Phrase.Starts (.operand least e) ws) (hts : List.Forall₂ Token.Spells ts ws)
    {more : List Token} (htok : s.tokens = ts ++ more) : s.kind ∈ starters := by
  obtain ⟨w, vs, k, rfl, hw, hk⟩ := h
  obtain ⟨t, us, ht, -, rfl⟩ := List.forall₂_cons_right_iff.1 hts
  rw [ParseState.kind_of_tokens htok, ht.lexes.unique hw]
  exact hk

theorem ne_of_mem_starters {k l : TokenKind} (h : k ∈ starters) (h' : l ∉ starters) : k ≠ l := by
  rintro rfl
  exact h' h

/-- an expression inside another, up to a token that ends it -/
theorem ReadBack.readsTo (h : ReadBack (.operand least e) ws) {d floor : Nat} {next : Token}
    {rest : List Token} (hts : List.Forall₂ Token.Spells ts ws) (htok : s.tokens = ts ++ next :: rest)
    (hd : s.remaining ≤ d) (ha : Admits floor least) (hs : Stops least next.kind)
    (hk : binding next.kind ≤ floor) :
    ReadsTo ((Grammar.ofDepth d).expr floor) s e (next :: rest) := by
  obtain ⟨d, rfl⟩ := Nat.exists_eq_add_of_le' ((Nat.succ_pos s.upcoming.length).trans_le hd)
  exact (h d floor s ts next rest hts htok hd ha hs).readsTo hk hd

theorem readBack_group (hstart : Phrase.Starts (.operand 0 e) ws)
    (h : ReadBack (.operand 0 e) ws) : ReadBack (.operand least e) ("(" :: (ws ++ [")"])) := by
  intro d floor s ts next rest hts htok hd _ _
  obtain ⟨t, us, ht, hus, rfl⟩ := List.forall₂_cons_right_iff.1 hts
  obtain ⟨us, us', rfl, hws, hclose⟩ := spells_append hus
  obtain ⟨u, _, hu, hnil, rfl⟩ := List.forall₂_cons_right_iff.1 hclose
  obtain rfl := List.forall₂_nil_right_iff.1 hnil
  have huk : u.kind = .closeParen := hu.lexes.unique lexes_closeParen
  have hk : s.kind = .openParen :=
    (ParseState.kind_of_tokens htok).trans (ht.lexes.unique lexes_openParen)
  have hbind : binding u.kind = 0 := by rw [huk]; rfl
  rw [List.cons_append, List.append_assoc, List.singleton_append] at htok
  have h1 := ParseState.arrives_advance htok (by simp)
  have hrem := remaining_of_tokens htok
  have hrem1 := remaining_of_tokens h1.tokens
  simp only [List.length_cons, List.length_append] at hrem hrem1
  obtain ⟨e', s2, hrun, he, h2⟩ := h.readsTo (d := d) hws h1.tokens (by omega) admits_zero
    (stops_of_binding_eq_zero hbind) hbind.le
  have hn := ne_of_mem_starters (start_kind hstart hws h1.tokens) (l := .newline) (by decide)
  obtain ⟨span, hgroup⟩ := group_run hn hrun ((ParseState.kind_of_tokens h2.tokens).trans huk)
  refine ReadsTo.resumes ⟨_, _, (operand_openParen hk).trans hgroup, ?_, ?_⟩ ?_
  · rw [Expr.placeless_withSpan, he]
  · exact (h1.trans h2).trans (ParseState.arrives_advance h2.tokens (by simp))
  · rw [List.length_cons]
    omega

theorem readBack_sign {op : UnaryOp} (hl : least ≤ prefixLevel)
    (h : ReadBack (.operand prefixLevel e) ws) :
    ReadBack (.operand least (.unary span op e)) (op.symbol :: ws) := by
  intro d floor s ts next rest hts htok hd _ hs
  obtain ⟨t, us, ht, hws, rfl⟩ := List.forall₂_cons_right_iff.1 hts
  have hk : s.kind = op.token := (ParseState.kind_of_tokens htok).trans (ht.lexes.unique op.lexes)
  rw [List.cons_append] at htok
  have h1 := ParseState.arrives_advance htok (by simp)
  have hrem := remaining_of_tokens htok
  have hrem1 := remaining_of_tokens h1.tokens
  simp only [List.length_cons, List.length_append] at hrem hrem1
  obtain ⟨e', s2, hrun, he, h2⟩ := h.readsTo (d := d) hws h1.tokens (by omega) admits_sign
    (hs.operand hl) (hs.sign hl)
  refine ReadsTo.resumes ⟨_, _, operand_sign hk hrun, ?_, h1.trans h2⟩ ?_
  · simp only [Expr.placeless, he]
  · rw [List.length_cons]
    omega

theorem placeless_join {l : Link} {a' b' : Expr} (ha : a'.placeless = a.placeless)
    (hb : b'.placeless = b.placeless) :
    (l.join a' b').placeless = (l.node span a b).placeless := by
  cases l <;> simp only [Link.join, Link.node, Expr.placeless, ha, hb]

theorem readBack_link {l : Link} (hl : least ≤ l.tier.1)
    (hstart : Phrase.Starts (.operand l.rightNeed b) vs) (ha : ReadBack (.operand l.leftNeed a) ws)
    (hb : ReadBack (.operand l.rightNeed b) vs) :
    ReadBack (.operand least (l.node span a b)) (ws ++ l.symbol :: vs) := by
  intro d floor s ts next rest hts htok hd hadm hs
  rw [l.tier_fst] at hl
  obtain ⟨us, us', rfl, hws, hvs⟩ := spells_append hts
  obtain ⟨t, vs', ht, hvs', rfl⟩ := List.forall₂_cons_right_iff.1 hvs
  have htk : t.kind = l.token := ht.lexes.unique l.lexes
  rw [List.append_assoc, List.cons_append] at htok
  obtain ⟨a', s1, hea, h1, hrun1⟩ := ha d floor s us t _ hws htok hd (hadm.left hl)
    (htk ▸ stops_left)
  have h2 := h1.trans (ParseState.arrives_advance h1.tokens (by simp))
  have hrem := remaining_of_tokens htok
  have hrem2 := remaining_of_tokens h2.tokens
  simp only [List.length_cons, List.length_append] at hrem hrem2
  have hk := hs.link l hl
  obtain ⟨b', s3, hrun3, heb, h3⟩ := hb.readsTo (d := d) hvs' h2.tokens (by omega) admits_right
    (stops_right hk) hk
  have hn := ne_of_mem_starters (start_kind hstart hvs' h2.tokens) (l := .newline) (by decide)
  refine ⟨l.join a' b', s3, placeless_join hea heb, h2.trans h3, fun r hr => ?_⟩
  obtain ⟨r1, hr1, hrun⟩ := hrun1 r hr
  rw [List.length_cons, List.length_append] at hr1
  obtain ⟨r2, rfl⟩ := Nat.exists_eq_add_of_le' ((Nat.succ_pos _).trans_le hr1)
  refine ⟨r2, by rw [List.length_cons] at hr1 ⊢; omega, ?_⟩
  rw [hrun, climb_link ((ParseState.kind_of_tokens h1.tokens).trans htk) (hadm.link l hl) hn,
    bind_run_of hrun3]

theorem readBack_none : ReadBack (.items []) [] := by
  intro d opened close delimiter r read s ts c next rest hts htok hc hclose hd hr
  obtain rfl := List.forall₂_nil_right_iff.1 hts
  rw [List.nil_append] at htok
  obtain ⟨r, rfl⟩ := Nat.exists_eq_add_of_le' ((Nat.succ_pos s.upcoming.length).trans_le hr)
  have hn : close ≠ .newline := by rcases hclose with rfl | rfl <;> decide
  refine ⟨[], s.advance, ?_, rfl, ParseState.arrives_advance htok (by simp)⟩
  rw [seriesFrom_close ((ParseState.kind_of_tokens htok).trans hc) hn, List.append_nil]

/-- the first item of a series, up to the token after it -/
theorem seriesFrom_readBack (hstart : Phrase.Starts (.operand 0 e) ws)
    (h : ReadBack (.operand 0 e) ws) {d r : Nat} {opened : Span} {close : TokenKind}
    {delimiter : Char} {read : List Expr} {u : Token} {rest : List Token}
    (hts : List.Forall₂ Token.Spells ts ws) (htok : s.tokens = ts ++ u :: rest)
    (hu : u.kind = .comma ∨ u.kind = close) (hclose : close = .closeParen ∨ close = .closeSquare)
    (hd : s.remaining ≤ d) :
    ∃ e' s', (seriesFrom opened close delimiter ((Grammar.ofDepth d).expr 0) (r + 1) read).run s =
        (seriesRest opened close delimiter ((Grammar.ofDepth d).expr 0) r e' read).run s' ∧
      e'.placeless = e.placeless ∧ s.Arrives (u :: rest) s' := by
  have hbind : binding u.kind = 0 := by
    rcases hu with hu | hu <;> rw [hu]
    · rfl
    · rcases hclose with rfl | rfl <;> rfl
  obtain ⟨e', s', hrun, he, ha⟩ := h.readsTo hts htok hd admits_zero
    (stops_of_binding_eq_zero hbind) hbind.le
  have hk := start_kind hstart hts htok
  have hu' : s'.kind = .comma ∨ s'.kind = close := by
    rwa [ParseState.kind_of_tokens ha.tokens]
  refine ⟨e', s', ?_, he, ha⟩
  refine seriesFrom_item (ne_of_mem_starters hk (by decide)) (ne_of_mem_starters hk ?_)
    (ne_of_mem_starters hk (by decide)) hrun hu'
  rcases hclose with rfl | rfl <;> decide

theorem readBack_one (hstart : Phrase.Starts (.operand 0 e) ws) (h : ReadBack (.operand 0 e) ws) :
    ReadBack (.items [e]) ws := by
  intro d opened close delimiter r read s ts c next rest hts htok hc hclose hd hr
  obtain ⟨r, rfl⟩ := Nat.exists_eq_add_of_le' ((Nat.succ_pos s.upcoming.length).trans_le hr)
  obtain ⟨e', s', hrun, he, ha⟩ := seriesFrom_readBack hstart h hts htok (.inr hc) hclose hd
  have hne : close ≠ .newline ∧ close ≠ .comma := by rcases hclose with rfl | rfl <;> decide
  refine ⟨[e'], s'.advance, ?_, ?_, ha.trans (ParseState.arrives_advance ha.tokens (by simp))⟩
  · rw [hrun, seriesRest_close ((ParseState.kind_of_tokens ha.tokens).trans hc) hne.1 hne.2,
      List.reverse_cons]
  · rw [placelessExprs, placelessExprs, he]
    rfl

theorem readBack_more (hstart : Phrase.Starts (.operand 0 e) ws) (h : ReadBack (.operand 0 e) ws)
    (hes : ReadBack (.items es) vs) : ReadBack (.items (e :: es)) (ws ++ "," :: vs) := by
  intro d opened close delimiter r read s ts c next rest hts htok hc hclose hd hr
  obtain ⟨us, us', rfl, hws, hvs⟩ := spells_append hts
  obtain ⟨u, vs', hu, hvs', rfl⟩ := List.forall₂_cons_right_iff.1 hvs
  have huk : u.kind = .comma := hu.lexes.unique lexes_comma
  rw [List.append_assoc, List.cons_append] at htok
  obtain ⟨r, rfl⟩ := Nat.exists_eq_add_of_le' ((Nat.succ_pos s.upcoming.length).trans_le hr)
  obtain ⟨e', s1, hrun, he, h1⟩ := seriesFrom_readBack hstart h hws htok (.inl huk) hclose hd
  have h2 := h1.trans (ParseState.arrives_advance h1.tokens (by simp))
  have hrem := remaining_of_tokens htok
  have hrem2 := remaining_of_tokens h2.tokens
  simp only [List.length_cons, List.length_append] at hrem hrem2
  obtain ⟨es', s3, hrun3, hpl, h3⟩ := hes d opened close delimiter r (e' :: read) s1.advance vs' c
    next rest hvs' h2.tokens hc hclose (by omega) (by omega)
  refine ⟨e' :: es', s3, ?_, ?_, h2.trans h3⟩
  · rw [hrun, seriesRest_comma ((ParseState.kind_of_tokens h1.tokens).trans huk), hrun3]
    simp
  · rw [placelessExprs, placelessExprs, he, hpl]

/-- a series in brackets, from the opening one -/
theorem ReadBack.series (h : ReadBack (.items es) vs) {d : Nat} {opened : Span} {close : TokenKind}
    {delimiter : Char} {t next : Token} {rest : List Token} {w : String}
    (hts : List.Forall₂ Token.Spells ts (vs ++ [w])) (hw : Lexes w close)
    (hclose : close = .closeParen ∨ close = .closeSquare)
    (htok : s.tokens = t :: (ts ++ next :: rest)) (hd : s.remaining ≤ d + 1) :
    ∃ es' s', (series (Grammar.ofDepth d) opened close delimiter ((Grammar.ofDepth d).expr 0)).run
        s.advance = (es', s') ∧
      placelessExprs es' = placelessExprs es ∧ s.Arrives (next :: rest) s' := by
  obtain ⟨us, us', rfl, hvs, hend⟩ := spells_append hts
  obtain ⟨u, _, hu, hnil, rfl⟩ := List.forall₂_cons_right_iff.1 hend
  obtain rfl := List.forall₂_nil_right_iff.1 hnil
  rw [List.append_assoc, List.singleton_append] at htok
  have h1 := ParseState.arrives_advance htok (by simp)
  have hrem := remaining_of_tokens htok
  have hrem1 := remaining_of_tokens h1.tokens
  simp only [List.length_cons, List.length_append] at hrem hrem1
  obtain ⟨es', s', hrun, hpl, h2⟩ := h d opened close delimiter (Grammar.ofDepth d).rounds []
    s.advance us u next rest hvs h1.tokens (hu.lexes.unique hw) hclose (by omega)
    (by rw [rounds_ofDepth]; omega)
  exact ⟨es', s', hrun, hpl, h1.trans h2⟩

theorem readBack_array (h : ReadBack (.items es) ws) :
    ReadBack (.operand least (.array span es)) ("[" :: (ws ++ ["]"])) := by
  intro d floor s ts next rest hts htok hd _ _
  obtain ⟨t, us, ht, hus, rfl⟩ := List.forall₂_cons_right_iff.1 hts
  have hk : s.kind = .openSquare :=
    (ParseState.kind_of_tokens htok).trans (ht.lexes.unique lexes_openSquare)
  rw [List.cons_append] at htok
  obtain ⟨es', s', hrun, hpl, ha⟩ := h.series hus lexes_closeSquare (.inr rfl) htok hd
  obtain ⟨sp, harray⟩ := array_run hrun
  refine ReadsTo.resumes ⟨_, _, (operand_openSquare hk).trans harray, ?_, ha⟩ ?_
  · simp only [Expr.placeless, hpl]
  · rw [remaining_of_tokens htok]
    simp only [List.length_cons, List.length_append]
    omega

/-- what stands after a callee or an array is read in one round of the loop -/
theorem Resumes.extend {d floor : Nat} {t : Token} {mid rest : List Token}
    {p : Expr → Parser Expr} (h : Resumes d floor s a (t :: mid))
    (hround : ∀ r a' s', s'.kind = t.kind →
      (climb (Grammar.ofDepth d) floor (r + 1) a').run s' =
        (p a' >>= climb (Grammar.ofDepth d) floor r).run s')
    (hp : ∀ a' s', a'.placeless = a.placeless → s.Arrives (t :: mid) s' → ReadsTo (p a') s' e rest)
    (hlen : rest.length ≤ mid.length) : Resumes d floor s e rest := by
  obtain ⟨a', s1, hea, h1, hrun1⟩ := h
  obtain ⟨e', s2, hrun2, he, h2⟩ := hp a' s1 hea h1
  refine ⟨e', s2, he, h1.trans h2, fun r hr => ?_⟩
  obtain ⟨r1, hr1, hrun⟩ := hrun1 r hr
  rw [List.length_cons] at hr1
  obtain ⟨r2, rfl⟩ := Nat.exists_eq_add_of_le' ((Nat.succ_pos _).trans_le hr1)
  refine ⟨r2, by omega, ?_⟩
  rw [hrun, hround r2 a' s1 (ParseState.kind_of_tokens h1.tokens), bind_run_of hrun2]

theorem readBack_call (hl : least ≤ postfixLevel) (hc : ReadBack (.operand postfixLevel c) ws)
    (hes : ReadBack (.items es) vs) :
    ReadBack (.operand least (.call span c es)) (ws ++ "(" :: (vs ++ [")"])) := by
  intro d floor s ts next rest hts htok hd hadm _
  obtain ⟨us, us', rfl, hws, hvs⟩ := spells_append hts
  obtain ⟨t, vs', ht, hvs', rfl⟩ := List.forall₂_cons_right_iff.1 hvs
  have htk : t.kind = .openParen := ht.lexes.unique lexes_openParen
  have hfloor : floor < callLevel := hadm.call (hl.trans_lt (by decide))
  rw [List.append_assoc, List.cons_append] at htok
  have hcallee := hc d floor s us t _ hws htok hd (hadm.callee hl) (stops_callee (by rw [htk]; rfl))
  refine hcallee.extend (p := call (Grammar.ofDepth d)) (fun r c' s' hk => ?_)
    (fun c' s1 hec h1 => ?_) (by simp)
  · exact climb_call (hk.trans htk) hfloor
  · have hrem := remaining_of_tokens htok
    have hrem1 := remaining_of_tokens h1.tokens
    rw [List.length_append] at hrem
    obtain ⟨es', s2, hrun, hpl, h2⟩ := hes.series hvs' lexes_closeParen (.inl rfl) h1.tokens
      (d := d) (by omega)
    obtain ⟨sp, hcall⟩ := call_run hrun
    refine ⟨_, _, hcall, ?_, h2⟩
    simp only [Expr.placeless, hec, hpl]

theorem readBack_index (hl : least ≤ postfixLevel) (ha : ReadBack (.operand postfixLevel a) ws)
    (hi : ReadBack (.items [i]) vs) :
    ReadBack (.operand least (.index span a i)) (ws ++ "[" :: (vs ++ ["]"])) := by
  intro d floor s ts next rest hts htok hd hadm _
  obtain ⟨us, us', rfl, hws, hvs⟩ := spells_append hts
  obtain ⟨t, vs', ht, hvs', rfl⟩ := List.forall₂_cons_right_iff.1 hvs
  have htk : t.kind = .openSquare := ht.lexes.unique lexes_openSquare
  have hfloor : floor < callLevel := hadm.call (hl.trans_lt (by decide))
  rw [List.append_assoc, List.cons_append] at htok
  have harray := ha d floor s us t _ hws htok hd (hadm.callee hl) (stops_callee (by rw [htk]; rfl))
  refine harray.extend (p := index (Grammar.ofDepth d)) (fun r a' s' hk => ?_)
    (fun a' s1 hea h1 => ?_) (by simp)
  · exact climb_index (hk.trans htk) hfloor
  · have hrem := remaining_of_tokens htok
    have hrem1 := remaining_of_tokens h1.tokens
    rw [List.length_append] at hrem
    obtain ⟨is, s2, hrun, hpl, h2⟩ := hi.series hvs' lexes_closeSquare (.inr rfl) h1.tokens
      (d := d) (by omega)
    obtain ⟨i', rfl, hei⟩ : ∃ i', is = [i'] ∧ i'.placeless = i.placeless := by
      rcases is with _ | ⟨i', _ | ⟨_, _⟩⟩ <;> simp_all [placelessExprs]
    obtain ⟨sp, hindex⟩ := index_run hrun
    refine ⟨_, _, hindex, ?_, h2⟩
    simp only [Expr.placeless, hea, hei]

end ReadBack

/-- every rendering is read back -/
theorem readBack_of_renders {p : Phrase} {ws : List String} (h : Renders p ws) : ReadBack p ws := by
  induction h with
  | ident hn => exact readBack_ident hn
  | literal hn => exact readBack_literal hn
  | group h ih => exact readBack_group h.starts ih
  | sign hl _ ih => exact readBack_sign hl ih
  | link hl _ hb iha ihb => exact readBack_link hl hb.starts iha ihb
  | call hl _ _ ihc ihs => exact readBack_call hl ihc ihs
  | index hl _ hi iha ihi => exact readBack_index hl iha (readBack_one hi.starts ihi)
  | array _ ih => exact readBack_array ih
  | none => exact readBack_none
  | one h ih => exact readBack_one h.starts ih
  | more h _ ihe ihs => exact readBack_more h.starts ihe ihs

end Parse

theorem isTrivia_of_spells {ts : List Token} {ws : List String}
    (h : List.Forall₂ Token.Spells ts ws) (hw : ∀ w ∈ ws, ∃ k, Lexes w k ∧ k.isTrivia = false) :
    ∀ t ∈ ts, t.kind.isTrivia = false := by
  induction h with
  | nil => simp
  | cons ht _ ih =>
    rw [List.forall_mem_cons] at hw ⊢
    obtain ⟨⟨k, hk, htriv⟩, hw⟩ := hw
    exact ⟨by rw [ht.lexes.unique hk, htriv], ih hw⟩

/-- without comments the state before a token list holds all of it -/
theorem ParseState.ofTokens_of_no_trivia {all : List Token} (hne : all ≠ [])
    (h : ∀ t ∈ all, t.kind.isTrivia = false) :
    (ofTokens all).tokens = all ∧ (ofTokens all).problems.kept = [] := by
  have hfilter : all.filter (!·.kind.isTrivia) = all := by
    refine List.filter_eq_self.2 fun t ht => ?_
    rw [h t ht]
    rfl
  obtain ⟨t, ts, rfl⟩ := List.exists_cons_of_ne_nil hne
  unfold ofTokens
  rw [hfilter]
  exact ⟨rfl, rfl⟩

theorem parse_rendering (e : Expr) (ws : List String) (text : String) (marker : Char)
    (hr : Renders (.operand 0 e) ws) (hs : Spaced ws text.toList) :
    { Lexer.ofSource text with marker := marker }.allErrors = [] ∧
    ∃ e' s', Parse.nextExpr.run
        (.ofTokens { Lexer.ofSource text with marker := marker }.tokens) = (e', s') ∧
      e'.placeless = e.placeless ∧ s'.kind = .eof ∧ s'.upcoming = [] ∧ s'.problems.kept = [] := by
  obtain ⟨ts, last, htok, hlast, hts, herr⟩ := tokens_spaced
    (l := { Lexer.ofSource text with marker := marker }) rfl rfl hs
    fun w hw => (hr.lexes w hw).imp fun _ hk => hk.1
  have hplain : ∀ t ∈ ts ++ [last], t.kind.isTrivia = false := by
    rw [List.forall_mem_append, List.forall_mem_singleton, hlast]
    exact ⟨isTrivia_of_spells hts hr.lexes, rfl⟩
  rw [htok]
  obtain ⟨htokens, hclean⟩ := ParseState.ofTokens_of_no_trivia (by simp) hplain
  generalize ParseState.ofTokens (ts ++ [last]) = s at htokens hclean
  have hbind : binding last.kind = 0 := by rw [hlast]; rfl
  obtain ⟨e', s', hrun, he, ha⟩ := (Parse.readBack_of_renders hr).readsTo hts htokens le_rfl
    admits_zero (stops_of_binding_eq_zero hbind) hbind.le
  refine ⟨herr, e', s', (get_bind_run _ s).trans hrun, he, ?_, ?_, ?_⟩
  · rw [ParseState.kind_of_tokens ha.tokens, hlast]
  · exact (List.cons.inj ha.tokens).2
  · rw [ha.problems, hclean]

/-- `- f ( 1 ) [ x ]`: the call and the index bind tighter than the sign -/
def signedIndex : Expr :=
  .unary .nowhere .neg (.index .nowhere
    (.call .nowhere (.ident .nowhere "f") [.literal .nowhere (.int 1)]) (.ident .nowhere "x"))

/-- `a = b`, which needs parentheses as an end of a range -/
def assignment : Expr := .binary .nowhere (.ident .nowhere "a") .assign (.ident .nowhere "b")

theorem parse_rendering_range : ∃ ws,
    Renders (.operand 0 (.range .nowhere signedIndex assignment false)) ws ∧
    Spaced ws " - f ( 1 ) [ x ] .. ( a = b )".toList ∧
    { Lexer.ofSource " - f ( 1 ) [ x ] .. ( a = b )" with marker := '$' }.allErrors = [] ∧
    ∃ e' s', Parse.nextExpr.run (.ofTokens
        { Lexer.ofSource " - f ( 1 ) [ x ] .. ( a = b )" with marker := '$' }.tokens) = (e', s') ∧
      e'.placeless = .range .nowhere signedIndex assignment false ∧
      s'.kind = .eof ∧ s'.upcoming = [] ∧ s'.problems.kept = [] := by
  have f : IsName "f" := ⟨⟨_, _, rfl, by decide⟩, by simp, by decide⟩
  have x : IsName "x" := ⟨⟨_, _, rfl, by decide⟩, by simp, by decide⟩
  have a : IsName "a" := ⟨⟨_, _, rfl, by decide⟩, by simp, by decide⟩
  have b : IsName "b" := ⟨⟨_, _, rfl, by decide⟩, by simp, by decide⟩
  have one : IsNumeral 1 "1" := ⟨by decide, by decide, by simp, rfl⟩
  have left : Renders (.operand (Link.range false).leftNeed signedIndex)
      ["-", "f", "(", "1", ")", "[", "x", "]"] :=
    .sign (by decide) (.index (by decide)
      (.call (by decide) (.ident f) (.one (.literal one))) (.ident x))
  have right : Renders (.operand (Link.range false).rightNeed assignment)
      ["(", "a", "=", "b", ")"] :=
    .group (.link (l := .binary .assign) (Nat.zero_le _) (.ident a) (.ident b))
  have hr : Renders (.operand 0 (.range .nowhere signedIndex assignment false))
      ["-", "f", "(", "1", ")", "[", "x", "]", "..", "(", "a", "=", "b", ")"] :=
    .link (l := .range false) (Nat.zero_le _) left right
  have hs := spaced_flatMap ["-", "f", "(", "1", ")", "[", "x", "]", "..", "(", "a", "=", "b", ")"]
  exact ⟨_, hr, hs, parse_rendering _ _ _ '$' hr hs⟩

end AutoLang
