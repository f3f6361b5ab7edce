import AutoLang.Proofs.Parse.Evaluation
import AutoLang.Proofs.Parse.Soundness
import Mathlib

/-! Where the nodes of a tree stand. A node stands on the tokens it was read from, from the beginning of
the first to the end of the last; its children were read from runs of these tokens, one behind the
other. As tokens stand in order, spans nest, and those of children follow each other. -/

namespace AutoLang

/-- an expression or a statement of a tree -/
inductive Node where
  | expr (e : Expr)
  | stmt (x : Stmt)

/-- the parts of an expression in the order of the text -/
def Expr.children : Expr → List Node
  | .literal _ _ | .ident _ _ | .ref _ _ => []
  | .unary _ _ e => [.expr e]
  | .binary _ a _ b | .range _ a b _ | .index _ a b => [.expr a, .expr b]
  | .array _ es | .format _ es => es.map .expr
  | .pair _ f => [.expr f.value]
  | .object _ fs => fs.map (.expr ·.value)
  | .block _ b => b.map .stmt
  | .call _ c as => .expr c :: as.map .expr
  | .cond _ t y n => .expr t :: .expr y :: n.toList.map .expr

/-- the parts of a statement in the order of the text -/
def Stmt.children : Stmt → List Node
  | .expr _ e | .store _ _ _ e => [.expr e]
  | .cond _ t y n => .expr t :: .stmt y :: n.toList.map .stmt
  | .loop _ _ e b => [.expr e, .stmt b]
  | .block _ b | .function _ _ _ _ b => b.map .stmt
  | .blank _ | .leave _ => []

namespace Node

def span : Node → Span
  | expr e => e.span
  | stmt x => x.span

def children : Node → List Node
  | expr e => e.children
  | stmt x => x.children

/-- that tokens make the node; a branch of a conditional expression is the statements in its braces, and
the text of a format string is a string -/
inductive MadeOf : Node → List Token → Prop
  | expr {e : Expr} {ts : List Token} : Derives (.expr e) ts → MadeOf (.expr e) ts
  | branch {place : Span} {xs : List Stmt} {ts : List Token} : Derives (.braces place xs) ts →
    MadeOf (.expr (.block place xs)) ts
  | text {t : Token} : t.kind = .formatText → MadeOf (.expr (.literal t.span (.str t.text))) [t]
  | stmt {x : Stmt} {ts : List Token} : Derives (.stmt x) ts → MadeOf (.stmt x) ts

end Node

/-- the nodes of a program: its statements, and what is below them -/
inductive NodeOf (code : Code) : Node → Prop
  | statement {x : Stmt} : x ∈ code → NodeOf code (.stmt x)
  | child {p c : Node} : NodeOf code p → c ∈ p.children → NodeOf code c

@[simp] theorem Expr.span_withSpan (s : Span) (e : Expr) : (e.withSpan s).span = s := by
  cases e <;> rfl

@[simp] theorem Expr.children_withSpan (s : Span) (e : Expr) :
    (e.withSpan s).children = e.children := by
  cases e <;> rfl

@[simp] theorem span_join (l : Link) (a b : Expr) : (l.join a b).span = a.span.merge b.span := by
  cases l <;> rfl

@[simp] theorem children_join (l : Link) (a b : Expr) :
    (l.join a b).children = [.expr a, .expr b] := by
  cases l <;> rfl

/-- tokens that stand one behind the other -/
def Ordered (ts : List Token) : Prop := ts.Pairwise fun t u => t.span.stop ≤ u.span.offset

namespace Ordered

variable {t : Token} {ts us : List Token}

theorem tail (h : Ordered (t :: ts)) : Ordered ts := List.Pairwise.of_cons h

theorem left (h : Ordered (ts ++ us)) : Ordered ts := h.sublist (List.sublist_append_left ts us)

theorem right (h : Ordered (ts ++ us)) : Ordered us := h.sublist (List.sublist_append_right ts us)

end Ordered

section Spanning

/-- a stretch from the beginning of the first of some tokens to the end of the last -/
structure Spanning (s : Span) (ts : List Token) : Prop where
  starts : ∃ t ∈ ts.head?, s.line = t.span.line ∧ s.column = t.span.column ∧ s.offset = t.span.offset
  ends : ∃ t ∈ ts.getLast?, s.stop = t.span.stop

namespace Spanning

variable {a b : Span} {ts us : List Token}

theorem token (t : Token) : Spanning t.span [t] := ⟨⟨t, rfl, rfl, rfl, rfl⟩, t, rfl, rfl⟩

theorem offset_le_stop (s : Span) : s.offset ≤ s.stop := Nat.le_add_right _ _

/-- a stretch over tokens lies behind one over tokens before -/
theorem stop_le (ha : Spanning a ts) (hb : Spanning b us) (h : Ordered (ts ++ us)) :
    a.stop ≤ b.offset := by
  obtain ⟨last, hlast, hstop⟩ := ha.ends
  obtain ⟨first, hfirst, -, -, hoffset⟩ := hb.starts
  rw [hstop, hoffset]
  exact (List.pairwise_append.1 h).2.2 last (List.mem_of_getLast? hlast) first
    (List.mem_of_head? hfirst)

/-- two stretches, and what stands between them, make one -/
theorem merge (ha : Spanning a ts) (ms : List Token) (hb : Spanning b us)
    (h : Ordered (ts ++ (ms ++ us))) :
    Spanning (a.merge b) (ts ++ (ms ++ us)) := by
  have hsub : (ts ++ us).Sublist (ts ++ (ms ++ us)) :=
    (List.sublist_append_right ms us).append_left ts
  have hbehind : a.stop ≤ b.offset := ha.stop_le hb (h.sublist hsub)
  have ha' := offset_le_stop a
  have hb' := offset_le_stop b
  have hfirst : a.merge b = { a with length := max a.stop b.stop - a.offset } := by
    rw [Span.merge, if_pos (by omega)]
  have hstop : (a.merge b).stop = b.stop := by
    rw [hfirst]
    simp only [Span.stop] at *
    omega
  constructor
  case starts =>
    obtain ⟨t, ht, hplace⟩ := ha.starts
    refine ⟨t, ?_, by rw [hfirst]; exact hplace⟩
    rw [List.head?_append, Option.mem_def.1 ht]
    rfl
  case ends =>
    obtain ⟨t, ht, hend⟩ := hb.ends
    refine ⟨t, ?_, hstop.trans hend⟩
    rw [← List.append_assoc, List.getLast?_append, Option.mem_def.1 ht]
    rfl

/-- a stretch grows to the end of the tokens behind it -/
theorem toEnd (ha : Spanning a ts) (h : Ordered (ts ++ us)) :
    Spanning (a.merge (lastSpan a us)) (ts ++ us) := by
  rcases List.eq_nil_or_concat us with rfl | ⟨ms, t, rfl⟩
  · have hself : a.merge a = a := by simp [Span.merge, Span.stop]
    rwa [lastSpan_nil, hself, List.append_nil]
  · rw [List.concat_eq_append] at h ⊢
    rw [lastSpan_append]
    exact ha.merge ms (token t) h

/-- a stretch from a token to the end of those behind it -/
theorem ofFirst {t : Token} (h : Ordered (t :: us)) :
    Spanning (t.span.merge (lastSpan t.span us)) (t :: us) :=
  (token t).toEnd h

/-- every token of an ordered run lies in the stretch over the run -/
theorem covers {t : Token} (hs : Spanning a ts) (h : Ordered ts) (ht : t ∈ ts) :
    a.offset ≤ t.span.offset ∧ t.span.stop ≤ a.stop := by
  have hroom := offset_le_stop t.span
  constructor
  · obtain ⟨first, hfirst, -, -, hoffset⟩ := hs.starts
    obtain ⟨us, rfl⟩ := List.head?_eq_some_iff.1 hfirst
    rw [hoffset]
    rcases List.mem_cons.1 ht with rfl | ht
    · exact le_rfl
    · exact (offset_le_stop _).trans ((List.pairwise_cons.1 h).1 t ht)
  · obtain ⟨last, hlast, hstop⟩ := hs.ends
    obtain ⟨us, rfl⟩ := List.getLast?_eq_some_iff.1 hlast
    rw [hstop]
    rcases List.mem_append.1 ht with ht | ht
    · exact ((List.pairwise_append.1 h).2.2 t ht last List.mem_cons_self).trans (offset_le_stop _)
    · rw [List.mem_singleton.1 ht]

/-- what spans some of the tokens lies in what spans them all -/
theorem contains (hs : Spanning a ts) (h : Ordered ts) (hb : Spanning b us) (hsub : us ⊆ ts) :
    a.offset ≤ b.offset ∧ b.stop ≤ a.stop := by
  obtain ⟨first, hfirst, -, -, hoffset⟩ := hb.starts
  obtain ⟨last, hlast, hstop⟩ := hb.ends
  rw [hoffset, hstop]
  exact ⟨(hs.covers h (hsub (List.mem_of_head? hfirst))).1,
    (hs.covers h (hsub (List.mem_of_getLast? hlast))).2⟩

end Spanning

end Spanning

section Laid

/-- nodes that were read, each as `R` says, from runs of some tokens, one behind the other -/
inductive Laid (R : Node → List Token → Prop) : List Node → List Token → Prop
  | done (ts : List Token) : Laid R [] ts
  | next {n : Node} {ns : List Node} {us vs : List Token} (gap : List Token) : R n us →
    Laid R ns vs → Laid R (n :: ns) (gap ++ (us ++ vs))

/-- the node was read from the tokens: they make it and it spans them, and its children were read from
runs of them -/
inductive ReadFrom : Node → List Token → Prop
  | mk {n : Node} {ts : List Token} : n.MadeOf ts → Spanning n.span ts →
    Laid ReadFrom n.children ts → ReadFrom n ts

namespace Laid

variable {R : Node → List Token → Prop} {n : Node} {ms ns : List Node} {ts us : List Token}

theorem behind (gap : List Token) (h : Laid R ns ts) : Laid R ns (gap ++ ts) := by
  cases h with
  | done => exact .done _
  | next more hn hns =>
    rw [← List.append_assoc]
    exact .next (gap ++ more) hn hns

theorem token (t : Token) (h : Laid R ns ts) : Laid R ns (t :: ts) := h.behind [t]

theorem append (hm : Laid R ms ts) (hn : Laid R ns us) : Laid R (ms ++ ns) (ts ++ us) := by
  induction hm with
  | done ts => exact hn.behind ts
  | next gap hr _ ih =>
    rw [List.append_assoc, List.append_assoc]
    exact .next gap hr ih

theorem before (h : Laid R ns ts) (us : List Token) : Laid R ns (ts ++ us) := by
  have := h.append (.done us)
  rwa [List.append_nil] at this

theorem one (h : R n ts) : Laid R [n] ts := by
  have := Laid.next [] h (.done [])
  rwa [List.nil_append, List.append_nil] at this

/-- each of the nodes was read from a run of the tokens -/
theorem exists_infix (h : Laid R ns ts) (hn : n ∈ ns) : ∃ us, us <:+: ts ∧ R n us := by
  induction h with
  | done => cases hn
  | @next _ _ us vs gap hr _ ih =>
    rcases List.mem_cons.1 hn with rfl | hn
    · exact ⟨us, ⟨gap, vs, by rw [List.append_assoc]⟩, hr⟩
    · obtain ⟨ws, hws, hr⟩ := ih hn
      refine ⟨ws, hws.trans ?_, hr⟩
      exact ⟨gap ++ us, [], by simp⟩

end Laid

namespace ReadFrom

variable {n : Node} {ns : List Node} {ts us : List Token}

theorem spanning (h : ReadFrom n ts) : Spanning n.span ts := by
  cases h with
  | mk _ h _ => exact h

theorem children (h : ReadFrom n ts) : Laid ReadFrom n.children ts := by
  cases h with
  | mk _ _ h => exact h

/-- spans of nodes that were read one behind the other do not overlap -/
theorem pairwise_stop_le (h : Laid ReadFrom ns ts) (ho : Ordered ts) :
    ns.Pairwise fun a b => a.span.stop ≤ b.span.offset := by
  induction h with
  | done => exact .nil
  | @next _ _ us vs gap hr hns ih =>
    have hrest : Ordered (us ++ vs) := ho.sublist (List.sublist_append_right gap _)
    refine List.pairwise_cons.2 ⟨fun b hb => ?_, ih (hrest.sublist (List.sublist_append_right us vs))⟩
    obtain ⟨ws, hws, hb⟩ := hns.exists_infix hb
    exact hr.spanning.stop_le hb.spanning (hrest.sublist (hws.sublist.append_left us))

end ReadFrom

/-- the nodes that a reading is made of -/
def Reading.nodes : Reading → List Node
  | expr e => [.expr e]
  | field f => [.expr f.value]
  | _ => []

/-- that a reading stands on the tokens it was derived from -/
def Reading.Stands : Reading → List Token → Prop
  | ty _, _ | param _, _ => True
  | expr e, ts | choice e, ts => ReadFrom (.expr e) ts
  | hole e, ts => Laid ReadFrom [.expr e] ts
  | field f, ts => Laid ReadFrom [.expr f.value] ts
  | items _ rs, ts => Laid ReadFrom (rs.flatMap nodes) ts
  | parts ps, ts => Laid ReadFrom (ps.map .expr) ts
  | braces place xs, ts => Spanning place ts ∧ Laid ReadFrom (xs.map .stmt) ts
  | otherwise no, ts => Laid ReadFrom (no.toList.map .expr) ts
  | stmt x, ts => ReadFrom (.stmt x) ts
  | body x, ts => Laid ReadFrom [.stmt x] ts
  | alternative no, ts => Laid ReadFrom (no.toList.map .stmt) ts
  | stmts xs, ts => Laid ReadFrom (xs.map .stmt) ts

theorem Reading.Stands.item {r : Reading} {ts : List Token} (hr : r.IsItem) (h : r.Stands ts) :
    Laid ReadFrom r.nodes ts := by
  cases r with
  | expr => exact .one h
  | field => exact h
  | param => exact .done _
  | _ => cases hr

@[simp] theorem nodes_exprs (es : List Expr) :
    (es.map Reading.expr).flatMap Reading.nodes = es.map .expr := by
  induction es with
  | nil => rfl
  | cons e es ih => simp [Reading.nodes, ih]

@[simp] theorem nodes_fields (fs : List Field) :
    (fs.map Reading.field).flatMap Reading.nodes = fs.map (.expr ·.value) := by
  induction fs with
  | nil => rfl
  | cons f fs ih => simp [Reading.nodes, ih]

/-- what tokens derive stands on them, if they are in order -/
theorem Derives.stands {r : Reading} {ts : List Token} (h : Derives r ts) (ho : Ordered ts) :
    r.Stands ts := by
  induction h with
  | tyNone | tyName | tyArray | tyPtr | param => trivial
  | literal hv => exact .mk (.expr (.literal hv)) (.token _) (.done _)
  | ident hk => exact .mk (.expr (.ident hk)) (.token _) (.done _)
  | @group o c e ns ts ms hop hns he hms hc ih =>
    have hin := (ih ho.tail.right.left).children
    refine .mk (.expr (.group hop hns he hms hc)) ?_ ?_
    · -- the parentheses span the node, whatever it spanned without them
      have hend := Spanning.ofFirst ho
      simpa [lastSpan_append, Node.span] using hend
    · rw [Node.children, Expr.children_withSpan]
      exact ((hin.before _).behind ns).token o
  | @array o es ts hop hes ih =>
    have hitems := (ih ho.tail).token o
    rw [nodes_exprs] at hitems
    exact .mk (.expr (.array hop hes)) (.ofFirst ho) hitems
  | @object o fs ts hop hfs ih =>
    have hitems := (ih ho.tail).token o
    rw [nodes_fields] at hitems
    exact .mk (.expr (.object hop hfs)) (.ofFirst ho) hitems
  | @cond t test place yes no ts us vs ht hc hy hn ihc ihy ihn =>
    have hrest := ho.tail.right
    obtain ⟨hplace, hbody⟩ := ihy hrest.left
    have hbranch : ReadFrom (.expr (.block place yes)) us := .mk (.branch hy) hplace hbody
    exact .mk (.expr (.choice (.cond ht hc hy hn))) (.ofFirst ho)
      (((Laid.one (ihc ho.tail.left)).append ((Laid.one hbranch).append (ihn hrest.right))).token t)
  | choice _ ih => exact ih ho
  | format hop hps ih => exact .mk (.expr (.format hop hps)) (.ofFirst ho) ((ih ho.tail).token _)
  | sign hop he ih =>
    have hin := ih ho.tail
    exact .mk (.expr (.sign hop he)) ((Spanning.token _).merge [] hin.spanning ho)
      ((Laid.one hin).token _)
  | @link t l a b ts ns us ha hl hns hb iha ihb =>
    have hleft := iha ho.left
    have hright := ihb ho.right.tail.right
    refine .mk (.expr (.link ha hl hns hb)) ?_ ?_
    · rw [Node.span, span_join]
      exact hleft.spanning.merge (t :: ns) hright.spanning ho
    · rw [Node.children, children_join]
      exact (Laid.one hleft).append (((Laid.one hright).behind ns).token t)
  | @call o f es ts us hf hop hes ihf ihes =>
    have hcallee := ihf ho.left
    have hargs := (ihes ho.right.tail).token o
    rw [nodes_exprs] at hargs
    exact .mk (.expr (.call hf hop hes)) (hcallee.spanning.toEnd ho)
      ((Laid.one hcallee).append hargs)
  | @index o a i ts us ha hop hi iha ihi =>
    have harray := iha ho.left
    exact .mk (.expr (.index ha hop hi)) (harray.spanning.toEnd ho)
      ((Laid.one harray).append ((ihi ho.right.tail).token o))
  | field hk hc hns he ih => exact (((Laid.one (ih ho.tail.tail.right)).behind _).token _).token _
  | itemsNone => exact .done _
  | itemsLast hclose hr hns hd hms hc ih =>
    have hitem := (ih ho.right.left).item hr
    rw [Reading.Stands, List.flatMap_singleton]
    exact (hitem.before _).behind _
  | itemsMore hr hns hd hms hk hrs ih ihs =>
    have hitem := (ih ho.right.left).item hr
    have hrest := ihs ho.right.right.right.tail
    rw [Reading.Stands, List.flatMap_cons]
    exact (hitem.append ((hrest.token _).behind _)).behind _
  | partsOpen => exact .done _
  | partsClose => exact .done _
  | @partsText t ps ts hk hps ih =>
    have htext : ReadFrom (.expr (.literal t.span (.str t.text))) [t] :=
      .mk (.text hk) (.token t) (.done _)
    exact (Laid.one htext).append (ih ho.tail)
  | partsHole hk hh hps ihh ihps =>
    exact ((ihh ho.tail.left).append (ihps ho.tail.right)).token _
  | holeName hk => exact .one (.mk (.expr (.ident hk)) (.token _) (.done _))
  | holeCode hop he hc ih => exact ((Laid.one (ih ho.tail.left)).before _).token _
  | @braces o c xs ts hop hxs hc ih =>
    refine ⟨?_, ((ih ho.tail.left).before [c]).token o⟩
    have hend := Spanning.ofFirst ho
    rwa [lastSpan_append] at hend
  | otherwiseNone => exact .done _
  | @otherwiseBlock t place no ns ts hns hk hb ih =>
    obtain ⟨hplace, hbody⟩ := ih ho.right.tail
    have hbranch : ReadFrom (.expr (.block place no)) ts := .mk (.branch hb) hplace hbody
    exact ((Laid.one hbranch).token t).behind ns
  | otherwiseCond hns hk he ih => exact ((Laid.one (ih ho.right.tail)).token _).behind _
  | exprStmt he ih =>
    have hin := ih ho
    exact .mk (.stmt (.exprStmt he)) hin.spanning (.one hin)
  | @store t n a y e ts ns us ht hn hy ha hns he ihy ihe =>
    have hvalue := ihe ho.tail.tail.right.tail.right
    have hspan : Spanning e.span us := hvalue.spanning
    have hwhole : Spanning (t.span.merge e.span) (t :: n :: (ts ++ a :: (ns ++ us))) := by
      simpa using (Spanning.token t).merge (n :: (ts ++ a :: ns)) hspan (by simpa using ho)
    exact .mk (.stmt (.store ht hn hy ha hns he)) hwhole
      ((((((Laid.one hvalue).behind ns).token a).behind ts).token n).token t)
  | @condStmt t test yes no ts us vs ht hc hy hn ihc ihy ihn =>
    have hrest := ho.tail.right
    exact .mk (.stmt (.condStmt ht hc hy hn)) (.ofFirst ho)
      (((Laid.one (ihc ho.tail.left)).append ((ihy hrest.left).append (ihn hrest.right))).token t)
  | @loop t n i source b ts us ht hn hi he hb ihe ihb =>
    have hparts := ho.tail.tail.tail
    exact .mk (.stmt (.loop ht hn hi he hb)) (.ofFirst ho)
      (((((Laid.one (ihe hparts.left)).append (ihb hparts.right)).token i).token n).token t)
  | block hb ih =>
    obtain ⟨hplace, hbody⟩ := ih ho
    exact .mk (.stmt (.block hb)) hplace hbody
  | @function t n o ps y place xs ts us vs ht hn hop hps hy hb ihps ihy ihb =>
    obtain ⟨-, hbody⟩ := ihb ho.tail.tail.tail.right.right
    exact .mk (.stmt (.function ht hn hop hps hy hb)) (.ofFirst ho)
      (((((hbody.behind us).behind ts).token o).token n).token t)
  | leave hk => exact .mk (.stmt (.leave hk)) (.token _) (.done _)
  | body hns hx ih => exact (Laid.one (ih ho.right)).behind _
  | alternativeNone => exact .done _
  | alternativeSome hns hk hx ih => exact ((ih ho.right.tail).token _).behind _
  | stmtsNone => exact .done _
  | @stmtsMore x xs ts us hx hxs ihx ihxs => exact (ihx ho.left).append (ihxs ho.right)

end Laid

section Source

variable {source : String} {marker : Char}

/-- a node that stands where it was read from: on a run of the tokens of a text with `size` bytes, with
its parts inside of it, one behind the other -/
structure Node.WellPlaced (size : Nat) (tokens : List Token) (n : Node) : Prop where
  run : ∃ ts, ts <:+: tokens ∧ ReadFrom n ts ∧ Spanning n.span ts
  room : 0 < n.span.length
  inside : n.span.stop ≤ size
  contains : ∀ c ∈ n.children, n.span.offset ≤ c.span.offset ∧ c.span.stop ≤ n.span.stop
  ordered : n.children.Pairwise fun a b => a.span.stop ≤ b.span.offset

/-- what was read from tokens in order that take room is well placed -/
theorem ReadFrom.wellPlaced {size : Nat} {n : Node} {tokens ts us : List Token} (h : ReadFrom n us)
    (hsub : us <:+: ts) (hts : ts <:+: tokens) (ho : Ordered ts)
    (hroom : ∀ t ∈ ts, 1 ≤ t.span.length) (hstop : ∀ t ∈ ts, t.span.stop ≤ size) :
    n.WellPlaced size tokens where
  run := ⟨us, hsub.trans hts, h, h.spanning⟩
  room := by
    obtain ⟨t, ht, -⟩ := h.spanning.starts
    have hmem := List.mem_of_head? ht
    have hcover := h.spanning.covers (ho.sublist hsub.sublist) hmem
    have := hroom t (hsub.subset hmem)
    simp only [Span.stop] at hcover
    omega
  inside := by
    obtain ⟨t, ht, hend⟩ := h.spanning.ends
    rw [hend]
    exact hstop t (hsub.subset (List.mem_of_getLast? ht))
  contains c hc := by
    obtain ⟨vs, hvs, hread⟩ := h.children.exists_infix hc
    exact h.spanning.contains (ho.sublist hsub.sublist) hread.spanning hvs.subset
  ordered := pairwise_stop_le h.children (ho.sublist hsub.sublist)

/-- every node below nodes that were read from runs of the tokens was read from a run, too -/
theorem NodeOf.readFrom {code : Code} {n : Node} {ts : List Token} (h : NodeOf code n)
    (hcode : Laid ReadFrom (code.map .stmt) ts) : ∃ us, us <:+: ts ∧ ReadFrom n us := by
  induction h with
  | statement hx => exact hcode.exists_infix (List.mem_map_of_mem hx)
  | child _ hc ih =>
    obtain ⟨us, hus, hread⟩ := ih
    obtain ⟨vs, hvs, hread⟩ := hread.children.exists_infix hc
    exact ⟨vs, hvs.trans hus, hread⟩

/-- the tokens before the end stand in order, take room, and lie in the text -/
theorem Lexer.placed_significant (h : { ofSource source with marker := marker }.allErrors = [])
    {ts : List Token} {last : Token}
    (hts : { ofSource source with marker := marker }.significant = ts ++ [last]) :
    Ordered ts ∧ (∀ t ∈ ts, 1 ≤ t.span.length) ∧ ∀ t ∈ ts, t.span.stop ≤ source.utf8ByteSize := by
  obtain ⟨sound, htokens⟩ := tokens_of_allErrors h
  obtain ⟨why, hw⟩ := Scan.halt_whole marker source.toList
  obtain rfl := halt_of_allErrors rfl rfl hw h
  obtain ⟨cut, hrest⟩ := Scan.cut_whole marker source.toList
  have htext := cut.text
  rw [hrest hw, List.append_nil] at htext
  generalize (Scan.whole marker source.toList).pieces = ps at sound htokens htext
  rw [significant, htokens, List.filter_append] at hts
  obtain ⟨rfl, -⟩ := List.append_inj' hts rfl
  have hsub : ((locate .origin ps).filter (!·.kind.isTrivia)).Sublist (locate .origin ps) :=
    List.filter_sublist
  refine ⟨(locate_pairwise _ ps).sublist hsub, fun t ht => ?_, fun t ht => ?_⟩
  · obtain ⟨hmem, hkind⟩ := List.mem_filter.1 ht
    refine locate_proper sound hmem fun hk => ?_
    rw [hk] at hkind
    cases hkind
  · have hstop := (locate_bounds (hsub.subset ht)).2
    rw [← htext, ← toUTF8_toList] at hstop
    exact hstop.trans_eq (Nat.zero_add _)

/-- In a text that is parsed without problems every node of the program stands where it was read from:
its span goes from the beginning of its first token to the end of its last, in the text, and holds the
spans of its parts, which follow each other. -/
theorem spans_nest (source : String) (marker : Char)
    (h : (Parse.ofLexer { Lexer.ofSource source with marker := marker }).diagnostics = []) (n : Node)
    (hn : NodeOf (Parse.ofLexer { Lexer.ofSource source with marker := marker }).code n) :
    n.WellPlaced source.utf8ByteSize
      { Lexer.ofSource source with marker := marker }.significant := by
  obtain ⟨ts, last, hsplit, -, hderives⟩ := Parse.derives_ofLexer h
  obtain ⟨ho, hroom, hstop⟩ :=
    Lexer.placed_significant (List.append_eq_nil_iff.1 h).1 hsplit
  obtain ⟨us, hus, hread⟩ := hn.readFrom (hderives.stands ho)
  exact hread.wellPlaced hus ⟨[], [last], hsplit.symm⟩ ho hroom hstop

/-- a group in a product: its parentheses belong to its span -/
theorem spans_nest_group :
    (Parse.ofLexer { Lexer.ofSource "(a + 1) * b" with marker := '$' }).diagnostics = [] ∧
      ∃ n, NodeOf (Parse.ofLexer { Lexer.ofSource "(a + 1) * b" with marker := '$' }).code n ∧
        n.span = ⟨1, 0, 0, 7⟩ ∧
        n.WellPlaced "(a + 1) * b".utf8ByteSize
          { Lexer.ofSource "(a + 1) * b" with marker := '$' }.significant := by
  have run : Parse.runsClean 30 "(a + 1) * b" '$' = true := by decide +kernel
  have clean := Parse.diagnostics_of_runsClean run
  have code : (Parse.ofLexer { Lexer.ofSource "(a + 1) * b" with marker := '$' }).code.flatMap
      (fun x => x.children.flatMap fun n => n.children.map Node.span) =
      [⟨1, 0, 0, 7⟩, ⟨1, 10, 10, 1⟩] := by
    have lexed : (Lexer.runTokens? 30 "(a + 1) * b" '$').isSome = true := by decide
    rw [Parse.ofLexer_code, Lexer.tokens_of_runTokens lexed]
    decide
  have hmem : (⟨1, 0, 0, 7⟩ : Span) ∈ (Parse.ofLexer
      { Lexer.ofSource "(a + 1) * b" with marker := '$' }).code.flatMap
      fun x => x.children.flatMap fun n => n.children.map Node.span := by
    rw [code]
    exact List.mem_cons_self
  obtain ⟨x, hx, hmem⟩ := List.mem_flatMap.1 hmem
  obtain ⟨e, he, hmem⟩ := List.mem_flatMap.1 hmem
  obtain ⟨n, hn, hspan⟩ := List.mem_map.1 hmem
  have hnode := NodeOf.child (.child (.statement hx) he) hn
  exact ⟨clean, n, hnode, hspan, spans_nest _ _ clean n hnode⟩

end Source

end AutoLang
