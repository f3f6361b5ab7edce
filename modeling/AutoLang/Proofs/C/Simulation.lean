import AutoLang.Proofs.C.Agreement
import Mathlib

/-! C statements that do what a run does. There is a rule for every kind of statement; the one for
loops says that a counter tested and raised anew in every round visits the members of the range, since
nothing in the body changes the counter or the end. -/

namespace AutoLang.C

open ScopeTree

variable {rounds : Nat} {c c' c'' : Context} {kept : List Frame} {m : Memory} {s : EvalState}
  {n : String} {e : AutoLang.Expr} {sp sp' : Span} {ss ss' : List Stmt} {r : Rest}
  {ev ev' : Eval Value}

section Blocks

theorem SameBlocks.length_eq {fs : List Frame} {es : List (List (String × Value))}
    (h : SameBlocks c kept fs es) : es.length = c.countP (·.isSome) := by
  induction h with
  | nil => rfl
  | bare _ ih => rw [ih, List.countP_cons_of_neg (by simp)]
  | block _ _ ih => rw [List.length_cons, ih, List.countP_cons_of_pos (by simp)]

theorem Alike.blocks_pos (h : Alike c kept m s) : 0 < c.countP (·.isSome) := by
  rw [← h.blocks.length_eq]
  exact List.length_pos_of_ne_nil (framesOf_ne_nil h.wellFormed)

theorem Alike.push (h : Alike c kept m s) : Alike (some [] :: c) ([] :: kept) m.push
    { s with scopes := s.scopes.enter .block } := by
  refine ⟨?_, h.wellFormed.enter .block, h.output, h.stays⟩
  rw [vars_enter h.wellFormed]
  exact .block .empty h.blocks

theorem SameBlocks.block_inv {b : Block} {fs : List Frame} {es : List (List (String × Value))}
    (h : SameBlocks (some b :: c) kept fs es) : ∃ k ks f fs' e es', kept = k :: ks ∧ fs = f :: fs' ∧
      es = e :: es' ∧ SameBlock b k f e ∧ SameBlocks c ks fs' es' := by
  cases h with
  | block hb hc => exact ⟨_, _, _, _, _, _, rfl, rfl, rfl, hb, hc⟩

/-- a block is left on both sides -/
theorem Alike.pop_of_blocks {f : Frame} {fs : List Frame} {e : List (String × Value)}
    {es : List (List (String × Value))} (hm : m.frames = f :: fs) (hs : s.scopes.vars = e :: es)
    (hblocks : SameBlocks c kept fs es) (hc : 0 < c.countP (·.isSome))
    (hw : s.scopes.WellFormed) (hout : m.output = s.output) (hstays : s.leaving = false) :
    Alike c kept m.pop { s with scopes := s.scopes.exit } := by
  obtain ⟨g, gs, rfl⟩ : ∃ g gs, es = g :: gs := by
    rw [← hblocks.length_eq] at hc
    exact List.exists_cons_of_length_pos hc
  have hframes : s.scopes.framesOf Scope.vars = e :: g :: gs := hs
  obtain ⟨hw', htail⟩ := exit_spec hw hframes
  refine ⟨?_, hw', hout, hstays⟩
  have hvars : s.scopes.exit.vars = g :: gs := (htail Scope.vars).trans (congrArg List.tail hs)
  change SameBlocks c kept m.frames.tail s.scopes.exit.vars
  rw [hm, hvars]
  exact hblocks

end Blocks

/-- from alike states, C statements end in one that is like that of a run -/
def Simulates (rounds : Nat) (c c' : Context) (ss : List Stmt) (ev : Eval Value) : Prop :=
  ∀ kept m s, Alike c kept m s →
    Reaches (runStmts rounds ss m) fun m' => Alike c' kept m' (ev.run s).2

/-- the same for statements between braces -/
def SimulatesBody (rounds : Nat) (c : Context) (ss : List Stmt) (ev : Eval Value) : Prop :=
  ∀ kept m s, Alike c kept m s →
    Reaches (runStmts rounds ss m.push) fun m' => Alike c kept m'.pop (ev.run s).2

/-- the same for the rest of a conditional -/
def SimulatesRest (rounds : Nat) (c : Context) (r : Rest) (ev : Eval Value) : Prop :=
  ∀ kept m s, Alike c kept m s →
    Reaches (runRest rounds r m) fun m' => Alike c kept m' (ev.run s).2

section Statements

theorem Simulates.skip {v : Value} : Simulates rounds c c [] (pure v) :=
  fun _ _ _ h => .ok h

theorem Simulates.seq (h : Simulates rounds c c' ss ev) {next : Value → Eval Value}
    (h' : ∀ v, Simulates rounds c' c'' ss' (next v)) : Simulates rounds c c'' (ss ++ ss') (do
      let v ← ev
      if ← Eval.isLeaving then return v
      next v) := by
  intro kept m s hs
  rw [runStmts_append]
  refine (h kept m s hs).bind fun m' hm' => ?_
  have hrun : (do
      let v ← ev
      if ← Eval.isLeaving then return v
      next v : Eval Value).run s = (next (ev.run s).1).run (ev.run s).2 := by
    have hstays : Eval.isLeaving.run (ev.run s).2 = (false, (ev.run s).2) := by
      rw [← hm'.stays]
      rfl
    rw [run_bind_of (Prod.eta _).symm, run_bind_of hstays]
    rfl
  rw [hrun]
  exact h' _ kept m' _ hm'

theorem Simulates.assign (he : isInt c e) (hn : c.find? n = some false) :
    Simulates rounds c c [.expr (.binary (.name n) .assign (inC e))]
      (Eval.expr (.binary sp (.ident sp' n) .assign e)) := by
  intro kept m s h
  rw [runStmts_singleton, runStmt]
  refine (h.value e he).bind fun v hv => ?_
  obtain ⟨w, hm, hs, -⟩ := h.blocks.find?_some hn
  rw [Memory.write, Memory.find?, hm]
  have hvisible : (s.scopes.lookup? n).isSome := by rw [lookup?_eq, hs]; rfl
  obtain ⟨hw, hvars⟩ := assign_spec (v := .int v) h.wellFormed hvisible
  rw [Eval.expr, run_bind_of hv]
  refine .ok ⟨?_, hw, h.output, h.stays⟩
  change SameBlocks c kept (Memory.setIn n v m.frames) (s.scopes.assign n (.int v)).vars
  rw [hvars]
  exact h.blocks.write hn

/-- a value that does not mention the variable it is for is the same once the variable is declared -/
theorem declare_value_write {f : Frame} {fs : List Frame} (hm : m.frames = f :: fs)
    (hf : f.lookup n = none) (hne : n ∉ names e) :
    (do
      let m ← m.declare n
      let v ← value m (inC e)
      m.write n v) = (do
      let v ← value m (inC e)
      return { m with frames := bind n (some v) (bind n none f) :: fs }) := by
  have hdeclare : m.declare n = .ok { m with frames := bind n none f :: fs } := by
    rw [Memory.declare, hm]
    dsimp only
    rw [hf]
    rfl
  have hvalue : value { m with frames := bind n none f :: fs } (inC e) = value m (inC e) := by
    refine value_congr e fun x hx => ?_
    have hxn : x ≠ n := fun h => hne (h ▸ hx)
    rw [Memory.find?, Memory.find?, hm, List.findSome?_cons, List.findSome?_cons,
      lookup_bind_of_ne hxn]
  have hwrite : ∀ v, Memory.write { m with frames := bind n none f :: fs } n v =
      .ok { m with frames := bind n (some v) (bind n none f) :: fs } := by
    intro v
    rw [Memory.write, Memory.find?, List.findSome?_cons, lookup_bind_self]
    dsimp only
    rw [Memory.setIn, lookup_bind_self]
    rfl
  rw [hdeclare]
  change (do
    let v ← value { m with frames := bind n none f :: fs } (inC e)
    Memory.write { m with frames := bind n none f :: fs } n v) = _
  rw [hvalue]
  exact bind_congr hwrite

theorem Simulates.store {b : Block} (he : isInt (some b :: c) e) (hn : b.lookup n = none)
    (hne : n ∉ names e) :
    Simulates rounds (some b :: c) (some ((n, false) :: b) :: c)
      [.declare (.simple .int) n (inC e)] (Eval.stmt (.store sp n none e)) := by
  intro kept m s h
  obtain ⟨k, ks, f, fs, e', es, rfl, hf, he', hb, hblocks⟩ := h.blocks.block_inv
  obtain ⟨-, hfree, -⟩ := hb.of_none hn
  rw [runStmts_singleton, Ty.simple, runStmt, declare_value_write hf hfree hne]
  refine (h.value e he).bind fun v hv => .ok ?_
  obtain ⟨hw, hvars, -⟩ := define_spec (n := n) (v := .int v) h.wellFormed
  rw [Eval.stmt, run_bind_of hv]
  refine ⟨?_, hw, h.output, h.stays⟩
  change SameBlocks _ _ _ (s.scopes.define n (.int v)).vars
  rw [hvars, he', List.modifyHead_cons]
  exact .block hb.declare hblocks

theorem Simulates.print {es : List AutoLang.Expr} (hprint : c.knows Eval.printName = false)
    (hes : es.all (isInt c)) :
    Simulates rounds c c [.expr (.printf (es.map fun _ => .decimal) (es.map inC))]
      (Eval.expr (.call sp (.ident sp' Eval.printName) es)) := by
  intro kept m s h
  rw [runStmts_singleton, runStmt]
  exact h.print hprint hes

theorem Simulates.block (h : SimulatesBody rounds c ss ev) : Simulates rounds c c [.block ss] ev := by
  intro kept m s hs
  rw [runStmts_singleton, runStmt]
  exact (h kept m s hs).bind fun m' hm' => .ok hm'

theorem SimulatesBody.block {b : Block} (h : Simulates rounds (some [] :: c) (some b :: c) ss ev) :
    SimulatesBody rounds c ss (Eval.inBlock ev) := by
  intro kept m s hs
  refine (h _ _ _ hs.push).mono fun m' hm' => ?_
  obtain ⟨_, _, f, fs, e, es, hk, hf, he, -, hblocks⟩ := hm'.blocks.block_inv
  cases hk
  exact .pop_of_blocks hf he hblocks hs.blocks_pos hm'.wellFormed hm'.output hm'.stays

/-- a body without braces gets them in C; it declares nothing, so this changes nothing -/
theorem SimulatesBody.bare (h : Simulates rounds (none :: c) (none :: c) ss ev) :
    SimulatesBody rounds c ss ev := by
  intro kept m s hs
  refine (h ([] :: kept) m.push s ⟨.bare hs.blocks, hs.wellFormed, hs.output, hs.stays⟩).mono ?_
  intro m' hm'
  obtain ⟨frames, output⟩ := m'
  obtain ⟨hblocks, hw, hout, hstays⟩ := hm'
  cases hblocks with
  | bare hblocks => exact ⟨hblocks, hw, hout, hstays⟩

theorem SimulatesRest.done {v : Value} : SimulatesRest rounds c .done (pure v) :=
  fun _ _ _ h => .ok h

theorem SimulatesRest.orElse (h : SimulatesBody rounds c ss ev) :
    SimulatesRest rounds c (.orElse ss) ev := by
  intro kept m s hs
  rw [runRest]
  exact (h kept m s hs).bind fun m' hm' => .ok hm'

/-- both sides take the same branch -/
theorem branch_reaches (ht : isTest c e) (hy : SimulatesBody rounds c ss ev)
    (hr : SimulatesRest rounds c r ev') (h : Alike c kept m s) :
    Reaches (do
      if (← value m (inC e)) ≠ 0 then return (← runStmts rounds ss m.push).pop
      else runRest rounds r m) fun m' =>
      Alike c kept m' ((do if (← Eval.expr e).isTrue then ev else ev' : Eval Value).run s).2 := by
  refine (h.test e ht).bind fun v hv => ?_
  rw [run_bind_of hv]
  by_cases h0 : v = 0
  · rw [if_neg (not_not.2 h0), h0]
    exact hr kept m s h
  · have htrue : (Value.bool (v != 0)).isTrue = true := bne_iff_ne.2 h0
    rw [if_pos h0, if_pos htrue]
    exact (hy kept m s h).bind fun m' hm' => .ok hm'

theorem Simulates.cond (ht : isTest c e) (hy : SimulatesBody rounds c ss ev)
    (hr : SimulatesRest rounds c r ev') : Simulates rounds c c [.cond (inC e) ss r]
      (do if (← Eval.expr e).isTrue then ev else ev') := by
  intro kept m s h
  rw [runStmts_singleton, runStmt]
  exact branch_reaches ht hy hr h

theorem SimulatesRest.orIf (ht : isTest c e) (hy : SimulatesBody rounds c ss ev)
    (hr : SimulatesRest rounds c r ev') : SimulatesRest rounds c (.orIf (inC e) ss r)
      (do if (← Eval.expr e).isTrue then ev else ev') := by
  intro kept m s h
  rw [runRest]
  exact branch_reaches ht hy hr h

end Statements

end AutoLang.C
