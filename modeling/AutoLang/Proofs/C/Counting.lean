import AutoLang.Proofs.C.Simulation
import AutoLang.Proofs.Value.Ranges
import Mathlib

/-! Counting loops. C declares the counter, tests it against the end and raises it, round after round;
a run takes the number of rounds from the range once, and assigns the counter before every round. -/

namespace AutoLang

namespace C

open ScopeTree

variable {rounds : Nat} {c : Context} {kept around : List Frame} {m : Memory} {s : EvalState}
  {n : String} {a stop : AutoLang.Expr} {v : Int32} {ss : List Stmt} {body : Eval Value}

/-- before a test of a loop: the counter of the C program is `v`, and all else is as it is in the run,
which may have no counter yet -/
structure Counting (c : Context) (around : List Frame) (n : String) (stop : AutoLang.Expr) (v : Int32)
    (m : Memory) (s : EvalState) : Prop where
  blocks : ∃ f fs e es, m.frames = f :: fs ∧ s.scopes.vars = e :: es ∧ f.lookup n = some (some v) ∧
    (∀ x ≠ n, f.lookup x = none ∧ e.lookup x = none) ∧ SameBlocks (c.fix (names stop)) around fs es
  wellFormed : s.scopes.WellFormed
  output : m.output = s.output
  stays : s.leaving = false

namespace Counting

/-- a round starts with the counter where C has it -/
theorem assign (hn : c.find? n = none) (h : Counting c around n stop v m s) :
    Alike (c.loop n stop) ([(n, some v)] :: around) m
      { s with scopes := s.scopes.assign n (.int v) } := by
  obtain ⟨f, fs, e, es, hf, he, hfn, hother, hblocks⟩ := h.blocks
  have hnone : (c.fix (names stop)).find? n = none := by rw [Context.find?_fix, hn, Option.map_none]
  obtain ⟨hw, hvars⟩ :=
    assign_spec_head (v := .int v) h.wellFormed he (hblocks.find?_none hnone).2
  refine ⟨?_, hw, h.output, h.stays⟩
  rw [hvars, hf]
  refine .block (fun x => ?_) hblocks
  by_cases hx : x = n
  · rw [hx, List.lookup_cons_self]
    exact ⟨v, hfn, lookup_bind_self, fun _ => List.lookup_cons_self⟩
  · rw [lookup_bind_of_ne hx, List.lookup_cons, List.lookup_cons, beq_eq_false_iff_ne.2 hx]
    exact ⟨rfl, hother x hx⟩

/-- after a round the counter still is where it was, and is raised -/
theorem increment (h : Alike (c.loop n stop) ([(n, some v)] :: around) m s) :
    Reaches (C.increment n m) fun m' =>
      ∃ w, w.toInt = v.toInt + 1 ∧ Counting c around n stop w m' s := by
  obtain ⟨_, _, f, fs, e, es, hk, hf, he, hb, hblocks⟩ := h.blocks.block_inv
  cases hk
  obtain ⟨v', hfn, hen, hkept⟩ := hb.of_some (n := n) List.lookup_cons_self
  -- the counter must keep its value through the round
  have hv : v = v' := by simpa using hkept rfl
  subst hv
  have hfind : m.find? n = some (some v) := by rw [Memory.find?, hf, List.findSome?_cons, hfn]
  rw [C.increment, Memory.read, hfind]
  change Reaches (do let next ← toInt (v.toInt + 1); m.write n next) _
  rw [toInt]
  split
  · rename_i hrange
    change Reaches (m.write n (Int32.ofInt (v.toInt + 1))) _
    rw [Memory.write, hfind, hf, Memory.setIn, hfn]
    refine .ok ⟨Int32.ofInt (v.toInt + 1), Int32.toInt_ofInt_of_le ?_ ?_, ?_, h.wellFormed, h.output,
      h.stays⟩
    · exact hrange.1
    · have := hrange.2
      omega
    · refine ⟨_, _, e, es, rfl, he, lookup_bind_self, fun x hx => ?_, hblocks⟩
      rw [lookup_bind_of_ne hx]
      exact (hb.of_none (by rw [List.lookup_cons, beq_eq_false_iff_ne.2 hx]; rfl)).2
  · exact .overflow

/-- the test sees the end as it was before the loop -/
theorem holds (h : Counting c around n stop v m s) {m₀ : Memory} (hm₀ : m₀.frames = around)
    (hstop : isInt c stop) (hn : c.find? n = none) (inclusive : Bool) :
    C.holds n (inC stop) inclusive m = (do
      let last ← value m₀ (inC stop)
      return if inclusive then v ≤ last else v < last) := by
  obtain ⟨f, fs, e, es, hf, he, hfn, hother, hblocks⟩ := h.blocks
  have hread : m.read n = .ok v := by
    rw [Memory.read, Memory.find?, hf, List.findSome?_cons, hfn]
  have hvalue : value m (inC stop) = value m₀ (inC stop) := by
    refine value_congr stop fun x hx => ?_
    obtain ⟨fixed, hknown⟩ := Option.isSome_iff_exists.1 (knows_of_mem_names stop hstop x hx)
    have hxn : x ≠ n := by
      rintro rfl
      rw [hn] at hknown
      cases hknown
    have hfixed : (c.fix (names stop)).find? x = some true := by
      rw [Context.find?_fix, hknown, Option.map_some, List.contains_iff_mem.2 hx, Bool.or_true]
    obtain ⟨w, hw, -, hkept⟩ := hblocks.find?_some hfixed
    rw [Memory.find?, Memory.find?, hf, List.findSome?_cons, (hother x hxn).1, hw, hm₀, hkept rfl]
  rw [C.holds, hread, hvalue]
  rfl

end Counting

section Iterate

variable {test : Memory → Except Fault Bool} {round : Memory → Except Fault Memory} {fuel : Nat}

theorem iterate_of_true (h : test m = .ok true) :
    iterate test round (fuel + 1) m = (do iterate test round fuel (← round m)) := by
  rw [iterate, h]
  rfl

theorem iterate_of_false (h : test m = .ok false) : iterate test round (fuel + 1) m = .ok m := by
  rw [iterate, h]
  rfl

theorem iterate_of_error {fault : Fault} (h : test m = .error fault) :
    iterate test round (fuel + 1) m = .error fault := by
  rw [iterate, h]
  rfl

end Iterate

/-- a round that does not leave is followed by the others -/
theorem run_overRange_succ {r : IntRange} {k i : Nat} {w : Value}
    (h : (body.run { s with scopes := s.scopes.assign n (.int (r.get i)) }).2.leaving = false) :
    (Eval.overRange n r body (k + 1) i w).run s =
      (Eval.overRange n r body k (i + 1)
        (body.run { s with scopes := s.scopes.assign n (.int (r.get i)) }).1).run
        (body.run { s with scopes := s.scopes.assign n (.int (r.get i)) }).2 := by
  generalize hround : body.run { s with scopes := s.scopes.assign n (.int (r.get i)) } = p at h ⊢
  obtain ⟨v, s'⟩ := p
  have hassign : (Eval.assign n (.int (r.get i))).run s =
      ((), { s with scopes := s.scopes.assign n (.int (r.get i)) }) := rfl
  have htake : Eval.takeLeave.run s' = (false, s') := by
    change (s'.leaving, { s' with leaving := false }) = _
    rw [← h]
  rw [Eval.overRange, run_bind_of hassign, run_bind_of hround, run_bind_of htake]
  rfl

/-- one round after the other, as long as the range has members -/
theorem iterate_reaches {r : IntRange} {m₀ : Memory} (hm₀ : m₀.frames = around)
    (hstop : isInt c stop) (hlast : value m₀ (inC stop) = .ok r.stop) (hn : c.find? n = none)
    (hbody : SimulatesBody rounds (c.loop n stop) ss body) (k : Nat) :
    ∀ i fuel v m s w, i + k = r.count → k < fuel → v.toInt = r.start.toInt + i →
      Counting c around n stop v m s →
      Reaches (iterate (C.holds n (inC stop) r.inclusive)
        (fun m => do C.increment n (← runStmts rounds ss m.push).pop) fuel m) fun m' =>
        ∃ v', Counting c around n stop v' m' ((Eval.overRange n r body k i w).run s).2 := by
  have htest : ∀ {i v m s}, v.toInt = r.start.toInt + (i : Nat) → Counting c around n stop v m s →
      C.holds n (inC stop) r.inclusive m = .ok (decide (i < r.count)) := by
    intro i v m s hv h
    rw [h.holds hm₀ hstop hn, hlast, ← IntRange.test_eq hv]
    rfl
  induction k with
  | zero =>
    intro i fuel v m s w hi hfuel hv h
    obtain ⟨fuel, rfl⟩ := Nat.exists_eq_add_of_le' (Nat.one_le_of_lt hfuel)
    rw [iterate_of_false ((htest hv h).trans (by rw [decide_eq_false (by omega)]))]
    exact .ok ⟨v, h⟩
  | succ k ih =>
    intro i fuel v m s w hi hfuel hv h
    obtain ⟨fuel, rfl⟩ := Nat.exists_eq_add_of_le' (Nat.one_le_of_lt hfuel)
    rw [iterate_of_true ((htest hv h).trans (by rw [decide_eq_true (by omega)]))]
    refine Reaches.bind (Reaches.bind (hbody _ _ _ (h.assign hn)) fun m₁ h₁ =>
      Counting.increment h₁) ?_
    rintro m₂ ⟨v', hv', h₂⟩
    rw [run_overRange_succ (by rw [IntRange.get_eq hv]; exact h₂.stays), IntRange.get_eq hv]
    exact ih (i + 1) fuel v' m₂ _ _ (by omega) (by omega) (by omega) h₂

/-- before the first test -/
theorem Counting.start (h : Alike c kept m s) (n : String) (stop : AutoLang.Expr) (v : Int32) :
    Counting c m.frames n stop v
      { m.push with frames := bind n (some v) (bind n none []) :: m.frames }
      { s with scopes := s.scopes.enter .block } := by
  refine ⟨⟨_, _, [], s.scopes.vars, rfl, vars_enter h.wellFormed .block, lookup_bind_self,
    fun x hx => ⟨?_, rfl⟩, h.blocks.fix _⟩, h.wellFormed.enter .block, h.output, h.stays⟩
  rw [lookup_bind_of_ne hx, lookup_bind_of_ne hx]
  rfl

/-- after the last test -/
theorem Counting.finish (h : Alike c kept m s) {m' : Memory} {s' : EvalState}
    (h' : Counting c m.frames n stop v m' s') :
    Alike c kept m'.pop { s' with scopes := s'.scopes.exit } := by
  obtain ⟨f, fs, e, es, hf, he, -, -, hblocks⟩ := h'.blocks
  exact .pop_of_blocks hf he (h.blocks.unfix hblocks) h.blocks_pos h'.wellFormed h'.output h'.stays

theorem run_loop {inclusive : Bool} {sp sp' : Span} {st : AutoLang.Stmt} {v w : Int32}
    (hv : (Eval.expr a).run s = (.int v, s)) (hw : (Eval.expr stop).run s = (.int w, s)) :
    (Eval.stmt (.loop sp n (.range sp' a stop inclusive) st)).run s =
      (Eval.inBlock (Eval.overRange n ⟨v, w, inclusive⟩ (Eval.stmt st)
        (IntRange.count ⟨v, w, inclusive⟩) 0 .void)).run s := by
  have hrange : (Eval.expr (.range sp' a stop inclusive)).run s =
      (.range ⟨v, w, inclusive⟩, s) := by
    rw [Eval.expr, run_bind_of hv, run_bind_of hw]
    rfl
  rw [Eval.stmt, run_bind_of hrange]

theorem Simulates.loop {inclusive : Bool} {sp sp' : Span} {st : AutoLang.Stmt}
    (ha : isInt c a) (hstop : isInt c stop) (hn : c.find? n = none)
    (hbody : SimulatesBody rounds (c.loop n stop) ss (Eval.stmt st)) (hrounds : 2 ^ 32 < rounds) :
    Simulates rounds c c [.loop n (inC a) (inC stop) inclusive ss]
      (Eval.stmt (.loop sp n (.range sp' a stop inclusive) st)) := by
  intro kept m s h
  have hna : n ∉ names a := by
    intro hmem
    have hknown := knows_of_mem_names a ha n hmem
    rw [Context.knows, hn] at hknown
    cases hknown
  have hstart : value m.push (inC a) = value m (inC a) := value_congr a fun _ _ => rfl
  have hsplit : runStmt rounds (.loop n (inC a) (inC stop) inclusive ss) m = (do
      let m₁ ← (do
        let m ← m.push.declare n
        let v ← value m (inC a)
        m.write n v)
      let m₂ ← iterate (C.holds n (inC stop) inclusive)
        (fun m => do C.increment n (← runStmts rounds ss m.push).pop) rounds m₁
      return m₂.pop) := by
    rw [runStmt]
    simp only [bind_assoc]
  rw [runStmts_singleton, hsplit, declare_value_write (m := m.push) rfl rfl hna, hstart, bind_assoc]
  refine (h.value a ha).bind fun v hv => ?_
  have hfirst := Counting.start h n stop v
  obtain ⟨fuel, rfl⟩ := Nat.exists_eq_add_of_le' (Nat.one_le_of_lt hrounds)
  change Reaches (iterate _ _ (fuel + 1) { m.push with
    frames := bind n (some v) (bind n none []) :: m.frames } >>= fun m₂ => .ok m₂.pop) _
  rcases h.value stop hstop with hover | ⟨w, hlast, hw⟩
  · have htest : C.holds n (inC stop) inclusive { m.push with
        frames := bind n (some v) (bind n none []) :: m.frames } = .error .overflow := by
      rw [hfirst.holds rfl hstop hn, hover]
      rfl
    rw [iterate_of_error htest]
    exact .overflow
  · rw [run_loop hv hw]
    refine (iterate_reaches (r := ⟨v, w, inclusive⟩) rfl hstop hlast hn hbody _ 0 (fuel + 1) v _ _ .void
      (Nat.zero_add _) ?_ ?_ hfirst).bind ?_
    · have := IntRange.count_le (r := ⟨v, w, inclusive⟩)
      omega
    · exact (Int.add_zero _).symm
    · rintro m₂ ⟨_, h₂⟩
      exact .ok (h₂.finish h)

end C

end AutoLang
