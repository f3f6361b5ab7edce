import AutoLang.Proofs.Token.Stream
import Mathlib

/-! Tokens on demand. A caller takes the tokens one by one and may look at the errors, or take them
away, at any time between two tokens. Whatever it asks for, it is given the tokens of the whole text in
their order, and then the last of them for ever: the queue never holds an end token before its last
place, and reading never looks at the errors. -/

namespace AutoLang

namespace Lexer

/-- what a caller asks of a lexer -/
inductive Request where
  | token
  | errors
  | takeErrors
deriving DecidableEq, Repr

/-- the token or the errors that were asked for, and the lexer afterwards -/
def answer (l : Lexer) : Request → (Token ⊕ List Diagnostic) × Lexer
  | .token => (.inl l.next.1, l.next.2)
  | .errors => (.inr l.errors, l)
  | .takeErrors => (.inr l.takeErrors.1, l.takeErrors.2)

/-- the tokens handed out, request after request -/
def handed (l : Lexer) : List Request → List Token
  | [] => []
  | r :: rs => (l.answer r).1.getLeft?.toList ++ (l.answer r).2.handed rs

/-- the lexer after some requests -/
def after (l : Lexer) : List Request → Lexer
  | [] => l
  | r :: rs => (l.answer r).2.after rs

/-- the token of one call after `n` others -/
def nth (l : Lexer) : Nat → Token
  | 0 => l.next.1
  | n + 1 => l.next.2.nth n

/-- reading does not look at the errors -/
theorem next_withErrors (l : Lexer) (es : List Diagnostic) :
    ∃ es', { l with errors := es }.next = (l.next.1, { l.next.2 with errors := es' }) := by
  have hpop (l : Lexer) (es : List Diagnostic) :
      { l with errors := es }.pop = (l.pop.1, { l.pop.2 with errors := es }) := by
    unfold pop
    dsimp only
    split <;> rfl
  have hrefill : ∃ es', { l with errors := es }.refill = { l.refill with errors := es' } := by
    unfold refill
    dsimp only
    split
    · exact ⟨es, rfl⟩
    · rename_i why _
      cases why <;> exact ⟨_, rfl⟩
  unfold next
  dsimp only
  split
  · obtain ⟨es', hrefill⟩ := hrefill
    exact ⟨es', by rw [hrefill, hpop]⟩
  · exact ⟨es, hpop l es⟩

theorem nth_withErrors (l : Lexer) (es : List Diagnostic) (n : Nat) :
    { l with errors := es }.nth n = l.nth n := by
  induction n generalizing l es with
  | zero =>
    obtain ⟨es', hnext⟩ := l.next_withErrors es
    simp [nth, hnext]
  | succ n ih =>
    obtain ⟨es', hnext⟩ := l.next_withErrors es
    simp [nth, hnext, ih]

/-- only the calls for a token count -/
theorem handed_eq_map_nth (l : Lexer) (rs : List Request) :
    l.handed rs = (List.range (rs.count .token)).map l.nth := by
  induction rs generalizing l with
  | nil => rfl
  | cons r rs ih =>
    cases r with
    | token =>
      rw [List.count_cons_self, List.range_succ_eq_map, List.map_cons, List.map_map]
      simp [handed, answer, ih, nth, Function.comp_def]
    | errors => simp [handed, answer, ih]
    | takeErrors =>
      have hsame : l.takeErrors.2.nth = l.nth := funext fun n => l.nth_withErrors [] n
      simp [handed, answer, ih, hsame]

/-- no end token is queued before reading halts; afterwards it is the last one, unless it was handed out -/
structure Queued (l : Lexer) : Prop where
  reading : l.finished = false → ∀ t ∈ l.pending, t.kind ≠ .eof
  halted : l.finished = true → l.pending = [] ∨
    ∃ ts, l.pending = ts ++ [endToken l.mark] ∧ ∀ t ∈ ts, t.kind ≠ .eof

theorem queued_ofSource (source : String) (marker : Char) :
    Queued { ofSource source with marker := marker } := by
  constructor
  case reading => simp [ofSource]
  case halted => simp [ofSource]

variable {l : Lexer}

theorem queued_refill (hf : l.finished = false) : l.refill.Queued ∧ l.refill.pending ≠ [] := by
  have hsound := (Scan.cut_ofFrames l.marker [.outside] l.rest).1.sound
  have hkind := locate_kind_ne_eof hsound l.mark
  unfold refill
  dsimp only
  cases hw : (Scan.ofText l.marker l.rest).halt with
  | none =>
    refine ⟨⟨fun _ => hkind, fun h => ?_⟩, locate_ne_nil (Scan.ofText_token hw)⟩
    cases hf.symm.trans h
  | some why =>
    cases why <;>
    · refine ⟨⟨fun h => ?_, fun _ => .inr ⟨_, rfl, hkind⟩⟩, by simp [halt, finish]⟩
      cases h

theorem queued_pop (h : l.Queued) (hne : l.pending ≠ [] ∨ l.finished = true) :
    l.pop.2.Queued ∧ (l.pop.1.kind = .eof → l.pop.2.next = l.pop) := by
  unfold pop
  cases hp : l.pending with
  | nil =>
    have hf := hne.resolve_left (by simp [hp])
    refine ⟨h, fun _ => ?_⟩
    simp [next, pop, hp, hf]
  | cons t ts =>
    dsimp only
    cases hf : l.finished with
    | false =>
      have hkind := h.reading hf
      rw [hp] at hkind
      refine ⟨⟨fun _ u hu => hkind u (List.mem_cons_of_mem t hu), fun hf' => ?_⟩, fun he => ?_⟩
      · cases hf'
      · exact absurd he (hkind t List.mem_cons_self)
    | true =>
      obtain hnil | ⟨us, hus, hkind⟩ := h.halted hf
      · cases hp.symm.trans hnil
      · rw [hp] at hus
        cases us with
        | nil =>
          obtain ⟨rfl, rfl⟩ := List.cons.inj hus
          refine ⟨⟨fun h => ?_, fun _ => .inl rfl⟩, fun _ => ?_⟩
          · cases h
          · simp [next, pop]
        | cons u us =>
          obtain ⟨rfl, rfl⟩ := List.cons.inj hus
          refine ⟨⟨fun h => ?_, fun _ => .inr ⟨us, rfl, fun v hv => ?_⟩⟩, fun he => ?_⟩
          · cases h
          · exact hkind v (List.mem_cons_of_mem t hv)
          · exact absurd he (hkind t List.mem_cons_self)

/-- a call keeps the queue in order, and after the end token another call gives it again -/
theorem queued_next (h : l.Queued) :
    l.next.2.Queued ∧ (l.next.1.kind = .eof → l.next.2.next = l.next) := by
  unfold next
  by_cases hread : (l.pending.isEmpty && !l.finished) = true
  · have hf : l.finished = false := by
      simp only [Bool.and_eq_true, Bool.not_eq_true'] at hread
      exact hread.2
    obtain ⟨hq, hne⟩ := queued_refill hf
    rw [if_pos hread]
    exact queued_pop hq (.inl hne)
  · rw [if_neg hread]
    refine queued_pop h ?_
    cases hp : l.pending with
    | nil => exact .inr (by simpa [hp] using hread)
    | cons t ts => exact .inl (List.cons_ne_nil t ts)

/-- after the end token every call gives it again -/
theorem nth_of_eof (h : l.next.2.next = l.next) (n : Nat) : l.nth n = l.next.1 := by
  induction n generalizing l with
  | zero => rfl
  | succ n ih =>
    rw [nth, ih (by rw [h, h]), h]

theorem toList_drain (l : Lexer) (read : Array Token) :
    (l.drain read).1.toList = read.toList ++ l.tokens := by
  rw [tokens, drain_step l read, drain_step l #[]]
  split
  · simp
  · rw [toList_drain l.next.2, toList_drain l.next.2]
    simp
termination_by l.size
decreasing_by all_goals exact size_next ‹_›

theorem tokens_step (l : Lexer) : l.tokens =
    if l.next.1.kind = .eof then [l.next.1] else l.next.1 :: l.next.2.tokens := by
  rw [tokens, drain_step]
  split
  · rfl
  · rw [toList_drain]
    rfl

/-- the calls hand out the tokens of the whole text, and then the last one of them for ever -/
theorem nth_eq_tokens {ts : List Token} {e : Token} (h : l.Queued) (htokens : l.tokens = ts ++ [e])
    (n : Nat) : l.nth n = l.tokens.getD n e := by
  induction n generalizing l ts with
  | zero =>
    rw [tokens_step]
    split <;> rfl
  | succ n ih =>
    obtain ⟨hq, hagain⟩ := queued_next h
    rw [tokens_step] at htokens ⊢
    by_cases he : l.next.1.kind = .eof
    · rw [if_pos he] at htokens ⊢
      obtain rfl : l.next.1 = e := by
        cases ts <;> simp_all
      exact nth_of_eof (hagain he) (n + 1)
    · rw [if_neg he] at htokens ⊢
      cases ts with
      | nil =>
        -- the calls after this one hand out some token
        have hnil := (List.cons.inj htokens).2
        rw [tokens_step] at hnil
        split at hnil <;> cases hnil
      | cons t ts =>
        exact ih hq (List.cons.inj htokens).2

theorem snd_drain (l : Lexer) (read : Array Token) : (l.drain read).2 = (l.drain #[]).2 := by
  rw [drain_step l read, drain_step l #[]]
  split
  · rfl
  · rw [snd_drain l.next.2 (read.push _), snd_drain l.next.2 (#[].push _)]
termination_by l.size
decreasing_by all_goals exact size_next ‹_›

theorem allErrors_step (l : Lexer) : l.allErrors =
    if l.next.1.kind = .eof then l.next.2.errors else l.next.2.allErrors := by
  rw [allErrors, drain_step]
  split
  · rfl
  · rw [snd_drain]
    rfl

/-- where calls change nothing, only the errors can be taken away -/
theorem after_eq_self (h : l.next.2 = l) {rs : List Request} (htake : .takeErrors ∉ rs) :
    l.after rs = l := by
  induction rs with
  | nil => rfl
  | cons r rs ih =>
    obtain ⟨hr, hrs⟩ := List.ne_and_not_mem_of_not_mem_cons htake
    cases r with
    | token =>
      rw [after, answer, h]
      exact ih hrs
    | errors => exact ih hrs
    | takeErrors => exact absurd rfl hr

/-- who has taken as many tokens as the whole text has was handed these, and finds the errors of the whole
text if none were taken away -/
theorem handed_whole (h : l.Queued) {rs : List Request} (htake : .takeErrors ∉ rs)
    (hcount : l.tokens.length ≤ rs.count .token) :
    l.tokens <+: l.handed rs ∧ (l.after rs).errors = l.allErrors := by
  induction rs generalizing l with
  | nil =>
    rw [tokens_step] at hcount
    split at hcount <;> simp at hcount
  | cons r rs ih =>
    obtain ⟨hr, hrs⟩ := List.ne_and_not_mem_of_not_mem_cons htake
    cases r with
    | token =>
      obtain ⟨hq, hagain⟩ := queued_next h
      rw [tokens_step] at hcount ⊢
      rw [allErrors_step]
      by_cases he : l.next.1.kind = .eof
      · rw [if_pos he, if_pos he]
        have hstays : (l.after (.token :: rs)) = l.next.2 :=
          after_eq_self (congrArg Prod.snd (hagain he)) hrs
        exact ⟨List.cons_prefix_cons.2 ⟨rfl, List.nil_prefix⟩, congrArg errors hstays⟩
      · rw [if_neg he, List.length_cons, List.count_cons_self, Nat.add_le_add_iff_right] at hcount
        rw [if_neg he, if_neg he]
        obtain ⟨hfront, herrors⟩ := ih hq hrs hcount
        exact ⟨List.cons_prefix_cons.2 ⟨rfl, hfront⟩, herrors⟩
    | errors => exact ih h hrs (by simpa using hcount)
    | takeErrors => exact absurd rfl hr

end Lexer

end AutoLang
