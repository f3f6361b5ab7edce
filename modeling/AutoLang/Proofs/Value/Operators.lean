import AutoLang.Value.Operator
import Mathlib

/-! Operators on two values. On which kinds an operator is defined is one table, and a pair that is not
in it gives an error that names the operator; a zero divisor gives another. Everything else has a
result, so a quotient by zero is never asked for, and on integers the result is the exact one, wrapped
around to the width. -/

namespace AutoLang

namespace Value

/-- the pairs that arithmetic is defined on -/
inductive Numeric : Value → Value → Prop where
  | ints {m n : Int32} : Numeric (.int m) (.int n)
  | uints {m n : UInt32} : Numeric (.uint m) (.uint n)
  | doubles {x y : Float} : Numeric (.double x) (.double y)
  | intDouble {m : Int32} {y : Float} : Numeric (.int m) (.double y)
  | doubleInt {x : Float} {n : Int32} : Numeric (.double x) (.int n)

/-- the pairs that `+` joins -/
inductive Textual : Value → Value → Prop where
  | strings {s t : String} : Textual (.str s) (.str t)

/-- the pairs that are ordered -/
inductive Ordered : Value → Value → Prop where
  | ints {m n : Int32} : Ordered (.int m) (.int n)
  | uints {m n : UInt32} : Ordered (.uint m) (.uint n)
  | doubles {x y : Float} : Ordered (.double x) (.double y)

/-- the zeros, of which there are two among the doubles -/
inductive Zero : Value → Prop where
  | int : Zero (.int 0)
  | uint : Zero (.uint 0)
  | positive : Zero (.double 0.0)
  | negative : Zero (.double (-0.0))

variable {a b : Value}

theorem isZero_iff : b.isZero = true ↔ b.Zero := by
  constructor
  · intro h
    cases b with
    | int n =>
      obtain rfl : n = 0 := by simpa [isZero] using h
      exact .int
    | uint n =>
      obtain rfl : n = 0 := by simpa [isZero] using h
      exact .uint
    | double x =>
      obtain ⟨-, -, rfl | ⟨rfl, -⟩ | ⟨rfl, -⟩⟩ := Float.beq_iff_ne_nan_and_eq.1 h
      · exact .positive
      · exact .positive
      · exact .negative
    | _ => cases h
  · rintro (_ | _ | _ | _)
    · rfl
    · rfl
    · decide
    · decide

theorem arithmeticPair_iff : arithmeticPair a b = true ↔ a.Numeric b := by
  constructor
  · intro h
    unfold arithmeticPair at h
    split at h
    · exact .ints
    · exact .uints
    · exact .doubles
    · exact .intDouble
    · exact .doubleInt
    · cases h
  · rintro (_ | _ | _ | _ | _) <;> rfl

theorem guard_iff : (arithmeticPair a b && b.isZero) = true ↔ a.Numeric b ∧ b.Zero := by
  rw [Bool.and_eq_true, arithmeticPair_iff, isZero_iff]

section Arithmetic

variable (op : Arithmetic)

theorem error?_arithmetic (h : a.Numeric b) : (op.apply a b).error? = none := by
  cases h <;> rfl

theorem arithmetic_eq_error (h : ¬ a.Numeric b) : op.apply a b = ofError (.type op.symbol) := by
  unfold Arithmetic.apply
  split
  · exact absurd .ints h
  · exact absurd .uints h
  · exact absurd .doubles h
  · exact absurd .intDouble h
  · exact absurd .doubleInt h
  · rfl

theorem add_eq (h : ¬ a.Textual b) :
    a.add b = Arithmetic.apply ⟨"+", (· + ·), (· + ·), (· + ·)⟩ a b := by
  unfold add
  split
  · exact absurd .strings h
  · rfl

end Arithmetic

section Order

variable (op : Order)

theorem error?_order (h : a.Ordered b) : (op.apply a b).error? = none := by
  cases h <;> rfl

theorem order_eq_error (h : ¬ a.Ordered b) : op.apply a b = ofError (.type op.symbol) := by
  unfold Order.apply
  split
  · exact absurd .ints h
  · exact absurd .uints h
  · exact absurd .doubles h
  · rfl

end Order

/-- Whatever a machine makes of a quotient by zero, division does not depend on it. -/
theorem div_eq_of_quotients {ints : Int32 → Int32 → Int32} {uints : UInt32 → UInt32 → UInt32}
    (hints : ∀ m n, n ≠ 0 → ints m n = m / n) (huints : ∀ m n, n ≠ 0 → uints m n = m / n)
    (a b : Value) : a.div b = if arithmeticPair a b && b.isZero then ofError .divisionByZero
      else Arithmetic.apply ⟨"/", ints, uints, (· / ·)⟩ a b := by
  unfold div
  split
  · rfl
  · rename_i h
    rw [guard_iff] at h
    by_cases hpair : a.Numeric b
    · have hzero : ¬ b.Zero := fun hb => h ⟨hpair, hb⟩
      cases hpair with
      | @ints m n =>
        have hn : n ≠ 0 := fun hn => hzero (hn ▸ .int)
        exact congrArg Value.int (hints m n hn).symm
      | @uints m n =>
        have hn : n ≠ 0 := fun hn => hzero (hn ▸ .uint)
        exact congrArg Value.uint (huints m n hn).symm
      | doubles | intDouble | doubleInt => rfl
    · rw [arithmetic_eq_error _ hpair, arithmetic_eq_error _ hpair]

end Value

namespace BinaryOp

open Value (error?)

/-- why an operator has no result on two values -/
inductive Fails : BinaryOp → Value → Value → EvalError → Prop where
  | arithmetic {op : BinaryOp} {a b : Value} : op ∈ [.add, .sub, .mul, .div] → ¬ a.Numeric b →
    ¬ (op = .add ∧ a.Textual b) → Fails op a b (.type op.symbol)
  | zero {a b : Value} : a.Numeric b → b.Zero → Fails .div a b .divisionByZero
  | order {op : BinaryOp} {a b : Value} : op ∈ [.lt, .gt, .le, .ge] → ¬ a.Ordered b →
    Fails op a b (.type op.symbol)

/-- the result on whole numbers; there is no quotient by zero -/
def whole? : BinaryOp → Int → Int → Option Int
  | .add, m, n => some (m + n)
  | .sub, m, n => some (m - n)
  | .mul, m, n => some (m * n)
  | .div, m, n => if n = 0 then none else some (m.tdiv n)
  | _, _, _ => none

variable {op : BinaryOp} {a b : Value}

theorem Fails.apply_eq {e : EvalError} (h : op.Fails a b e) : op.apply a b = .ofError e := by
  cases h with
  | arithmetic hop hpair htext =>
    simp only [List.mem_cons, List.not_mem_nil, or_false] at hop
    rcases hop with rfl | rfl | rfl | rfl
    · exact (Value.add_eq fun h => htext ⟨rfl, h⟩).trans (Value.arithmetic_eq_error _ hpair)
    · exact Value.arithmetic_eq_error _ hpair
    · exact Value.arithmetic_eq_error _ hpair
    · refine (if_neg fun h => ?_).trans (Value.arithmetic_eq_error _ hpair)
      exact hpair (Value.guard_iff.1 h).1
  | zero hpair hzero => exact if_pos (Value.guard_iff.2 ⟨hpair, hzero⟩)
  | order hop hpair =>
    simp only [List.mem_cons, List.not_mem_nil, or_false] at hop
    rcases hop with rfl | rfl | rfl | rfl <;> exact Value.order_eq_error _ hpair

theorem error?_of_not_fails (h : ∀ e, ¬ op.Fails a b e) : (op.apply a b).error? = none := by
  have harithmetic (hop : op ∈ [.add, .sub, .mul, .div]) (htext : ¬ (op = .add ∧ a.Textual b)) :
      a.Numeric b := by_contra fun hpair => h _ (.arithmetic hop hpair htext)
  have horder (hop : op ∈ [.lt, .gt, .le, .ge]) : a.Ordered b :=
    by_contra fun hpair => h _ (.order hop hpair)
  cases op with
  | add =>
    by_cases htext : a.Textual b
    · cases htext
      rfl
    · rw [apply, Value.add_eq htext]
      exact Value.error?_arithmetic _ (harithmetic (by decide) fun h => htext h.2)
  | sub | mul => exact Value.error?_arithmetic _ (harithmetic (by decide) (by simp))
  | div =>
    have hpair := harithmetic (by decide) (by simp)
    have hguard : ¬ (Value.arithmeticPair a b && b.isZero) = true := fun hg =>
      h _ (.zero hpair (Value.guard_iff.1 hg).2)
    rw [apply, Value.div, if_neg hguard]
    exact Value.error?_arithmetic _ hpair
  | lt | gt | le | ge => exact Value.error?_order _ (horder (by decide))
  | _ => rfl

/-- an operator gives an error exactly if it fails, and the error says why -/
theorem error?_apply_iff {message : String} :
    (op.apply a b).error? = some message ↔ ∃ e, op.Fails a b e ∧ e.message = message := by
  constructor
  · intro h
    by_cases hfails : ∃ e, op.Fails a b e
    · obtain ⟨e, he⟩ := hfails
      rw [he.apply_eq] at h
      exact ⟨e, he, Option.some.inj h⟩
    · rw [error?_of_not_fails (not_exists.1 hfails)] at h
      cases h
  · rintro ⟨e, he, rfl⟩
    rw [he.apply_eq]
    rfl

/-- on integers the result is the exact one, wrapped around -/
theorem apply_ints {m n : Int32} {r : Int} (h : op.whole? m.toInt n.toInt = some r) :
    ∃ c, op.apply (.int m) (.int n) = .int c ∧ c.toInt = r.bmod (2 ^ 32) := by
  cases op with
  | add =>
    obtain rfl := Option.some.inj h
    exact ⟨m + n, rfl, Int32.toInt_add m n⟩
  | sub =>
    obtain rfl := Option.some.inj h
    exact ⟨m - n, rfl, Int32.toInt_sub m n⟩
  | mul =>
    obtain rfl := Option.some.inj h
    exact ⟨m * n, rfl, Int32.toInt_mul m n⟩
  | div =>
    obtain ⟨hn, hr⟩ := Option.ite_none_left_eq_some.1 h
    obtain rfl := Option.some.inj hr
    refine ⟨m / n, if_neg fun hguard => hn ?_, Int32.toInt_div m n⟩
    cases (Value.guard_iff.1 hguard).2
    rfl
  | _ => cases h

/-- the one quotient that is too large for its kind -/
example : BinaryOp.div.apply (.int (-2147483648)) (.int (-1)) = .int (-2147483648) := by rfl

/-- on unsigned integers the result is the remainder of the exact one -/
theorem apply_uints {m n : UInt32} {r : Int} (h : op.whole? m.toNat n.toNat = some r) :
    ∃ c, op.apply (.uint m) (.uint n) = .uint c ∧ (c.toNat : Int) = r % 2 ^ 32 := by
  have hm := m.toNat_lt
  have hn := n.toNat_lt
  cases op with
  | add =>
    obtain rfl := Option.some.inj h
    refine ⟨m + n, rfl, ?_⟩
    rw [UInt32.toNat_add]
    omega
  | sub =>
    obtain rfl := Option.some.inj h
    refine ⟨m - n, rfl, ?_⟩
    rw [UInt32.toNat_sub]
    omega
  | mul =>
    obtain rfl := Option.some.inj h
    refine ⟨m * n, rfl, ?_⟩
    rw [UInt32.toNat_mul]
    push_cast
    rfl
  | div =>
    obtain ⟨hzero, hr⟩ := Option.ite_none_left_eq_some.1 h
    obtain rfl := Option.some.inj hr
    refine ⟨m / n, if_neg fun hguard => hzero ?_, ?_⟩
    · cases (Value.guard_iff.1 hguard).2
      rfl
    · have hle : m.toNat / n.toNat < 2 ^ 32 := (Nat.div_le_self _ _).trans_lt hm
      rw [UInt32.toNat_div, ← Int.ofNat_tdiv, Int.emod_eq_of_lt (by positivity) (by exact_mod_cast hle)]
  | _ => cases h

/-- both ways to write an order are the same -/
theorem apply_swap (h : a.Ordered b) :
    BinaryOp.lt.apply a b = BinaryOp.gt.apply b a ∧ BinaryOp.le.apply a b = BinaryOp.ge.apply b a := by
  cases h <;> exact ⟨rfl, rfl⟩

theorem le_ints (m n : Int32) : BinaryOp.le.apply (.int m) (.int n) = .bool true ↔
    BinaryOp.lt.apply (.int m) (.int n) = .bool true ∨
      BinaryOp.eq.apply (.int m) (.int n) = .bool true := by
  have hle : BinaryOp.le.apply (.int m) (.int n) = .bool (decide (m ≤ n)) := rfl
  have hlt : BinaryOp.lt.apply (.int m) (.int n) = .bool (decide (m < n)) := rfl
  have heq : BinaryOp.eq.apply (.int m) (.int n) = .bool (m == n) := rfl
  simp [hle, hlt, heq, Int32.le_iff_lt_or_eq]

theorem le_uints (m n : UInt32) : BinaryOp.le.apply (.uint m) (.uint n) = .bool true ↔
    BinaryOp.lt.apply (.uint m) (.uint n) = .bool true ∨
      BinaryOp.eq.apply (.uint m) (.uint n) = .bool true := by
  have hle : BinaryOp.le.apply (.uint m) (.uint n) = .bool (decide (m ≤ n)) := rfl
  have hlt : BinaryOp.lt.apply (.uint m) (.uint n) = .bool (decide (m < n)) := rfl
  have heq : BinaryOp.eq.apply (.uint m) (.uint n) = .bool (m == n) := rfl
  simp [hle, hlt, heq, UInt32.le_iff_lt_or_eq]

theorem ordered_of_error? {op : BinaryOp} (hop : op ∈ [.lt, .gt, .le, .ge])
    (h : (op.apply a b).error? = none) : a.Ordered b := by
  by_contra hpair
  rw [(Fails.order hop hpair).apply_eq] at h
  cases h

end BinaryOp

/-- An operator gives an error exactly where it fails, with the message that says why, and never asks for
a quotient by zero. On integers of one kind arithmetic gives the exact result, wrapped around to the
width. The orders are two ways to write each of two relations, of which on integers one is the other or
equality. -/
theorem operators_total (op : BinaryOp) (a b : Value) (m n : Int32) (k l : UInt32) :
    (∀ message, (op.apply a b).error? = some message ↔ ∃ e, op.Fails a b e ∧ e.message = message) ∧
      (∀ ints uints, (∀ i j, j ≠ 0 → ints i j = i / j) → (∀ i j, j ≠ 0 → uints i j = i / j) →
        BinaryOp.div.apply a b = if Value.arithmeticPair a b && b.isZero then .ofError .divisionByZero
          else Value.Arithmetic.apply ⟨"/", ints, uints, (· / ·)⟩ a b) ∧
      (∀ r, op.whole? m.toInt n.toInt = some r →
        ∃ c, op.apply (.int m) (.int n) = .int c ∧ c.toInt = r.bmod (2 ^ 32)) ∧
      (∀ r, op.whole? k.toNat l.toNat = some r →
        ∃ c, op.apply (.uint k) (.uint l) = .uint c ∧ (c.toNat : Int) = r % 2 ^ 32) ∧
      ((BinaryOp.lt.apply a b).error? = none → BinaryOp.lt.apply a b = BinaryOp.gt.apply b a) ∧
      ((BinaryOp.le.apply a b).error? = none → BinaryOp.le.apply a b = BinaryOp.ge.apply b a) ∧
      (BinaryOp.le.apply (.int m) (.int n) = .bool true ↔
        BinaryOp.lt.apply (.int m) (.int n) = .bool true ∨
          BinaryOp.eq.apply (.int m) (.int n) = .bool true) ∧
      (BinaryOp.le.apply (.uint k) (.uint l) = .bool true ↔
        BinaryOp.lt.apply (.uint k) (.uint l) = .bool true ∨
          BinaryOp.eq.apply (.uint k) (.uint l) = .bool true) := by
  refine ⟨fun _ => BinaryOp.error?_apply_iff, fun _ _ hints huints =>
    Value.div_eq_of_quotients hints huints a b, fun _ => BinaryOp.apply_ints,
    fun _ => BinaryOp.apply_uints, fun h => ?_, fun h => ?_, BinaryOp.le_ints m n,
    BinaryOp.le_uints k l⟩
  · exact (BinaryOp.apply_swap (BinaryOp.ordered_of_error? (by decide) h)).1
  · exact (BinaryOp.apply_swap (BinaryOp.ordered_of_error? (by decide) h)).2

end AutoLang
