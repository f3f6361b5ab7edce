import AutoLang.Proofs.Decimal.Integers
import AutoLang.Value.Operator
import Mathlib

/-! Equality of values. Two values are equal when they are after integers have been widened to doubles,
so what a program sees as equality is symmetric and transitive because equality of values of one kind
is. It is not reflexive: a NaN differs from itself, and so does every value that one occurs in. -/

namespace AutoLang

/-- a NaN occurs in the value, at whatever depth -/
inductive Value.HoldsNaN : Value → Prop
  | double {x : Float} : x.isNaN = true → HoldsNaN (.double x)
  | item {v : Value} {vs : List Value} : v ∈ vs → HoldsNaN v → HoldsNaN (.array vs)
  | field {k : String} {v : Value} {fs : List (String × Value)} : (k, v) ∈ fs → HoldsNaN v →
    HoldsNaN (.object fs)

namespace Value

theorem float_beq_symm {x y : Float} (h : (x == y) = true) : (y == x) = true := by
  rw [Float.beq_iff_ne_nan_and_eq] at h ⊢
  tauto

theorem float_beq_trans {x y z : Float} (h : (x == y) = true) (h' : (y == z) = true) :
    (x == z) = true := by
  rw [Float.beq_iff_ne_nan_and_eq] at h h' ⊢
  obtain ⟨hx, -, h⟩ := h
  obtain ⟨-, hz, h'⟩ := h'
  refine ⟨hx, hz, ?_⟩
  rcases h with rfl | ⟨rfl, rfl⟩ | ⟨rfl, rfl⟩
  · exact h'
  · rcases h' with rfl | ⟨-, rfl⟩ | ⟨-, rfl⟩ <;> simp
  · rcases h' with rfl | ⟨-, rfl⟩ | ⟨-, rfl⟩ <;> simp

section Kinds

variable {b : Value} {x : Float} {v : Value} {vs ws : List Value} {k : String}
  {fs gs : List (String × Value)}

/-- the values whose equality is that of the logic -/
def isAtom : Value → Bool
  | double _ | array _ | object _ => false
  | _ => true

theorem beq_atom {a : Value} (h : a.isAtom = true) : a.beq b = true ↔ a = b := by
  cases a with
  | double | array | object => cases h
  | _ => cases b <;> simp [beq]

theorem beq_double : (double x).beq b = true ↔ ∃ y, b = double y ∧ (x == y) = true := by
  cases b <;> simp [beq]

theorem beq_array : (array vs).beq b = true ↔ ∃ ws, b = array ws ∧ beqItems vs ws = true := by
  cases b <;> simp [beq]

theorem beq_object : (object fs).beq b = true ↔ ∃ gs, b = object gs ∧ beqFields fs gs = true := by
  cases b <;> simp [beq]

theorem beqItems_nil : beqItems [] ws = true ↔ ws = [] := by cases ws <;> simp [beqItems]

theorem beqItems_cons : beqItems (v :: vs) ws = true ↔
    ∃ w us, ws = w :: us ∧ v.beq w = true ∧ beqItems vs us = true := by
  cases ws <;> simp [beqItems, and_assoc]

theorem beqFields_nil : beqFields [] gs = true ↔ gs = [] := by cases gs <;> simp [beqFields]

theorem beqFields_cons : beqFields ((k, v) :: fs) gs = true ↔
    ∃ w hs, gs = (k, w) :: hs ∧ v.beq w = true ∧ beqFields fs hs = true := by
  rcases gs with _ | ⟨⟨l, w⟩, hs⟩
  · simp [beqFields]
  · simp only [beqFields, Bool.and_eq_true, beq_iff_eq, List.cons.injEq, Prod.mk.injEq]
    constructor
    · rintro ⟨⟨rfl, hv⟩, hfs⟩
      exact ⟨w, hs, ⟨⟨rfl, rfl⟩, rfl⟩, hv, hfs⟩
    · rintro ⟨w', hs', ⟨⟨rfl, rfl⟩, rfl⟩, hv, hfs⟩
      exact ⟨⟨rfl, hv⟩, hfs⟩

end Kinds

mutual

theorem beq_symm : (a b : Value) → a.beq b = true → b.beq a = true
  | .double x, b, h => by
    obtain ⟨y, rfl, hxy⟩ := beq_double.1 h
    exact beq_double.2 ⟨x, rfl, float_beq_symm hxy⟩
  | .array vs, b, h => by
    obtain ⟨ws, rfl, hvs⟩ := beq_array.1 h
    exact beq_array.2 ⟨vs, rfl, beqItems_symm vs ws hvs⟩
  | .object fs, b, h => by
    obtain ⟨gs, rfl, hfs⟩ := beq_object.1 h
    exact beq_object.2 ⟨fs, rfl, beqFields_symm fs gs hfs⟩
  | .nil, b, h | .void, b, h | .bool _, b, h | .byte _, b, h | .int _, b, h | .uint _, b, h
  | .char _, b, h | .str _, b, h | .range _, b, h | .error _, b, h => by
    obtain rfl := (beq_atom rfl).1 h
    exact h

theorem beqItems_symm : (vs ws : List Value) → beqItems vs ws = true → beqItems ws vs = true
  | [], ws, h => by
    obtain rfl := beqItems_nil.1 h
    exact h
  | v :: vs, ws, h => by
    obtain ⟨w, us, rfl, hv, hvs⟩ := beqItems_cons.1 h
    exact beqItems_cons.2 ⟨v, vs, rfl, beq_symm v w hv, beqItems_symm vs us hvs⟩

theorem beqFields_symm : (fs gs : List (String × Value)) → beqFields fs gs = true →
    beqFields gs fs = true
  | [], gs, h => by
    obtain rfl := beqFields_nil.1 h
    exact h
  | (k, v) :: fs, gs, h => by
    obtain ⟨w, hs, rfl, hv, hfs⟩ := beqFields_cons.1 h
    exact beqFields_cons.2 ⟨v, fs, rfl, beq_symm v w hv, beqFields_symm fs hs hfs⟩

end

mutual

theorem beq_trans : (a b c : Value) → a.beq b = true → b.beq c = true → a.beq c = true
  | .double x, b, c, hab, hbc => by
    obtain ⟨y, rfl, hxy⟩ := beq_double.1 hab
    obtain ⟨z, rfl, hyz⟩ := beq_double.1 hbc
    exact beq_double.2 ⟨z, rfl, float_beq_trans hxy hyz⟩
  | .array vs, b, c, hab, hbc => by
    obtain ⟨ws, rfl, hvs⟩ := beq_array.1 hab
    obtain ⟨us, rfl, hws⟩ := beq_array.1 hbc
    exact beq_array.2 ⟨us, rfl, beqItems_trans vs ws us hvs hws⟩
  | .object fs, b, c, hab, hbc => by
    obtain ⟨gs, rfl, hfs⟩ := beq_object.1 hab
    obtain ⟨hs, rfl, hgs⟩ := beq_object.1 hbc
    exact beq_object.2 ⟨hs, rfl, beqFields_trans fs gs hs hfs hgs⟩
  | .nil, b, c, hab, hbc | .void, b, c, hab, hbc | .bool _, b, c, hab, hbc
  | .byte _, b, c, hab, hbc | .int _, b, c, hab, hbc | .uint _, b, c, hab, hbc
  | .char _, b, c, hab, hbc | .str _, b, c, hab, hbc | .range _, b, c, hab, hbc
  | .error _, b, c, hab, hbc => by
    obtain rfl := (beq_atom rfl).1 hab
    exact hbc

theorem beqItems_trans : (vs ws us : List Value) → beqItems vs ws = true →
    beqItems ws us = true → beqItems vs us = true
  | [], ws, us, h, h' => by
    obtain rfl := beqItems_nil.1 h
    exact h'
  | v :: vs, ws, us, h, h' => by
    obtain ⟨w, ws, rfl, hvw, hvs⟩ := beqItems_cons.1 h
    obtain ⟨u, us, rfl, hwu, hws⟩ := beqItems_cons.1 h'
    exact beqItems_cons.2 ⟨u, us, rfl, beq_trans v w u hvw hwu, beqItems_trans vs ws us hvs hws⟩

theorem beqFields_trans : (fs gs hs : List (String × Value)) → beqFields fs gs = true →
    beqFields gs hs = true → beqFields fs hs = true
  | [], gs, hs, h, h' => by
    obtain rfl := beqFields_nil.1 h
    exact h'
  | (k, v) :: fs, gs, hs, h, h' => by
    obtain ⟨w, gs, rfl, hvw, hfs⟩ := beqFields_cons.1 h
    obtain ⟨u, hs, rfl, hwu, hgs⟩ := beqFields_cons.1 h'
    exact beqFields_cons.2 ⟨u, hs, rfl, beq_trans v w u hvw hwu, beqFields_trans fs gs hs hfs hgs⟩

end

section Reflexive

theorem holdsNaN_double {x : Float} : (double x).HoldsNaN ↔ x = Float.nan := by
  rw [← decide_eq_true_iff (p := x = Float.nan), ← Float.isNaN_eq_decide_eq_nan]
  exact ⟨fun | .double h => h, .double⟩

theorem holdsNaN_array {vs : List Value} : (array vs).HoldsNaN ↔ ∃ v ∈ vs, v.HoldsNaN :=
  ⟨fun | .item hv h => ⟨_, hv, h⟩, fun ⟨_, hv, h⟩ => .item hv h⟩

theorem holdsNaN_object {fs : List (String × Value)} :
    (object fs).HoldsNaN ↔ ∃ f ∈ fs, f.2.HoldsNaN :=
  ⟨fun | .field hf h => ⟨_, hf, h⟩, fun ⟨_, hf, h⟩ => .field hf h⟩

mutual

theorem beq_self_iff : (a : Value) → (a.beq a = true ↔ ¬ a.HoldsNaN)
  | .double x => by
    rw [holdsNaN_double, ← ne_eq, ← Float.beq_self_iff]
    rfl
  | .array vs => by
    rw [beq, beqItems_self_iff vs, holdsNaN_array]
    simp only [not_exists, not_and]
  | .object fs => by
    rw [beq, beqFields_self_iff fs, holdsNaN_object]
    simp only [not_exists, not_and]
  | .nil | .void | .bool _ | .byte _ | .int _ | .uint _ | .char _ | .str _ | .range _
  | .error _ => iff_of_true ((beq_atom rfl).2 rfl) nofun

theorem beqItems_self_iff : (vs : List Value) →
    (beqItems vs vs = true ↔ ∀ v ∈ vs, ¬ v.HoldsNaN)
  | [] => by simp [beqItems]
  | v :: vs => by
    rw [beqItems, Bool.and_eq_true, beq_self_iff v, beqItems_self_iff vs, List.forall_mem_cons]

theorem beqFields_self_iff : (fs : List (String × Value)) →
    (beqFields fs fs = true ↔ ∀ f ∈ fs, ¬ f.2.HoldsNaN)
  | [] => by simp [beqFields]
  | (k, v) :: fs => by
    rw [beqFields, beq_self_eq_true, Bool.true_and, Bool.and_eq_true, beq_self_iff v,
      beqFields_self_iff fs, List.forall_mem_cons]

end

end Reflexive

/-- an integer as the double that it is compared as -/
def widen : Value → Value
  | int n => double (toDouble n)
  | v => v

theorem equal_eq (a b : Value) : a.equal b = a.widen.beq b.widen := by
  cases a with
  | int n =>
    cases b with
    | int k => exact (Decimal.beq_toDouble n k).symm
    | _ => rfl
  | double x => cases b <;> rfl
  | _ => cases b <;> rfl

/-- no integer is widened to a NaN -/
theorem holdsNaN_widen (a : Value) : a.widen.HoldsNaN ↔ a.HoldsNaN := by
  cases a with
  | int n => exact iff_of_false (fun h => Decimal.toDouble_ne_nan n (holdsNaN_double.1 h)) nofun
  | _ => rfl

end Value

/-- What a program sees as equality is symmetric and transitive, also across an integer and a double,
and holds of a value and itself exactly if no NaN occurs in it; the operator for difference gives its
negation. -/
theorem equality_partial (a b c : Value) :
    a.equal b = b.equal a ∧ (a.equal b = true → b.equal c = true → a.equal c = true) ∧
      (a.equal a = true ↔ ¬ a.HoldsNaN) ∧ BinaryOp.eq.apply a b = .bool (a.equal b) ∧
      BinaryOp.ne.apply a b = .bool (!a.equal b) := by
  have hsymm (a b : Value) (h : a.equal b = true) : b.equal a = true := by
    rw [Value.equal_eq] at h ⊢
    exact Value.beq_symm _ _ h
  refine ⟨Bool.eq_iff_iff.2 ⟨hsymm a b, hsymm b a⟩, fun hab hbc => ?_, ?_, rfl, rfl⟩
  · rw [Value.equal_eq] at hab hbc ⊢
    exact Value.beq_trans _ _ _ hab hbc
  · rw [Value.equal_eq, Value.beq_self_iff, Value.holdsNaN_widen]

/-- the two zeros are equal by the integer between them -/
theorem equality_partial_zeros :
    (Value.double (-0.0)).equal (.int 0) = true ∧ (Value.int 0).equal (.double 0.0) = true ∧
      (Value.double (-0.0)).equal (.double 0.0) = true := by
  have hleft : (Value.double (-0.0)).equal (.int 0) = true := by decide
  have hright : (Value.int 0).equal (.double 0.0) = true := by decide
  exact ⟨hleft, hright, (equality_partial _ _ _).2.1 hleft hright⟩

end AutoLang
