import AutoLang.Proofs.Value.Equality
import Mathlib

/-! Equality of arrays and objects. What a program sees as equality widens an integer that stands
beside a double, and then compares values of one kind. Inside a container nothing is widened: items are
compared as values of one kind right away. So containers are equal when what they hold is equal in
pairs, with the one exception that an integer in one is never equal to a double in the other, however
deep the two are. -/

namespace AutoLang

namespace Value

variable {vs ws : List Value} {fs gs : List (String × Value)}

/-- an integer beside a double: the only values of two kinds that can be equal -/
def mixed : Value → Value → Bool
  | int _, double _ | double _, int _ => true
  | _, _ => false

/-- values of one kind are compared as a program compares them -/
theorem beq_eq (a b : Value) : a.beq b = (a.equal b && !a.mixed b) := by
  cases a with
  | int n => cases b <;> simp [equal, mixed, beq] <;> rfl
  | double x => cases b <;> simp [equal, mixed, beq] <;> rfl
  | _ => cases b <;> simp [equal, mixed] <;> rfl

theorem beq_iff {a b : Value} : a.beq b = true ↔ a.equal b = true ∧ a.mixed b = false := by
  rw [beq_eq, Bool.and_eq_true, Bool.not_eq_true']

theorem beqItems_iff : beqItems vs ws = true ↔ List.Forall₂ (fun v w => v.beq w = true) vs ws := by
  induction vs generalizing ws with
  | nil => rw [beqItems_nil, List.forall₂_nil_left_iff]
  | cons v vs ih =>
    rw [beqItems_cons, List.forall₂_cons_left_iff]
    constructor
    · rintro ⟨w, us, rfl, hv, hvs⟩
      exact ⟨w, us, hv, ih.1 hvs, rfl⟩
    · rintro ⟨w, us, hv, hvs, rfl⟩
      exact ⟨w, us, rfl, hv, ih.2 hvs⟩

theorem beqFields_iff : beqFields fs gs = true ↔
    List.Forall₂ (fun f g => f.1 = g.1 ∧ f.2.beq g.2 = true) fs gs := by
  induction fs generalizing gs with
  | nil => rw [beqFields_nil, List.forall₂_nil_left_iff]
  | cons f fs ih =>
    obtain ⟨k, v⟩ := f
    rw [beqFields_cons, List.forall₂_cons_left_iff]
    constructor
    · rintro ⟨w, hs, rfl, hv, hfs⟩
      exact ⟨(k, w), hs, ⟨rfl, hv⟩, ih.1 hfs, rfl⟩
    · rintro ⟨⟨l, w⟩, hs, ⟨rfl, hv⟩, hfs, rfl⟩
      exact ⟨w, hs, rfl, hv, ih.2 hfs⟩

end Value

/-- Arrays are equal exactly if their items are equal in pairs, and objects if their fields have the same
keys and equal values in pairs, where no pair is an integer and a double: these are equal by themselves
and not inside a container. -/
theorem containers_equal_iff (vs ws : List Value) (fs gs : List (String × Value)) :
    ((Value.array vs).equal (.array ws) = true ↔
        List.Forall₂ (fun v w => v.equal w = true ∧ v.mixed w = false) vs ws) ∧
      ((Value.object fs).equal (.object gs) = true ↔
        List.Forall₂ (fun f g => f.1 = g.1 ∧ f.2.equal g.2 = true ∧ f.2.mixed g.2 = false) fs gs) := by
  have hitems : (Value.array vs).equal (.array ws) = Value.beqItems vs ws := rfl
  have hfields : (Value.object fs).equal (.object gs) = Value.beqFields fs gs := rfl
  rw [hitems, hfields, Value.beqItems_iff, Value.beqFields_iff]
  simp only [Value.beq_iff, iff_self, and_self]

/-- one is equal to one as a double, but an array of the one is not equal to an array of the other, nor
is an object -/
theorem mixed_items_not_equal :
    List.Forall₂ (fun v w : Value => v.equal w = true) [.int 1] [.double 1.0] ∧
      (Value.array [.int 1]).equal (.array [.double 1.0]) = false ∧
      (Value.object [("a", .int 1)]).equal (.object [("a", .double 1.0)]) = false := by
  have hequal : (Value.int 1).equal (.double 1.0) = true := by decide
  exact ⟨.cons hequal .nil, by decide, by decide⟩

end AutoLang
