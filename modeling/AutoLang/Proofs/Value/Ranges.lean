import AutoLang.Value.Range
import Mathlib

/-! The members of a range. They are computed from the start and a position, in integers that have no
limits, so nothing wraps where a range begins or ends at the limits of the numbers it is made of. -/

namespace AutoLang.IntRange

variable {r : IntRange} {i : Nat} {v : Int32}

/-- the test of a C loop tells whether the range has more members -/
theorem test_eq (hv : v.toInt = r.start.toInt + i) :
    (if r.inclusive then decide (v ≤ r.stop) else decide (v < r.stop)) = decide (i < r.count) := by
  have hle : v ≤ r.stop ↔ v.toInt ≤ r.stop.toInt := Int32.le_iff_toInt_le
  have hlt : v < r.stop ↔ v.toInt < r.stop.toInt := Int32.lt_iff_toInt_lt
  rw [count]
  cases r.inclusive with
  | true =>
    simp only [if_true, hle, hv]
    exact decide_eq_decide.2 (by omega)
  | false =>
    simp only [Bool.false_eq_true, if_false, hlt, hv]
    exact decide_eq_decide.2 (by omega)

theorem get_eq (hv : v.toInt = r.start.toInt + i) : r.get i = v := by
  rw [get, ← hv, Int32.ofInt_toInt]

theorem count_le : r.count ≤ 2 ^ 32 := by
  have h₁ := r.start.le_toInt
  have h₂ := r.stop.toInt_lt
  rw [count]
  cases r.inclusive with
  | true => simp only [if_true]; omega
  | false => simp only [Bool.false_eq_true, if_false]; omega

/-- the numbers that a range stands for -/
def Covers (r : IntRange) (v : Int32) : Prop :=
  r.start ≤ v ∧ if r.inclusive then v ≤ r.stop else v < r.stop

/-- all members in order -/
def members (r : IntRange) : List Int32 := (List.range r.count).map r.get

theorem start_add_le (hi : i < r.count) : r.start.toInt + i ≤ r.stop.toInt := by
  rw [count] at hi
  cases hinclusive : r.inclusive with
  | true => simp only [hinclusive, if_true] at hi; omega
  | false => simp only [hinclusive, Bool.false_eq_true, if_false] at hi; omega

/-- no member wraps -/
theorem toInt_get (hi : i < r.count) : (r.get i).toInt = r.start.toInt + i := by
  have hle := start_add_le hi
  have hlow := r.start.le_toInt
  have hhigh := r.stop.toInt_lt
  exact Int32.toInt_ofInt_of_le (by omega) (by omega)

theorem covers_iff (hv : v.toInt = r.start.toInt + i) : r.Covers v ↔ i < r.count := by
  have hstart : r.start ≤ v := Int32.le_iff_toInt_le.2 (by omega)
  have htest := test_eq hv
  rw [Covers, and_iff_right hstart]
  cases hinclusive : r.inclusive with
  | true => simpa [hinclusive] using htest
  | false => simpa [hinclusive] using htest

theorem mem_members_iff (r : IntRange) (v : Int32) : v ∈ r.members ↔ r.Covers v := by
  rw [members, List.mem_map]
  constructor
  · rintro ⟨i, hi, rfl⟩
    rw [List.mem_range] at hi
    exact (covers_iff (toInt_get hi)).2 hi
  · intro hcovers
    have hstart := Int32.le_iff_toInt_le.1 hcovers.1
    obtain ⟨i, hi⟩ := Int.le.dest hstart
    exact ⟨i, List.mem_range.2 ((covers_iff hi.symm).1 hcovers), get_eq hi.symm⟩

theorem pairwise_members (r : IntRange) : r.members.Pairwise (· < ·) := by
  rw [members, List.pairwise_map]
  refine List.pairwise_lt_range.imp_of_mem fun {i j} hi hj hlt => ?_
  rw [List.mem_range] at hi hj
  rw [Int32.lt_iff_toInt_lt, toInt_get hi, toInt_get hj]
  omega

/-- a range without its end ends with the number before it; there is one if the range has members -/
theorem members_exclusive (hexclusive : r.inclusive = false) (h : r.start < r.stop) :
    (r.stop - 1).toInt = r.stop.toInt - 1 ∧ r.members = members ⟨r.start, r.stop - 1, true⟩ := by
  have hlt := Int32.lt_iff_toInt_lt.1 h
  have hlow := r.start.le_toInt
  have hhigh := r.stop.toInt_lt
  have hsub : (r.stop - 1).toInt = r.stop.toInt - 1 := by
    rw [Int32.toInt_sub]
    exact Int.bmod_eq_of_le (by simp; omega) (by simp; omega)
  refine ⟨hsub, ?_⟩
  have hcount : r.count = count ⟨r.start, r.stop - 1, true⟩ := by
    simp only [count, hsub, hexclusive, if_true, Bool.false_eq_true, if_false]
    omega
  rw [members, members, hcount]
  rfl

example : members ⟨2147483645, 2147483647, true⟩ = [2147483645, 2147483646, 2147483647] := by decide

end AutoLang.IntRange
