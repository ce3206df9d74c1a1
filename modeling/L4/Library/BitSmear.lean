import Mathlib.Algebra.Group.Nat.Defs
import Mathlib.Data.Nat.Size
import Mathlib.Tactic.Common

/-! Filling a number with ones below its leading bit by shifts and disjunctions. -/

namespace BitSmear
set_option autoImplicit true

/-- One turn of the filling. -/
def smear (k n : Nat) : Nat := n ||| n >>> k

/-- A bit is set if one of the `w` bits of `n` from it on is. -/
def Covers (n w m : Nat) : Prop := ∀ i, m.testBit i ↔ ∃ j < w, n.testBit (i + j)

theorem covers_self (n : Nat) : Covers n 1 n := by
  intro i
  constructor
  · intro hbit
    exact ⟨0, Nat.one_pos, hbit⟩
  · rintro ⟨j, hj, hbit⟩
    rwa [Nat.lt_one_iff.mp hj] at hbit

theorem Covers.smear (h : Covers n w m) (hk : k ≤ w) : Covers n (w + k) (smear k m) := by
  intro i
  rw [BitSmear.smear, Nat.testBit_or, Nat.testBit_shiftRight, Bool.or_eq_true, h i, h (k + i)]
  constructor
  · rintro (⟨j, hj, hbit⟩ | ⟨j, hj, hbit⟩)
    · exact ⟨j, Nat.lt_add_right k hj, hbit⟩
    · refine ⟨j + k, Nat.add_lt_add_right hj k, ?_⟩
      rwa [← Nat.add_assoc, Nat.add_comm, ← Nat.add_assoc]
  · rintro ⟨j, hj, hbit⟩
    by_cases hlt : j < w
    · exact .inl ⟨j, hlt, hbit⟩
    · have hadd : k + i + (j - k) = i + j := by omega
      exact .inr ⟨j - k, by omega, by rwa [hadd]⟩

theorem Covers.eq (h : Covers n w m) (hn : n < 2 ^ w) : m = 2 ^ n.size - 1 := by
  apply Nat.eq_of_testBit_eq
  intro i
  rw [Nat.testBit_two_pow_sub_one, Bool.eq_iff_iff, h i, decide_eq_true_eq, Nat.lt_size]
  constructor
  · rintro ⟨j, -, hbit⟩
    have hle : 2 ^ (i + j) ≤ n := Nat.ge_two_pow_of_testBit hbit
    exact Nat.le_trans (Nat.pow_le_pow_right Nat.two_pos (Nat.le_add_right i j)) hle
  · intro hle
    obtain ⟨j, hj, hbit⟩ := Nat.exists_ge_and_testBit_of_ge_two_pow hle
    have hlt : j < w := (Nat.pow_lt_pow_iff_right (by decide)).mp
      (Nat.lt_of_le_of_lt (Nat.ge_two_pow_of_testBit hbit) hn)
    exact ⟨j - i, by omega, by rwa [Nat.add_sub_cancel' hj]⟩

theorem two_pow_size_le_iff : 2 ^ n.size ≤ 2 ^ k ↔ n < 2 ^ k := by
  rw [Nat.pow_le_pow_iff_right (by decide), Nat.size_le]

end BitSmear
