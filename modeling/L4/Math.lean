import Mathlib.Order.Bounds.Defs
import L4.Library.BitSmear

namespace L4.Math
set_option autoImplicit true
open BitSmear

/-- `IsPowerOfTwo`. -/
def isPowerOfTwo (number : UInt64) : Bool :=
  decide (number ≠ 0) && decide (number &&& (number - 1) = 0)

/-- `NextHighestPowerOfTwo`, which wraps at both ends. -/
def nextHighestPowerOfTwo (val : UInt32) : UInt32 :=
  let val := val - 1
  let val := val ||| val >>> 1
  let val := val ||| val >>> 2
  let val := val ||| val >>> 4
  let val := val ||| val >>> 8
  let val := val ||| val >>> 16
  val + 1

theorem isPowerOfTwo_iff (n : UInt64) : isPowerOfTwo n = true ↔ ∃ k, n.toNat = 2 ^ k := by
  have hzero : n = 0 ↔ n.toNat = 0 := by rw [← UInt64.toNat_inj, UInt64.toNat_zero]
  have hand (hn : n.toNat ≠ 0) : n &&& (n - 1) = 0 ↔ n.toNat &&& (n.toNat - 1) = 0 := by
    have hone : (1 : UInt64) ≤ n := UInt64.le_iff_toNat_le.mpr (Nat.one_le_iff_ne_zero.mpr hn)
    rw [← UInt64.toNat_inj, UInt64.toNat_and, UInt64.toNat_sub_of_le _ _ hone, UInt64.toNat_one,
      UInt64.toNat_zero]
  rw [isPowerOfTwo, Bool.and_eq_true, decide_eq_true_eq, decide_eq_true_eq, Ne, hzero]
  constructor
  · rintro ⟨hn, hbits⟩
    exact (Nat.and_sub_one_eq_zero_iff_isPowerOfTwo hn).mp ((hand hn).mp hbits)
  · intro hpow
    have hn : n.toNat ≠ 0 := (Nat.ne_zero_and_sub_one_eq_zero_iff_isPowerOfTwo.mpr hpow).1
    exact ⟨hn, (hand hn).mpr ((Nat.and_sub_one_eq_zero_iff_isPowerOfTwo hn).mpr hpow)⟩

/-- The five turns fill all 32 bits below the leading one. -/
theorem toNat_nextHighestPowerOfTwo (val : UInt32) :
    (nextHighestPowerOfTwo val).toNat = 2 ^ (val - 1).toNat.size % 2 ^ 32 := by
  have hcovers : Covers (val - 1).toNat 32
      (smear 16 (smear 8 (smear 4 (smear 2 (smear 1 (val - 1).toNat))))) :=
    (((((covers_self _).smear (by decide)).smear (by decide)).smear (by decide)).smear
      (by decide)).smear (by decide)
  have hfilled := hcovers.eq (val - 1).toNat_lt
  have hpos : 0 < 2 ^ (val - 1).toNat.size := Nat.two_pow_pos _
  have hval : (nextHighestPowerOfTwo val).toNat =
      (smear 16 (smear 8 (smear 4 (smear 2 (smear 1 (val - 1).toNat)))) + 1) % 2 ^ 32 := by
    simp only [nextHighestPowerOfTwo, UInt32.toNat_add, UInt32.toNat_or, UInt32.toNat_shiftRight]
    rfl
  rw [hval, hfilled, Nat.sub_add_cancel hpos]

theorem isLeast_nextHighestPowerOfTwo {val : UInt32} (hone : 1 ≤ val.toNat)
    (hle : val.toNat ≤ 2 ^ 31) :
    (nextHighestPowerOfTwo val).toNat = 2 ^ (val.toNat - 1).size ∧
      IsLeast {p | (∃ k, p = 2 ^ k) ∧ val.toNat ≤ p} (nextHighestPowerOfTwo val).toNat := by
  have hsub : (val - 1).toNat = val.toNat - 1 :=
    UInt32.toNat_sub_of_le _ _ (UInt32.le_iff_toNat_le.mpr hone)
  have hlt : val.toNat - 1 < 2 ^ 31 := by omega
  have htop : 2 ^ (val.toNat - 1).size ≤ 2 ^ 31 := two_pow_size_le_iff.mpr hlt
  have hnext : (nextHighestPowerOfTwo val).toNat = 2 ^ (val.toNat - 1).size := by
    rw [toNat_nextHighestPowerOfTwo, hsub, Nat.mod_eq_of_lt (by omega)]
  refine ⟨hnext, ?_⟩
  rw [hnext]
  constructor
  · refine ⟨⟨_, rfl⟩, ?_⟩
    have hself := Nat.lt_size_self (val.toNat - 1)
    omega
  · rintro p ⟨⟨k, rfl⟩, hk⟩
    exact two_pow_size_le_iff.mpr (by omega)

/-- The powers of two that a rounding and a test on machine words give are those of the numbers. -/
theorem powerOfTwo_exact :
    (∀ val : UInt32, 1 ≤ val.toNat → val.toNat ≤ 2 ^ 31 →
      IsLeast {p | (∃ k, p = 2 ^ k) ∧ val.toNat ≤ p} (nextHighestPowerOfTwo val).toNat ∧
        isPowerOfTwo (nextHighestPowerOfTwo val).toUInt64 = true) ∧
    ∀ n : UInt64, isPowerOfTwo n = true ↔ ∃ k, n.toNat = 2 ^ k := by
  refine ⟨fun val hone hle => ?_, isPowerOfTwo_iff⟩
  obtain ⟨hnext, hleast⟩ := isLeast_nextHighestPowerOfTwo hone hle
  refine ⟨hleast, (isPowerOfTwo_iff _).mpr ⟨(val.toNat - 1).size, ?_⟩⟩
  rw [UInt32.toNat_toUInt64, hnext]

/-- A power of two is not doubled, and its successor is. -/
theorem powerOfTwo_exact_of_exact :
    isPowerOfTwo (nextHighestPowerOfTwo 256).toUInt64 = true ∧
      IsLeast {p | (∃ k, p = 2 ^ k) ∧ 257 ≤ p} (nextHighestPowerOfTwo 257).toNat :=
  ⟨(powerOfTwo_exact.1 256 (by decide) (by decide)).2,
    (powerOfTwo_exact.1 257 (by decide) (by decide)).1⟩

end L4.Math
