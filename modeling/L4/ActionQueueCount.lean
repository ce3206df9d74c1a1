import L4.EpochActionManager
import L4.Math

namespace L4.EpochActionManager
set_option autoImplicit true
open BitSmear (two_pow_size_le_iff)
variable {Action : Type}

/-- The number of queues that the constructor comes to, on 16 bits, where
`std::thread::hardware_concurrency` returns `hardwareConcurrency`. -/
def newNumActionQueues (numActionQueues : UInt8) (hardwareConcurrency : UInt32) : UInt16 :=
  let newNumActionQueues : UInt16 :=
    if numActionQueues = 0 then hardwareConcurrency.toUInt16 else numActionQueues.toUInt16
  (Math.nextHighestPowerOfTwo newNumActionQueues.toUInt32).toUInt16

/-- The constructor, without its assertion. -/
def create (Action : Type) (numActionQueues : UInt8) (hardwareConcurrency : UInt32) :
    EpochActionManager Action :=
  ⟨.replicate (newNumActionQueues numActionQueues hardwareConcurrency).toNat .empty, 0⟩

/-- The assertion of the constructor. -/
def createAsserts (numActionQueues : UInt8) (hardwareConcurrency : UInt32) : Prop :=
  newNumActionQueues numActionQueues hardwareConcurrency ≠ 0 ∧
    Math.isPowerOfTwo (newNumActionQueues numActionQueues hardwareConcurrency).toUInt64 = true

/-- The queues are a power of two, and every value of the counter picks one of them. -/
structure QueuesInRange (m : EpochActionManager Action) : Prop where
  powerOfTwo : ∃ k, m.epochToActionsList.length = 2 ^ k
  index_lt : ∀ counter < 2 ^ 32,
    nextIndex { m with counter := counter } < m.epochToActionsList.length

/-- The number that is rounded, on 16 bits. -/
def requestedQueues (numActionQueues : UInt8) (hardwareConcurrency : UInt32) : Nat :=
  if numActionQueues = 0 then hardwareConcurrency.toNat % 2 ^ 16 else numActionQueues.toNat

/-- The numbers that the rounding brings to a power of two on 16 bits. -/
def Roundable (n : Nat) : Prop := 1 ≤ n ∧ n ≤ 2 ^ 15

instance (n : Nat) : Decidable (Roundable n) := inferInstanceAs (Decidable (_ ∧ _))

theorem toNat_newNumActionQueues (numActionQueues : UInt8) (hardwareConcurrency : UInt32) :
    (newNumActionQueues numActionQueues hardwareConcurrency).toNat =
      if Roundable (requestedQueues numActionQueues hardwareConcurrency) then
        2 ^ (requestedQueues numActionQueues hardwareConcurrency - 1).size
      else 0 := by
  rw [newNumActionQueues, UInt32.toNat_toUInt16]
  have hrequested : (if numActionQueues = 0 then hardwareConcurrency.toUInt16
      else numActionQueues.toUInt16).toNat =
        requestedQueues numActionQueues hardwareConcurrency := by
    rw [requestedQueues]
    split_ifs with h
    · rfl
    · rfl
  generalize (if numActionQueues = 0 then hardwareConcurrency.toUInt16
    else numActionQueues.toUInt16) = requested at hrequested
  rw [← hrequested, ← UInt16.toNat_toUInt32]
  have hlt : requested.toUInt32.toNat < 2 ^ 16 := requested.toNat_lt
  generalize requested.toUInt32 = n at hlt
  split_ifs with hn
  · obtain ⟨hone, hle⟩ := hn
    have hle' : n.toNat ≤ 2 ^ 31 := Nat.le_trans hle (by decide)
    have htop : 2 ^ (n.toNat - 1).size ≤ 2 ^ 15 := two_pow_size_le_iff.mpr (by omega)
    rw [(Math.isLeast_nextHighestPowerOfTwo hone hle').1, Nat.mod_eq_of_lt (by omega)]
  · by_cases hzero : n.toNat = 0
    · obtain rfl : n = 0 := UInt32.toNat_inj.mp hzero
      decide
    · have hone : 1 ≤ n.toNat := Nat.one_le_iff_ne_zero.mpr hzero
      have hlarge : 2 ^ 15 < n.toNat := Nat.lt_of_not_le fun hle => hn ⟨hone, hle⟩
      have hsize : (n.toNat - 1).size = 16 := by
        apply Nat.le_antisymm
        · exact Nat.size_le.mpr (by omega)
        · exact Nat.lt_size.mpr (by omega)
      rw [(Math.isLeast_nextHighestPowerOfTwo hone (by omega)).1, hsize, Nat.mod_self]

/-- Without queues the mask lets every bit of the counter through. -/
theorem not_queuesInRange_of_nil {m : EpochActionManager Action} (h : m.epochToActionsList = []) :
    ¬ m.QueuesInRange := by
  intro hrange
  have hlt := hrange.index_lt 0 (by decide)
  rw [h] at hlt
  exact Nat.not_lt_zero _ hlt

theorem queuesInRange_of_length {m : EpochActionManager Action}
    (h : m.epochToActionsList.length = 2 ^ k) (hk : k ≤ 64) : m.QueuesInRange where
  powerOfTwo := ⟨k, h⟩
  index_lt counter hcounter := by
    have hpos : 0 < m.epochToActionsList.length := h ▸ Nat.two_pow_pos k
    have hle : m.epochToActionsList.length ≤ 2 ^ 64 :=
      h ▸ Nat.pow_le_pow_right Nat.two_pos hk
    exact nextIndex_lt (m := { m with counter := counter }) hpos hle

/-- The constructor makes queues that every value of the counter can pick from if and only if it
is given their number, or the number of threads that it falls back to can be rounded. -/
theorem queuesInRange_iff (Action : Type) (numActionQueues : UInt8)
    (hardwareConcurrency : UInt32) :
    (create Action numActionQueues hardwareConcurrency).QueuesInRange ↔
      numActionQueues ≠ 0 ∨ Roundable (hardwareConcurrency.toNat % 2 ^ 16) := by
  have hrequested : Roundable (requestedQueues numActionQueues hardwareConcurrency) ↔
      numActionQueues ≠ 0 ∨ Roundable (hardwareConcurrency.toNat % 2 ^ 16) := by
    rw [requestedQueues]
    split_ifs with h
    · simp [h]
    · have hpos : numActionQueues.toNat ≠ 0 := fun hzero => h (UInt8.toNat_inj.mp hzero)
      have hlt := numActionQueues.toNat_lt
      simp only [h, ne_eq, not_false_eq_true, true_or, iff_true, Roundable]
      omega
  have hlength : (create Action numActionQueues hardwareConcurrency).epochToActionsList.length =
      _ := List.length_replicate.trans (toNat_newNumActionQueues _ _)
  rw [← hrequested]
  split_ifs at hlength with hin
  · have hsize : (requestedQueues numActionQueues hardwareConcurrency - 1).size ≤ 64 :=
      Nat.size_le.mpr (by have := hin.2; omega)
    exact iff_of_true (queuesInRange_of_length hlength hsize) hin
  · exact iff_of_false (not_queuesInRange_of_nil (List.length_eq_zero_iff.mp hlength)) hin

/-- The library may not know the number of threads, and then there are no queues. -/
theorem not_queuesInRange_of_unknown :
    ¬ ∀ (numActionQueues : UInt8) (hardwareConcurrency : UInt32),
      (create Unit numActionQueues hardwareConcurrency).QueuesInRange := by
  intro h
  exact not_queuesInRange_of_nil (by decide +kernel) (h 0 0)

theorem createAsserts_iff (numActionQueues : UInt8) (hardwareConcurrency : UInt32) :
    createAsserts numActionQueues hardwareConcurrency ↔
      Roundable (requestedQueues numActionQueues hardwareConcurrency) := by
  have hnum := toNat_newNumActionQueues numActionQueues hardwareConcurrency
  rw [createAsserts, Math.isPowerOfTwo_iff, UInt16.toNat_toUInt64, hnum, Ne, ← UInt16.toNat_inj,
    hnum]
  split_ifs with hin
  · simp [hin]
  · simp [hin]

end L4.EpochActionManager
