import Mathlib.Logic.Function.Basic
import Mathlib.Algebra.GroupWithZero.Nat
import Mathlib.Algebra.Order.Group.Int
import Mathlib.Algebra.Ring.Int.Defs
import Mathlib.Algebra.BigOperators.Group.List.Basic

namespace L4
set_option autoImplicit true

inductive HashTablePerfCounter where
  | recordsCount | bucketsCount | totalKeySize | totalValueSize | totalIndexSize
  | chainingEntriesCount | minKeySize | maxKeySize | minValueSize | maxValueSize
  | maxBucketChainLength | recordsCountLoadedFromSerializer | recordsCountSavedFromSerializer
  | cacheHitCount | cacheMissCount | evictedRecordsCount
deriving DecidableEq

/-- The values of the counters. The 64-bit counters of the source are taken as integers. -/
abbrev HashTablePerfData := HashTablePerfCounter → Int

namespace HashTablePerfData

/-- The constructor starts the minima at the largest value and the chain length at one. -/
def initial : HashTablePerfData
  | .minValueSize | .minKeySize => 2 ^ 63 - 1
  | .maxBucketChainLength => 1
  | _ => 0

end HashTablePerfData

/-- One atomic update of a counter. -/
inductive PerfUpdate where
  | set (counter : HashTablePerfCounter) (value : Int)
  | add (counter : HashTablePerfCounter) (value : Int)
  | max (counter : HashTablePerfCounter) (value : Int)
  | min (counter : HashTablePerfCounter) (value : Int)
deriving DecidableEq

namespace PerfUpdate

def increment (counter : HashTablePerfCounter) : PerfUpdate := .add counter 1

def decrement (counter : HashTablePerfCounter) : PerfUpdate := .add counter (-1)

def subtract (counter : HashTablePerfCounter) (value : Int) : PerfUpdate := .add counter (-value)

def apply (perfData : HashTablePerfData) : PerfUpdate → HashTablePerfData
  | .set c v => Function.update perfData c v
  | .add c v => Function.update perfData c (perfData c + v)
  | .max c v => Function.update perfData c (Max.max (perfData c) v)
  | .min c v => Function.update perfData c (Min.min (perfData c) v)

def applyAll (perfData : HashTablePerfData) (updates : List PerfUpdate) : HashTablePerfData :=
  updates.foldl apply perfData

/-- What an update adds to a counter. -/
def delta (counter : HashTablePerfCounter) : PerfUpdate → Int
  | .add c v => if c = counter then v else 0
  | _ => 0

/-- The update leaves the counter alone or adds to it. -/
def Adds (counter : HashTablePerfCounter) : PerfUpdate → Prop
  | .add _ _ => True
  | .set c _ | .max c _ | .min c _ => c ≠ counter

instance (counter : HashTablePerfCounter) : DecidablePred (Adds counter)
  | .add _ _ => isTrue trivial
  | .set _ _ | .max _ _ | .min _ _ => inferInstanceAs (Decidable (_ ≠ _))

theorem apply_of_adds {u : PerfUpdate} (h : u.Adds counter) :
    apply perfData u counter = perfData counter + u.delta counter := by
  cases u with
  | add c v =>
    simp only [apply, delta, Function.update_apply, eq_comm (a := c)]
    split_ifs with hc
    · rw [hc]
    · rw [Int.add_zero]
  | set c v => simp [apply, delta, Function.update_of_ne (Ne.symm h)]
  | max c v => simp [apply, delta, Function.update_of_ne (Ne.symm h)]
  | min c v => simp [apply, delta, Function.update_of_ne (Ne.symm h)]

theorem applyAll_of_adds (perfData : HashTablePerfData) {updates : List PerfUpdate}
    (h : ∀ u ∈ updates, u.Adds counter) :
    applyAll perfData updates counter =
      perfData counter + (updates.map (delta counter)).sum := by
  induction updates generalizing perfData with
  | nil => simp [applyAll]
  | cons u us ih =>
    have hu := h u (by simp)
    have hus := ih (apply perfData u) fun u' hu' => h u' (List.mem_cons_of_mem _ hu')
    rw [applyAll, List.foldl_cons, ← applyAll, hus, apply_of_adds hu, List.map_cons, List.sum_cons,
      Int.add_assoc]

end PerfUpdate

end L4
