import Mathlib.Algebra.Group.Nat.Defs
import Mathlib.Algebra.GroupWithZero.Nat
import Mathlib.Data.List.Basic

namespace L4
set_option autoImplicit true

/-- What an operation of the library throws, or the fault it ends in. -/
inductive Failure where
  | runtimeException (message : String)
  | divisionByZero
deriving DecidableEq, Repr

/-- Reference counts per epoch. The counts form a ring: an epoch is counted at its index
modulo the queue size, and the counter is 32 bits wide. -/
structure EpochQueue where
  frontIndex : Nat
  backIndex : Nat
  refCounts : List Nat
  refCounts_ne : refCounts ≠ []

namespace EpochQueue

def create (epochCounter queueSize : Nat) : Except Failure EpochQueue :=
  if h : queueSize = 0 then .error (.runtimeException "Zero queue size is not allowed.")
  else .ok ⟨epochCounter, epochCounter, List.replicate queueSize 0, by simpa using h⟩

def queueSize (q : EpochQueue) : Nat := q.refCounts.length

theorem queueSize_pos (q : EpochQueue) : 0 < q.queueSize :=
  List.length_pos_iff.mpr q.refCounts_ne

/-- The counter that an epoch shares with every epoch congruent to it. -/
def refCount (q : EpochQueue) (epochCounter : Nat) : Nat :=
  q.refCounts.getD (epochCounter % q.queueSize) 0

def modifyRefCount (q : EpochQueue) (epochCounter : Nat) (f : Nat → Nat) : EpochQueue :=
  { q with
    refCounts := q.refCounts.modify (epochCounter % q.queueSize) f
    refCounts_ne := by simpa [← List.length_pos_iff] using q.refCounts_ne }

@[simp] theorem modifyRefCount_queueSize (q : EpochQueue) (e : Nat) (f : Nat → Nat) :
    (q.modifyRefCount e f).queueSize = q.queueSize := by
  simp [modifyRefCount, queueSize]

@[simp] theorem modifyRefCount_frontIndex (q : EpochQueue) (e : Nat) (f : Nat → Nat) :
    (q.modifyRefCount e f).frontIndex = q.frontIndex := rfl

@[simp] theorem modifyRefCount_backIndex (q : EpochQueue) (e : Nat) (f : Nat → Nat) :
    (q.modifyRefCount e f).backIndex = q.backIndex := rfl

theorem modifyRefCount_refCount (q : EpochQueue) (e e' : Nat) (f : Nat → Nat) :
    (q.modifyRefCount e f).refCount e' =
      if e' % q.queueSize = e % q.queueSize then f (q.refCount e') else q.refCount e' := by
  have hlt : e' % q.queueSize < q.refCounts.length := Nat.mod_lt _ q.queueSize_pos
  simp only [refCount, modifyRefCount_queueSize]
  simp only [modifyRefCount, List.getD_eq_getElem?_getD, List.getElem?_modify,
    List.getElem?_eq_getElem hlt]
  by_cases h : e' % q.queueSize = e % q.queueSize
  · simp [h]
  · simp [h, Ne.symm h]

theorem modifyRefCount_congr {q : EpochQueue} {f g : Nat → Nat}
    (h : f (q.refCount e) = g (q.refCount e)) : q.modifyRefCount e f = q.modifyRefCount e g := by
  simp only [refCount, List.getD_eq_getElem?_getD] at h
  simp only [modifyRefCount, List.modify_eq_set, Nat.default_eq_zero, h]

/-- `EpochRefManager::AddRef`, one step under the shared lock on the back index. -/
def addRef (q : EpochQueue) : Nat × EpochQueue :=
  (q.backIndex, q.modifyRefCount q.backIndex fun c => (c + 1) % 2 ^ 32)

/-- `EpochRefManager::RemoveRef`. -/
def removeRef (q : EpochQueue) (epochCounter : Nat) : Except Failure EpochQueue :=
  if q.refCount epochCounter = 0 then .error (.runtimeException "Reference counter is invalid.")
  else .ok (q.modifyRefCount epochCounter (· - 1))

/-- The check in `RemoveRef`. -/
def checkRef (q : EpochQueue) (epochCounter : Nat) : Except Failure Unit :=
  if q.refCount epochCounter = 0 then .error (.runtimeException "Reference counter is invalid.")
  else .ok ()

/-- The decrement in `RemoveRef`, on 32 bits. Other threads may have changed the counter since the
check. -/
def decrementRef (q : EpochQueue) (epochCounter : Nat) : EpochQueue :=
  q.modifyRefCount epochCounter fun c => (c + (2 ^ 32 - 1)) % 2 ^ 32

/-- `EpochCounterManager::AddNewEpoch`, which does not look at the front of the ring. -/
def addNewEpoch (q : EpochQueue) : EpochQueue :=
  { q with backIndex := (q.backIndex + 1) % 2 ^ 64 }

/-- The comparison in a turn of the loop in `RemoveUnreferenceEpochCounters`. -/
def frontUnreferenced (q : EpochQueue) : Prop :=
  q.frontIndex < q.backIndex ∧ q.refCount q.frontIndex = 0

instance (q : EpochQueue) : Decidable q.frontUnreferenced := inferInstanceAs (Decidable (_ ∧ _))

def advanceFront (q : EpochQueue) : EpochQueue :=
  { q with frontIndex := (q.frontIndex + 1) % 2 ^ 64 }

/-- One turn of the loop in `EpochCounterManager::RemoveUnreferenceEpochCounters`; `none` when
the loop ends and the front index is returned. -/
def removeUnreferencedFront (q : EpochQueue) : Option EpochQueue :=
  if q.frontIndex < q.backIndex ∧ q.refCount q.frontIndex = 0 then
    some { q with frontIndex := (q.frontIndex + 1) % 2 ^ 64 }
  else none

end EpochQueue

end L4
