import Mathlib.Logic.Function.Iterate
import Mathlib.Data.Nat.ModEq
import L4.CacheEviction

namespace L4
set_option autoImplicit true

namespace Bucket
variable {visit : RecordBuffer → Option RecordBuffer}

theorem removed_sweepSlots {ps : List SlotIndex} (hnodup : ps.Nodup) (b : Bucket RecordBuffer)
    (hps : ∀ p ∈ ps, p.entry < b.chainLength) :
    (b.sweepSlots visit ps).2 = (ps.filterMap b.load).filter fun r => (visit r).isNone := by
  induction ps generalizing b with
  | nil => rfl
  | cons p ps ih =>
    obtain ⟨hp, hnodup⟩ := List.nodup_cons.mp hnodup
    have hentry := hps p List.mem_cons_self
    have hrest (b' : Bucket RecordBuffer) (r : Option RecordBuffer)
        (hload : b'.load = Function.update b.load p r) (hlen : b'.chainLength = b.chainLength) :
        (b'.sweepSlots visit ps).2 =
          (ps.filterMap b.load).filter fun r => (visit r).isNone := by
      rw [ih hnodup b' fun p' hp' => hlen ▸ hps p' (List.mem_cons_of_mem _ hp')]
      refine congrArg _ (List.filterMap_congr fun q hq => ?_)
      rw [hload, Function.update_of_ne fun heq : q = p => hp (heq ▸ hq)]
    rw [sweepSlots]
    cases hload : b.load p with
    | none =>
      rw [List.filterMap_cons_none hload]
      exact hrest b none (by rw [← hload, Function.update_eq_self]) rfl
    | some record =>
      rw [List.filterMap_cons_some hload]
      simp only
      cases hvisit : visit record with
      | none =>
        rw [List.filter_cons_of_pos (by rw [hvisit]; rfl)]
        exact congrArg (record :: ·)
          (hrest _ none (load_updateRecord hentry) (chainLength_updateRecord b))
      | some record' =>
        rw [List.filter_cons_of_neg (by rw [hvisit]; exact Bool.false_ne_true)]
        refine hrest _ (some record') ?_ (chainLength_storeData b p _)
        funext q
        simp only [load_storeData, Function.update_apply, hentry, and_true]

theorem removed_sweep (b : Bucket RecordBuffer) :
    (b.sweep visit).2 = b.records.filter fun r => (visit r).isNone :=
  removed_sweepSlots b.nodup_positions b fun _ hp => mem_positions.mp hp

end Bucket

namespace Cache
open WritableHashTable (evict evictLoop sweepBucket)
open Metadata
variable {setting : Setting}

/-- The loop of `Evict` before a turn: the table, and the bytes that are left to free. -/
structure Sweeping (setting : Setting) where
  table : WritableHashTable setting
  numBytesToFree : Nat

namespace Sweeping
variable (rs : RecordSerializer) (visit : RecordBuffer → Option RecordBuffer)
  (s : Sweeping setting)

/-- The number of the bucket that the hand points at. -/
def hand : Nat := s.table.currentEvictBucketIndex.toNat % setting.numBuckets.toNat

/-- A turn of the hand, if there is still something to free, and the records it removes. -/
def turn : Sweeping setting × List RecordBuffer :=
  if s.numBytesToFree = 0 then (s, [])
  else if h : setting.numBuckets.toNat = 0 then (s, [])
  else
    let swept := sweepBucket rs visit
      { s.table with currentEvictBucketIndex := s.table.currentEvictBucketIndex + 1 }
      ⟨s.hand, Nat.mod_lt _ (Nat.pos_of_ne_zero h)⟩
    (⟨swept.1, swept.2.foldl (bytesLeftToFree rs) s.numBytesToFree⟩, swept.2)

/-- The loop before a given turn. -/
def after (turns : Nat) : Sweeping setting := (fun s => (turn rs visit s).1)^[turns] s

/-- What a given turn removes. -/
def removed (k : Nat) : List RecordBuffer := (turn rs visit (after rs visit s k)).2

variable {rs visit s}

theorem after_succ (k : Nat) : after rs visit s (k + 1) = (turn rs visit (after rs visit s k)).1 :=
  Function.iterate_succ_apply' _ _ _

theorem turn_eq_self (h : s.numBytesToFree = 0 ∨ setting.numBuckets.toNat = 0) :
    turn rs visit s = (s, []) := by
  rw [turn]
  split_ifs with hzero hb
  · rfl
  · rfl
  · exact absurd h (not_or.mpr ⟨hzero, hb⟩)

theorem turn_eq_sweepBucket (hne : s.numBytesToFree ≠ 0) (hb : setting.numBuckets.toNat ≠ 0) :
    turn rs visit s =
      let swept := sweepBucket rs visit
        { s.table with currentEvictBucketIndex := s.table.currentEvictBucketIndex + 1 }
        ⟨s.hand, Nat.mod_lt _ (Nat.pos_of_ne_zero hb)⟩
      (⟨swept.1, swept.2.foldl (bytesLeftToFree rs) s.numBytesToFree⟩, swept.2) :=
  (if_neg hne).trans (dif_neg hb)

theorem after_eq_self (h : s.numBytesToFree = 0 ∨ setting.numBuckets.toNat = 0) (k : Nat) :
    after rs visit s k = s := by
  induction k with
  | zero => rfl
  | succ k ih => rw [after_succ, ih, turn_eq_self h]

/-- The loop of `Evict` takes one turn after the other. -/
theorem evictLoop_eq_after (n : Nat) (s : Sweeping setting) :
    evictLoop rs visit n s.numBytesToFree s.table = (after rs visit s n).table := by
  induction n generalizing s with
  | zero => rfl
  | succ n ih =>
    rw [evictLoop]
    split_ifs with hzero hb
    · rw [after_eq_self (.inl hzero)]
    · rw [after_eq_self (.inr hb)]
    · have hafter : after rs visit s (n + 1) = after rs visit (turn rs visit s).1 n :=
        Function.iterate_succ_apply _ _ _
      rw [hafter, turn_eq_sweepBucket hzero hb]
      exact ih ⟨_, _⟩

/-- There is something left to free before a turn. -/
def Taken (rs : RecordSerializer) (visit : RecordBuffer → Option RecordBuffer)
    (s : Sweeping setting) (k : Nat) : Prop :=
  (after rs visit s k).numBytesToFree ≠ 0

instance : Decidable (Taken rs visit s k) := inferInstanceAs (Decidable (_ ≠ _))

theorem Taken.of_le (h : Taken rs visit s k) (hle : j ≤ k) : Taken rs visit s j := by
  induction hle with
  | refl => exact h
  | step hle ih =>
    apply ih
    intro hzero
    apply h
    rw [after_succ, turn_eq_self (.inl hzero)]
    exact hzero

theorem load_turn (s : Sweeping setting) (slot : setting.Slot) :
    (turn rs visit s).1.table.base.hashTable.load slot =
      if s.numBytesToFree ≠ 0 ∧ slot.1.val = s.hand then
        (s.table.base.hashTable.load slot).bind visit
      else s.table.base.hashTable.load slot := by
  have hb : setting.numBuckets.toNat ≠ 0 := Nat.ne_zero_of_lt slot.1.isLt
  by_cases hzero : s.numBytesToFree = 0
  · rw [turn_eq_self (.inl hzero), if_neg fun h => h.1 hzero]
  · rw [turn_eq_sweepBucket hzero hb]
    simp only [WritableHashTable.load_sweepBucket, Fin.ext_iff, hzero, ne_eq, not_false_eq_true,
      true_and]

theorem chainLength_turn (s : Sweeping setting) (i : setting.BucketIndex) :
    (turn rs visit s).1.table.base.hashTable.buckets[i].chainLength =
      s.table.base.hashTable.buckets[i].chainLength := by
  have hb : setting.numBuckets.toNat ≠ 0 := Nat.ne_zero_of_lt i.isLt
  by_cases hzero : s.numBytesToFree = 0
  · rw [turn_eq_self (.inl hzero)]
  · rw [turn_eq_sweepBucket hzero hb]
    exact WritableHashTable.chainLength_sweepBucket rs _ _ i

theorem chainLength_after (rs : RecordSerializer) (visit : RecordBuffer → Option RecordBuffer)
    (s : Sweeping setting) (k : Nat) (i : setting.BucketIndex) :
    (after rs visit s k).table.base.hashTable.buckets[i].chainLength =
      s.table.base.hashTable.buckets[i].chainLength := by
  induction k with
  | zero => rfl
  | succ k ih => rw [after_succ, chainLength_turn, ih]

theorem removed_turn {s : Sweeping setting} (hne : s.numBytesToFree ≠ 0)
    {i : setting.BucketIndex} (hi : s.hand = i.val) :
    (turn rs visit s).2 =
      s.table.base.hashTable.buckets[i].records.filter fun r => (visit r).isNone := by
  have hb : setting.numBuckets.toNat ≠ 0 := Nat.ne_zero_of_lt i.isLt
  have hturn : (turn rs visit s).2 = (s.table.base.hashTable.buckets[
      (⟨s.hand, hi ▸ i.isLt⟩ : setting.BucketIndex)].sweep visit).2 :=
    congrArg Prod.snd (turn_eq_sweepBucket hne hb)
  rw [hturn, Bucket.removed_sweep]
  simp only [hi]

theorem counter_after (hb : setting.numBuckets.toNat ≠ 0) (htaken : ∀ j < k, Taken rs visit s j) :
    (after rs visit s k).table.currentEvictBucketIndex.toNat =
      (s.table.currentEvictBucketIndex.toNat + k) % 2 ^ 64 := by
  induction k with
  | zero => exact (Nat.mod_eq_of_lt s.table.currentEvictBucketIndex.toNat_lt).symm
  | succ k ih =>
    rw [after_succ, turn_eq_sweepBucket (htaken k (Nat.lt_succ_self k)) hb]
    simp only [WritableHashTable.currentEvictBucketIndex_sweepBucket, UInt64.toNat_add,
      ih fun j hj => htaken j (Nat.lt_succ_of_lt hj)]
    exact Nat.mod_add_mod _ _ _

end Sweeping

section Evict
variable {options : Options} {curEpochTime : Int} {t : WritableHashTable setting}

/-- The loop of a call of `Evict`. -/
def evicting (options : Options) (t : WritableHashTable setting) (needed : Nat) :
    Sweeping setting :=
  ⟨t, calculateNumBytesToFree options t.base.hashTable.perfData needed⟩

open Sweeping

theorem evict_eq_after (options : Options) (t : WritableHashTable setting) (needed : Nat)
    (curEpochTime : Int) :
    evict options t needed curEpochTime = (after setting.cacheRecordSerializer
      (visitClock setting.cacheRecordSerializer options curEpochTime) (evicting options t needed)
      (setting.numBuckets.toNat * 2)).table := by
  rw [evict]
  split_ifs with hzero
  · rw [after_eq_self (.inl hzero)]
    rfl
  · exact evictLoop_eq_after _ (evicting options t needed)

/-- A record with its access bit cleared. -/
def clearAccess (rs : RecordSerializer) (record : RecordBuffer) : RecordBuffer :=
  storeMetadata rs record (updateAccessStatus false (metadataOf rs record)).2

theorem visitClock_eq (rs : RecordSerializer) (record : RecordBuffer) :
    visitClock rs options curEpochTime record =
      if isExpired (metadataOf rs record) curEpochTime options.recordTimeToLive = false ∧
        isAccessed (metadataOf rs record) = true then some (clearAccess rs record) else none := by
  have hvisit : visitClock rs options curEpochTime record =
      if isExpired (metadataOf rs record) curEpochTime options.recordTimeToLive then none
      else if isAccessed (metadataOf rs record) then some (clearAccess rs record) else none := rfl
  rw [hvisit]
  cases isExpired (metadataOf rs record) curEpochTime options.recordTimeToLive <;>
    cases isAccessed (metadataOf rs record) <;> rfl

theorem visitClock_eq_some {rs : RecordSerializer} :
    visitClock rs options curEpochTime record = some record' ↔
      (isExpired (metadataOf rs record) curEpochTime options.recordTimeToLive = false ∧
        isAccessed (metadataOf rs record) = true) ∧ clearAccess rs record = record' := by
  rw [visitClock_eq, Option.ite_none_right_eq_some, Option.some.injEq]

section Turns
variable {rs : RecordSerializer} {visit : RecordBuffer → Option RecordBuffer}
  {s : Sweeping setting} {slot : setting.Slot}

theorem load_after_succ (k : Nat) :
    (after rs visit s (k + 1)).table.base.hashTable.load slot =
      if Taken rs visit s k ∧ slot.1.val = (after rs visit s k).hand then
        ((after rs visit s k).table.base.hashTable.load slot).bind visit
      else (after rs visit s k).table.base.hashTable.load slot := by
  rw [after_succ, load_turn]
  rfl

end Turns

theorem isAccessed_clearAccess (rs : RecordSerializer) (record : RecordBuffer) :
    isAccessed (metadataOf rs (clearAccess rs record)) = false := by
  rw [clearAccess, metadataOf_storeMetadata, isAccessed_updateAccessStatus_false]

theorem clearAccess_keeps (rs : RecordSerializer) (record : RecordBuffer) :
    rs.keyOf (clearAccess rs record) = rs.keyOf record ∧
      withoutMetadata (rs.valueOf (clearAccess rs record)) =
        withoutMetadata (rs.valueOf record) ∧
      getEpochTime (metadataOf rs (clearAccess rs record)) =
        getEpochTime (metadataOf rs record) := by
  have hlength := length_updateAccessStatus false (metadataOf rs record)
  refine ⟨(keyOf_storeMetadata rs hlength).1, ?_, ?_⟩
  · exact Blob.ext (drop_valueOf_storeMetadata rs record false)
  · exact getEpochTime_storeMetadata rs record false

theorem load_after_eq_some {s : Sweeping setting} (hload : (after setting.cacheRecordSerializer
      (visitClock setting.cacheRecordSerializer options curEpochTime) s
        k).table.base.hashTable.load slot = some record') :
    ∃ record, s.table.base.hashTable.load slot = some record ∧
      (record' = record ∨ record' = clearAccess setting.cacheRecordSerializer record) := by
  induction k generalizing record' with
  | zero => exact ⟨record', hload, .inl rfl⟩
  | succ k ih =>
    rw [load_after_succ] at hload
    split_ifs at hload
    · obtain ⟨record₁, hload₁, hvisit⟩ := Option.bind_eq_some_iff.mp hload
      obtain ⟨⟨-, haccessed⟩, rfl⟩ := visitClock_eq_some.mp hvisit
      obtain ⟨record, hrecord, rfl | rfl⟩ := ih hload₁
      · exact ⟨record₁, hrecord, .inr rfl⟩
      · cases haccessed.symm.trans (isAccessed_clearAccess _ record)
    · exact ih hload

end Evict

end Cache

end L4
