import L4.CacheClock

namespace L4.Cache
set_option autoImplicit true
open SharedHashTable (bucketOf getBucketInfo_ok recordWeight)
open WritableHashTable (evictBasedOnTime sweepBucket)
open Metadata
variable {setting : Setting}

section Sweep
variable {visit : RecordBuffer → Option RecordBuffer}

theorem perfData_sweepBucket (rs : RecordSerializer) (t : WritableHashTable setting)
    (i : setting.BucketIndex) (counter : HashTablePerfCounter) :
    (sweepBucket rs visit t i).1.base.hashTable.perfData counter =
      t.base.hashTable.perfData counter -
        ((sweepBucket rs visit t i).2.map (recordWeight rs · counter)).sum +
        if counter = .evictedRecordsCount then ((sweepBucket rs visit t i).2.length : Int)
        else 0 := by
  obtain ⟨epochManager, -, heq⟩ := WritableHashTable.sweepBucket_eq rs visit t i
  have hsum := PerfUpdate.applyAll_of_adds t.base.hashTable.perfData
    (evictUpdates_adds rs counter (sweepBucket rs visit t i).2)
  rw [evictUpdates_delta, ← Int.add_assoc, ← Int.sub_eq_add_neg] at hsum
  rw [heq]
  exact hsum

end Sweep

section TimeBased
variable (options : Options) (curEpochTime : Int)

theorem isNone_visitBasedOnTime (rs : RecordSerializer) (record : RecordBuffer) :
    (visitBasedOnTime rs options curEpochTime record).isNone =
      isExpired (metadataOf rs record) curEpochTime options.recordTimeToLive := by
  rw [visitBasedOnTime]
  split_ifs with hexpired
  · exact hexpired.symm
  · exact (Bool.eq_false_of_not_eq_true hexpired).symm

theorem bind_visitBasedOnTime {rs : RecordSerializer} {old : Option RecordBuffer} :
    old.bind (visitBasedOnTime rs options curEpochTime) = some record ↔
      old = some record ∧
        isExpired (metadataOf rs record) curEpochTime options.recordTimeToLive ≠ true := by
  rw [Option.bind_eq_some_iff]
  constructor
  · rintro ⟨old, rfl, hvisit⟩
    rw [visitBasedOnTime] at hvisit
    split_ifs at hvisit with hexpired
    obtain rfl := Option.some.inj hvisit
    exact ⟨rfl, hexpired⟩
  · rintro ⟨rfl, hexpired⟩
    exact ⟨record, rfl, if_neg hexpired⟩

variable [Platform]

/-- `EvictBasedOnTime` removes the expired records of the bucket of the key and no others. The
records that stay are the same buffers in the same slots. -/
theorem evictBasedOnTime_exact (t : WritableHashTable setting) (key : Key)
    {i : setting.BucketIndex} (hi : i.val = bucketOf setting key) :
    let rs := setting.cacheRecordSerializer
    let expired (record : RecordBuffer) : Bool :=
      isExpired (metadataOf rs record) curEpochTime options.recordTimeToLive
    let removed := t.base.hashTable.buckets[i].records.filter expired
    let result := evictBasedOnTime options t key curEpochTime
    result.2 = .ok () ∧
      (∀ s record, result.1.base.hashTable.load s = some record ↔
        t.base.hashTable.load s = some record ∧ ¬ (s.1 = i ∧ expired record)) ∧
      ∀ counter, result.1.base.hashTable.perfData counter =
        t.base.hashTable.perfData counter - (removed.map (recordWeight rs · counter)).sum +
          if counter = .evictedRecordsCount then (removed.length : Int) else 0 := by
  intro rs expired removed result
  obtain ⟨j, hj, hinfo⟩ := getBucketInfo_ok (Setting.numBuckets_ne_zero i) key
  obtain rfl : j = i := Fin.ext (hj.trans hi.symm)
  have hresult : result =
      ((sweepBucket rs (visitBasedOnTime rs options curEpochTime) t j).1, .ok ()) := by
    simp only [result, evictBasedOnTime, hinfo]
    rfl
  have hremoved : (sweepBucket rs (visitBasedOnTime rs options curEpochTime) t j).2 = removed := by
    refine (Bucket.removed_sweep _).trans (List.filter_congr fun record _ => ?_)
    exact isNone_visitBasedOnTime options curEpochTime rs record
  rw [hresult]
  refine ⟨rfl, ?_, ?_⟩
  · intro s record
    rw [WritableHashTable.load_sweepBucket]
    by_cases hs : s.1 = j
    · rw [if_pos hs, bind_visitBasedOnTime]
      simp only [hs, true_and, expired]
    · rw [if_neg hs]
      simp only [hs, false_and, not_false_eq_true, and_true]
  · intro counter
    rw [← hremoved]
    exact perfData_sweepBucket rs t j counter

omit [Platform] in
/-- Of two records in one bucket the older one is expired at time 12. -/
theorem evictBasedOnTime_exact_of_expired :
    let platform : Platform := ⟨fun _ => (7, 0), 8, 64⟩
    let options : Options := ⟨1048576, 10, true⟩
    let key : Key := ⟨[5], by decide⟩
    let key' : Key := ⟨[6], by decide⟩
    let t := ((Session.create {} ⟨0, []⟩ ⟨0, ⟨0, 0, [0], by decide⟩, ⟨[.empty], 0⟩⟩).run options
      [.add key ⟨[1], by decide⟩ ⟨0, 1, 1⟩, .add key' ⟨[2], by decide⟩ ⟨2, 3, 3⟩]).1.table
    (evictBasedOnTime options t key' 12).1.base.hashTable.perfData .recordsCount = 1 ∧
      (evictBasedOnTime options t key' 12).1.base.hashTable.perfData .evictedRecordsCount = 1 := by
  intro platform options key key' t
  have hi : (⟨0, by decide⟩ : Setting.BucketIndex {}).val = bucketOf {} key' := by decide
  obtain ⟨-, -, hcounters⟩ := evictBasedOnTime_exact options 12 t key' hi
  rw [hcounters, hcounters]
  decide +kernel

end TimeBased

end L4.Cache
