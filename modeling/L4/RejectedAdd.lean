import L4.CacheCalls

namespace L4
set_option autoImplicit true
variable {setting : Setting}

/-- The exception of `Validate`. -/
def invalidSizes : Failure := .runtimeException "Invalid key or value sizes are given."

/-- A call has left a table as it was: the stored buffers, with the metadata in them, the counters,
the release actions and the allocated buffers. -/
structure ReadWrite.Unchanged (t t' : ReadWrite.WritableHashTable setting ε) : Prop where
  records : t'.hashTable.records.Perm t.hashTable.records
  perfData : t'.hashTable.perfData = t.hashTable.perfData
  epochManager : t'.epochManager = t.epochManager
  allocated : t'.hashTable.allocator.allocated.Perm t.hashTable.allocator.allocated

/-- The same of a cache, which also has the hand of the clock. -/
structure Cache.Unchanged (t t' : Cache.WritableHashTable setting) : Prop where
  base : ReadWrite.Unchanged t.base t'.base
  currentEvictBucketIndex : t'.currentEvictBucketIndex = t.currentEvictBucketIndex

theorem Allocator.length_allocate (a : Allocator) (size : Nat) :
    (a.allocate size).2.allocated.length = a.allocated.length + 1 := rfl

theorem ReadWrite.not_unchanged_of_allocate {t t' : ReadWrite.WritableHashTable setting ε}
    {size : Nat} (h : t'.hashTable.allocator = (t.hashTable.allocator.allocate size).2) :
    ¬ ReadWrite.Unchanged t t' := by
  intro hunchanged
  have hlen := hunchanged.allocated.length_eq
  rw [h, Allocator.length_allocate] at hlen
  omega

namespace Cache.WritableHashTable
variable {t : WritableHashTable setting} {options : Options} {key : Key} {value : Value}

/-- Evictions register the release of a buffer and do not deallocate it. -/
theorem allocator_sweepBucket (rs : RecordSerializer)
    (visit : RecordBuffer → Option RecordBuffer) (t : WritableHashTable setting)
    (i : setting.BucketIndex) :
    (sweepBucket rs visit t i).1.base.hashTable.allocator = t.base.hashTable.allocator := by
  obtain ⟨epochManager, -, heq⟩ := sweepBucket_eq rs visit t i
  rw [heq]
  rfl

variable [Platform]

theorem allocator_makeRoom (options : Options) (t : WritableHashTable setting) (key : Key)
    (value : Value) (times : AddTimes) :
    (makeRoom options t key value times).1.base.hashTable.allocator =
      t.base.hashTable.allocator :=
  makeRoom_invariant (I := fun t' => t'.allocator = t.base.hashTable.allocator)
    (fun t i ht => (allocator_sweepBucket _ _ t i).trans ht)
    (fun t i ht => (allocator_sweepBucket _ _ t i).trans ht) rfl key value

theorem add_of_rejected (options : Options) (t : WritableHashTable setting) (times : AddTimes)
    (hv : ¬ setting.cacheRecordSerializer.Validates key value)
    (hroom : (makeRoom options t key value times).2 = .ok ()) :
    let t₁ := (makeRoom options t key value times).1
    add options t key value times =
      ({ t₁ with base := { t₁.base with
          hashTable := t₁.base.hashTable.setAllocator
            (t₁.base.hashTable.allocator.allocate
              (setting.cacheRecordSerializer.calculateBufferSize key value)).2 } },
        .error invalidSizes) := by
  cases hresult : makeRoom options t key value times with
  | mk t₁ result =>
    rw [hresult] at hroom
    obtain rfl : result = .ok () := hroom
    simp only [add, hresult, createRecordBuffer_of_rejected t₁.base.hashTable times.create hv,
      invalidSizes]

theorem makeRoom_result (options : Options) (t : WritableHashTable setting) (key : Key)
    (value : Value) (times : AddTimes) :
    (makeRoom options t key value times).2 = .ok () ∨
      (makeRoom options t key value times).2 = .error .divisionByZero := by
  by_cases hb : setting.numBuckets = 0
  · have hinfo := SharedHashTable.getBucketInfo_error hb key
    rw [makeRoom]
    split_ifs
    · right
      simp only [evictBasedOnTime, hinfo]
    · left
      rfl
  · left
    obtain ⟨i, -, hinfo⟩ := SharedHashTable.getBucketInfo_ok hb key
    rw [makeRoom]
    split_ifs
    · simp only [evictBasedOnTime, hinfo]
    · rfl

theorem not_unchanged_of_rejected (options : Options) (t : WritableHashTable setting)
    (times : AddTimes) (hv : ¬ setting.cacheRecordSerializer.Validates key value)
    (hrejected : (add options t key value times).2 = .error invalidSizes) :
    ¬ Unchanged t (add options t key value times).1 := by
  intro hunchanged
  have hallocator := allocator_makeRoom options t key value times
  rcases makeRoom_result options t key value times with hroom | hroom
  · have hleaked : (add options t key value times).1.base.hashTable.allocator =
        (t.base.hashTable.allocator.allocate
          (setting.cacheRecordSerializer.calculateBufferSize key value)).2 := by
      rw [add_of_rejected options t times hv hroom, ← hallocator]
      rfl
    exact ReadWrite.not_unchanged_of_allocate hleaked hunchanged.base
  · cases hresult : makeRoom options t key value times with
    | mk t₁ result =>
      rw [hresult] at hroom
      obtain rfl : result = .error .divisionByZero := hroom
      simp only [add, hresult, invalidSizes] at hrejected
      cases hrejected

end Cache.WritableHashTable

/-- An `Add` of rejected sizes leaves no table as it was. -/
theorem not_unchanged_of_rejected_add [Platform] (setting : Setting) (key : Key) (value : Value) :
    (¬ setting.recordSerializer.Validates key value →
      ∀ (ε : Type) [IEpochActionManager ε] (t : ReadWrite.WritableHashTable setting ε),
        (t.add setting.recordSerializer key value).2 = .error invalidSizes ∧
        ¬ ReadWrite.Unchanged t (t.add setting.recordSerializer key value).1) ∧
    (¬ setting.cacheRecordSerializer.Validates key value →
      ∀ (options : Cache.Options) (t : Cache.WritableHashTable setting) (times : Cache.AddTimes),
        (t.add options key value times).2 = .error invalidSizes →
        ¬ Cache.Unchanged t (t.add options key value times).1) := by
  refine ⟨fun hv ε _ t => ?_, fun hv options t times => ?_⟩
  · rw [ReadWrite.WritableHashTable.add_of_rejected t hv]
    exact ⟨rfl, ReadWrite.not_unchanged_of_allocate rfl⟩
  · exact Cache.WritableHashTable.not_unchanged_of_rejected options t times hv

/-- A key of two bytes where one byte is fixed, in an empty table and in an empty cache. -/
theorem not_unchanged_of_rejected_add_of_fixed :
    let platform : Platform := ⟨fun _ => (7, 0), 8, 64⟩
    let setting : Setting := { fixedKeySize := 1 }
    let rejected : Key := ⟨[1, 2], by decide⟩
    let value : Value := ⟨[2], by decide⟩
    let epochManager : EpochManager RecordBuffer :=
      ⟨0, ⟨0, 0, [0], by decide⟩, ⟨[.empty], 0⟩⟩
    let t : ReadWrite.WritableHashTable setting (EpochManager RecordBuffer) :=
      ⟨.create setting ⟨0, []⟩, epochManager⟩
    let cache := Cache.WritableHashTable.create setting ⟨0, []⟩ epochManager
    ¬ ReadWrite.Unchanged t (t.add setting.recordSerializer rejected value).1 ∧
      ¬ Cache.Unchanged cache (cache.add ⟨10, 1000, true⟩ rejected value ⟨0, 0, 0⟩).1 := by
  intro platform setting rejected value epochManager t cache
  have h := not_unchanged_of_rejected_add setting rejected value
  exact ⟨(h.1 (by decide) _ t).2, h.2 (by decide) ⟨10, 1000, true⟩ cache ⟨0, 0, 0⟩
    (by decide +kernel)⟩

/-- A full cache with keys of one byte. The `Add` of a key of two bytes evicts the stored record,
registers its release, moves the hand and throws. -/
theorem rejected_add_evicts :
    let platform : Platform := ⟨fun _ => (7, 0), 8, 64⟩
    let options : Cache.Options := ⟨10, 1000, false⟩
    let setting : Setting := { fixedKeySize := 1 }
    let key : Key := ⟨[1], by decide⟩
    let rejected : Key := ⟨[1, 2], by decide⟩
    let value : Value := ⟨[2], by decide⟩
    let empty := Cache.WritableHashTable.create setting ⟨0, []⟩
      ⟨0, ⟨0, 0, [0], by decide⟩, ⟨[.empty], 0⟩⟩
    let t := (empty.add options key value ⟨0, 0, 0⟩).1
    let t' := (t.add options rejected value ⟨0, 0, 0⟩).1
    (t.add options rejected value ⟨0, 0, 0⟩).2 = .error invalidSizes ∧
      (t.get options key 0).2 = .ok (some value) ∧ (t'.get options key 0).2 = .ok none ∧
      ¬ Cache.Unchanged t t' := by
  intro platform options setting key rejected value empty t t'
  refine ⟨by decide +kernel, by decide +kernel, by decide +kernel, fun hunchanged => ?_⟩
  have hlen := hunchanged.base.allocated.length_eq
  revert hlen
  decide +kernel

end L4
