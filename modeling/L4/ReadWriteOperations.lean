import L4.ReadWriteHashTable

namespace L4
set_option autoImplicit true

namespace ReadWrite
open SharedHashTable (getBucketInfo_ok getBucketInfo_error bucketOf tagOf)
variable {setting : Setting} {ε : Type}

section Table
variable [Platform] {rs : RecordSerializer} {t t' : SharedHashTable setting}

/-- What the critical section of `Add` does: the record goes to a slot of the bucket of its key
that admits the key. -/
structure Published (rs : RecordSerializer) (t : SharedHashTable setting) (record : RecordBuffer)
    (s : setting.Slot) (stat : Stat) (recordToDelete : Option RecordBuffer)
    (t' : SharedHashTable setting) : Prop where
  home : s.1.val = bucketOf setting (rs.keyOf record)
  admits : KeyedSlots.Admits rs.keyOf t.load s (rs.keyOf record)
  replaced : recordToDelete = t.load s
  stored : t.Stored s (some record) (tagOf (rs.keyOf record)) t'
  first : t.load s = none → ∀ q, q.Before s.2 → ∃ r, t.load (s.1, q) = some r
  chainLength : t'.buckets[s.1].chainLength =
    t.buckets[s.1].chainLength + if s.2.entry = t.buckets[s.1].chainLength then 1 else 0
  keySize : stat.keySize = (rs.keyOf record).size
  valueSize : stat.valueSize = (rs.valueOf record).size
  oldValueSize : stat.oldValueSize = (t.load s).elim 0 fun r => (rs.valueOf r).size
  isNewEntryAdded : stat.isNewEntryAdded = decide (s.2.entry = t.buckets[s.1].chainLength)
  chainIndex : s.2.entry = t.buckets[s.1].chainLength →
    stat.chainIndex = .ofNat (t.buckets[s.1].chainLength + 1)

theorem published (h : t.Consistent rs) (hi : i.val = bucketOf setting (rs.keyOf record)) :
    ∃ p, (t.buckets[i].scan rs (rs.keyOf record) (tagOf (rs.keyOf record))).entryToUpdate = some p ∧
      Published rs t record (i, p) (publish rs t i (tagOf (rs.keyOf record)) record).1
        (publish rs t i (tagOf (rs.keyOf record)) record).2.1
        (publish rs t i (tagOf (rs.keyOf record)) record).2.2 := by
  obtain ⟨p, hp⟩ := (h.bucket i).addSlot (rs.keyOf record)
  obtain ⟨hold, hload, htag, hlen⟩ := hp.addRecord record
  have hentry := hp.entry_le
  have hlt : p.entry < (t.buckets[i].addRecord rs (rs.keyOf record) (tagOf (rs.keyOf record))
      record).2.chainLength := by
    rw [hlen]
    split_ifs <;> omega
  have hle := Nat.le_add_right t.buckets[i].chainLength
    (if p.entry = t.buckets[i].chainLength then 1 else 0)
  rw [← hlen] at hle
  refine ⟨p, hp.chosen, hi, h.admits hi hp.admits, hold,
    SharedHashTable.stored_setBucket hload htag hlt hle, hp.first, ?_, rfl, rfl, hp.oldValueSize,
    hp.isNewEntryAdded, hp.chainIndex⟩
  exact (congrArg Bucket.chainLength ((SharedHashTable.getElem_setBucket _ _ _ _).trans
    (if_pos rfl))).trans hlen

theorem Published.consistent (hp : Published rs t record s stat old t') (h : t.Consistent rs) :
    t'.Consistent rs :=
  h.store hp.admits hp.home hp.stored

/-- What `UpdateRecord` does when `Remove` calls it. -/
structure Unlinked (t : SharedHashTable setting) (s : setting.Slot)
    (recordToDelete : Option RecordBuffer) (t' : SharedHashTable setting) : Prop where
  removed : recordToDelete = t.load s
  stored : t.Stored s none 0 t'
  chainLength : t'.buckets[s.1].chainLength = t.buckets[s.1].chainLength

omit [Platform] in
theorem unlinked (hs : t.load s = some record) :
    Unlinked t s (unlink t s).1 (unlink t s).2 := by
  have hp : s.2.entry < t.buckets[s.1].chainLength :=
    Bucket.mem_positions.mp (Bucket.mem_positions_of_load hs)
  have hlen := t.buckets[s.1].chainLength_updateRecord (p := s.2) (r := none) (t := 0)
  refine ⟨rfl, SharedHashTable.stored_setBucket (Bucket.load_updateRecord hp)
    (Bucket.tag_updateRecord hp) (hlen ▸ hp) (Nat.le_of_eq hlen.symm), ?_⟩
  exact (congrArg Bucket.chainLength ((SharedHashTable.getElem_setBucket _ _ _ _).trans
    (if_pos rfl))).trans hlen

omit [Platform] in
theorem unlinked_of_load (hs : t.load s = some record) :
    Unlinked t s (some record) (unlink t s).2 := by
  have hu := unlinked hs
  rwa [hu.removed.trans hs] at hu

theorem Unlinked.consistent (hu : Unlinked t s old t') (h : t.Consistent rs) : t'.Consistent rs :=
  h.clear hu.stored

theorem get_eq (h : t.Consistent rs) (hb : setting.numBuckets ≠ 0)
    (hm : KeyedSlots.Represents rs.keyOf t.load m) (key : Key) :
    get rs t key = .ok ((m key).map rs.valueOf) := by
  obtain ⟨i, hi, hinfo⟩ := getBucketInfo_ok hb key
  rw [get, hinfo]
  refine congrArg Except.ok ?_
  cases hf : t.buckets[i].find? rs key (tagOf key) with
  | none =>
    rw [hm.eq_none.mpr ((h.find?_eq_none hi).mp hf)]
    rfl
  | some found =>
    rw [(hm key found.2).mpr ⟨(i, found.1), (h.bucket i).find?_eq_some.mp hf⟩]
    rfl

theorem get_eq_some_iff (h : t.Consistent rs) (key : Key) (value : Value) :
    get rs t key = .ok (some value) ↔
      ∃ s record, t.load s = some record ∧ rs.keyOf record = key ∧ rs.valueOf record = value := by
  constructor
  · intro hget
    by_cases hb : setting.numBuckets = 0
    · rw [get, getBucketInfo_error hb key] at hget
      cases hget
    · obtain ⟨i, hi, hinfo⟩ := getBucketInfo_ok hb key
      rw [get, hinfo] at hget
      obtain ⟨⟨p, record⟩, hfind, hvalue⟩ := Option.map_eq_some_iff.mp (Except.ok.inj hget)
      obtain ⟨hload, hkey⟩ := (h.bucket i).find?_eq_some.mp hfind
      exact ⟨(i, p), record, hload, hkey, hvalue⟩
  · rintro ⟨s, record, hload, hkey, rfl⟩
    obtain ⟨hinfo, hfind⟩ := h.find?_of_load hload hkey
    rw [get, hinfo]
    exact congrArg (fun found => Except.ok (Option.map _ found)) hfind

omit [Platform] in
theorem createRecordBuffer_eq (t : SharedHashTable setting) (hmeta : rs.metadataSize = 0)
    (hv : rs.Validates key value) :
    ∃ record allocator, rs.deserialize record.bytes = ⟨key, value⟩ ∧
      createRecordBuffer rs t key value = (t.setAllocator allocator, .ok record) := by
  have hs : rs.serialize key value =
      .ok (rs.serializeSizes key.size value.size ++ key.data ++ value.data) := if_pos hv
  refine ⟨⟨t.allocator.next, _⟩, (t.allocator.allocate (rs.calculateBufferSize key value)).2,
    RecordSerializer.deserialize_serialize hmeta hs, ?_⟩
  simp only [createRecordBuffer, hs]
  rfl

omit [Platform] in
theorem createRecordBuffer_of_rejected (t : SharedHashTable setting)
    (hv : ¬ rs.Validates key value) : createRecordBuffer rs t key value =
      (t.setAllocator (t.allocator.allocate (rs.calculateBufferSize key value)).2,
        .error (.runtimeException "Invalid key or value sizes are given.")) := by
  have hs : rs.serialize key value =
      .error (.runtimeException "Invalid key or value sizes are given.") := if_neg hv
  simp only [createRecordBuffer, hs]
  rfl

end Table

namespace WritableHashTable
variable [Platform] [IEpochActionManager ε] {rs : RecordSerializer}
  {t : WritableHashTable setting ε}

/-- `Add` of a record is its critical section, the counter updates and the release of the record
that has been replaced, one after the other. -/
theorem addRecordBuffer_eq (h : t.hashTable.Consistent rs) (hb : setting.numBuckets ≠ 0)
    (record : RecordBuffer) :
    ∃ s stat hashTable, Published rs t.hashTable record s stat (t.hashTable.load s) hashTable ∧
      addRecordBuffer rs t record = releaseRecord
        { t with hashTable := hashTable.updatePerfData (updatePerfDataForAdd rs stat) }
        (t.hashTable.load s) := by
  obtain ⟨i, hi, hinfo⟩ := getBucketInfo_ok hb (rs.keyOf record)
  obtain ⟨p, -, hp⟩ := published h hi
  have hold := hp.replaced
  rw [hold] at hp
  refine ⟨_, _, _, hp, ?_⟩
  simp only [addRecordBuffer, hinfo, hold]

theorem add_eq (h : t.hashTable.Consistent rs) (hb : setting.numBuckets ≠ 0)
    (hmeta : rs.metadataSize = 0) (hv : rs.Validates key value) :
    ∃ record allocator s stat hashTable, rs.deserialize record.bytes = ⟨key, value⟩ ∧
      Published rs (t.hashTable.setAllocator allocator) record s stat (t.hashTable.load s)
        hashTable ∧
      add rs t key value = releaseRecord
        { t with hashTable := hashTable.updatePerfData (updatePerfDataForAdd rs stat) }
        (t.hashTable.load s) := by
  obtain ⟨record, allocator, hrecord, hcreate⟩ := createRecordBuffer_eq t.hashTable hmeta hv
  obtain ⟨s, stat, hashTable, hp, hadd⟩ :=
    addRecordBuffer_eq (t := { t with hashTable := t.hashTable.setAllocator allocator })
      (h.congr rfl rfl) hb record
  refine ⟨record, allocator, s, stat, hashTable, hrecord, hp, ?_⟩
  simp only [add, hcreate]
  exact hadd

theorem add_of_rejected (t : WritableHashTable setting ε) (hv : ¬ rs.Validates key value) :
    add rs t key value =
      ({ t with
          hashTable := t.hashTable.setAllocator
            (t.hashTable.allocator.allocate (rs.calculateBufferSize key value)).2 },
        .error (.runtimeException "Invalid key or value sizes are given.")) := by
  simp only [add, createRecordBuffer_of_rejected t.hashTable hv]

theorem remove_eq (h : t.hashTable.Consistent rs) (hb : setting.numBuckets ≠ 0) (key : Key) :
    ((∀ s r, t.hashTable.load s = some r → rs.keyOf r ≠ key) ∧
      remove rs t key = (t, .ok false)) ∨
    ∃ s r, t.hashTable.load s = some r ∧ rs.keyOf r = key ∧
      remove rs t key = ((removeAt rs t s).1, (removeAt rs t s).2.map fun _ => true) := by
  obtain ⟨i, hi, hinfo⟩ := getBucketInfo_ok hb key
  cases hf : t.hashTable.buckets[i].find? rs key (tagOf key) with
  | none =>
    refine .inl ⟨(h.find?_eq_none hi).mp hf, ?_⟩
    simp only [remove, hinfo, hf]
  | some found =>
    obtain ⟨p, r⟩ := found
    obtain ⟨hp, hk⟩ := (h.bucket i).find?_eq_some.mp hf
    refine .inr ⟨(i, p), r, hp, hk, ?_⟩
    simp only [remove, hinfo, hf]

omit [Platform] in
theorem removeAt_eq (rs : RecordSerializer) (hs : t.hashTable.load s = some record) :
    ∃ hashTable, Unlinked t.hashTable s (some record) hashTable ∧
      removeAt rs t s = releaseRecord
        { t with hashTable := hashTable.updatePerfData (perfUpdatesForRemoved rs record) }
        (some record) := by
  have hu := unlinked hs
  have hr := hu.removed.trans hs
  rw [hr] at hu
  refine ⟨_, hu, ?_⟩
  simp only [removeAt, hr, Option.toList_some, List.flatMap_cons, List.flatMap_nil,
    List.append_nil]

end WritableHashTable

end ReadWrite

end L4
