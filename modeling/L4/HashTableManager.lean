import L4.CacheHashTable
import L4.ComparerHasher
import L4.DeserializerTermination
import L4.Library.HashIndex

namespace L4
set_option autoImplicit true

namespace ReadWrite.Deserializer
open SharedHashTable (getBucketInfo_ok getBucketInfo_error)
variable [Platform] {setting : Setting} {t : WritableHashTable setting EpochActionManager}

/-- An `Add` of the deserializer divides by zero if and only if the record is accepted and there
are no buckets. -/
theorem add_eq_divisionByZero_iff (key : Key) (value : Value) :
    (t.add setting.recordSerializer key value).2 = .error .divisionByZero ↔
      setting.numBuckets = 0 ∧ setting.recordSerializer.Validates key value := by
  by_cases hv : setting.recordSerializer.Validates key value
  · have hmeta : setting.recordSerializer.metadataSize = 0 := rfl
    obtain ⟨record, allocator, -, hcreate⟩ := createRecordBuffer_eq t.hashTable hmeta hv
    by_cases hb : setting.numBuckets = 0
    · have hinfo := getBucketInfo_error hb (setting.recordSerializer.keyOf record)
      simp only [WritableHashTable.add, hcreate, WritableHashTable.addRecordBuffer, hinfo, hb, hv,
        and_self]
    · obtain ⟨i, -, hinfo⟩ := getBucketInfo_ok hb (setting.recordSerializer.keyOf record)
      simp only [WritableHashTable.add, hcreate, WritableHashTable.addRecordBuffer, hinfo, hb,
        false_and, iff_false]
      generalize (publish _ _ _ _ _).2.1 = old
      cases old with
      | none => simp [WritableHashTable.releaseRecord]
      | some record => simp [WritableHashTable.releaseRecord, IEpochActionManager.registerAction]
  · rw [WritableHashTable.add_of_rejected t hv]
    simp [hv]

namespace Loading

theorem addRecord_eq_divisionByZero_iff (l : Loading setting) :
    l.addRecord = .error .divisionByZero ↔
      setting.numBuckets = 0 ∧
        setting.recordSerializer.Validates l.nextRecord.1.key l.nextRecord.1.value := by
  rw [← add_eq_divisionByZero_iff (t := l.table), addRecord, nextRecord]
  cases hadd : l.table.add setting.recordSerializer (readKey l.stream l.keyBuffer).blob
      (readValue (readKey l.stream l.keyBuffer).stream l.valueBuffer).blob with
  | mk table result => cases result <;> simp

theorem addRecord_ne_ok (l l₁ : Loading setting) (hb : setting.numBuckets = 0) :
    l.addRecord ≠ .ok l₁ := by
  intro hadd
  by_cases hv : setting.recordSerializer.Validates l.nextRecord.1.key l.nextRecord.1.value
  · have hzero := (addRecord_eq_divisionByZero_iff l).mpr ⟨hb, hv⟩
    rw [hadd] at hzero
    cases hzero
  · have hreject := WritableHashTable.add_of_rejected l.table hv
    simp only [nextRecord] at hreject
    rw [addRecord, hreject] at hadd
    cases hadd

theorem Leaves.ne_divisionByZero {l : Loading setting} (h : Leaves n l result)
    (hb : setting.numBuckets ≠ 0) : result ≠ .error .divisionByZero := by
  induction h with
  | ended hmore => simp
  | threw hmore hadd =>
    intro heq
    obtain rfl := Except.error.inj heq
    exact hb ((addRecord_eq_divisionByZero_iff _).mp hadd).1
  | turned hmore hadd hrest ih => exact ih

end Loading

theorem deserializeRecords_of_no_buckets (hb : setting.numBuckets = 0) (allocator : Allocator)
    (stream : IStream) :
    ((∃ loaded, deserializeRecords setting allocator stream = .ok loaded) ∨
        deserializeRecords setting allocator stream = .error .divisionByZero) ↔
      ((Loading.start setting allocator stream).hasMoreData = true →
        setting.recordSerializer.Validates
          (Loading.start setting allocator stream).nextRecord.1.key
          (Loading.start setting allocator stream).nextRecord.1.value) := by
  obtain ⟨iterations, result, -, hleaves, hresult⟩ :=
    deserializeRecords_leaves setting allocator stream
  rw [hresult]
  generalize Loading.start setting allocator stream = l at hleaves
  cases hleaves with
  | ended hmore => simp [hmore, Except.map]
  | threw hmore hadd =>
    have hiff := Loading.addRecord_eq_divisionByZero_iff l
    rw [hadd] at hiff
    simpa [hmore, Except.map, hb] using hiff
  | turned hmore hadd hrest => exact absurd hadd (Loading.addRecord_ne_ok l _ hb)

theorem deserializeRecords_ne_divisionByZero (hb : setting.numBuckets ≠ 0) (allocator : Allocator)
    (stream : IStream) :
    deserializeRecords setting allocator stream ≠ .error .divisionByZero := by
  obtain ⟨iterations, result, -, hleaves, hresult⟩ :=
    deserializeRecords_leaves setting allocator stream
  have hne := hleaves.ne_divisionByZero hb
  rw [hresult]
  cases result with
  | ok l => simp [Except.map]
  | error e => simpa [Except.map] using hne

/-- The stream has a header without buckets, and the record after it, if there is one, passes
`Validate`. -/
def HasNoBuckets (allocator : Allocator) (stream : IStream) : Prop :=
  let version := stream.read [0]
  let object := version.2.read (Setting.toObject (0, 0) {})
  let setting := Setting.ofObject object.1
  let l := Loading.start setting allocator object.2
  version.1 = [currentVersion] ∧ setting.numBuckets = 0 ∧
    (l.hasMoreData = true →
      setting.recordSerializer.Validates l.nextRecord.1.key l.nextRecord.1.value)

theorem hasNoBuckets_iff (allocator : Allocator) (stream : IStream) :
    HasNoBuckets allocator stream ↔
      (∃ loaded, deserialize allocator stream = .ok loaded ∧ loaded.1.1.numBuckets = 0) ∨
        deserialize allocator stream = .error .divisionByZero := by
  rw [HasNoBuckets, deserialize]
  by_cases hversion : (stream.read [0]).1 = [currentVersion]
  · simp only [hversion, ↓reduceIte, true_and, deserializeCurrent]
    generalize (stream.read [0]).2.read (Setting.toObject (0, 0) {}) = object
    by_cases hb : (Setting.ofObject object.1).numBuckets = 0
    · rw [← deserializeRecords_of_no_buckets hb]
      cases deserializeRecords (Setting.ofObject object.1) allocator object.2 with
      | ok loaded => simp [Except.map, hb]
      | error e => simp [Except.map, hb]
    · have hne := deserializeRecords_ne_divisionByZero hb allocator object.2
      cases hrecords : deserializeRecords (Setting.ofObject object.1) allocator object.2 with
      | ok loaded => simp [Except.map, hb]
      | error e =>
        rw [hrecords] at hne
        simpa [Except.map, hb] using hne
  · simp [hversion]

end ReadWrite.Deserializer

namespace LocalMemory
open ReadWrite.Deserializer
variable [Platform]

/-- `HashTableConfig::Setting`. -/
structure HashTableSetting where
  numBuckets : UInt32
  numBucketsPerMutex : Option UInt32 := none
  fixedKeySize : Option UInt16 := none
  fixedValueSize : Option UInt32 := none

/-- The setting of a table that is created from the configuration. -/
def HashTableSetting.toSetting (setting : HashTableSetting) : Setting where
  numBuckets := setting.numBuckets
  numBucketsPerMutex := max (setting.numBucketsPerMutex.getD 1) 1
  fixedKeySize := setting.fixedKeySize.getD 0
  fixedValueSize := setting.fixedValueSize.getD 0

/-- `HashTableConfig::Serializer`. -/
structure SerializerConfig where
  stream : Option IStream

/-- The arguments of the constructor of `HashTableConfig`, with what it asserts. -/
structure HashTableConfig where
  name : List UInt8
  setting : HashTableSetting
  cache : Option Cache.Options := none
  serializer : Option SerializerConfig := none
  check : setting.numBuckets ≠ 0 ∨ (serializer.bind (·.stream)).isSome

/-- A table of the interface: the place of its internal table and, for a cache, its options. -/
structure WritableHashTable where
  hashTable : Nat
  cache : Option Cache.Options

/-- What `StdStringKeyMap` takes from outside: `boost::hash_combine`, and the number of buckets of
an unordered map with so many entries. A map that compares the whole hashes has one for each
hash. -/
class StdStringKeyMap where
  hashCombine : UInt64 → Int → UInt64
  bucketCount : Nat → Nat

/-- `HashTableManager`. -/
structure HashTableManager where
  hashTableNameToIndex : List (List UInt8 × Nat) := []
  internalHashTables : List Loaded := []
  hashTables : List WritableHashTable := []

/-- The internal table of a configuration. -/
def createHashTable (config : HashTableConfig) (allocator : Allocator) : Except Failure Loaded :=
  match config.serializer.bind (·.stream) with
  | some stream => (deserialize allocator stream).map Prod.fst
  | none => .ok ⟨config.setting.toSetting, .create _ allocator⟩

namespace HashTableManager
variable (m : HashTableManager)

omit [Platform] in
/-- `m_hashTableNameToIndex.find` in a map with a given number of buckets: the comparer sees only
the names in the bucket of the hash. -/
def findInBucket (hashCombine : UInt64 → Int → UInt64) (bucketCount : Nat) (name : List UInt8) :
    Option Nat :=
  HashIndex.hashedLookUp
    (fun key => (caseInsensitiveStdStringHasher hashCombine key).toNat % bucketCount)
    caseInsensitiveStdStringComparer m.hashTableNameToIndex name

variable [StdStringKeyMap]

omit [Platform] in
/-- `m_hashTableNameToIndex.find`. -/
def find (name : List UInt8) : Option Nat :=
  m.findInBucket StdStringKeyMap.hashCombine
    (StdStringKeyMap.bucketCount m.hashTableNameToIndex.length) name

/-- A zero at the end of a name is hashed, and the name is looked for in another bucket. -/
example : let _ : StdStringKeyMap := ⟨fun seed c => 31 * seed + UInt64.ofInt c, fun _ => 11⟩
    find ⟨[([97], 0)], [], []⟩ [97, 0] = none ∧ find ⟨[([97], 0)], [], []⟩ [65] = some 0 := by
  decide

def add (config : HashTableConfig) (allocator : Allocator) :
    HashTableManager × Except Failure Nat :=
  if (m.find config.name).isSome then
    (m, .error (.runtimeException "Same hash table name already exists."))
  else if config.cache.isSome ∧ config.serializer.isSome then
    (m, .error (.runtimeException
      "Constructing cache hash table via serializer is not supported."))
  else
    match createHashTable config allocator with
    | .error e => (m, .error e)
    | .ok internalHashTable =>
      let newIndex := m.hashTables.length
      ({ hashTableNameToIndex := m.hashTableNameToIndex ++ [(config.name, newIndex)]
         internalHashTables := m.internalHashTables ++ [internalHashTable]
         hashTables := m.hashTables ++ [⟨m.internalHashTables.length, config.cache⟩] },
        .ok newIndex)

omit [Platform] [StdStringKeyMap] in
/-- The internal table of the table at an index. -/
def internalHashTable (index : Nat) : Option Loaded :=
  m.hashTables[index]?.bind fun hashTable => m.internalHashTables[hashTable.hashTable]?

/-- The table at the index that `Add` returns has a bucket and a mutex, and `Add` has not looked
for a bucket in a table without any. -/
def NeverZero (config : HashTableConfig) (allocator : Allocator) : Prop :=
  (m.add config allocator).2 ≠ .error .divisionByZero ∧
    ∀ index, (m.add config allocator).2 = .ok index →
      ∃ table, (m.add config allocator).1.internalHashTable index = some table ∧
        1 ≤ table.2.buckets.size ∧ 1 ≤ table.1.numMutexes

/-- `Add` comes to read a stream that has no buckets. -/
def ReadsNoBuckets (config : HashTableConfig) (allocator : Allocator) : Prop :=
  m.find config.name = none ∧ ¬ (config.cache.isSome ∧ config.serializer.isSome) ∧
    ∃ stream, config.serializer.bind (·.stream) = some stream ∧ HasNoBuckets allocator stream

omit [Platform] [StdStringKeyMap] in
theorem one_le_numMutexes (setting : Setting) : 1 ≤ setting.numMutexes := by
  rw [Setting.numMutexes]
  generalize setting.numBuckets / max setting.numBucketsPerMutex 1 = n
  have hmax : max n 1 = if n ≤ 1 then 1 else n := rfl
  rw [hmax]
  split_ifs with hle
  · exact Nat.le_refl 1
  · rw [UInt32.le_iff_toNat_le] at hle
    exact Nat.le_of_not_le hle

omit [StdStringKeyMap] in
theorem createHashTable_numBuckets (config : HashTableConfig) (allocator : Allocator) :
    ((∃ table, createHashTable config allocator = .ok table ∧ table.1.numBuckets = 0) ∨
        createHashTable config allocator = .error .divisionByZero) ↔
      ∃ stream, config.serializer.bind (·.stream) = some stream ∧
        HasNoBuckets allocator stream := by
  rw [createHashTable]
  cases hstream : config.serializer.bind (·.stream) with
  | none =>
    have hb : config.setting.numBuckets ≠ 0 := by
      have hcheck := config.check
      rw [hstream] at hcheck
      simpa using hcheck
    simp [HashTableSetting.toSetting, hb]
  | some stream =>
    simp only [Option.some.injEq, exists_eq_left', hasNoBuckets_iff]
    cases deserialize allocator stream with
    | ok loaded => simp [Except.map]
    | error e => simp [Except.map]

theorem add_ok (hname : m.find config.name = none)
    (hcache : ¬ (config.cache.isSome ∧ config.serializer.isSome))
    (htable : createHashTable config allocator = .ok table) :
    ∃ m', m.add config allocator = (m', .ok m.hashTables.length) ∧
      m'.internalHashTable m.hashTables.length = some table := by
  refine ⟨{
    hashTableNameToIndex := m.hashTableNameToIndex ++ [(config.name, m.hashTables.length)]
    internalHashTables := m.internalHashTables ++ [table]
    hashTables := m.hashTables ++ [⟨m.internalHashTables.length, config.cache⟩] }, ?_, ?_⟩
  · rw [add, hname, Option.isSome_none, if_neg Bool.false_ne_true, if_neg hcache, htable]
  · simp [internalHashTable]

/-- `Add` gives only tables with buckets, and divides by none, if and only if it does not come to
read a stream without buckets. -/
theorem neverZero_iff (config : HashTableConfig) (allocator : Allocator) :
    m.NeverZero config allocator ↔ ¬ m.ReadsNoBuckets config allocator := by
  have hcreate := createHashTable_numBuckets config allocator
  rw [NeverZero, ReadsNoBuckets, ← hcreate]
  by_cases hname : m.find config.name = none
  · by_cases hcache : config.cache.isSome ∧ config.serializer.isSome
    · simp [add, hname, hcache]
    · cases htable : createHashTable config allocator with
      | error e => simp [add, hname, hcache, htable]
      | ok table =>
        obtain ⟨m', hadd, hinternal⟩ := m.add_ok hname hcache htable
        have hsize : 1 ≤ table.2.buckets.size ↔ table.1.numBuckets ≠ 0 := by
          rw [Nat.one_le_iff_ne_zero, Ne, Ne, ← UInt32.toNat_inj]
          rfl
        rw [hadd]
        constructor
        · rintro ⟨-, htables⟩ ⟨-, -, hzero⟩
          obtain ⟨table', htable', hsize', -⟩ := htables _ rfl
          obtain rfl := Option.some.inj (hinternal.symm.trans htable')
          rcases hzero with ⟨table', heq, hzero⟩ | herror
          · obtain rfl := Except.ok.inj heq
            exact hsize.mp hsize' hzero
          · cases herror
        · intro hreads
          refine ⟨fun herror => (by cases herror), fun index hindex => ?_⟩
          obtain rfl := Except.ok.inj hindex
          refine ⟨table, hinternal, hsize.mpr fun hzero => hreads ⟨hname, hcache, ?_⟩,
            one_le_numMutexes _⟩
          exact .inl ⟨table, rfl, hzero⟩
  · have hsome : (m.find config.name).isSome = true := Option.isSome_iff_ne_none.mpr hname
    simp [add, hname, hsome]

omit [Platform] [StdStringKeyMap] in
/-- A stream with no buckets in its header and the end mark after it. -/
theorem not_neverZero_of_header :
    let platform : Platform := ⟨fun _ => (7, 0), 8, 64⟩
    let names : StdStringKeyMap := ⟨fun seed c => 31 * seed + UInt64.ofInt c, fun _ => 11⟩
    let stream : IStream := ⟨[1, 0, 0, 0, 0, 1, 0, 0, 0, 0, 0, 0, 0, 0, 0, 0, 0, 0], false⟩
    let config : HashTableConfig :=
      ⟨[116], { numBuckets := 4 }, none, some ⟨some stream⟩, by decide⟩
    (add {} config ⟨0, []⟩).2 = .ok 0 ∧ ¬ NeverZero {} config ⟨0, []⟩ := by
  intro platform names stream config
  have hadd : (add {} config ⟨0, []⟩).2 = .ok 0 := by decide +kernel
  have hzero : ((add {} config ⟨0, []⟩).1.internalHashTable 0).map (·.1.numBuckets) = some 0 := by
    decide +kernel
  refine ⟨hadd, ?_⟩
  intro h
  obtain ⟨table, htable, hsize, -⟩ := h.2 0 hadd
  rw [htable] at hzero
  have hb : table.1.numBuckets = 0 := Option.some.inj hzero
  have hnone : table.2.buckets.size = 0 := congrArg UInt32.toNat hb
  omega

end HashTableManager

end LocalMemory

end L4
