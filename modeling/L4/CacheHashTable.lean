import L4.CacheMetadata
import L4.ReadWriteRefinement
import L4.TableIterator

namespace L4
set_option autoImplicit true

namespace Bucket

/-- A pass over slots of a bucket under its lock. Each record is looked at and stays, perhaps with
other bytes in its buffer, or is removed. Gives the bucket and the removed records in order. -/
def sweepSlots (visit : RecordBuffer → Option RecordBuffer) :
    List SlotIndex → Bucket RecordBuffer → Bucket RecordBuffer × List RecordBuffer
  | [], b => (b, [])
  | p :: ps, b =>
    match b.load p with
    | none => sweepSlots visit ps b
    | some record =>
      match visit record with
      | some record => sweepSlots visit ps (b.storeData p (some record))
      | none =>
        let swept := sweepSlots visit ps (b.updateRecord p none 0).2
        (swept.1, record :: swept.2)

def sweep (visit : RecordBuffer → Option RecordBuffer) (b : Bucket RecordBuffer) :
    Bucket RecordBuffer × List RecordBuffer :=
  sweepSlots visit b.positions b

end Bucket

/-- The serializer of a cache. -/
def Setting.cacheRecordSerializer (setting : Setting) : RecordSerializer :=
  ⟨setting.fixedKeySize, setting.fixedValueSize, Cache.Metadata.metaDataSize⟩

namespace Cache
open SharedHashTable (getBucketInfo)
open Metadata
variable {setting : Setting}

/-- The arguments of the constructor. -/
structure Options where
  maxCacheSizeInBytes : UInt64
  recordTimeToLive : Int
  forceTimeBasedEviction : Bool

structure WritableHashTable (setting : Setting) where
  base : ReadWrite.WritableHashTable setting (EpochManager RecordBuffer)
  currentEvictBucketIndex : UInt64

/-- The sum of the sizes that `CalculateNumBytesToFree` reads off the counters. -/
def totalDataSize (perfData : HashTablePerfData) : Int :=
  perfData .totalKeySize + perfData .totalValueSize + perfData .totalIndexSize

section Visit
variable (rs : RecordSerializer) (options : Options) (curEpochTime : Int)

/-- `EvictBasedOnTime` removes the expired records. -/
def visitBasedOnTime (record : RecordBuffer) : Option RecordBuffer :=
  if isExpired (metadataOf rs record) curEpochTime options.recordTimeToLive then none
  else some record

/-- `Evict` removes a record that is expired or has not been accessed, and clears the access bit
of the others. -/
def visitClock (record : RecordBuffer) : Option RecordBuffer :=
  let metadata := metadataOf rs record
  if isExpired metadata curEpochTime options.recordTimeToLive then none
  else
    let status := updateAccessStatus false metadata
    if status.1 then some (storeMetadata rs record status.2) else none

end Visit

/-- What is left of the bytes to free after a record has been removed. Sizes are added on 32
bits. -/
def bytesLeftToFree (rs : RecordSerializer) (numBytesToFree : Nat) (record : RecordBuffer) : Nat :=
  let numBytesFreed := ((rs.keyOf record).size + (rs.valueOf record).size) % 2 ^ 32
  if numBytesToFree ≤ numBytesFreed then 0 else numBytesToFree - numBytesFreed

/-- `CalculateNumBytesToFree` with the sum that it has read, on 64 bits. -/
def bytesToFree (options : Options) (totalDataSize : Int) (bytesNeeded : Nat) : Nat :=
  let totalDataSize := (totalDataSize % 2 ^ 64).toNat
  let maxCacheSizeInBytes := options.maxCacheSizeInBytes.toNat
  if bytesNeeded < maxCacheSizeInBytes ∧
      (totalDataSize + bytesNeeded) % 2 ^ 64 ≤ maxCacheSizeInBytes then 0
  else if maxCacheSizeInBytes < totalDataSize then
    (totalDataSize - maxCacheSizeInBytes + bytesNeeded) % 2 ^ 64
  else bytesNeeded

def calculateNumBytesToFree (options : Options) (perfData : HashTablePerfData)
    (bytesNeeded : Nat) : Nat :=
  bytesToFree options (totalDataSize perfData) bytesNeeded

/-- The argument of `Evict` in `Add`, on 32 bits. -/
def bytesNeeded (key : Key) (value : Value) : Nat :=
  (key.size + value.size + metaDataSize.toNat) % 2 ^ 32

/-- `CreateRecordBuffer`, which stores the metadata before the value. -/
def createRecordBuffer (rs : RecordSerializer) (t : SharedHashTable setting) (key : Key)
    (value : Value) (curEpochTime : Int) : SharedHashTable setting × Except Failure RecordBuffer :=
  let (address, allocator) := t.allocator.allocate (rs.calculateBufferSize key value)
  let metaValue : Value := ⟨Metadata.create curEpochTime, length_create_lt curEpochTime⟩
  (t.setAllocator allocator,
    (rs.serializeWithMeta key value metaValue).map fun bytes => ⟨address, bytes⟩)

/-- A value without the metadata before it. Where the stored size has wrapped and is less than
that of the metadata, the source makes it wrap once more, and the value here is empty. -/
def withoutMetadata (value : Value) : Value :=
  ⟨value.data.drop metaDataSize.toNat,
    Nat.lt_of_le_of_lt (List.drop_sublist _ _).length_le value.size_lt⟩

/-- The readings of the clock in `Add`: in `EvictBasedOnTime`, in `Evict` and in
`CreateRecordBuffer`. -/
structure AddTimes where
  evictBasedOnTime : Int
  evict : Int
  create : Int

namespace WritableHashTable

/-- The counter updates of one removed record, and its release. -/
def retire (rs : RecordSerializer) (t : WritableHashTable setting) (record : RecordBuffer) :
    WritableHashTable setting :=
  let base := (ReadWrite.WritableHashTable.releaseRecord
    { t.base with
      hashTable := t.base.hashTable.updatePerfData (ReadWrite.perfUpdatesForRemoved rs record) }
    (some record)).1
  { t with
    base := { base with
      hashTable := base.hashTable.updatePerfData [.increment .evictedRecordsCount] } }

/-- A sweep of one bucket. Nothing in it reads the counters, so that the updates for the removed
records are put after the stores. -/
def sweepBucket (rs : RecordSerializer) (visit : RecordBuffer → Option RecordBuffer)
    (t : WritableHashTable setting) (i : setting.BucketIndex) :
    WritableHashTable setting × List RecordBuffer :=
  let swept := t.base.hashTable.buckets[i].sweep visit
  (swept.2.foldl (retire rs)
    { t with base := { t.base with hashTable := t.base.hashTable.setBucket i swept.1 } }, swept.2)

/-- The loop of `Evict`. -/
def evictLoop (rs : RecordSerializer) (visit : RecordBuffer → Option RecordBuffer) :
    (numIterationsRemaining numBytesToFree : Nat) → WritableHashTable setting →
      WritableHashTable setting
  | 0, _, t => t
  | n + 1, numBytesToFree, t =>
    if numBytesToFree = 0 then t
    else if h : setting.numBuckets.toNat = 0 then t
    else
      let i : setting.BucketIndex := ⟨t.currentEvictBucketIndex.toNat % setting.numBuckets.toNat,
        Nat.mod_lt _ (Nat.pos_of_ne_zero h)⟩
      let swept := sweepBucket rs visit
        { t with currentEvictBucketIndex := t.currentEvictBucketIndex + 1 } i
      evictLoop rs visit n (swept.2.foldl (bytesLeftToFree rs) numBytesToFree) swept.1

variable (options : Options) (t : WritableHashTable setting)

/-- `Evict`. The bytes to free are calculated again under the mutex, which without other threads
gives the same. -/
def evict (bytesNeeded : Nat) (curEpochTime : Int) : WritableHashTable setting :=
  let rs := setting.cacheRecordSerializer
  let numBytesToFree :=
    calculateNumBytesToFree options t.base.hashTable.perfData bytesNeeded
  if numBytesToFree = 0 then t
  else evictLoop rs (visitClock rs options curEpochTime) (setting.numBuckets.toNat * 2)
    numBytesToFree t

variable [Platform]

def evictBasedOnTime (key : Key) (curEpochTime : Int) :
    WritableHashTable setting × Except Failure Unit :=
  let rs := setting.cacheRecordSerializer
  match getBucketInfo setting key with
  | .error e => (t, .error e)
  | .ok (i, _) => ((sweepBucket rs (visitBasedOnTime rs options curEpochTime) t i).1, .ok ())

/-- The part of `Add` before `CreateRecordBuffer`. -/
def makeRoom (key : Key) (value : Value) (times : AddTimes) :
    WritableHashTable setting × Except Failure Unit :=
  let timeBased :=
    if options.forceTimeBasedEviction then evictBasedOnTime options t key times.evictBasedOnTime
    else (t, .ok ())
  match timeBased with
  | (t, .error e) => (t, .error e)
  | (t, .ok ()) => (evict options t (bytesNeeded key value) times.evict, .ok ())

def add (key : Key) (value : Value) (times : AddTimes) :
    WritableHashTable setting × Except Failure Unit :=
  let rs := setting.cacheRecordSerializer
  match makeRoom options t key value times with
  | (t, .error e) => (t, .error e)
  | (t, .ok ()) =>
    match createRecordBuffer rs t.base.hashTable key value times.create with
    | (hashTable, .error e) => ({ t with base := { t.base with hashTable } }, .error e)
    | (hashTable, .ok record) =>
      let (base, result) := ReadWrite.WritableHashTable.addRecordBuffer rs
        { t.base with hashTable } record
      ({ t with base }, result)

/-- `Remove`, which is that of the base. -/
def remove (key : Key) : WritableHashTable setting × Except Failure Bool :=
  let (base, result) := t.base.remove setting.cacheRecordSerializer key
  ({ t with base }, result)

/-- `GetInternal`: a hit sets the access bit of the record. -/
def getInternal (key : Key) (curEpochTime : Int) :
    SharedHashTable setting × Except Failure (Option Value) :=
  let rs := setting.cacheRecordSerializer
  let hashTable := t.base.hashTable
  match getBucketInfo setting key with
  | .error e => (hashTable, .error e)
  | .ok (i, tag) =>
    match hashTable.buckets[i].find? rs key tag with
    | none => (hashTable, .ok none)
    | some (p, record) =>
      let metadata := metadataOf rs record
      if isExpired metadata curEpochTime options.recordTimeToLive then (hashTable, .ok none)
      else
        (hashTable.setBucket i (hashTable.buckets[i].storeData p
            (some (storeMetadata rs record (updateAccessStatus true metadata).2))),
          .ok (some (withoutMetadata (rs.valueOf record))))

/-- `Get`, which counts the hits and the misses. -/
def get (key : Key) (curEpochTime : Int) :
    WritableHashTable setting × Except Failure (Option Value) :=
  match getInternal options t key curEpochTime with
  | (hashTable, .error e) => ({ t with base := { t.base with hashTable } }, .error e)
  | (hashTable, .ok value) =>
    ({ t with base := { t.base with
        hashTable := hashTable.updatePerfData
          [.increment (if value.isSome then .cacheHitCount else .cacheMissCount)] } }, .ok value)

def create (setting : Setting) (allocator : Allocator) (epochManager : EpochManager RecordBuffer) :
    WritableHashTable setting :=
  ⟨⟨.create setting allocator, epochManager⟩, 0⟩

end WritableHashTable

/-- `ReadOnlyHashTable::Iterator`, which has read the clock when it was created. -/
structure CacheIterator (setting : Setting) where
  base : Iterator setting
  currentEpochTime : Int

namespace CacheIterator

/-- `GetIterator`. -/
def create (curEpochTime : Int) : CacheIterator setting := ⟨.create, curEpochTime⟩

/-- The loop of `MoveNext`, for a bounded number of turns. Where the stored size of a value has
wrapped below that of the metadata, the source reads the whole metadata all the same, and the loop
here only the bytes that the value still has. -/
def moveNextLoop (options : Options) (t : SharedHashTable setting) (currentEpochTime : Int) :
    Nat → Iterator setting → Except Failure (Bool × Iterator setting)
  | 0, it => .ok (false, it)
  | turns + 1, it =>
    match it.moveNext t with
    | (false, it) => .ok (false, it)
    | (true, it) =>
      match it.getRecord setting.cacheRecordSerializer with
      | .error e => .error e
      | .ok record =>
        if isExpired record.value.data currentEpochTime options.recordTimeToLive then
          moveNextLoop options t currentEpochTime turns it
        else .ok (true, it)

/-- `MoveNext`, which skips expired records. -/
def moveNext (options : Options) (t : SharedHashTable setting) (it : CacheIterator setting) :
    Except Failure (Bool × CacheIterator setting) :=
  (moveNextLoop options t it.currentEpochTime (t.records.length + 1) it.base).map
    fun (more, base) => (more, { it with base })

/-- `GetKey` and `GetValue`. -/
def getRecord (it : CacheIterator setting) : Except Failure Record :=
  (it.base.getRecord setting.cacheRecordSerializer).map fun record =>
    { record with value := withoutMetadata record.value }

end CacheIterator

end Cache

end L4
