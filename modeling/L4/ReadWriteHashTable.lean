import L4.SharedHashTable
import L4.EpochManager

namespace L4
set_option autoImplicit true

/-- `IEpochActionManager`: what takes over the release of a record. The release action is named
by the record. -/
class IEpochActionManager (ε : Type) where
  registerAction : ε → RecordBuffer → Except Failure ε

/-- `EpochManager::RegisterAction`, which registers the action at the current epoch. -/
instance : IEpochActionManager (EpochManager RecordBuffer) where
  registerAction m record := .ok { m with
    epochActionManager := m.epochActionManager.registerAction m.currentEpochCounter record }

namespace ReadWrite
open SharedHashTable (getBucketInfo)
variable {setting : Setting} {ε : Type}

structure Stat where
  keySize : Nat
  valueSize : Nat
  oldValueSize : Nat
  chainIndex : UInt32
  isNewEntryAdded : Bool

section Counters
variable (rs : RecordSerializer)

def updatePerfDataForAdd (stat : Stat) : List PerfUpdate :=
  (if stat.oldValueSize ≠ 0 then
    [.add .totalValueSize (stat.valueSize - stat.oldValueSize)]
  else
    [.add .totalKeySize stat.keySize, .add .totalValueSize stat.valueSize,
      .add .totalIndexSize
        (rs.calculateRecordOverhead + if stat.isNewEntryAdded then sizeofEntry else 0),
      .min .minKeySize stat.keySize, .max .maxKeySize stat.keySize, .increment .recordsCount] ++
    if stat.isNewEntryAdded then
      .increment .chainingEntriesCount ::
        if 1 < stat.chainIndex then [.max .maxBucketChainLength stat.chainIndex.toNat] else []
    else []) ++
  [.min .minValueSize stat.valueSize, .max .maxValueSize stat.valueSize]

def updatePerfDataForRemove (stat : Stat) : List PerfUpdate :=
  [.decrement .recordsCount, .subtract .totalKeySize stat.keySize,
    .subtract .totalValueSize stat.valueSize,
    .subtract .totalIndexSize rs.calculateRecordOverhead]

/-- The counter updates for a record that has been taken out of its slot. -/
def perfUpdatesForRemoved (record : RecordBuffer) : List PerfUpdate :=
  updatePerfDataForRemove rs
    ⟨(rs.keyOf record).size, (rs.valueOf record).size, 0, 0, false⟩

end Counters

section Table
variable (rs : RecordSerializer) (t : SharedHashTable setting)

/-- `ReadOnlyHashTable::Get`. -/
def get [Platform] (key : Key) : Except Failure (Option Value) := do
  let (i, tag) ← getBucketInfo setting key
  return (t.buckets[i].find? rs key tag).map fun found => rs.valueOf found.2

/-- The part of `Add` under the bucket lock. It fills in the statistics and returns the record
that the new one replaces. -/
def publish (i : setting.BucketIndex) (tag : UInt8) (recordToAdd : RecordBuffer) :
    Stat × Option RecordBuffer × SharedHashTable setting :=
  let newRecord := rs.deserialize recordToAdd.bytes
  let scan := t.buckets[i].scan rs newRecord.key tag
  let (recordToDelete, bucket) := t.buckets[i].addRecord rs newRecord.key tag recordToAdd
  (⟨newRecord.key.size, newRecord.value.size, scan.oldValueSize, scan.chainIndex,
    scan.isNewEntryAdded⟩, recordToDelete, t.setBucket i bucket)

/-- `UpdateRecord` as `Remove` calls it. -/
def unlink (s : setting.Slot) : Option RecordBuffer × SharedHashTable setting :=
  let (recordToDelete, bucket) := t.buckets[s.1].updateRecord s.2 none 0
  (recordToDelete, t.setBucket s.1 bucket)

/-- `CreateRecordBuffer`. A buffer of rejected sizes stays allocated. -/
def createRecordBuffer (key : Key) (value : Value) :
    SharedHashTable setting × Except Failure RecordBuffer :=
  let (address, allocator) := t.allocator.allocate (rs.calculateBufferSize key value)
  (t.setAllocator allocator, (rs.serialize key value).map fun bytes => ⟨address, bytes⟩)

end Table

/-- What the operations of a writable table change: the shared table and the epoch manager that
it registers release actions with. -/
structure WritableHashTable (setting : Setting) (ε : Type) where
  hashTable : SharedHashTable setting
  epochManager : ε

namespace WritableHashTable
variable [Platform] [IEpochActionManager ε] (rs : RecordSerializer)
  (t : WritableHashTable setting ε)

omit [Platform] in
/-- `ReleaseRecord`. -/
def releaseRecord (record : Option RecordBuffer) :
    WritableHashTable setting ε × Except Failure Unit :=
  match record with
  | none => (t, .ok ())
  | some record =>
    match IEpochActionManager.registerAction t.epochManager record with
    | .ok epochManager => ({ t with epochManager }, .ok ())
    | .error e => (t, .error e)

/-- `Add(RecordBuffer*)`. -/
def addRecordBuffer (recordToAdd : RecordBuffer) :
    WritableHashTable setting ε × Except Failure Unit :=
  match getBucketInfo setting (rs.keyOf recordToAdd) with
  | .error e => (t, .error e)
  | .ok (i, tag) =>
    let (stat, recordToDelete, hashTable) := publish rs t.hashTable i tag recordToAdd
    releaseRecord
      { t with hashTable := hashTable.updatePerfData (updatePerfDataForAdd rs stat) }
      recordToDelete

/-- `Add(key, value)`. -/
def add (key : Key) (value : Value) : WritableHashTable setting ε × Except Failure Unit :=
  match createRecordBuffer rs t.hashTable key value with
  | (hashTable, .error e) => ({ t with hashTable }, .error e)
  | (hashTable, .ok record) => addRecordBuffer rs { t with hashTable } record

omit [Platform] in
/-- `Remove(entry, index)`, which is called under the bucket lock. -/
def removeAt (s : setting.Slot) : WritableHashTable setting ε × Except Failure Unit :=
  let (recordToDelete, hashTable) := unlink t.hashTable s
  releaseRecord
    { t with
      hashTable := hashTable.updatePerfData
        (recordToDelete.toList.flatMap (perfUpdatesForRemoved rs)) }
    recordToDelete

/-- `Remove(key)`. -/
def remove (key : Key) : WritableHashTable setting ε × Except Failure Bool :=
  match getBucketInfo setting key with
  | .error e => (t, .error e)
  | .ok (i, tag) =>
    match t.hashTable.buckets[i].find? rs key tag with
    | none => (t, .ok false)
    | some (p, _) =>
      let (t, result) := removeAt rs t (i, p)
      (t, result.map fun _ => true)

end WritableHashTable

end ReadWrite

end L4
