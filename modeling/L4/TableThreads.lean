import L4.CacheCounters
import L4.Library.ThreadPool

namespace L4
set_option autoImplicit true
open SharedHashTable (getBucketInfo)
open ReadWrite (publish unlink updatePerfDataForAdd perfUpdatesForRemoved)
open Cache (visitBasedOnTime visitClock bytesLeftToFree bytesNeeded metadataOf storeMetadata)

/-- `HashTableConfig`: the setting of a table and, for a cache, its options. -/
structure HashTableConfig where
  setting : Setting
  cache : Option Cache.Options

def HashTableConfig.recordSerializer (config : HashTableConfig) : RecordSerializer :=
  match config.cache with
  | none => config.setting.recordSerializer
  | some _ => config.setting.cacheRecordSerializer

abbrev CacheConfig (setting : Setting) (options : Cache.Options) : HashTableConfig :=
  ⟨setting, some options⟩

/-- A table that several threads work on. -/
structure Table (config : HashTableConfig) where
  hashTable : SharedHashTable config.setting
  currentEvictBucketIndex : UInt64

def Table.setHashTable (t : Table config) (hashTable : SharedHashTable config.setting) :
    Table config :=
  { t with hashTable }

namespace TableThreads

/-- What a thread has to do, one step each, before it goes on: the update of a counter or
`ReleaseRecord`. -/
inductive Task where
  | update (u : PerfUpdate)
  | release (record : RecordBuffer)

/-- The two kinds of a pass over a bucket, with the locals of their loops. -/
inductive Sweep where
  | basedOnTime (curEpochTime : Int)
  | clock (curEpochTime : Int) (numIterationsRemaining numBytesToFree : Nat)

/-- Where a thread stands in `Add`, `Remove` or `Get`. -/
inductive Phase (setting : Setting) where
  | idle
  | evictingBasedOnTime (record : Record)
  | calculating (record : Record) (locked : Bool) (unread : List HashTablePerfCounter)
      (totalDataSize : Int)
  | waiting (record : Record)
  | evicting (record : Record) (curEpochTime : Int) (numIterationsRemaining numBytesToFree : Nat)
  | sweeping (record : Record) (sweep : Sweep) (i : setting.BucketIndex)
      (slots : List SlotIndex)
  | creating (record : Record)
  | adding (recordToAdd : RecordBuffer)
  | counting (s : setting.Slot) (isNewEntryAdded : Bool)
  | removing (key : Key)
  | removed (i : setting.BucketIndex)
  | getting (key : Key)
  | found (s : setting.Slot) (record : RecordBuffer)
  | got (value : Option Value)

structure Thread (setting : Setting) where
  tasks : List Task
  phase : Phase setting

inductive Call where
  | add (record : Record)
  | remove (key : Key)
  | get (key : Key)

/-- What a step shows: the calls and their responses, the changes of slots, the registered
releases and the sums of `CalculateNumBytesToFree`. -/
inductive Label (setting : Setting) where
  | call (c : Call)
  | publish (s : setting.Slot) (recordToAdd : RecordBuffer) (recordToDelete : Option RecordBuffer)
  | unlink (s : setting.Slot) (record : RecordBuffer)
  | registerAction (record : RecordBuffer)
  | calculate (totalDataSize : Int)
  | respond (result : Except Failure Cache.Response)
  | silent

/-- The bucket whose lock a thread holds between two steps. -/
def Phase.lock : Phase setting → Option setting.BucketIndex
  | .sweeping _ _ i _ => some i
  | .removed i => some i
  | _ => none

/-- The thread holds `m_evictMutex`. -/
def Phase.holdsEvictMutex : Phase setting → Bool
  | .calculating _ locked _ _ => locked
  | .evicting .. => true
  | .sweeping _ (.clock ..) _ _ => true
  | _ => false

/-- No thread holds the lock of the bucket. Buckets may share a mutex; only the exclusion on each
bucket is used. -/
def Unlocked (others : List (Thread setting)) (i : setting.BucketIndex) : Prop :=
  ∀ th ∈ others, th.phase.lock ≠ some i

section Sweeps
variable (rs : RecordSerializer) (options : Cache.Options)

def Sweep.visit : Sweep → RecordBuffer → Option RecordBuffer
  | .basedOnTime curEpochTime => visitBasedOnTime rs options curEpochTime
  | .clock curEpochTime _ _ => visitClock rs options curEpochTime

/-- The locals after the removal of a record. -/
def Sweep.removed (record : RecordBuffer) : Sweep → Sweep
  | .basedOnTime curEpochTime => .basedOnTime curEpochTime
  | .clock curEpochTime numIterationsRemaining numBytesToFree =>
    .clock curEpochTime numIterationsRemaining (bytesLeftToFree rs numBytesToFree record)

/-- `CalculateNumBytesToFree` with the sum that it has read. -/
def numBytesToFree (totalDataSize : Int) (record : Record) : Nat :=
  Cache.bytesToFree options totalDataSize (bytesNeeded record.key record.value)

end Sweeps

/-- The start of `CalculateNumBytesToFree`. The order of the three loads is left open. -/
def calculate (record : Record) (locked : Bool) : Phase setting :=
  .calculating record locked [.totalKeySize, .totalValueSize, .totalIndexSize] 0

/-- After a pass over a bucket. -/
def Sweep.next (record : Record) : Sweep → Phase setting
  | .basedOnTime _ => calculate record false
  | .clock curEpochTime numIterationsRemaining numBytesToFree =>
    .evicting record curEpochTime numIterationsRemaining numBytesToFree

section Config
variable (config : HashTableConfig)

/-- The start of `Add`. -/
def startAdd (record : Record) : Phase config.setting :=
  match config.cache with
  | none => .creating record
  | some options =>
    if options.forceTimeBasedEviction then .evictingBasedOnTime record
    else calculate record false

/-- After `CalculateNumBytesToFree` in `Evict`. -/
def afterCalculate (options : Cache.Options) (record : Record) (locked : Bool)
    (totalDataSize curEpochTime : Int) : Phase config.setting :=
  let numBytesToFree := numBytesToFree options totalDataSize record
  if numBytesToFree = 0 then .creating record
  else if locked then
    .evicting record curEpochTime (config.setting.numBuckets.toNat * 2) numBytesToFree
  else .waiting record

/-- `CreateRecordBuffer` of the table or of the cache. -/
def createRecordBuffer (t : SharedHashTable config.setting) (record : Record)
    (curEpochTime : Int) : SharedHashTable config.setting × Except Failure RecordBuffer :=
  match config.cache with
  | none => ReadWrite.createRecordBuffer config.recordSerializer t record.key record.value
  | some _ =>
    Cache.createRecordBuffer config.recordSerializer t record.key record.value curEpochTime

/-- The write of `Get` to the buffer that it has found, if the buffer is still in the slot. -/
def touch (t : SharedHashTable setting) (rs : RecordSerializer) (s : setting.Slot)
    (address : Nat) : SharedHashTable setting :=
  match t.load s with
  | none => t
  | some record =>
    if record.address = address then
      t.setBucket s.1 (t.buckets[s.1].storeData s.2 (some (storeMetadata rs record
        (Cache.Metadata.updateAccessStatus true (metadataOf rs record)).2)))
    else t

/-- The steps of one thread among others. -/
inductive Act [Platform] (others : List (Thread config.setting)) :
    Table config → Thread config.setting → Label config.setting →
      Table config → Thread config.setting → Prop
  | update (u : PerfUpdate) (tasks : List Task) : Act others t ⟨.update u :: tasks, phase⟩ .silent
      (t.setHashTable (t.hashTable.updatePerfData [u])) ⟨tasks, phase⟩
  | release (record : RecordBuffer) (tasks : List Task) :
      Act others t ⟨.release record :: tasks, phase⟩ (.registerAction record) t ⟨tasks, phase⟩
  | callAdd (record : Record) :
      Act others t ⟨[], .idle⟩ (.call (.add record)) t ⟨[], startAdd config record⟩
  | evictBasedOnTime (curEpochTime : Int)
      (hinfo : getBucketInfo config.setting record.key = .ok (i, tag))
      (hlock : Unlocked others i) :
      Act others t ⟨[], .evictingBasedOnTime record⟩ .silent t
        ⟨[], .sweeping record (.basedOnTime curEpochTime) i t.hashTable.buckets[i].positions⟩
  | evictBasedOnTimeThrows (hinfo : getBucketInfo config.setting record.key = .error e) :
      Act others t ⟨[], .evictingBasedOnTime record⟩ (.respond (.error e)) t ⟨[], .idle⟩
  | visitEmpty (hload : t.hashTable.load (i, p) = none) :
      Act others t ⟨[], .sweeping record sweep i (p :: slots)⟩ .silent t
        ⟨[], .sweeping record sweep i slots⟩
  | visitStays (hcache : config.cache = some options)
      (hload : t.hashTable.load (i, p) = some r)
      (hvisit : sweep.visit config.recordSerializer options r = some r') :
      Act others t ⟨[], .sweeping record sweep i (p :: slots)⟩ .silent
        (t.setHashTable
          (t.hashTable.setBucket i (t.hashTable.buckets[i].storeData p (some r'))))
        ⟨[], .sweeping record sweep i slots⟩
  | visitRemoves (hcache : config.cache = some options)
      (hload : t.hashTable.load (i, p) = some r)
      (hvisit : sweep.visit config.recordSerializer options r = none) :
      Act others t ⟨[], .sweeping record sweep i (p :: slots)⟩ (.unlink (i, p) r)
        (t.setHashTable (unlink t.hashTable (i, p)).2)
        ⟨(perfUpdatesForRemoved config.recordSerializer r).map .update ++
            [.release r, .update (.increment .evictedRecordsCount)],
          .sweeping record (sweep.removed config.recordSerializer r) i slots⟩
  | endSweep (record : Record) (sweep : Sweep) :
      Act others t ⟨[], .sweeping record sweep i []⟩ .silent t ⟨[], sweep.next record⟩
  | readCounter (before after : List HashTablePerfCounter) (counter : HashTablePerfCounter) :
      Act others t ⟨[], .calculating record locked (before ++ counter :: after) sum⟩ .silent t
        ⟨[], .calculating record locked (before ++ after) (sum + t.hashTable.perfData counter)⟩
  | calculate (hcache : config.cache = some options) (curEpochTime : Int) :
      Act others t ⟨[], .calculating record locked [] sum⟩ (.calculate sum) t
        ⟨[], afterCalculate config options record locked sum curEpochTime⟩
  | lockEvictMutex (hmutex : ∀ th ∈ others, th.phase.holdsEvictMutex = false) :
      Act others t ⟨[], .waiting record⟩ .silent t ⟨[], TableThreads.calculate record true⟩
  | evictBucket (hbytes : bytes ≠ 0)
      (hi : i.val = t.currentEvictBucketIndex.toNat % config.setting.numBuckets.toNat)
      (hlock : Unlocked others i) :
      Act others t ⟨[], .evicting record curEpochTime (n + 1) bytes⟩ .silent
        { t with currentEvictBucketIndex := t.currentEvictBucketIndex + 1 }
        ⟨[], .sweeping record (.clock curEpochTime n bytes) i
          t.hashTable.buckets[i].positions⟩
  | endEvict (hend : bytes = 0 ∨ n = 0) :
      Act others t ⟨[], .evicting record curEpochTime n bytes⟩ .silent t
        ⟨[], .creating record⟩
  | createRecordBuffer (curEpochTime : Int)
      (hcreate : TableThreads.createRecordBuffer config t.hashTable record curEpochTime =
        (hashTable, .ok recordToAdd)) :
      Act others t ⟨[], .creating record⟩ .silent (t.setHashTable hashTable)
        ⟨[], .adding recordToAdd⟩
  | createRecordBufferThrows (curEpochTime : Int)
      (hcreate : TableThreads.createRecordBuffer config t.hashTable record curEpochTime =
        (hashTable, .error e)) :
      Act others t ⟨[], .creating record⟩ (.respond (.error e)) (t.setHashTable hashTable)
        ⟨[], .idle⟩
  | addThrows
      (hinfo : getBucketInfo config.setting (config.recordSerializer.keyOf recordToAdd) =
        .error e) :
      Act others t ⟨[], .adding recordToAdd⟩ (.respond (.error e)) t ⟨[], .idle⟩
  | add
      (hinfo : getBucketInfo config.setting (config.recordSerializer.keyOf recordToAdd) =
        .ok (i, tag))
      (hlock : Unlocked others i)
      (hslot : (t.hashTable.buckets[i].scan config.recordSerializer
        (config.recordSerializer.keyOf recordToAdd) tag).entryToUpdate = some p)
      (hpublish : publish config.recordSerializer t.hashTable i tag recordToAdd =
        (stat, recordToDelete, hashTable)) :
      Act others t ⟨[], .adding recordToAdd⟩ (.publish (i, p) recordToAdd recordToDelete)
        (t.setHashTable hashTable)
        ⟨(updatePerfDataForAdd config.recordSerializer stat).map .update ++
            recordToDelete.toList.map .release,
          .counting (i, p) stat.isNewEntryAdded⟩
  | returnAdd : Act others t ⟨[], .counting s isNewEntryAdded⟩ (.respond (.ok .added)) t
      ⟨[], .idle⟩
  | callRemove (key : Key) : Act others t ⟨[], .idle⟩ (.call (.remove key)) t ⟨[], .removing key⟩
  | removeThrows (hinfo : getBucketInfo config.setting key = .error e) :
      Act others t ⟨[], .removing key⟩ (.respond (.error e)) t ⟨[], .idle⟩
  | removeMisses (hinfo : getBucketInfo config.setting key = .ok (i, tag))
      (hlock : Unlocked others i)
      (hfind : t.hashTable.buckets[i].find? config.recordSerializer key tag = none) :
      Act others t ⟨[], .removing key⟩ (.respond (.ok (.removed false))) t ⟨[], .idle⟩
  | remove (hinfo : getBucketInfo config.setting key = .ok (i, tag))
      (hlock : Unlocked others i)
      (hfind : t.hashTable.buckets[i].find? config.recordSerializer key tag = some (p, r)) :
      Act others t ⟨[], .removing key⟩ (.unlink (i, p) r)
        (t.setHashTable (unlink t.hashTable (i, p)).2)
        ⟨(perfUpdatesForRemoved config.recordSerializer r).map .update ++ [.release r],
          .removed i⟩
  | returnRemove : Act others t ⟨[], .removed i⟩ (.respond (.ok (.removed true))) t ⟨[], .idle⟩
  | callGet (key : Key) : Act others t ⟨[], .idle⟩ (.call (.get key)) t ⟨[], .getting key⟩
  | getReads (hcache : config.cache = none) (hload : t.hashTable.load s = some r)
      (hkey : config.recordSerializer.keyOf r = key) :
      Act others t ⟨[], .getting key⟩ .silent t
        ⟨[], .got (some (config.recordSerializer.valueOf r))⟩
  | getFinds (hcache : config.cache = some options) (curEpochTime : Int)
      (hload : t.hashTable.load s = some r)
      (hkey : config.recordSerializer.keyOf r = key)
      (hfresh : Cache.Metadata.isExpired (metadataOf config.recordSerializer r) curEpochTime
        options.recordTimeToLive = false) :
      Act others t ⟨[], .getting key⟩ .silent t ⟨[], .found s r⟩
  | touch (s : config.setting.Slot) (r : RecordBuffer) : Act others t ⟨[], .found s r⟩ .silent
      (t.setHashTable (touch t.hashTable config.recordSerializer s r.address))
      ⟨[.update (.increment .cacheHitCount)],
        .got (some (Cache.withoutMetadata (config.recordSerializer.valueOf r)))⟩
  | getMisses : Act others t ⟨[], .getting key⟩ .silent t
      ⟨if config.cache.isSome then [.update (.increment .cacheMissCount)] else [], .got none⟩
  | returnGet : Act others t ⟨[], .got value⟩ (.respond (.ok (.got value))) t ⟨[], .idle⟩

end Config

/-- A table and its threads. -/
abbrev System (config : HashTableConfig) :=
  ThreadPool.Pool (Table config) (Thread config.setting)

abbrev Step [Platform] (config : HashTableConfig) :
    System config → Label config.setting → System config → Prop :=
  ThreadPool.Step (Act config)

/-- A new table and threads that have not called anything. -/
def initial [Platform] (config : HashTableConfig) (allocator : Allocator) (numThreads : Nat) :
    System config :=
  ⟨⟨.create config.setting allocator, 0⟩, .replicate numThreads ⟨[], .idle⟩⟩

end TableThreads

end L4
