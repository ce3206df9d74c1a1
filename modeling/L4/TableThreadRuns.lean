import L4.Library.Transition
import L4.ReadWriteRefinement
import L4.TableThreadSteps

namespace L4.TableThreads
set_option autoImplicit true
open SharedHashTable (getBucketInfo_ok tagOf)
open ReadWrite (Published updatePerfDataForAdd perfUpdatesForRemoved publish unlink)
open Cache (Options Cached)
open Transition (Run)

/-! Runs of one thread while the other threads stand still. -/

section Runs
variable [Platform] {config : HashTableConfig} {before after : List (Thread config.setting)}

theorem run_updates (before after : List (Thread config.setting)) (us : List PerfUpdate)
    (t : Table config) (tasks : List Task) (phase : Phase config.setting) :
    Run (Step config) ⟨t, before ++ ⟨us.map .update ++ tasks, phase⟩ :: after⟩
      (us.map fun _ => .silent)
      ⟨t.setHashTable (t.hashTable.updatePerfData us), before ++ ⟨tasks, phase⟩ :: after⟩ := by
  induction us generalizing t with
  | nil => exact .nil
  | cons u us ih => exact .cons (.intro before after (.update u _)) (ih _)

theorem run_releases (records : List RecordBuffer) (t : Table config)
    (phase : Phase config.setting) :
    Run (Step config) ⟨t, before ++ ⟨records.map .release, phase⟩ :: after⟩
      (records.map .registerAction) ⟨t, before ++ ⟨[], phase⟩ :: after⟩ := by
  induction records with
  | nil => exact .nil
  | cons record records ih => exact .cons (.intro before after (.release record _)) ih

theorem run_count (us : List PerfUpdate) (records : List RecordBuffer) (t : Table config)
    (s : config.setting.Slot) (isNewEntryAdded : Bool) :
    Run (Step config)
      ⟨t, before ++ ⟨us.map .update ++ records.map .release, .counting s isNewEntryAdded⟩ :: after⟩
      ((us.map fun _ => .silent) ++ (records.map .registerAction ++ [.respond (.ok .added)]))
      ⟨t.setHashTable (t.hashTable.updatePerfData us), before ++ ⟨[], .idle⟩ :: after⟩ :=
  (run_updates _ _ us t _ _).append
    ((run_releases records _ _).append (.single (.intro before after .returnAdd)))

theorem run_reads (t : Table config) (record : Record) (locked : Bool) :
    Run (Step config) ⟨t, before ++ ⟨[], calculate record locked⟩ :: after⟩
      [.silent, .silent, .silent]
      ⟨t, before ++ ⟨[], .calculating record locked []
        (Cache.totalDataSize t.hashTable.perfData)⟩ :: after⟩ := by
  have hsum (x : Int) : (0 : Int) + x = x := Int.zero_add x
  rw [Cache.totalDataSize, ← hsum (t.hashTable.perfData .totalKeySize)]
  exact .cons (.intro before after (.readCounter [] _ .totalKeySize))
    (.cons (.intro before after (.readCounter [] _ .totalValueSize))
      (.single (.intro before after (.readCounter [] _ .totalIndexSize))))

end Runs

section Sequential
variable [Platform] {setting : Setting} {before after : List (Thread setting)}
  {t : ReadWrite.WritableHashTable setting (EpochManager RecordBuffer)}

/-- A call of the interface, as a thread makes it. -/
def Call.ofReadWrite : ReadWrite.Call → Call
  | .add key value => .add ⟨key, value⟩
  | .remove key => .remove key
  | .get key => .get key

def responseOfReadWrite : ReadWrite.Response → Cache.Response
  | .added => .added
  | .removed found => .removed found
  | .got value => .got value

/-- One thread makes a call while the others stand still. It does to the table what the call does
without threads, and returns the same. -/
def RunsAlone (before after : List (Thread setting)) (hand : UInt64)
    (t : ReadWrite.WritableHashTable setting (EpochManager RecordBuffer))
    (c : ReadWrite.Call) : Prop :=
  ∃ labels, Run (Step ⟨setting, none⟩) ⟨⟨t.hashTable, hand⟩, before ++ ⟨[], .idle⟩ :: after⟩
    (.call (.ofReadWrite c) :: (labels ++ [.respond ((t.call c).2.map responseOfReadWrite)]))
    ⟨⟨(t.call c).1.hashTable, hand⟩, before ++ ⟨[], .idle⟩ :: after⟩

theorem runsAlone_add (ht : t.hashTable.Consistent setting.recordSerializer)
    (hb : setting.numBuckets ≠ 0) (hlock : ∀ i, Unlocked (before ++ after) i) (hand : UInt64)
    (key : Key) (value : Value) : RunsAlone before after hand t (.add key value) := by
  let t₀ : Table ⟨setting, none⟩ := ⟨t.hashTable, hand⟩
  by_cases hv : setting.recordSerializer.Validates key value
  · obtain ⟨record, allocator, -, hcreate⟩ :=
      ReadWrite.createRecordBuffer_eq t.hashTable rfl hv
    obtain ⟨i, hi, hinfo⟩ := getBucketInfo_ok hb (setting.recordSerializer.keyOf record)
    have ht' : (t.hashTable.setAllocator allocator).Consistent setting.recordSerializer :=
      ht.congr rfl rfl
    obtain ⟨p, hslot, -⟩ := ReadWrite.published ht' hi
    obtain ⟨⟨stat, old, hashTable⟩, hpublish⟩ : ∃ result, publish setting.recordSerializer
        (t.hashTable.setAllocator allocator) i
        (tagOf (setting.recordSerializer.keyOf record)) record = result := ⟨_, rfl⟩
    obtain ⟨epochManager, hrelease⟩ := ReadWrite.WritableHashTable.releaseRecord_ok
      { t with hashTable :=
          hashTable.updatePerfData (updatePerfDataForAdd setting.recordSerializer stat) } old
    have hcall : t.call (.add key value) = (⟨hashTable.updatePerfData
        (updatePerfDataForAdd setting.recordSerializer stat), epochManager⟩, .ok .added) := by
      simp only [ReadWrite.WritableHashTable.call, ReadWrite.WritableHashTable.add, hcreate,
        ReadWrite.WritableHashTable.addRecordBuffer, hinfo, hpublish, hrelease]
      rfl
    have hcreating : Run (Step ⟨setting, none⟩)
        ⟨t₀, before ++ ⟨[], .creating ⟨key, value⟩⟩ :: after⟩ _ _ :=
      .single (.intro before after (.createRecordBuffer 0 hcreate))
    have hadding := hcreating.append
      (.single (.intro before after (.add hinfo (hlock i) hslot hpublish)))
    have hrun := hadding.append (run_count _ _ _ _ _)
    rw [← List.append_assoc, ← List.append_assoc] at hrun
    rw [RunsAlone, hcall]
    exact ⟨_, .cons (.intro before after (.callAdd ⟨key, value⟩)) hrun⟩
  · have hreject := ReadWrite.createRecordBuffer_of_rejected t.hashTable hv
    have hcall := ReadWrite.WritableHashTable.add_of_rejected t hv
    refine ⟨[], .cons (.intro before after (.callAdd ⟨key, value⟩)) ?_⟩
    simp only [ReadWrite.WritableHashTable.call, hcall]
    exact .single (.intro before after (.createRecordBufferThrows 0 hreject))

theorem runsAlone_remove (hb : setting.numBuckets ≠ 0)
    (hlock : ∀ i, Unlocked (before ++ after) i) (hand : UInt64) (key : Key) :
    RunsAlone before after hand t (.remove key) := by
  let t₀ : Table ⟨setting, none⟩ := ⟨t.hashTable, hand⟩
  obtain ⟨i, hi, hinfo⟩ := getBucketInfo_ok hb key
  cases hfind : t.hashTable.buckets[i].find? setting.recordSerializer key (tagOf key) with
  | none =>
    refine ⟨[], .cons (.intro before after (.callRemove key)) ?_⟩
    simp only [ReadWrite.WritableHashTable.call, ReadWrite.WritableHashTable.remove, hinfo, hfind]
    exact .single (.intro before after (.removeMisses hinfo (hlock i) hfind))
  | some found =>
    obtain ⟨p, record⟩ := found
    have hold : (unlink t.hashTable (i, p)).1 = some record := (Bucket.find?_some hfind).1
    let updates := perfUpdatesForRemoved setting.recordSerializer record
    let hashTable := (unlink t.hashTable (i, p)).2.updatePerfData updates
    obtain ⟨epochManager, hrelease⟩ := ReadWrite.WritableHashTable.releaseRecord_ok
      { t with hashTable } (some record)
    have hcall : t.call (.remove key) = (⟨hashTable, epochManager⟩, .ok (.removed true)) := by
      have hupdates : (some record).toList.flatMap
          (perfUpdatesForRemoved setting.recordSerializer) = updates := by
        simp [updates]
      simp only [ReadWrite.WritableHashTable.call, ReadWrite.WritableHashTable.remove, hinfo,
        hfind, ReadWrite.WritableHashTable.removeAt, hold, hupdates, hrelease, hashTable]
      rfl
    have hremove : Run (Step ⟨setting, none⟩) ⟨t₀, before ++ ⟨[], .removing key⟩ :: after⟩ _ _ :=
      .single (.intro before after (.remove hinfo (hlock i) hfind))
    have hupdated := hremove.append (run_updates _ _ updates _ [.release record] _)
    have hreleased := hupdated.append (run_releases [record] _ _)
    rw [RunsAlone, hcall]
    exact ⟨_, .cons (.intro before after (.callRemove key))
      (hreleased.append (.single (.intro before after .returnRemove)))⟩

theorem runsAlone_get (ht : t.hashTable.Consistent setting.recordSerializer)
    (hb : setting.numBuckets ≠ 0) (hand : UInt64) (key : Key) :
    RunsAlone before after hand t (.get key) := by
  obtain ⟨i, hi, hinfo⟩ := getBucketInfo_ok hb key
  have hget : ReadWrite.get setting.recordSerializer t.hashTable key =
      .ok ((t.hashTable.buckets[i].find? setting.recordSerializer key (tagOf key)).map
        fun found => setting.recordSerializer.valueOf found.2) := by
    rw [ReadWrite.get, hinfo]
    rfl
  refine ⟨[.silent], .cons (.intro before after (.callGet key)) ?_⟩
  simp only [ReadWrite.WritableHashTable.call, hget]
  cases hfind : t.hashTable.buckets[i].find? setting.recordSerializer key (tagOf key) with
  | none => exact .cons (.intro before after .getMisses) (.single (.intro before after .returnGet))
  | some found =>
    obtain ⟨hload, hkey⟩ := (ht.bucket i).find?_eq_some.mp hfind
    exact .cons (.intro before after (.getReads rfl (s := (i, found.1)) hload hkey))
      (.single (.intro before after .returnGet))

/-- The calls that one thread makes one after the other are a run of the threads. -/
theorem run_calls (before after : List (Thread setting))
    (ht : t.hashTable.Consistent setting.recordSerializer)
    (hb : setting.numBuckets ≠ 0) (hlock : ∀ i, Unlocked (before ++ after) i) (hand : UInt64)
    (calls : List ReadWrite.Call) :
    ∃ labels, Run (Step ⟨setting, none⟩) ⟨⟨t.hashTable, hand⟩, before ++ ⟨[], .idle⟩ :: after⟩
      labels ⟨⟨(t.run calls).1.hashTable, hand⟩, before ++ ⟨[], .idle⟩ :: after⟩ := by
  induction calls generalizing t with
  | nil => exact ⟨[], .nil⟩
  | cons c calls ih =>
    have halone : RunsAlone before after hand t c := by
      cases c with
      | add key value => exact runsAlone_add ht hb hlock hand key value
      | remove key => exact runsAlone_remove hb hlock hand key
      | get key => exact runsAlone_get ht hb hand key
    obtain ⟨labels, hcall⟩ := halone
    have ht' : (t.call c).1.hashTable.Consistent setting.recordSerializer :=
      hcall.invariant (I := fun p => p.shared.hashTable.Consistent setting.recordSerializer)
        (fun _ _ _ hs hstep => Step.consistent hstep hs) ht
    obtain ⟨rest, hrest⟩ := ih ht'
    exact ⟨_, hcall.append hrest⟩

end Sequential

section ReadWrite
variable [Platform] {setting : Setting} {before after : List (Thread setting)}
  {t : Table ⟨setting, none⟩}

theorem run_store (before after : List (Thread setting)) (record : Record)
    (ht : t.hashTable.Consistent setting.recordSerializer)
    (hb : setting.numBuckets ≠ 0)
    (hv : setting.recordSerializer.Validates record.key record.value)
    (hlock : ∀ i, Unlocked (before ++ after) i) :
    ∃ recordToAdd allocator s stat recordToDelete hashTable,
      setting.recordSerializer.deserialize recordToAdd.bytes = record ∧
      Published setting.recordSerializer (t.hashTable.setAllocator allocator) recordToAdd s stat
        recordToDelete hashTable ∧
      Run (Step ⟨setting, none⟩) ⟨t, before ++ ⟨[], .idle⟩ :: after⟩
        [.call (.add record), .silent, .publish s recordToAdd recordToDelete]
        ⟨t.setHashTable hashTable,
          before ++ ⟨(updatePerfDataForAdd setting.recordSerializer stat).map .update ++
            recordToDelete.toList.map .release, .counting s stat.isNewEntryAdded⟩ :: after⟩ := by
  obtain ⟨recordToAdd, allocator, hrecord, hcreate⟩ :=
    ReadWrite.createRecordBuffer_eq t.hashTable rfl hv
  obtain ⟨i, hi, hinfo⟩ := getBucketInfo_ok hb (setting.recordSerializer.keyOf recordToAdd)
  have ht' : (t.hashTable.setAllocator allocator).Consistent setting.recordSerializer :=
    ht.congr rfl rfl
  obtain ⟨p, hslot, hp⟩ := ReadWrite.published ht' hi
  refine ⟨recordToAdd, allocator, (i, p), _, _, _, hrecord, hp, ?_⟩
  refine .cons (.intro before after (.callAdd record)) ?_
  refine .cons (.intro before after (.createRecordBuffer 0 hcreate)) ?_
  exact .single (.intro before after (.add hinfo (hlock i) hslot rfl))

theorem run_overwrite (before after : List (Thread setting)) (record : Record)
    (ht : t.hashTable.Consistent setting.recordSerializer)
    (hload : t.hashTable.load s = some old)
    (hkey : setting.recordSerializer.keyOf old = record.key)
    (hv : setting.recordSerializer.Validates record.key record.value)
    (hlock : ∀ i, Unlocked (before ++ after) i) :
    ∃ recordToAdd allocator stat hashTable,
      setting.recordSerializer.deserialize recordToAdd.bytes = record ∧
      Published setting.recordSerializer (t.hashTable.setAllocator allocator) recordToAdd s stat
        (some old) hashTable ∧
      Run (Step ⟨setting, none⟩) ⟨t, before ++ ⟨[], .idle⟩ :: after⟩
        [.call (.add record), .silent, .publish s recordToAdd (some old)]
        ⟨t.setHashTable hashTable,
          before ++ ⟨(updatePerfDataForAdd setting.recordSerializer stat).map .update ++
            [.release old], .counting s stat.isNewEntryAdded⟩ :: after⟩ := by
  obtain ⟨recordToAdd, allocator, s', stat, recordToDelete, hashTable, hrecord, hp, hrun⟩ :=
    run_store before after record ht (Setting.numBuckets_ne_zero s.1) hv hlock
  have hkey' : setting.recordSerializer.keyOf recordToAdd = record.key :=
    congrArg Record.key hrecord
  obtain rfl : s = s' := hp.admits.2 s old hload (hkey.trans hkey'.symm)
  obtain rfl : recordToDelete = some old := hp.replaced.trans hload
  exact ⟨recordToAdd, allocator, stat, hashTable, hrecord, hp, hrun⟩

end ReadWrite

section Cache
variable [Platform] {setting : Setting} {options : Options} {before after : List (Thread setting)}
  {t : Table (CacheConfig setting options)}

theorem run_calculate (before after : List (Thread setting))
    (htime : options.forceTimeBasedEviction = false) (record : Record)
    (t : Table (CacheConfig setting options)) :
    Run (Step (CacheConfig setting options)) ⟨t, before ++ ⟨[], .idle⟩ :: after⟩
      [.call (.add record), .silent, .silent, .silent,
        .calculate (Cache.totalDataSize t.hashTable.perfData)]
      ⟨t, before ++ ⟨[], afterCalculate (CacheConfig setting options) options record false
        (Cache.totalDataSize t.hashTable.perfData) 0⟩ :: after⟩ := by
  have hstart : startAdd (CacheConfig setting options) record = calculate record false := by
    simp only [startAdd, htime, Bool.false_eq_true, if_false]
  have hcall : Act (CacheConfig setting options) (before ++ after) t ⟨[], .idle⟩
      (.call (.add record)) t ⟨[], calculate record false⟩ := by
    rw [← hstart]
    exact .callAdd record
  exact .cons (.intro before after hcall) ((run_reads t record false).append
    (.single (.intro before after (.calculate rfl 0))))

/-- An `Add` that finds room gets to the end of its critical section. -/
theorem run_publish (before after : List (Thread setting))
    (ht : t.hashTable.Consistent setting.cacheRecordSerializer)
    (hb : setting.numBuckets ≠ 0) (htime : options.forceTimeBasedEviction = false)
    (hroom : numBytesToFree options (Cache.totalDataSize t.hashTable.perfData) record = 0)
    (hv : setting.cacheRecordSerializer.Validates record.key record.value)
    (hlt : record.value.size + 4 < 2 ^ 32) (hlock : ∀ i, Unlocked (before ++ after) i) :
    ∃ recordToAdd allocator s stat recordToDelete hashTable,
      Cached setting.cacheRecordSerializer recordToAdd record.key record.value 0 ∧
      Published setting.cacheRecordSerializer (t.hashTable.setAllocator allocator) recordToAdd s
        stat recordToDelete hashTable ∧
      Run (Step (CacheConfig setting options)) ⟨t, before ++ ⟨[], .idle⟩ :: after⟩
        [.call (.add record), .silent, .silent, .silent,
          .calculate (Cache.totalDataSize t.hashTable.perfData), .silent,
          .publish s recordToAdd recordToDelete]
        ⟨t.setHashTable hashTable,
          before ++ ⟨(updatePerfDataForAdd setting.cacheRecordSerializer stat).map .update ++
            recordToDelete.toList.map .release, .counting s stat.isNewEntryAdded⟩ :: after⟩ := by
  obtain ⟨recordToAdd, allocator, hcached, hcreate⟩ :=
    Cache.WritableHashTable.createRecordBuffer_eq t.hashTable 0 hv hlt
  obtain ⟨i, hi, hinfo⟩ := getBucketInfo_ok hb (setting.cacheRecordSerializer.keyOf recordToAdd)
  have ht' : (t.hashTable.setAllocator allocator).Consistent setting.cacheRecordSerializer :=
    ht.congr rfl rfl
  obtain ⟨p, hslot, hp⟩ := ReadWrite.published ht' hi
  refine ⟨recordToAdd, allocator, (i, p), _, _, _, hcached, hp, ?_⟩
  have hafter : afterCalculate (CacheConfig setting options) options record false
      (Cache.totalDataSize t.hashTable.perfData) 0 = .creating record := by
    simp only [afterCalculate, hroom, if_true]
  have hcalculate : Run (Step (CacheConfig setting options)) ⟨t, before ++ ⟨[], .idle⟩ :: after⟩ _
      ⟨t, before ++ ⟨[], .creating record⟩ :: after⟩ :=
    hafter ▸ run_calculate before after htime record t
  refine hcalculate.append (.cons (.intro before after (.createRecordBuffer 0 hcreate)) ?_)
  exact .single (.intro before after (.add hinfo (hlock i) hslot rfl))

theorem run_add (before after : List (Thread setting))
    (ht : t.hashTable.Consistent setting.cacheRecordSerializer)
    (hb : setting.numBuckets ≠ 0) (htime : options.forceTimeBasedEviction = false)
    (hroom : numBytesToFree options (Cache.totalDataSize t.hashTable.perfData) record = 0)
    (hv : setting.cacheRecordSerializer.Validates record.key record.value)
    (hlt : record.value.size + 4 < 2 ^ 32) (hlock : ∀ i, Unlocked (before ++ after) i) :
    ∃ labels t' s recordToAdd,
      Run (Step (CacheConfig setting options)) ⟨t, before ++ ⟨[], .idle⟩ :: after⟩ labels
        ⟨t', before ++ ⟨[], .idle⟩ :: after⟩ ∧
      (∀ c, .call c ∈ labels → c = .add record) ∧
      t'.hashTable.Consistent setting.cacheRecordSerializer ∧
      t'.hashTable.load s = some recordToAdd := by
  obtain ⟨recordToAdd, _, s, stat, recordToDelete, hashTable, -, hp, hrun⟩ :=
    run_publish before after ht hb htime hroom hv hlt hlock
  have hload : hashTable.load s = some recordToAdd := by
    rw [hp.stored.load, Function.update_self]
  exact ⟨_, _, s, recordToAdd, hrun.append (run_count _ _ _ _ _), by simp,
    (hp.consistent (ht.congr rfl rfl)).congr rfl rfl, hload⟩

theorem run_get (before after : List (Thread setting)) (hload : t.hashTable.load s = some record)
    (hfresh : Cache.Metadata.isExpired (Cache.metadataOf setting.cacheRecordSerializer record)
      curEpochTime options.recordTimeToLive = false) :
    ∃ t' value, Run (Step (CacheConfig setting options)) ⟨t, before ++ ⟨[], .idle⟩ :: after⟩
      [.call (.get (setting.cacheRecordSerializer.keyOf record)), .silent, .silent, .silent,
        .respond (.ok (.got (some value)))]
      ⟨t', before ++ ⟨[], .idle⟩ :: after⟩ :=
  ⟨_, _, .cons (.intro before after (.callGet _))
    (.cons (.intro before after (.getFinds rfl curEpochTime hload rfl hfresh))
      (.cons (.intro before after (.touch s record))
        (.cons (.intro before after (.update _ [])) (.single (.intro before after .returnGet)))))⟩

theorem run_remove (before after : List (Thread setting))
    (ht : t.hashTable.Consistent setting.cacheRecordSerializer)
    (hload : t.hashTable.load s = some record) (hlock : ∀ i, Unlocked (before ++ after) i) :
    ∃ labels hashTable, Run (Step (CacheConfig setting options))
        ⟨t, before ++ ⟨[], .idle⟩ :: after⟩ labels
        ⟨t.setHashTable hashTable, before ++ ⟨[], .idle⟩ :: after⟩ ∧
      (∀ c, .call c ∈ labels → c = .remove (setting.cacheRecordSerializer.keyOf record)) ∧
      .respond (.ok (.removed true)) ∈ labels ∧
      hashTable.perfData = PerfUpdate.applyAll t.hashTable.perfData
        (perfUpdatesForRemoved setting.cacheRecordSerializer record) := by
  obtain ⟨hinfo, hfind⟩ := ht.find?_of_load hload rfl
  have hremove : Act (CacheConfig setting options) (before ++ after) t ⟨[], .removing _⟩ _ _ _ :=
    .remove hinfo (hlock s.1) hfind
  have hupdates := (Run.single (ThreadPool.Step.intro before after hremove)).append
    (run_updates _ _ _ _ [.release record] _)
  have hreleases := hupdates.append (run_releases [record] _ _)
  exact ⟨_, _, .cons (.intro before after (.callRemove _))
    (hreleases.append (.single (.intro before after .returnRemove))), by simp, by simp, rfl⟩

end Cache

end L4.TableThreads
