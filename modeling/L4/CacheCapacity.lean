import Mathlib.Algebra.Order.BigOperators.Group.Finset
import Mathlib.Tactic.Positivity
import L4.CacheEviction

namespace L4.Cache
set_option autoImplicit true
open SharedHashTable (bucketOf getBucketInfo)
open WritableHashTable (evict evictLoop makeRoom)
open Metadata
variable {setting : Setting} {options : Options}

section Evict
variable [Platform] {t : WritableHashTable setting} {curEpochTime : Int}

omit [Platform] in
/-- As long as the counters add up to 64 bits, no sum of `CalculateNumBytesToFree` wraps. -/
theorem calculateNumBytesToFree_of_fits (options : Options) {perfData : HashTablePerfData}
    {needed total : Nat} (htotal : totalDataSize perfData = total)
    (hlt : total + needed < 2 ^ 64) :
    calculateNumBytesToFree options perfData needed =
      if needed < options.maxCacheSizeInBytes.toNat ∧
          total + needed ≤ options.maxCacheSizeInBytes.toNat then 0
      else total - options.maxCacheSizeInBytes.toNat + needed := by
  have hmod : ((total : Int) % 2 ^ 64).toNat = total := by omega
  have hexcess : total - options.maxCacheSizeInBytes.toNat + needed < 2 ^ 64 := by omega
  simp only [calculateNumBytesToFree, bytesToFree, htotal, hmod, Nat.mod_eq_of_lt hlt,
    Nat.mod_eq_of_lt hexcess]
  split_ifs with hroom hover
  · rfl
  · rfl
  · rw [Nat.sub_eq_zero_of_le (Nat.not_lt.mp hover), Nat.zero_add]

omit [Platform] in
theorem add_le_calculateNumBytesToFree (options : Options) (perfData : HashTablePerfData)
    {needed : Nat} (hpos : 0 ≤ totalDataSize perfData)
    (hlt : totalDataSize perfData + needed < 2 ^ 64) :
    totalDataSize perfData + needed ≤ options.maxCacheSizeInBytes.toNat +
      calculateNumBytesToFree options perfData needed := by
  obtain ⟨total, htotal⟩ := Int.eq_ofNat_of_zero_le hpos
  rw [htotal] at hlt ⊢
  rw [calculateNumBytesToFree_of_fits options htotal (by omega)]
  split_ifs <;> omega

omit [Platform] in
theorem chainingEntries_nonneg (t : SharedHashTable setting) : 0 ≤ t.chainingEntries := by
  refine Finset.sum_nonneg fun i _ => ?_
  have hpos := t.buckets[i].chainLength_pos
  omega

theorem emptyIndexSize_nonneg (t : SharedHashTable setting) : 0 ≤ emptyIndexSize t := by
  have hentries := chainingEntries_nonneg t
  rw [emptyIndexSize]
  positivity

omit [Platform] in
theorem recordSize_nonneg (rs : RecordSerializer) (record : RecordBuffer) :
    0 ≤ recordSize rs record := by
  simp only [recordSize, totalDataSize, SharedHashTable.recordWeight]
  positivity

omit [Platform] in
theorem total_recordSize_nonneg (rs : RecordSerializer) (t : SharedHashTable setting) :
    0 ≤ t.total (recordSize rs) := by
  refine List.sum_nonneg fun x hx => ?_
  obtain ⟨record, -, rfl⟩ := List.mem_map.mp hx
  exact recordSize_nonneg rs record

theorem Accounted.totalDataSize_nonneg {t : SharedHashTable setting} (h : Accounted t) :
    0 ≤ totalDataSize t.perfData := by
  rw [h.totalDataSize_eq, totalDataSize_contents]
  exact Int.add_nonneg (emptyIndexSize_nonneg t) (total_recordSize_nonneg _ t)

/-- `Evict` frees enough bytes or empties the table, wherever the hand stands and whatever access
bits are set. -/
theorem evict_frees (h : Accounted t.base.hashTable)
    (hhand : t.currentEvictBucketIndex.toNat + setting.numBuckets.toNat * 2 ≤ 2 ^ 64)
    (hneeded : needed < 2 ^ 32) (htotal : totalDataSize t.base.hashTable.perfData < 2 ^ 62)
    (options : Options) (curEpochTime : Int) :
    let t' := (evict options t needed curEpochTime).base.hashTable
    totalDataSize t'.perfData + needed ≤ options.maxCacheSizeInBytes.toNat ∨
      ∀ s, t'.load s = none := by
  have hlt : totalDataSize t.base.hashTable.perfData + needed < 2 ^ 64 := by omega
  have hle := add_le_calculateNumBytesToFree options _ h.totalDataSize_nonneg hlt
  simp only [evict]
  split_ifs with hzero
  · left
    rw [hzero] at hle
    omega
  · by_cases hb : setting.numBuckets = 0
    · exact .inr fun s => absurd hb (Setting.numBuckets_ne_zero s.1)
    · obtain ⟨turns, numBytesToFree, hevicting, hdone⟩ := evicting_evictLoop options
        curEpochTime h hb hhand
        (calculateNumBytesToFree options t.base.hashTable.perfData needed)
      have hfreed := hevicting.freed
      rcases hdone with rfl | rfl
      · left
        omega
      · exact .inr hevicting.load_eq_none

omit [Platform] in
/-- A record that has been accessed goes when the hand comes by for the second time. -/
theorem evict_frees_of_accessed :
    let platform : Platform := ⟨fun _ => (7, 0), 8, 64⟩
    let options : Options := ⟨242, 100, false⟩
    let key : Key := ⟨[1], by decide⟩
    let t := ((Session.create {} ⟨0, []⟩ ⟨0, ⟨0, 0, [0], by decide⟩, ⟨[.empty], 0⟩⟩).run options
      [.add key ⟨[0], by decide⟩ ⟨0, 0, 0⟩, .get key 0]).1.table
    let t' := (evict options t 300 0).base.hashTable
    totalDataSize t'.perfData + (300 : Nat) ≤ options.maxCacheSizeInBytes.toNat ∨
      ∀ s, t'.load s = none := by
  intro platform options key t
  have haccounted : Accounted t.base.hashTable :=
    accounted_session {} ⟨0, []⟩ ⟨0, ⟨0, 0, [0], by decide⟩, ⟨[.empty], 0⟩⟩ options _
      (by decide)
  exact evict_frees haccounted (by decide +kernel) (by decide) (by decide +kernel) options 0

end Evict

section TimeBased
variable [Platform] {t : SharedHashTable setting} {key : Key} {now : Int}

/-- `EvictBasedOnTime` for a key leaves the record. -/
def Stays (setting : Setting) (options : Options) (key : Key) (now : Int)
    (record : RecordBuffer) : Prop :=
  ¬(options.forceTimeBasedEviction ∧
    bucketOf setting (setting.cacheRecordSerializer.keyOf record) = bucketOf setting key ∧
    isExpired (metadataOf setting.cacheRecordSerializer record) now options.recordTimeToLive)

instance : DecidablePred (Stays setting options key now) :=
  fun _ => inferInstanceAs (Decidable (¬ _))

/-- The bytes that the records which stay count for, with the index. -/
def remainingDataSize (options : Options) (t : SharedHashTable setting) (key : Key) (now : Int) :
    Int :=
  emptyIndexSize t + ((t.records.filter (Stays setting options key now)).map
    (recordSize setting.cacheRecordSerializer)).sum

/-- The cache before `Evict` in an `Add`. -/
def timeBased (options : Options) (t : WritableHashTable setting) (key : Key) (now : Int) :
    WritableHashTable setting :=
  if options.forceTimeBasedEviction then (WritableHashTable.evictBasedOnTime options t key now).1
  else t

/-- What the eviction by time before `Evict` does. -/
structure TimeEvicted (options : Options) (key : Key) (now : Int) (t t' : SharedHashTable setting) :
    Prop where
  accounted : Accounted t'
  load : ∀ s record, t'.load s = some record ↔
    t.load s = some record ∧ Stays setting options key now record
  chainLength : ∀ i : setting.BucketIndex, t'.buckets[i].chainLength = t.buckets[i].chainLength

theorem TimeEvicted.load_eq_filter (h : TimeEvicted options key now t t') (s : setting.Slot) :
    t'.load s = (t.load s).filter (Stays setting options key now) :=
  Option.ext fun record => by rw [h.load, Option.filter_eq_some_iff, decide_eq_true_eq]

theorem TimeEvicted.records_bucket (h : TimeEvicted options key now t t')
    (i : setting.BucketIndex) : t'.buckets[i].records =
      t.buckets[i].records.filter (Stays setting options key now) := by
  have hpositions : t'.buckets[i].positions = t.buckets[i].positions := by
    rw [Bucket.positions, h.chainLength, Bucket.positions]
  rw [Bucket.records, Bucket.records, List.filter_filterMap, hpositions]
  exact List.filterMap_congr fun p _ => h.load_eq_filter (i, p)

theorem TimeEvicted.records (h : TimeEvicted options key now t t') :
    t'.records = t.records.filter (Stays setting options key now) := by
  rw [SharedHashTable.records, SharedHashTable.records, List.filter_flatMap]
  exact List.flatMap_congr fun i _ => h.records_bucket i

theorem TimeEvicted.totalDataSize_eq (h : TimeEvicted options key now t t') :
    totalDataSize t'.perfData = remainingDataSize options t key now := by
  have hentries : t'.chainingEntries = t.chainingEntries :=
    Finset.sum_congr rfl fun i _ => by rw [h.chainLength i]
  rw [h.accounted.totalDataSize_eq, totalDataSize_contents, remainingDataSize,
    SharedHashTable.total, h.records, emptyIndexSize, hentries, emptyIndexSize]

theorem timeEvicted_of_not_forced (h : Accounted t)
    (hforce : options.forceTimeBasedEviction = false) (key : Key) (now : Int) :
    TimeEvicted options key now t t := by
  have hstays (record : RecordBuffer) : Stays setting options key now record := by
    simp [Stays, hforce]
  exact ⟨h, fun s record => ⟨fun hload => ⟨hload, hstays record⟩, And.left⟩, fun _ => rfl⟩

theorem timeEvicted_evictBasedOnTime {t : WritableHashTable setting}
    (h : Accounted t.base.hashTable) (hb : setting.numBuckets ≠ 0)
    (hforce : options.forceTimeBasedEviction = true) (key : Key) (now : Int) :
    TimeEvicted options key now t.base.hashTable
        (WritableHashTable.evictBasedOnTime options t key now).1.base.hashTable ∧
      (WritableHashTable.evictBasedOnTime options t key now).2 = .ok () ∧
      (WritableHashTable.evictBasedOnTime options t key now).1.currentEvictBucketIndex =
        t.currentEvictBucketIndex := by
  obtain ⟨i, hi, hinfo⟩ := SharedHashTable.getBucketInfo_ok hb key
  have hkeeps (record record' : RecordBuffer)
      (hvisit : visitBasedOnTime setting.cacheRecordSerializer options now record = some record') :
      Keeps setting.cacheRecordSerializer (CacheRecord setting) record record' :=
    keeps_visitBasedOnTime hvisit
  simp only [WritableHashTable.evictBasedOnTime, hinfo]
  refine ⟨⟨accounted_sweepBucket h hkeeps i, fun s record => ?_,
    WritableHashTable.chainLength_sweepBucket _ t i⟩, trivial,
    WritableHashTable.currentEvictBucketIndex_sweepBucket _ t i⟩
  have hstays (hload : t.base.hashTable.load s = some record) :
      Stays setting options key now record ↔ (s.1 = i →
        ¬ isExpired (metadataOf setting.cacheRecordSerializer record) now
          options.recordTimeToLive) := by
    rw [Stays, ← h.sound.consistent.home s record hload, ← hi, Fin.val_inj, hforce]
    simp
  rw [WritableHashTable.load_sweepBucket]
  split_ifs with hs
  · rw [Option.bind_eq_some_iff]
    simp only [visitBasedOnTime, Option.ite_none_left_eq_some, Option.some.injEq]
    constructor
    · rintro ⟨record', hload, hexpired, heq⟩
      subst heq
      exact ⟨hload, (hstays hload).mpr fun _ => hexpired⟩
    · rintro ⟨hload, hrecord⟩
      exact ⟨record, hload, (hstays hload).mp hrecord hs, rfl⟩
  · constructor
    · intro hload
      exact ⟨hload, (hstays hload).mpr fun h => absurd h hs⟩
    · exact And.left

theorem makeRoom_eq (options : Options) {t : WritableHashTable setting}
    (h : Accounted t.base.hashTable) (hb : setting.numBuckets ≠ 0) (key : Key) (value : Value)
    (times : AddTimes) :
    let t₁ := timeBased options t key times.evictBasedOnTime
    TimeEvicted options key times.evictBasedOnTime t.base.hashTable t₁.base.hashTable ∧
      t₁.currentEvictBucketIndex = t.currentEvictBucketIndex ∧
      makeRoom options t key value times =
        (evict options t₁ (bytesNeeded key value) times.evict, .ok ()) := by
  intro t₁
  cases hforce : options.forceTimeBasedEviction with
  | false =>
    have ht₁ : t₁ = t := if_neg (by rw [hforce]; exact Bool.false_ne_true)
    rw [ht₁]
    refine ⟨timeEvicted_of_not_forced h hforce key times.evictBasedOnTime, rfl, ?_⟩
    simp only [makeRoom, hforce, Bool.false_eq_true, ↓reduceIte]
  | true =>
    have ht₁ : t₁ = (WritableHashTable.evictBasedOnTime options t key
      times.evictBasedOnTime).1 := if_pos hforce
    obtain ⟨htime, hok, hhand⟩ := timeEvicted_evictBasedOnTime h hb hforce key
      times.evictBasedOnTime
    rw [ht₁]
    refine ⟨htime, hhand, ?_⟩
    simp only [makeRoom, hforce, ↓reduceIte]
    split
    · rename_i t₁ e heq
      rw [heq] at hok
      cases hok
    · rename_i t₁ heq
      rw [heq]

end TimeBased

section Sizes
variable [Platform]

/-- The bytes of a record that an `Add` asks room for. -/
def recordBytes (key : Key) (value : Value) : Nat := key.size + value.size + metaDataSize.toNat

theorem Published.totalDataSize {rs : RecordSerializer} {t t' : SharedHashTable setting}
    (hp : ReadWrite.Published rs t record s stat old t') :
    totalDataSize (SharedHashTable.contents rs t') =
      totalDataSize (SharedHashTable.contents rs t) + recordSize rs record -
        (t.load s).elim 0 (recordSize rs) +
        (if stat.isNewEntryAdded then sizeofEntry else 0 : Nat) := by
  have hentry : ((if stat.isNewEntryAdded then sizeofEntry else 0 : Nat) : Int) =
      (if stat.isNewEntryAdded then SharedHashTable.entryWeight .totalKeySize else 0) +
        (if stat.isNewEntryAdded then SharedHashTable.entryWeight .totalValueSize else 0) +
        if stat.isNewEntryAdded then SharedHashTable.entryWeight .totalIndexSize else 0 := by
    split_ifs <;> rfl
  rw [hentry, Cache.totalDataSize, hp.contents, hp.contents, hp.contents, Cache.totalDataSize,
    recordSize, Cache.totalDataSize]
  cases t.load s with
  | none =>
    simp only [Option.elim_none]
    ring
  | some r =>
    simp only [Option.elim_some, recordSize, Cache.totalDataSize]
    ring

omit [Platform] in
theorem Cached.recordSize_eq
    (h : Cached setting.cacheRecordSerializer record key value time) :
    recordSize setting.cacheRecordSerializer record =
      recordBytes key value + setting.cacheRecordSerializer.calculateRecordOverhead := by
  have hkey := (h.deserialize rfl).1
  have hvalue := h.size_valueOf rfl
  simp only [recordSize, totalDataSize, SharedHashTable.recordWeight, hkey, hvalue, recordBytes]
  rfl

end Sizes

end L4.Cache
