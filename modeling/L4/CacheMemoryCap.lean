import L4.CacheCapacity
import L4.CacheExcess
import L4.RecordCodec

namespace L4.Cache
set_option autoImplicit true
open SharedHashTable (bucketOf)
open WritableHashTable (evict makeRoom add_of_created)
open Metadata Sweeping
variable {setting : Setting} [Platform]

/-! The cap on the size of a cache. What an `Add` makes of the size is said in terms of the table
before the call: which turns the hand of `Evict` takes, and what it leaves in the buckets. -/

section Rule
variable (options : Options) (t : WritableHashTable setting) (key : Key) (value : Value)
  (times : AddTimes)

/-- The records of a bucket that `EvictBasedOnTime` leaves. -/
def staying (i : setting.BucketIndex) : List RecordBuffer :=
  t.base.hashTable.buckets[i].records.filter (Stays setting options key times.evictBasedOnTime)

/-- The sizes, on 32 bits, of the records that the hand finds to remove before a turn. -/
def offeredBytes (k : Nat) : Nat :=
  let rs := setting.cacheRecordSerializer
  let offers := offered t (visitClock rs options times.evict) (staying options t key times)
  (((List.range k).flatMap offers).map (bytesOf rs · % 2 ^ 32)).sum

/-- The number of turns that the hand takes. `Evict` stops before a turn when what the hand has
found so far makes up for the bytes to free. -/
def numTurns : Nat :=
  (List.range (setting.numBuckets.toNat * 2)).findIdx fun k =>
    bytesToFree options (remainingDataSize options t.base.hashTable key times.evictBasedOnTime)
      (bytesNeeded key value) ≤ offeredBytes options t key times k

/-- What the evictions of an `Add` leave of a record in a bucket. -/
def leave (i : setting.BucketIndex) (record : RecordBuffer) : Option RecordBuffer :=
  if Stays setting options key times.evictBasedOnTime record then
    match timesPassed t (numTurns options t key value times) i with
    | 0 => some record
    | 1 => visitClock setting.cacheRecordSerializer options times.evict record
    | _ => none
  else none

/-- The records that are left when room has been made. -/
def leftRecords : List RecordBuffer :=
  (List.finRange setting.numBuckets.toNat).flatMap fun i =>
    t.base.hashTable.buckets[i].records.filterMap (leave options t key value times i)

/-- The record that the new one replaces. -/
def replaced : Option RecordBuffer :=
  (leftRecords options t key value times).find? fun record =>
    setting.cacheRecordSerializer.keyOf record = key

/-- No slot in the chain of the key has been free or has become free. -/
def ChainFull : Prop :=
  ∀ i : setting.BucketIndex, i.val = bucketOf setting key →
    ∀ p ∈ t.base.hashTable.buckets[i].positions,
      ∃ record ∈ t.base.hashTable.buckets[i].load p,
        (leave options t key value times i record).isSome

instance : Decidable (ChainFull options t key value times) :=
  inferInstanceAs (Decidable (∀ _, _))

/-- The size of the entry that the chain of the key grows by. -/
def entrySize : Nat :=
  if (replaced options t key value times).isNone ∧ ChainFull options t key value times then
    sizeofEntry
  else 0

/-- The bytes of a record that an `Add` asks room for, with the overhead that it does not ask room
for. The size of the value and its metadata is stored on 32 bits. -/
def storedSize (setting : Setting) (key : Key) (value : Value) : Nat :=
  key.size + (value.size + metaDataSize.toNat) % 2 ^ 32 +
    setting.cacheRecordSerializer.calculateRecordOverhead

/-- The condition on an `Add`. If it adds a record that fits into an empty table, and the sizes are
below the cap, then there is room beside the records that are left, less the one that is replaced,
also for what `Evict` has not been asked for: the overhead of the record and a new entry. -/
def HasRoom : Prop :=
  let rs := setting.cacheRecordSerializer
  let maxCacheSizeInBytes := options.maxCacheSizeInBytes.toNat
  let entry := entrySize options t key value times
  setting.numBuckets ≠ 0 → rs.Validates key value →
  totalDataSize t.base.hashTable.perfData ≤ maxCacheSizeInBytes →
  emptyIndexSize t.base.hashTable + entry + recordBytes key value + rs.calculateRecordOverhead ≤
    maxCacheSizeInBytes →
  emptyIndexSize t.base.hashTable +
      ((leftRecords options t key value times).map (recordSize rs)).sum +
        entry + storedSize setting key value ≤
    maxCacheSizeInBytes + (replaced options t key value times).elim 0 (recordSize rs)

instance : Decidable (HasRoom options t key value times) :=
  inferInstanceAs (Decidable (_ → _ → _ → _ → _))

/-- What a cap on the size of the cache means for one `Add`: if the record fits into an empty
table and the sizes were below the cap, they are below the cap afterwards. -/
def RespectsCap : Prop :=
  let t' := (t.add options key value times).1.base.hashTable
  emptyIndexSize t' + recordBytes key value +
      setting.cacheRecordSerializer.calculateRecordOverhead ≤ options.maxCacheSizeInBytes.toNat →
    totalDataSize t.base.hashTable.perfData ≤ options.maxCacheSizeInBytes.toNat →
    totalDataSize t'.perfData ≤ options.maxCacheSizeInBytes.toNat

end Rule

section Turns
variable {options : Options} {t : WritableHashTable setting} {key : Key} {value : Value}
  {times : AddTimes}

omit [Platform] in
theorem findIdx_range {p : Nat → Bool} (n : Nat) :
    (List.range n).findIdx p ≤ n ∧ (∀ k < (List.range n).findIdx p, p k = false) ∧
      ((List.range n).findIdx p < n → p ((List.range n).findIdx p) = true) := by
  have hle : (List.range n).findIdx p ≤ (List.range n).length := List.findIdx_le_length
  rw [List.length_range] at hle
  refine ⟨hle, fun k hk => ?_, fun hlt => ?_⟩
  · simpa using List.not_of_lt_findIdx hk
  · have hlt' : (List.range n).findIdx p < (List.range n).length := by rwa [List.length_range]
    have hfound := List.findIdx_getElem (w := hlt')
    rwa [List.getElem_range] at hfound

omit [Platform] in
theorem after_of_not_taken {rs : RecordSerializer} {visit : RecordBuffer → Option RecordBuffer}
    {s : Sweeping setting} (h : ¬ Taken rs visit s k) (hle : k ≤ n) :
    after rs visit s n = after rs visit s k := by
  obtain ⟨m, rfl⟩ := Nat.exists_eq_add_of_le hle
  have hadd : after rs visit s (k + m) = after rs visit (after rs visit s k) m := by
    rw [Nat.add_comm, after, after, after, Function.iterate_add_apply]
  rw [hadd, after_eq_self (.inl (not_not.mp h))]

omit [Platform] in
theorem offered_congr {t₁ : WritableHashTable setting}
    (hhand : t₁.currentEvictBucketIndex = t.currentEvictBucketIndex)
    (visit : RecordBuffer → Option RecordBuffer)
    (records : setting.BucketIndex → List RecordBuffer) (k : Nat) :
    timesPassed t₁ = timesPassed t ∧ offered t₁ visit records k = offered t visit records k := by
  obtain ⟨base₁, hand₁⟩ := t₁
  obtain ⟨base, hand⟩ := t
  obtain rfl : hand₁ = hand := hhand
  exact ⟨rfl, rfl⟩

end Turns

section Room
variable {options : Options} {t : WritableHashTable setting} {key : Key} {value : Value}
  {times : AddTimes}

/-- The table in which `Add` looks for a slot. -/
structure RoomMade (options : Options) (t : WritableHashTable setting) (key : Key) (value : Value)
    (times : AddTimes) (t' : SharedHashTable setting) : Prop where
  accounted : Accounted t'
  load : ∀ s, t'.load s =
    (t.base.hashTable.load s).bind (leave options t key value times s.1)
  chainLength : ∀ i : setting.BucketIndex,
    t'.buckets[i].chainLength = t.base.hashTable.buckets[i].chainLength

theorem chainLength_makeRoom (options : Options) (t : WritableHashTable setting) (key : Key)
    (value : Value) (times : AddTimes) (i : setting.BucketIndex) :
    (makeRoom options t key value times).1.base.hashTable.buckets[i].chainLength =
      t.base.hashTable.buckets[i].chainLength :=
  WritableHashTable.makeRoom_invariant
    (I := fun t' => t'.buckets[i].chainLength = t.base.hashTable.buckets[i].chainLength)
    (fun t' j ht' => (WritableHashTable.chainLength_sweepBucket _ t' j i).trans ht')
    (fun t' j ht' => (WritableHashTable.chainLength_sweepBucket _ t' j i).trans ht') rfl key value

variable {t₁ : WritableHashTable setting}

/-- The turns of the hand, as they can be told from the table before the call. -/
theorem takenTurn_iff_offeredBytes (value : Value)
    (htime : TimeEvicted options key times.evictBasedOnTime t.base.hashTable t₁.base.hashTable)
    (hhand : t₁.currentEvictBucketIndex = t.currentEvictBucketIndex) (k : Nat) :
    TakenTurn options t₁ (bytesNeeded key value) times.evict k ↔
      offeredBytes options t key times k < bytesToFree options
        (remainingDataSize options t.base.hashTable key times.evictBasedOnTime)
        (bytesNeeded key value) := by
  have hcandidates (k : Nat) : candidates options t₁ times.evict k =
      offered t (visitClock setting.cacheRecordSerializer options times.evict)
        (staying options t key times) k := by
    have hstaying : (fun i => t₁.base.hashTable.buckets[i].records) =
        staying options t key times := funext htime.records_bucket
    rw [candidates, hstaying, (offered_congr hhand _ _ k).2]
  rw [takenTurn_iff, candidatesBefore, funext hcandidates, calculateNumBytesToFree,
    htime.totalDataSize_eq, offeredBytes]

theorem evict_eq_after_numTurns (value : Value)
    (htime : TimeEvicted options key times.evictBasedOnTime t.base.hashTable t₁.base.hashTable)
    (hhand : t₁.currentEvictBucketIndex = t.currentEvictBucketIndex) :
    (∀ k < numTurns options t key value times,
      TakenTurn options t₁ (bytesNeeded key value) times.evict k) ∧
    evict options t₁ (bytesNeeded key value) times.evict =
      (after setting.cacheRecordSerializer
        (visitClock setting.cacheRecordSerializer options times.evict)
        (evicting options t₁ (bytesNeeded key value))
        (numTurns options t key value times)).table := by
  have htaken := takenTurn_iff_offeredBytes value htime hhand
  obtain ⟨hle, hbefore, hstop⟩ := findIdx_range
    (p := fun k => bytesToFree options
      (remainingDataSize options t.base.hashTable key times.evictBasedOnTime)
      (bytesNeeded key value) ≤ offeredBytes options t key times k)
    (setting.numBuckets.toNat * 2)
  change numTurns options t key value times ≤ _ at hle
  refine ⟨fun k hk => (htaken k).mpr (Nat.not_le.mp (of_decide_eq_false (hbefore k hk))), ?_⟩
  rw [evict_eq_after]
  rcases Nat.lt_or_eq_of_le hle with hlt | hall
  · have hfreed := of_decide_eq_true (hstop hlt)
    exact congrArg Sweeping.table
      (after_of_not_taken (fun h => Nat.not_le.mpr ((htaken _).mp h) hfreed) hle)
  · rw [hall]

theorem roomMade_makeRoom (h : Accounted t.base.hashTable) (hb : setting.numBuckets ≠ 0) :
    (makeRoom options t key value times).2 = .ok () ∧
      RoomMade options t key value times (makeRoom options t key value times).1.base.hashTable := by
  have haccounted := accounted_makeRoom options h key value times
  have hchain := chainLength_makeRoom options t key value times
  obtain ⟨htime, hhand, heq⟩ := makeRoom_eq options h hb key value times
  generalize timeBased options t key times.evictBasedOnTime = t₁ at htime hhand heq
  rw [heq] at haccounted hchain ⊢
  refine ⟨rfl, haccounted, fun s => ?_, hchain⟩
  obtain ⟨hturns, hevict⟩ := evict_eq_after_numTurns value htime hhand
  have hpassed : timesPassed t₁ = timesPassed t :=
    (offered_congr hhand (visitClock setting.cacheRecordSerializer options times.evict)
      (staying options t key times) 0).1
  simp only [hevict]
  rw [load_after hturns, hpassed, htime.load_eq_filter]
  cases t.base.hashTable.load s with
  | none => split <;> rfl
  | some record =>
    simp only [leave, Option.bind_some, Option.filter_some, decide_eq_true_eq]
    split_ifs with hstays
    · rfl
    · split <;> rfl

variable {t' t'' : SharedHashTable setting}

theorem RoomMade.setAllocator (h : RoomMade options t key value times t')
    (allocator : Allocator) : RoomMade options t key value times (t'.setAllocator allocator) :=
  ⟨h.accounted.setAllocator allocator, h.load, h.chainLength⟩

theorem RoomMade.records (h : RoomMade options t key value times t') :
    t'.records = leftRecords options t key value times :=
  List.flatMap_congr fun i _ =>
    Bucket.records_of_bind (h.chainLength i) fun p => h.load (i, p)

theorem RoomMade.emptyIndexSize_eq (h : RoomMade options t key value times t') :
    emptyIndexSize t' = emptyIndexSize t.base.hashTable := by
  have hentries : t'.chainingEntries = t.base.hashTable.chainingEntries :=
    Finset.sum_congr rfl fun i _ => by rw [h.chainLength i]
  rw [emptyIndexSize, hentries, emptyIndexSize]

theorem RoomMade.totalDataSize_contents (h : RoomMade options t key value times t') :
    totalDataSize (SharedHashTable.contents setting.cacheRecordSerializer t') =
      emptyIndexSize t.base.hashTable + ((leftRecords options t key value times).map
        (recordSize setting.cacheRecordSerializer)).sum := by
  rw [Cache.totalDataSize_contents, h.emptyIndexSize_eq, SharedHashTable.total, h.records]

/-- No eviction makes a cache larger. -/
theorem totalDataSize_makeRoom_le (options : Options) (h : Accounted t.base.hashTable) (key : Key)
    (value : Value) (times : AddTimes) :
    totalDataSize (makeRoom options t key value times).1.base.hashTable.perfData ≤
      totalDataSize t.base.hashTable.perfData := by
  have hsweep {visit : RecordBuffer → Option RecordBuffer}
      (hvisit : ∀ record record', visit record = some record' →
        Keeps setting.cacheRecordSerializer (CacheRecord setting) record record')
      (t₁ : WritableHashTable setting) (i : setting.BucketIndex)
      (h₁ : Accounted t₁.base.hashTable ∧ totalDataSize t₁.base.hashTable.perfData ≤
        totalDataSize t.base.hashTable.perfData) :
      let swept := (WritableHashTable.sweepBucket setting.cacheRecordSerializer visit t₁ i).1
      Accounted swept.base.hashTable ∧ totalDataSize swept.base.hashTable.perfData ≤
        totalDataSize t.base.hashTable.perfData := by
    refine ⟨accounted_sweepBucket h₁.1 hvisit i, ?_⟩
    have hremoved : 0 ≤ ((WritableHashTable.sweepBucket setting.cacheRecordSerializer visit
        t₁ i).2.map (recordSize setting.cacheRecordSerializer)).sum := by
      refine List.sum_nonneg fun x hx => ?_
      obtain ⟨record, -, rfl⟩ := List.mem_map.mp hx
      exact recordSize_nonneg _ record
    have htotal := totalDataSize_sweepBucket h₁.1 hvisit i
    have hle := h₁.2
    omega
  exact (WritableHashTable.makeRoom_invariant
    (I := fun t' => Accounted t' ∧ totalDataSize t'.perfData ≤
      totalDataSize t.base.hashTable.perfData)
    (hsweep fun _ _ => keeps_visitBasedOnTime) (hsweep fun _ _ => keeps_visitClock)
    ⟨h, Int.le_refl _⟩ key value).2

section Published
variable {record : RecordBuffer} {s : setting.Slot} {stat : ReadWrite.Stat}
  {old : Option RecordBuffer} (h : RoomMade options t key value times t')
  (hp : ReadWrite.Published setting.cacheRecordSerializer t' record s stat old t'')
  (hkey : setting.cacheRecordSerializer.keyOf record = key)
include h hp hkey

theorem RoomMade.load_eq_replaced : t'.load s = replaced options t key value times := by
  have hmem (record' : RecordBuffer) : record' ∈ leftRecords options t key value times ↔
      ∃ s', t'.load s' = some record' := by
    rw [← h.records]
    exact SharedHashTable.mem_records
  cases hload : t'.load s with
  | none =>
    refine (List.find?_eq_none.mpr fun record' hmem' hsame => ?_).symm
    obtain ⟨s', hload'⟩ := (hmem record').mp hmem'
    have hs := hp.admits.2 s' record' hload' ((of_decide_eq_true hsame).trans hkey.symm)
    rw [hs, hload] at hload'
    cases hload'
  | some old =>
    have hold : decide (setting.cacheRecordSerializer.keyOf old = key) = true :=
      decide_eq_true ((hp.admits.1 old hload).trans hkey)
    rw [replaced]
    cases hfind : (leftRecords options t key value times).find? fun record =>
      setting.cacheRecordSerializer.keyOf record = key with
    | none => exact absurd hold (List.find?_eq_none.mp hfind old ((hmem old).mpr ⟨s, hload⟩))
    | some record' =>
      obtain ⟨s', hload'⟩ := (hmem record').mp (List.mem_of_find?_eq_some hfind)
      have hsame := List.find?_some hfind
      simp only [decide_eq_true_eq] at hsame
      have hs := hp.admits.2 s' record' hload' (hsame.trans hkey.symm)
      rw [hs, hload] at hload'
      exact hload'

theorem RoomMade.entrySize_eq :
    (if stat.isNewEntryAdded then sizeofEntry else 0) = entrySize options t key value times := by
  have hhome : s.1.val = bucketOf setting key := hp.home.trans (congrArg _ hkey)
  have hfull : ChainFull options t key value times ↔ ∀ p : SlotIndex,
      p.entry < t'.buckets[s.1].chainLength → t'.load (s.1, p) ≠ none := by
    have hleft (p : SlotIndex) : t'.load (s.1, p) ≠ none ↔
        ∃ record ∈ t.base.hashTable.buckets[s.1].load p,
          (leave options t key value times s.1 record).isSome := by
      rw [h.load, SharedHashTable.load]
      cases t.base.hashTable.buckets[s.1].load p <;> simp [Option.ne_none_iff_isSome]
    simp only [hleft, h.chainLength]
    constructor
    · exact fun hchain p hp => hchain s.1 hhome p (Bucket.mem_positions.mpr hp)
    · intro hchain i hi p hp
      obtain rfl : i = s.1 := Fin.ext (hi.trans hhome.symm)
      exact hchain p (Bucket.mem_positions.mp hp)
  have hlt := hp.stored.entry_lt
  rw [hp.chainLength] at hlt
  have hentry : s.2.entry ≤ t'.buckets[s.1].chainLength := by
    split_ifs at hlt <;> omega
  rw [entrySize, ← h.load_eq_replaced hp hkey]
  refine if_congr ?_ rfl rfl
  rw [hp.isNewEntryAdded, decide_eq_true_iff, hfull, Option.isNone_iff_eq_none]
  constructor
  · intro hnew
    have hnone : t'.load s = none := SharedHashTable.load_eq_none_of_le (Nat.le_of_eq hnew.symm)
    refine ⟨hnone, fun p hlt => ?_⟩
    obtain ⟨record', hload⟩ := hp.first hnone p (.inl (hnew ▸ hlt))
    exact hload ▸ Option.some_ne_none _
  · rintro ⟨hnone, hchain⟩
    exact Nat.le_antisymm hentry (Nat.not_lt.mp fun hinside => hchain s.2 hinside hnone)

end Published

theorem totalDataSize_add_le (options : Options) (h : Accounted t.base.hashTable)
    (hrejected : setting.numBuckets = 0 ∨ ¬ setting.cacheRecordSerializer.Validates key value)
    (times : AddTimes) :
    totalDataSize (t.add options key value times).1.base.hashTable.perfData ≤
      totalDataSize t.base.hashTable.perfData := by
  have hle := totalDataSize_makeRoom_le options h key value times
  have haccounted := accounted_makeRoom options h key value times
  cases hroom : makeRoom options t key value times with
  | mk t₁ result =>
    rw [hroom] at hle haccounted
    cases result with
    | error e =>
      simp only [WritableHashTable.add, hroom]
      exact hle
    | ok _ =>
      by_cases hv : setting.cacheRecordSerializer.Validates key value
      · obtain ⟨record, allocator, -, hcreate⟩ :=
          WritableHashTable.createRecordBuffer_accepted t₁.base.hashTable times.create hv
        rcases add_of_created hroom haccounted.sound.consistent hcreate with
          ⟨-, base, hbase, hadd⟩ | ⟨s, stat, hashTable, base, hp, hbase, hadd⟩
        · simp only [hadd, hbase]
          exact hle
        · exact absurd (hrejected.resolve_right (not_not.mpr hv)) (Setting.numBuckets_ne_zero s.1)
      · have hcreate :=
          WritableHashTable.createRecordBuffer_of_rejected t₁.base.hashTable times.create hv
        simp only [WritableHashTable.add, hroom, hcreate]
        exact hle

omit [Platform] in
theorem recordSize_of_serializeWithMeta {record : RecordBuffer}
    (hv : setting.cacheRecordSerializer.Validates key value)
    (h : setting.cacheRecordSerializer.serializeWithMeta key value
      (WritableHashTable.newMetadata time) = .ok record.bytes) :
    setting.cacheRecordSerializer.keyOf record = key ∧
      recordSize setting.cacheRecordSerializer record = storedSize setting key value := by
  have hmeta : (WritableHashTable.newMetadata time).size = 4 := length_create time
  have hmetaSize : setting.cacheRecordSerializer.metadataSize.toNat =
      (WritableHashTable.newMetadata time).size := hmeta.symm
  obtain ⟨hfixedKey, hfixedValue⟩ := hv.sizes
  rw [RecordSerializer.serializeWithMeta, if_pos hv, if_pos hmetaSize] at h
  have hbytes := (Except.ok.inj h).symm
  -- the bytes of the value that its stored size takes in
  let data := (WritableHashTable.newMetadata time).data ++ value.data
  have hle : (value.size + 4) % 2 ^ 32 ≤ data.length := by
    rw [List.length_append]
    change _ ≤ (WritableHashTable.newMetadata time).size + value.size
    have hmod := Nat.mod_le (value.size + 4) (2 ^ 32)
    omega
  have hsize : (data.take ((value.size + 4) % 2 ^ 32)).length = (value.size + 4) % 2 ^ 32 :=
    List.length_take_of_le hle
  let stored : Value := ⟨data.take ((value.size + 4) % 2 ^ 32), by
    rw [hsize]
    exact Nat.mod_lt _ (by decide)⟩
  have hstored : stored.size = (value.size + 4) % 2 ^ 32 := hsize
  have hsplit : record.bytes = setting.cacheRecordSerializer.serializeSizes key.size stored.size ++
      key.data ++ stored.data ++ data.drop ((value.size + 4) % 2 ^ 32) := by
    rw [hbytes, hmeta, hstored, List.append_assoc, List.append_assoc _ stored.data]
    exact congrArg _ (List.take_append_drop _ data).symm
  have hrecord := setting.cacheRecordSerializer.deserialize_append key stored hfixedKey
    (fun h0 => by
      rw [hstored, hfixedValue h0, UInt32.toNat_add]
      rfl) (data.drop ((value.size + 4) % 2 ^ 32))
  rw [← hsplit] at hrecord
  have hkey : setting.cacheRecordSerializer.keyOf record = key := congrArg Record.key hrecord
  have hvalue : setting.cacheRecordSerializer.valueOf record = stored :=
    congrArg Record.value hrecord
  refine ⟨hkey, ?_⟩
  simp only [recordSize, totalDataSize, SharedHashTable.recordWeight, hkey, hvalue, hstored,
    storedSize]
  rfl

theorem emptyIndexSize_published {t t' : SharedHashTable setting} {rs : RecordSerializer}
    (hp : ReadWrite.Published rs t record s stat old t') :
    emptyIndexSize t' =
      emptyIndexSize t + (if stat.isNewEntryAdded then sizeofEntry else 0 : Nat) := by
  have hentries := hp.stored.chainingEntries
  have hnew : ((t'.buckets[s.1].chainLength : Int) - t.buckets[s.1].chainLength) =
      if stat.isNewEntryAdded then 1 else 0 := by
    rw [hp.chainLength, hp.isNewEntryAdded]
    split_ifs <;> simp_all
  rw [hnew] at hentries
  rw [emptyIndexSize, hentries, emptyIndexSize]
  split_ifs <;> push_cast <;> ring

theorem Accounted.totalDataSize_published {t t' : SharedHashTable setting} (h : Accounted t)
    (hp : ReadWrite.Published setting.cacheRecordSerializer t record s stat old t') :
    totalDataSize (t'.updatePerfData (ReadWrite.updatePerfDataForAdd setting.cacheRecordSerializer
        stat)).perfData =
      totalDataSize (SharedHashTable.contents setting.cacheRecordSerializer t') := by
  have haccounts := accounts_of_published hp fun r hload => (h.sound.holds s r hload).size_valueOf
  have hcounter (counter : HashTablePerfCounter) (hc : ReadWrite.Counted counter) :=
    haccounts.perfData_eq hp.stored.perfData hc (h.counters counter hc)
  rw [totalDataSize, hcounter _ (by simp [ReadWrite.Counted]),
    hcounter _ (by simp [ReadWrite.Counted]), hcounter _ (by simp [ReadWrite.Counted])]
  rfl

theorem respectsCap_iff_hasRoom (h : Accounted t.base.hashTable) :
    RespectsCap options t key value times ↔ HasRoom options t key value times := by
  by_cases haccepted : setting.numBuckets ≠ 0 ∧
      setting.cacheRecordSerializer.Validates key value
  · obtain ⟨hb, hv⟩ := haccepted
    obtain ⟨hok, hmade⟩ := roomMade_makeRoom h hb
    cases hroom : makeRoom options t key value times with
    | mk t₁ result =>
      rw [hroom] at hok hmade
      obtain rfl : result = .ok () := hok
      obtain ⟨record, allocator, hserialize, hcreate⟩ :=
        WritableHashTable.createRecordBuffer_accepted t₁.base.hashTable times.create hv
      obtain ⟨hkey, hsize⟩ := recordSize_of_serializeWithMeta hv hserialize
      rcases add_of_created hroom hmade.accounted.sound.consistent hcreate with
        ⟨hb', -⟩ | ⟨s, stat, hashTable, base, hp, hbase, hadd⟩
      · exact absurd hb' hb
      · have hmade' := hmade.setAllocator allocator
        have hentry := hmade'.entrySize_eq hp hkey
        have hindex := emptyIndexSize_published hp
        have htotal := hmade'.accounted.totalDataSize_published hp
        have hcontents := Published.totalDataSize hp
        have hreplaced : t₁.base.hashTable.load s = _ := hmade'.load_eq_replaced hp hkey
        rw [hentry, hmade'.emptyIndexSize_eq] at hindex
        rw [hmade'.totalDataSize_contents, hentry, hsize] at hcontents
        change _ = _ + _ - (t₁.base.hashTable.load s).elim 0 _ + _ at hcontents
        rw [hreplaced] at hcontents
        simp only [RespectsCap, HasRoom, hadd, hbase, htotal]
        change (emptyIndexSize hashTable + _ + _ ≤ _ → _) ↔ _
        rw [hindex, hcontents]
        constructor
        · intro hrespects _ _ hbefore hfit
          have hafter := hrespects hfit hbefore
          omega
        · intro hroom hfit hbefore
          have hafter := hroom hb hv hbefore hfit
          omega
  · have hrejected := haccepted
    rw [not_and_or, not_not] at hrejected
    have hle := totalDataSize_add_le options h hrejected times
    constructor
    · exact fun _ hb hv => absurd ⟨hb, hv⟩ haccepted
    · exact fun _ _ hbefore => hle.trans hbefore

/-- After any calls that have added values of less than `2 ^ 32 - 4` bytes, an `Add` respects the
cap if and only if it meets the condition. -/
theorem add_respects_cap (setting : Setting) (options : Options) (allocator : Allocator)
    (epochManager : EpochManager RecordBuffer) (calls : List Call)
    (hsizes : ∀ c ∈ calls, ∀ value ∈ c.stored, value.size + 4 < 2 ^ 32)
    (key : Key) (value : Value) (times : AddTimes) :
    let t := ((Session.create setting allocator epochManager).run options calls).1.table
    RespectsCap options t key value times ↔ HasRoom options t key value times :=
  respectsCap_iff_hasRoom (accounted_session setting allocator epochManager options calls hsizes)

omit [Platform] in
/-- `Evict` finds room for the key and the value, but not for the overhead of the record. -/
theorem cap_exceeded :
    let platform : Platform := ⟨fun _ => (7, 0), 8, 64⟩
    let options : Options := ⟨242, 100, false⟩
    let value : Value := ⟨[0], by decide⟩
    let s := ((Session.create {} ⟨0, []⟩ ⟨0, ⟨0, 0, [0], by decide⟩, ⟨[.empty], 0⟩⟩).run options
      [.add ⟨[1], by decide⟩ value ⟨0, 0, 0⟩]).1
    ¬ RespectsCap options s.table ⟨[2], by decide⟩ value ⟨0, 0, 0⟩ := by
  intro platform options value s h
  exact absurd (h (by decide +kernel) (by decide +kernel)) (by decide +kernel)

omit [Platform] in
/-- The chain of the key is full, and becomes empty when the hand comes by. -/
theorem add_respects_cap_of_emptied_chain :
    let platform : Platform := ⟨fun _ => (7, 0), 8, 64⟩
    let options : Options := ⟨416, 100, false⟩
    let value : Value := ⟨[0], by decide⟩
    let calls : List Call := (List.finRange 16).map fun i =>
      .add ⟨[UInt8.ofNat i], by simp⟩ value ⟨0, 0, 0⟩
    let s := ((Session.create {} ⟨0, []⟩ ⟨0, ⟨0, 0, [0], by decide⟩, ⟨[.empty], 0⟩⟩).run options
      calls).1
    RespectsCap options s.table ⟨[16], by decide⟩ value ⟨0, 0, 0⟩ := by
  intro platform options value calls s
  have hsizes : ∀ c ∈ calls, ∀ value ∈ c.stored, value.size + 4 < 2 ^ 32 := by
    intro c hc
    obtain ⟨i, -, rfl⟩ := List.mem_map.mp hc
    simp [Call.stored, value, Blob.size]
  exact (add_respects_cap {} options ⟨0, []⟩ ⟨0, ⟨0, 0, [0], by decide⟩, ⟨[.empty], 0⟩⟩ calls hsizes
    ⟨[16], by decide⟩ value ⟨0, 0, 0⟩).mpr (by decide +kernel)

end Room

end L4.Cache
