import L4.CacheCalls

namespace L4.Cache
set_option autoImplicit true
open ReadWrite (Counted Published Unlinked updatePerfDataForAdd perfUpdatesForRemoved)
open SharedHashTable (contents recordWeight entryWeight initialIndexSize)
open WritableHashTable (evictUpdates)
open Metadata
variable {setting : Setting}

/-- The records of a cache start with their metadata. -/
abbrev CacheRecord (setting : Setting) : RecordBuffer → Prop :=
  CachedWith setting.cacheRecordSerializer fun _ _ _ => True

theorem CacheRecord.size_valueOf (h : CacheRecord setting record) :
    (setting.cacheRecordSerializer.valueOf record).size ≠ 0 := by
  obtain ⟨key, value, time, hcached, -⟩ := h
  rw [hcached.size_valueOf rfl]
  exact Nat.succ_ne_zero _

theorem Cached.cacheRecord
    (h : Cached setting.cacheRecordSerializer record key value time) : CacheRecord setting record :=
  ⟨key, value, time, h, trivial⟩

section Accounts
variable [Platform] {rs : RecordSerializer} {t t' : SharedHashTable setting}
  {visit : RecordBuffer → Option RecordBuffer}

/-- The updates of the counters are those for the change of the table. -/
structure Accounts (rs : RecordSerializer) (updates : List PerfUpdate)
    (t t' : SharedHashTable setting) : Prop where
  adds : ∀ counter, Counted counter → ∀ u ∈ updates, u.Adds counter
  contents : ∀ counter, Counted counter →
    contents rs t' counter = contents rs t counter + (updates.map (PerfUpdate.delta counter)).sum

theorem accounts_of_published (hp : Published rs t record s stat old t')
    (hold : ∀ r, t.load s = some r → (rs.valueOf r).size ≠ 0) :
    Accounts rs (updatePerfDataForAdd rs stat) t t' where
  adds counter hc := ReadWrite.updatePerfDataForAdd_adds rs hc stat
  contents counter hc := by
    have hdelta := hp.delta hc fun ⟨r, hload, hzero⟩ => hold r hload hzero
    rw [hp.contents, hdelta]
    ring

theorem accounts_of_unlinked (hu : Unlinked t s (some record) t') :
    Accounts rs (perfUpdatesForRemoved rs record) t t' where
  adds counter _ := ReadWrite.perfUpdatesForRemoved_adds rs counter record
  contents counter hc := by
    rw [hu.contents, ReadWrite.perfUpdatesForRemoved_delta]
    ring

theorem accounts_of_touched (htouch : Touched t s record' t') (hload : t.load s = some record)
    (hkey : rs.keyOf record' = rs.keyOf record)
    (hvalue : (rs.valueOf record').size = (rs.valueOf record).size) : Accounts rs [] t t' where
  adds _ _ := by simp
  contents counter _ := by
    rw [htouch.contents hload hkey hvalue]
    exact (Int.add_zero _).symm

omit [Platform] in
theorem evictUpdates_adds (rs : RecordSerializer) (counter : HashTablePerfCounter)
    (records : List RecordBuffer) : ∀ u ∈ records.flatMap (evictUpdates rs), u.Adds counter := by
  intro u hu
  obtain ⟨record, -, hu⟩ := List.mem_flatMap.mp hu
  rcases List.mem_append.mp hu with hu | hu
  · exact ReadWrite.perfUpdatesForRemoved_adds rs counter record u hu
  · rw [List.mem_singleton.mp hu]
    trivial

omit [Platform] in
theorem evictUpdates_delta (rs : RecordSerializer) (counter : HashTablePerfCounter)
    (records : List RecordBuffer) :
    ((records.flatMap (evictUpdates rs)).map (PerfUpdate.delta counter)).sum =
      -(records.map (recordWeight rs · counter)).sum +
        if counter = .evictedRecordsCount then (records.length : Int) else 0 := by
  have hevicted : (PerfUpdate.increment .evictedRecordsCount).delta counter =
      if counter = .evictedRecordsCount then 1 else 0 := by
    simp only [PerfUpdate.increment, PerfUpdate.delta, eq_comm]
  induction records with
  | nil => simp
  | cons record records ih =>
    rw [List.flatMap_cons, List.map_append, List.sum_append, ih, evictUpdates, List.map_append,
      List.sum_append, ReadWrite.perfUpdatesForRemoved_delta, List.map_singleton,
      List.sum_singleton, hevicted, List.map_cons, List.sum_cons, List.length_cons, Nat.cast_succ]
    split_ifs <;> ring

theorem accounts_of_swept (hs : Swept visit t removed t')
    (hvisit : ∀ record record', visit record = some record' → Keeps rs P record record')
    (h : Sound rs P t) : Accounts rs (removed.flatMap (evictUpdates rs)) t t' where
  adds counter _ := evictUpdates_adds rs counter removed
  contents counter hc := by
    have hne : counter ≠ .evictedRecordsCount := by
      rintro rfl
      simp [Counted] at hc
    rw [hs.contents hvisit h, evictUpdates_delta, if_neg hne]
    ring

/-- The table of a cache between two calls: the counters describe the contents. -/
structure Accounted (t : SharedHashTable setting) : Prop where
  sound : Sound setting.cacheRecordSerializer (CacheRecord setting) t
  counters : ∀ counter, Counted counter →
    t.perfData counter = contents setting.cacheRecordSerializer t counter

theorem Accounts.perfData_eq (ha : Accounts rs updates t t') (hperf : t'.perfData = t.perfData)
    (hc : Counted counter) (h : t.perfData counter = SharedHashTable.contents rs t counter) :
    (t'.updatePerfData updates).perfData counter = SharedHashTable.contents rs t' counter := by
  change PerfUpdate.applyAll t'.perfData updates counter = SharedHashTable.contents _ t' counter
  rw [PerfUpdate.applyAll_of_adds _ (ha.adds counter hc), hperf, h, ha.contents counter hc]

theorem Accounted.step (h : Accounted t)
    (hs : Sound setting.cacheRecordSerializer (CacheRecord setting) t')
    (ha : Accounts setting.cacheRecordSerializer updates t t') (hperf : t'.perfData = t.perfData) :
    Accounted (t'.updatePerfData updates) where
  sound := hs.congr rfl rfl
  counters counter hc := ha.perfData_eq hperf hc (h.counters counter hc)

theorem accounted_create (setting : Setting) (allocator : Allocator) :
    Accounted (.create setting allocator) where
  sound := sound_create _ _ allocator
  counters counter hc := by
    rw [ReadWrite.perfData_create allocator hc, SharedHashTable.contents_create]

theorem accounted_sweepBucket {t : WritableHashTable setting} (h : Accounted t.base.hashTable)
    (hvisit : ∀ record record', visit record = some record' →
      Keeps setting.cacheRecordSerializer (CacheRecord setting) record record')
    (i : setting.BucketIndex) :
    Accounted (WritableHashTable.sweepBucket setting.cacheRecordSerializer visit t
      i).1.base.hashTable := by
  obtain ⟨epochManager, hswept, heq⟩ :=
    WritableHashTable.sweepBucket_eq setting.cacheRecordSerializer visit t i
  rw [heq]
  exact h.step (hswept.sound hvisit h.sound) (accounts_of_swept hswept hvisit h.sound) rfl

theorem Accounted.setAllocator (h : Accounted t) (allocator : Allocator) :
    Accounted (t.setAllocator allocator) :=
  ⟨h.sound.congr rfl rfl, h.counters⟩

theorem accounted_add (h : Accounted t)
    (he : WritableHashTable.AddEffect key value time t result t') : Accounted t' := by
  cases he with
  | threw e allocator => exact h.setAllocator allocator
  | added record allocator s stat t' hcached hp =>
    have hroom := h.setAllocator allocator
    exact hroom.step (hroom.sound.published hp hcached.cacheRecord)
      (accounts_of_published hp fun r hload => (h.sound.holds s r hload).size_valueOf)
      hp.stored.perfData

theorem accounted_remove (h : Accounted t)
    (he : WritableHashTable.RemoveEffect key t result t') : Accounted t' := by
  cases he with
  | threw e hb => exact h
  | missed hnone => exact h
  | removed record s t' hload hkey hu =>
    exact h.step (h.sound.unlinked hu) (accounts_of_unlinked hu) hu.stored.perfData

theorem accounted_get {options : Options} (h : Accounted t)
    (he : WritableHashTable.GetEffect options key curEpochTime t result t') : Accounted t' := by
  have hcount (counter' : HashTablePerfCounter) (hc' : ¬ Counted counter')
      {t₁ : SharedHashTable setting} (h₁ : Accounted t₁) :
      Accounted (t₁.updatePerfData [.increment counter']) := by
    refine h₁.step h₁.sound ⟨fun counter hc => by simp [PerfUpdate.Adds, PerfUpdate.increment],
      fun counter hc => ?_⟩ rfl
    have hne : counter' ≠ counter := fun heq => hc' (heq ▸ hc)
    simp [PerfUpdate.delta, PerfUpdate.increment, hne]
  cases he with
  | threw e => exact h
  | missed => exact hcount .cacheMissCount (by simp [Counted]) h
  | hit record s t' hload hkey hfresh htouch =>
    have hkeeps := keeps_updateAccessStatus setting (fun _ _ _ => True) record true
    obtain ⟨-, hkey', hvalue⟩ := hkeeps (h.sound.holds s record hload)
    exact hcount .cacheHitCount (by simp [Counted]) (h.step (h.sound.touched hload hkeeps htouch)
      (accounts_of_touched htouch hload hkey' hvalue) htouch.stored.perfData)

section Calls
variable {t : WritableHashTable setting} {options : Options}

theorem accounted_makeRoom (options : Options) (h : Accounted t.base.hashTable) (key : Key)
    (value : Value) (times : AddTimes) :
    Accounted (WritableHashTable.makeRoom options t key value times).1.base.hashTable :=
  WritableHashTable.makeRoom_invariant
    (fun _ i ht => accounted_sweepBucket ht (fun _ _ => keeps_visitBasedOnTime) i)
    (fun _ i ht => accounted_sweepBucket ht (fun _ _ => keeps_visitClock) i) h key value

theorem accounted_call (options : Options) {s : Session setting}
    (h : Accounted s.table.base.hashTable) (c : Call)
    (hsize : ∀ key value times, c = .add key value times → value.size + 4 < 2 ^ 32) :
    Accounted (s.call options c).1.table.base.hashTable := by
  cases c with
  | add key value times =>
    have hroom := accounted_makeRoom options h key value times
    have he := (WritableHashTable.add_effect hroom.sound fun _ => hsize key value times rfl).1
    exact accounted_add hroom he
  | remove key => exact accounted_remove h (WritableHashTable.remove_effect h.sound key).1
  | get key curEpochTime =>
    exact accounted_get h (WritableHashTable.get_effect options h.sound key curEpochTime).1
  | getIterator curEpochTime => exact h
  | moveNext iterator =>
    show Accounted (s.moveNext options iterator).1.table.base.hashTable
    rw [s.table_moveNext]
    exact h

theorem accounted_run {s : Session setting} (h : Accounted s.table.base.hashTable)
    (calls : List Call)
    (hsizes : ∀ key value times, .add key value times ∈ calls → value.size + 4 < 2 ^ 32) :
    Accounted (s.run options calls).1.table.base.hashTable := by
  induction calls generalizing s with
  | nil => exact h
  | cons c cs ih =>
    have hc := accounted_call options h c fun key value times heq =>
      hsizes key value times (heq ▸ List.mem_cons_self)
    exact ih hc fun key value times hmem => hsizes key value times (List.mem_cons_of_mem _ hmem)

/-- The value that a call stores. -/
def Call.stored : Call → Option Value
  | .add _ value _ => some value
  | _ => none

theorem accounted_session (setting : Setting) (allocator : Allocator)
    (epochManager : EpochManager RecordBuffer) (options : Options) (calls : List Call)
    (h : ∀ c ∈ calls, ∀ value ∈ c.stored, value.size + 4 < 2 ^ 32) :
    Accounted ((Session.create setting allocator epochManager).run
      options calls).1.table.base.hashTable :=
  accounted_run (accounted_create setting allocator) calls
    fun _ value _ hmem => h _ hmem value rfl

end Calls

end Accounts

end L4.Cache
