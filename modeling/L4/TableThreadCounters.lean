import L4.TableThreadRuns
import L4.TableThreadSteps

namespace L4.TableThreads
set_option autoImplicit true
open SharedHashTable (contents recordWeight entryWeight)
open ReadWrite (Counted Published updatePerfDataForAdd perfUpdatesForRemoved)
open Cache (Sound CacheRecord Accounts Options touched_setBucket)
variable {setting : Setting} {options : Options}

/-- What a task adds to a counter. -/
def Task.delta (counter : HashTablePerfCounter) : Task → Int
  | .update u => u.delta counter
  | .release _ => 0

/-- What a thread has still to add to a counter. -/
def Thread.owed (counter : HashTablePerfCounter) (th : Thread setting) : Int :=
  (th.tasks.map (Task.delta counter)).sum

/-- The updates that a thread has still to make leave a counter alone or add to it. -/
def Thread.Adds (counter : HashTablePerfCounter) (th : Thread setting) : Prop :=
  ∀ u, .update u ∈ th.tasks → u.Adds counter

/-- The size of the value fits, with the metadata, on 32 bits. -/
def Fits (record : Record) : Prop := record.value.size + 4 < 2 ^ 32

section Tasks
variable {th : Thread setting}

theorem owed_updates (us : List PerfUpdate) (tasks : List Task) (phase : Phase setting)
    (counter : HashTablePerfCounter) :
    (⟨us.map .update ++ tasks, phase⟩ : Thread setting).owed counter =
      (us.map (PerfUpdate.delta counter)).sum +
        (⟨tasks, phase⟩ : Thread setting).owed counter := by
  have hcomp : (Task.delta counter ∘ .update) = PerfUpdate.delta counter := rfl
  simp only [Thread.owed, List.map_append, List.sum_append, List.map_map, hcomp]

theorem owed_releases (records : List RecordBuffer) (phase : Phase setting)
    (counter : HashTablePerfCounter) :
    (⟨records.map .release, phase⟩ : Thread setting).owed counter = 0 := by
  induction records with
  | nil => rfl
  | cons record records ih =>
    rw [Thread.owed, List.map_cons, List.map_cons, List.sum_cons] at *
    rw [ih]
    rfl

end Tasks

theorem createRecordBuffer_cacheRecord {t t' : SharedHashTable setting} {record : Record}
    (h : createRecordBuffer (CacheConfig setting options) t record time = (t', .ok recordToAdd))
    (hfits : Fits record) : CacheRecord setting recordToAdd := by
  have heq : Cache.createRecordBuffer setting.cacheRecordSerializer t record.key record.value
      time = (t', .ok recordToAdd) := h
  by_cases hv : setting.cacheRecordSerializer.Validates record.key record.value
  · obtain ⟨created, allocator, hcached, hcreate⟩ :=
      Cache.WritableHashTable.createRecordBuffer_eq t time hv hfits
    rw [hcreate] at heq
    obtain rfl := Except.ok.inj (congrArg Prod.snd heq)
    exact hcached.cacheRecord
  · rw [Cache.WritableHashTable.createRecordBuffer_of_rejected t time hv] at heq
    cases congrArg Prod.snd heq

section Cache
variable [Platform] {others : List (Thread setting)} {t t' : Table (CacheConfig setting options)}
  {th th' : Thread setting} {label : Label setting}

/-- The counters that no update sets, and that only sum up. -/
def Summed (counter : HashTablePerfCounter) : Prop :=
  Counted counter ∨ counter = .evictedRecordsCount

/-- What holds of every thread. -/
structure Local (th : Thread setting) : Prop where
  carries : th.phase.Carries Fits (CacheRecord setting)
  adds : ∀ counter, Summed counter → th.Adds counter

omit [Platform] in
theorem adds_nil (phase : Phase setting) (counter : HashTablePerfCounter) :
    (⟨[], phase⟩ : Thread setting).Adds counter := by
  intro u hu
  cases hu

omit [Platform] in
theorem adds_updates {us : List PerfUpdate} {tasks : List Task} {phase : Phase setting}
    (hus : ∀ u ∈ us, u.Adds counter) (htasks : ∀ u, .update u ∈ tasks → u.Adds counter) :
    (⟨us.map .update ++ tasks, phase⟩ : Thread setting).Adds counter := by
  intro u hu
  rcases List.mem_append.mp hu with hu | hu
  · obtain ⟨u', hu', heq⟩ := List.mem_map.mp hu
    obtain rfl := Task.update.inj heq
    exact hus u' hu'
  · exact htasks u hu

omit [Platform] in
theorem updatePerfDataForAdd_summed (rs : RecordSerializer) (stat : ReadWrite.Stat)
    (hc : Summed counter) : ∀ u ∈ updatePerfDataForAdd rs stat, u.Adds counter := by
  rcases hc with hc | rfl
  · exact ReadWrite.updatePerfDataForAdd_adds rs hc stat
  · simp only [updatePerfDataForAdd]
    split_ifs <;> simp [PerfUpdate.Adds, PerfUpdate.increment]

/-- Calls with values of fitting sizes. -/
def Label.Fits : Label setting → Prop
  | .call (.add record) => TableThreads.Fits record
  | _ => True

theorem Act.local (h : Act (CacheConfig setting options) others t th label t' th')
    (hfits : label.Fits) (hth : Local th) : Local th' := by
  obtain ⟨hcarries, hadds⟩ := hth
  cases h with
  | update u tasks =>
    exact ⟨hcarries, fun counter hc u' hu' => hadds counter hc u' (List.mem_cons_of_mem _ hu')⟩
  | release record tasks =>
    exact ⟨hcarries, fun counter hc u' hu' => hadds counter hc u' (List.mem_cons_of_mem _ hu')⟩
  | callAdd record =>
    refine ⟨?_, fun counter _ => adds_nil _ counter⟩
    simp only [startAdd]
    split_ifs
    · exact hfits
    · exact hfits
  | endSweep record sweep =>
    refine ⟨?_, fun counter _ => adds_nil _ counter⟩
    cases sweep with
    | basedOnTime curEpochTime => exact hcarries
    | clock curEpochTime numIterationsRemaining numBytesToFree => exact hcarries
  | calculate hcache curEpochTime =>
    refine ⟨?_, fun counter _ => adds_nil _ counter⟩
    simp only [afterCalculate]
    split_ifs
    · exact hcarries
    · exact hcarries
    · exact hcarries
  | visitRemoves hcache hload hvisit =>
    refine ⟨hcarries, fun counter hc => adds_updates
      (ReadWrite.perfUpdatesForRemoved_adds _ counter _) fun u hu => ?_⟩
    simp only [List.mem_cons, reduceCtorEq, Task.update.injEq, List.not_mem_nil, or_false,
      false_or] at hu
    rw [hu]
    trivial
  | createRecordBuffer curEpochTime hcreate =>
    exact ⟨createRecordBuffer_cacheRecord hcreate hcarries, fun counter _ => adds_nil _ counter⟩
  | add hinfo hlock hslot hpublish =>
    refine ⟨trivial, fun counter hc => adds_updates (updatePerfDataForAdd_summed _ _ hc)
      fun u hu => ?_⟩
    obtain ⟨record, -, hrecord⟩ := List.mem_map.mp hu
    cases hrecord
  | remove hinfo hlock hfind =>
    refine ⟨trivial, fun counter hc => adds_updates
      (ReadWrite.perfUpdatesForRemoved_adds _ counter _) fun u hu => ?_⟩
    cases List.mem_singleton.mp hu
  | touch s r =>
    refine ⟨trivial, fun counter hc u hu => ?_⟩
    obtain rfl := Task.update.inj (List.mem_singleton.mp hu)
    trivial
  | getMisses =>
    refine ⟨trivial, fun counter hc u hu => ?_⟩
    obtain rfl := Task.update.inj (List.mem_singleton.mp hu)
    trivial
  | _ => exact ⟨by first | exact hcarries | trivial, fun counter _ => adds_nil _ counter⟩

omit [Platform] in
/-- A record with an empty value is not taken off the counters when it is replaced. -/
def Label.excess (rs : RecordSerializer) (counter : HashTablePerfCounter) : Label setting → Int
  | .publish _ _ (some old) => if (rs.valueOf old).size = 0 then recordWeight rs old counter else 0
  | _ => 0

theorem contents_published {t t' : SharedHashTable setting}
    (hp : Published rs t record s stat old t') (hc : Counted counter) :
    contents rs t' counter + (Label.publish s record old).excess rs counter =
      contents rs t counter +
        ((updatePerfDataForAdd rs stat).map (PerfUpdate.delta counter)).sum := by
  obtain rfl := hp.replaced
  by_cases hempty : ReadWrite.ReplacesEmpty rs (t.load s)
  · obtain ⟨r, hload, hzero⟩ := hempty
    have hkey : rs.keyOf r = rs.keyOf record := hp.admits.1 r hload
    have hnew : stat.isNewEntryAdded = false := by
      rw [hp.isNewEntryAdded]
      exact decide_eq_false (Nat.ne_of_lt
        (Bucket.mem_positions.mp (Bucket.mem_positions_of_load hload)))
    have hold : stat.oldValueSize = 0 := by
      rw [hp.oldValueSize, hload]
      exact hzero
    rw [hp.contents, hload]
    simp only [Label.excess, hzero, if_true, Option.elim_some, updatePerfDataForAdd, hold, hnew,
      hp.keySize, hp.valueSize]
    simp only [Counted, List.mem_cons, List.not_mem_nil, or_false] at hc
    rcases hc with rfl | rfl | rfl | rfl | rfl <;>
      simp [PerfUpdate.delta, PerfUpdate.increment, recordWeight, hkey, hzero]
  · have hexcess : (Label.publish s record (t.load s)).excess rs counter = 0 := by
      cases hload : t.load s with
      | none => rfl
      | some r => exact if_neg fun hzero => hempty ⟨r, hload, hzero⟩
    rw [hp.delta hc hempty, hp.contents, hexcess]
    ring

/-- What a counter is above the contents. -/
def slack (counter : HashTablePerfCounter) (t : SharedHashTable setting) : Int :=
  t.perfData counter - contents setting.cacheRecordSerializer t counter

theorem slack_balance {t t' : SharedHashTable setting} (tasks : List Task) (phase : Phase setting)
    (ha : Accounts setting.cacheRecordSerializer us t t') (hperf : t'.perfData = t.perfData)
    (hc : Counted counter) (htasks : (⟨tasks, phase⟩ : Thread setting).owed counter = 0) :
    slack counter t' + (⟨us.map .update ++ tasks, phase⟩ : Thread setting).owed counter =
      slack counter t + 0 + 0 := by
  rw [owed_updates, htasks, slack, ha.contents counter hc, hperf, slack]
  ring

theorem slack_published {t t' : SharedHashTable setting}
    (hp : Published setting.cacheRecordSerializer t record s stat old t') (hc : Counted counter)
    (records : List RecordBuffer) (phase : Phase setting) :
    slack counter t' + (⟨(updatePerfDataForAdd setting.cacheRecordSerializer stat).map .update ++
        records.map .release, phase⟩ : Thread setting).owed counter =
      slack counter t + 0 +
        (Label.publish s record old).excess setting.cacheRecordSerializer counter := by
  have hcontents := contents_published hp hc
  rw [owed_updates, owed_releases, slack, slack, hp.stored.perfData]
  omega

/-- The counters and the updates that the threads have still to make stay together. -/
theorem Act.counters (h : Act (CacheConfig setting options) others t th label t' th')
    (hP : KeptByAccess setting.cacheRecordSerializer P)
    (hs : Sound setting.cacheRecordSerializer P t.hashTable)
    (hadds : th.Adds counter) (hc : Counted counter) :
    slack counter t'.hashTable + th'.owed counter =
      slack counter t.hashTable + th.owed counter +
        label.excess setting.cacheRecordSerializer counter := by
  have hcount (counter' : HashTablePerfCounter) (hc' : ¬ Counted counter')
      (phase : Phase setting) :
      (⟨[.update (.increment counter')], phase⟩ : Thread setting).owed counter = 0 := by
    have hne : counter' ≠ counter := fun heq => hc' (heq ▸ hc)
    simp [Thread.owed, Task.delta, PerfUpdate.delta, PerfUpdate.increment, hne]
  cases h with
  | update u tasks =>
    have hperf : u.apply t.hashTable.perfData counter = _ :=
      PerfUpdate.apply_of_adds (hadds u List.mem_cons_self)
    change PerfUpdate.apply t.hashTable.perfData u counter - contents _ t.hashTable counter + _ = _
    simp only [slack, Thread.owed, List.map_cons, List.sum_cons, Task.delta, hperf, Label.excess]
    ring
  | release record tasks =>
    simp [Thread.owed, Task.delta, Label.excess]
  | visitStays hcache hload hvisit =>
    obtain rfl := Option.some.inj hcache
    obtain ⟨-, hkey, hvalue⟩ := hP.visit hvisit (hs.holds _ _ hload)
    have ha := Cache.accounts_of_touched (touched_setBucket hload _) hload hkey hvalue
    exact slack_balance [] .idle ha rfl hc rfl
  | visitRemoves hcache hload hvisit =>
    have ha : Accounts setting.cacheRecordSerializer _ _ _ :=
      Cache.accounts_of_unlinked (ReadWrite.unlinked_of_load hload)
    refine slack_balance _ _ ha rfl hc ?_
    rw [Thread.owed, List.map_cons, List.sum_cons]
    exact (Int.zero_add _).trans (hcount .evictedRecordsCount (by simp [Counted]) .idle)
  | createRecordBuffer curEpochTime hcreate =>
    obtain ⟨allocator, rfl, -⟩ := createRecordBuffer_allocates hcreate
    exact (Int.add_zero _).symm
  | createRecordBufferThrows curEpochTime hcreate =>
    obtain ⟨allocator, rfl, -⟩ := createRecordBuffer_allocates hcreate
    exact (Int.add_zero _).symm
  | add hinfo hlock hslot hpublish =>
    have hp := published_of_scan hs.consistent hinfo hslot hpublish
    exact slack_published hp hc _ _
  | remove hinfo hlock hfind =>
    have hload : t.hashTable.load (_, _) = some _ := (Bucket.find?_some hfind).1
    have ha : Accounts setting.cacheRecordSerializer _ _ _ :=
      Cache.accounts_of_unlinked (ReadWrite.unlinked_of_load hload)
    exact slack_balance _ _ ha rfl hc rfl
  | touch s r =>
    rw [hcount .cacheHitCount (by simp [Counted])]
    change slack counter (TableThreads.touch t.hashTable setting.cacheRecordSerializer s
      r.address) + 0 = _
    rcases touch_cases t.hashTable setting.cacheRecordSerializer s r.address with
      heq | ⟨record, hload, heq⟩
    · rw [heq]
      exact (Int.add_zero _).symm
    · obtain ⟨-, hkey, hvalue⟩ :=
        hP record true (hs.holds _ _ hload)
      have ha := Cache.accounts_of_touched (touched_setBucket hload _) hload hkey hvalue
      rw [heq]
      exact slack_balance [] .idle ha rfl hc rfl
  | getMisses =>
    change slack counter _ + (⟨[.update (.increment .cacheMissCount)], .got none⟩ :
      Thread setting).owed counter = _
    rw [hcount .cacheMissCount (by simp [Counted])]
    exact (Int.add_zero _).symm
  | _ => exact (Int.add_zero _).symm

theorem Act.excess_eq_zero (h : Act (CacheConfig setting options) others t th label t' th')
    (hs : Sound setting.cacheRecordSerializer (CacheRecord setting) t.hashTable) :
    label.excess setting.cacheRecordSerializer counter = 0 := by
  cases h with
  | @add _ _ _ _ _ recordToDelete _ _ hinfo hlock hslot hpublish =>
    have hreplaced := (published_of_scan hs.consistent hinfo hslot hpublish).replaced
    cases recordToDelete with
    | none => rfl
    | some old => exact if_neg (hs.holds _ old hreplaced.symm).size_valueOf
  | _ => rfl

/-- The `Add`s that store a new key. -/
def Label.inserted : Label setting → Int
  | .publish _ _ none => 1
  | _ => 0

/-- The calls of `Remove` that return true. -/
def Label.removed : Label setting → Int
  | .respond (.ok (.removed true)) => 1
  | _ => 0

/-- The thread is about to return true from `Remove`. -/
def Thread.removes (th : Thread setting) : Int :=
  match th.phase with
  | .removed _ => 1
  | _ => 0

/-- The records that a thread has unlinked, but that it has not counted as evicted or reported as
removed. -/
def Thread.unlinked (th : Thread setting) : Int := th.owed .evictedRecordsCount + th.removes

/-- The records that are stored or counted as evicted. -/
def accounted (t : SharedHashTable setting) : Int :=
  contents setting.cacheRecordSerializer t .recordsCount + t.perfData .evictedRecordsCount

omit [Platform] in
theorem evicted_removed (rs : RecordSerializer) (record : RecordBuffer) (tasks : List Task)
    (phase : Phase setting) :
    (⟨(perfUpdatesForRemoved rs record).map .update ++ tasks, phase⟩ : Thread setting).owed
      .evictedRecordsCount = (⟨tasks, phase⟩ : Thread setting).owed .evictedRecordsCount :=
  (owed_updates _ tasks phase _).trans (Int.zero_add _)

omit [Platform] in
theorem evicted_added (rs : RecordSerializer) (stat : ReadWrite.Stat)
    (records : List RecordBuffer) (phase : Phase setting) :
    (⟨(updatePerfDataForAdd rs stat).map .update ++ records.map .release, phase⟩ :
      Thread setting).owed .evictedRecordsCount = 0 := by
  have hupdates :
      ((updatePerfDataForAdd rs stat).map (PerfUpdate.delta .evictedRecordsCount)).sum = 0 := by
    simp only [updatePerfDataForAdd]
    split_ifs <;> rfl
  rw [owed_updates, hupdates, owed_releases]
  rfl

theorem accounted_balance {t t' : SharedHashTable setting}
    (hcontents : contents setting.cacheRecordSerializer t' .recordsCount =
      contents setting.cacheRecordSerializer t .recordsCount + c)
    (hperf : t'.perfData = t.perfData) (hth : th'.unlinked = added - c) :
    accounted t' + th'.unlinked = accounted t + 0 + added := by
  rw [accounted, accounted, hcontents, hperf, hth]
  ring

theorem Act.insertions (h : Act (CacheConfig setting options) others t th label t' th')
    (hs : Sound setting.cacheRecordSerializer (CacheRecord setting) t.hashTable) (hth : Local th) :
    accounted t'.hashTable + th'.unlinked =
      accounted t.hashTable + th.unlinked + (label.inserted - label.removed) := by
  cases h with
  | update u tasks =>
    have hadds := hth.adds .evictedRecordsCount (.inr rfl) u List.mem_cons_self
    have hperf : u.apply t.hashTable.perfData .evictedRecordsCount = _ :=
      PerfUpdate.apply_of_adds hadds
    change contents _ t.hashTable _ + u.apply t.hashTable.perfData _ + _ = _
    simp only [Thread.unlinked, Thread.owed, Thread.removes, List.map_cons, List.sum_cons,
      Task.delta, hperf, Label.inserted, Label.removed, accounted]
    ring
  | release record tasks =>
    simp [Thread.unlinked, Thread.owed, Thread.removes, Task.delta, Label.inserted,
      Label.removed]
  | visitStays hcache hload hvisit =>
    obtain rfl := Option.some.inj hcache
    obtain ⟨-, hkey, hvalue⟩ := (keptByAccess_cacheRecord setting).visit hvisit (hs.holds _ _ hload)
    have hcontents := (touched_setBucket hload _).contents hload hkey hvalue .recordsCount
    exact accounted_balance (hcontents.trans (Int.add_zero _).symm) rfl rfl
  | visitRemoves hcache hload hvisit =>
    have hcontents := (ReadWrite.unlinked_of_load hload).contents
      setting.cacheRecordSerializer .recordsCount
    exact accounted_balance hcontents rfl (congrArg (· + 0) (evicted_removed _ _ _ _))
  | createRecordBuffer curEpochTime hcreate =>
    obtain ⟨allocator, rfl, -⟩ := createRecordBuffer_allocates hcreate
    exact (Int.add_zero _).symm
  | createRecordBufferThrows curEpochTime hcreate =>
    obtain ⟨allocator, rfl, -⟩ := createRecordBuffer_allocates hcreate
    exact (Int.add_zero _).symm
  | @add _ _ _ _ _ recordToDelete _ _ hinfo hlock hslot hpublish =>
    have hp := published_of_scan hs.consistent hinfo hslot hpublish
    have hcontents := hp.contents .recordsCount
    simp only [entryWeight, ite_self, Int.add_zero, Int.add_sub_assoc] at hcontents
    refine accounted_balance hcontents hp.stored.perfData ?_
    refine (congrArg (· + 0) (evicted_added _ _ _ _)).trans ?_
    rw [← hp.replaced]
    cases recordToDelete with
    | none => rfl
    | some old => rfl
  | remove hinfo hlock hfind =>
    have hload : t.hashTable.load (_, _) = some _ := (Bucket.find?_some hfind).1
    have hcontents := (ReadWrite.unlinked_of_load hload).contents
      setting.cacheRecordSerializer .recordsCount
    exact accounted_balance hcontents rfl (congrArg (· + 1) (evicted_removed _ _ _ _))
  | touch s r =>
    change accounted (TableThreads.touch t.hashTable setting.cacheRecordSerializer s r.address) +
      _ = _
    rcases touch_cases t.hashTable setting.cacheRecordSerializer s r.address with
      heq | ⟨record, hload, heq⟩
    · rw [heq]
      exact (Int.add_zero _).symm
    · obtain ⟨-, hkey, hvalue⟩ :=
        keptByAccess_cacheRecord setting record true (hs.holds _ _ hload)
      have hcontents := (touched_setBucket hload _).contents hload hkey hvalue .recordsCount
      rw [heq]
      exact accounted_balance (hcontents.trans (Int.add_zero _).symm) rfl rfl
  | returnRemove =>
    simp [Thread.unlinked, Thread.owed, Thread.removes, Label.inserted, Label.removed]
  | callAdd record =>
    simp only [startAdd]
    split_ifs
    · exact (Int.add_zero _).symm
    · exact (Int.add_zero _).symm
  | endSweep record sweep =>
    cases sweep with
    | basedOnTime curEpochTime => exact (Int.add_zero _).symm
    | clock curEpochTime numIterationsRemaining numBytesToFree => exact (Int.add_zero _).symm
  | calculate hcache curEpochTime =>
    simp only [afterCalculate]
    split_ifs
    · exact (Int.add_zero _).symm
    · exact (Int.add_zero _).symm
    · exact (Int.add_zero _).symm
  | getMisses => exact (Int.add_zero _).symm
  | _ => exact (Int.add_zero _).symm

/-- The threads have still to make the updates by which the counters are off the contents. -/
structure Invariant (p : System (CacheConfig setting options)) : Prop where
  sound : Sound setting.cacheRecordSerializer (CacheRecord setting) p.shared.hashTable
  threads : ∀ th ∈ p.threads, Local th
  counters : ∀ counter, Counted counter →
    slack counter p.shared.hashTable + (p.threads.map (Thread.owed counter)).sum = 0

theorem Invariant.step {p p' : System (CacheConfig setting options)} (h : Invariant p)
    (hstep : Transition.Guarded (fun _ l => l.Fits) (Step (CacheConfig setting options)) p l p') :
    Invariant p' := by
  obtain ⟨hfits, hstep⟩ := hstep
  refine ⟨?_, ?_, fun counter hc => ?_⟩
  · cases hstep with
    | intro before after hact =>
      have hth := h.threads _ (List.mem_append_right _ List.mem_cons_self)
      exact hact.sound (keptByAccess_cacheRecord setting) h.sound hth.carries
  · exact hstep.forall (I := fun _ th => Local th) (fun _ _ _ _ hact hth => hact.local hfits hth)
      (fun _ _ _ _ _ x _ _ hx => hx) h.threads
  · refine Eq.trans ?_ ((Int.add_zero _).trans (h.counters counter hc))
    refine ThreadPool.Step.balance
      (g := fun (t : Table (CacheConfig setting options)) => slack counter t.hashTable)
      (f := fun (th : Thread setting) => th.owed counter) hstep fun _ _ _ th hth hact => ?_
    rw [← hact.excess_eq_zero h.sound]
    exact hact.counters (keptByAccess_cacheRecord setting) h.sound
      ((h.threads th hth).adds counter (.inl hc)) hc

/-- The records that are stored, evicted, or about to be reported. -/
def inserted (p : System (CacheConfig setting options)) : Int :=
  accounted p.shared.hashTable + (p.threads.map Thread.unlinked).sum

theorem Invariant.inserted_eq {p p' : System (CacheConfig setting options)} (h : Invariant p)
    (hstep : Step (CacheConfig setting options) p l p') :
    inserted p' = inserted p + (l.inserted - l.removed) := by
  refine ThreadPool.Step.balance
    (g := fun (t : Table (CacheConfig setting options)) => accounted t.hashTable)
    (f := fun (th : Thread setting) => th.unlinked) hstep fun others t' th' th hth hact => ?_
  exact hact.insertions h.sound (h.threads th hth)

theorem Quiescent.inserted_eq {p : System (CacheConfig setting options)} (h : Quiescent p) :
    inserted p = accounted p.shared.hashTable := by
  rw [inserted, h.sum_eq_zero rfl, Int.add_zero]

omit [Platform] in
theorem sum_inserted_sub_removed (labels : List (Label setting)) :
    (labels.map fun l => l.inserted - l.removed).sum =
      (labels.map Label.inserted).sum - (labels.map Label.removed).sum := by
  induction labels with
  | nil => rfl
  | cons l labels ih =>
    simp only [List.map_cons, List.sum_cons, ih]
    ring

theorem initial_invariant (setting : Setting) (options : Options) (allocator : Allocator)
    (numThreads : Nat) :
    Invariant (initial (CacheConfig setting options) allocator numThreads) := by
  have hquiescent := quiescent_initial (CacheConfig setting options) allocator numThreads
  refine ⟨Cache.sound_create _ _ allocator, fun th hth => ?_, fun counter hc => ?_⟩
  · rw [hquiescent th hth]
    exact ⟨trivial, fun counter _ => adds_nil _ counter⟩
  · have hperf : (SharedHashTable.create setting allocator).perfData counter =
        contents setting.cacheRecordSerializer (.create setting allocator) counter := by
      rw [ReadWrite.perfData_create allocator hc, SharedHashTable.contents_create]
    rw [hquiescent.sum_eq_zero rfl]
    exact (Int.add_zero _).trans (Int.sub_eq_zero.mpr hperf)

/-- Between the operations of any number of threads, the counters of a cache describe its
contents, and each record that has been inserted is counted, evicted or removed. -/
theorem exact_of_quiescent (setting : Setting) (options : Options) (allocator : Allocator)
    (numThreads : Nat) (labels : List (Label setting)) (p : System (CacheConfig setting options))
    (hrun : Transition.Run
      (Transition.Guarded (fun _ l => l.Fits) (Step (CacheConfig setting options)))
      (initial (CacheConfig setting options) allocator numThreads) labels p)
    (hquiescent : Quiescent p) :
    (∀ counter, Counted counter → p.shared.hashTable.perfData counter =
      contents setting.cacheRecordSerializer p.shared.hashTable counter) ∧
    (labels.map Label.inserted).sum =
      p.shared.hashTable.perfData .recordsCount +
        p.shared.hashTable.perfData .evictedRecordsCount + (labels.map Label.removed).sum := by
  have hinitial := initial_invariant setting options allocator numThreads
  have h : Invariant p := hrun.invariant (fun _ _ _ => Invariant.step) hinitial
  have hcounters (counter : HashTablePerfCounter) (hc : Counted counter) :
      p.shared.hashTable.perfData counter =
        contents setting.cacheRecordSerializer p.shared.hashTable counter := by
    have hsum := h.counters counter hc
    rw [hquiescent.sum_eq_zero rfl, Int.add_zero] at hsum
    exact Int.sub_eq_zero.mp hsum
  refine ⟨hcounters, ?_⟩
  have hinserted := hrun.balance (fun _ _ _ => Invariant.step)
    (fun _ _ _ h hstep => Invariant.inserted_eq h hstep.2) hinitial
  have hempty : accounted (SharedHashTable.create setting allocator) = 0 :=
    congrArg (· + 0) (SharedHashTable.contents_create ..)
  rw [hquiescent.inserted_eq, (quiescent_initial _ allocator numThreads).inserted_eq,
    show (initial (CacheConfig setting options) allocator numThreads).shared.hashTable =
      .create setting allocator from rfl, hempty, sum_inserted_sub_removed, accounted,
    ← hcounters .recordsCount (by simp [Counted])] at hinserted
  omega

omit [Platform] in
/-- One thread adds a record, and another one removes it. -/
theorem exact_of_quiescent_of_add :
    let _ : Platform := ⟨fun _ => (7, 0), 8, 64⟩
    let config := CacheConfig {} ⟨1000, 100, false⟩
    ∃ labels p, Transition.Run (Transition.Guarded (fun _ l => l.Fits) (Step config))
        (initial config ⟨0, []⟩ 2) labels p ∧
      Quiescent p ∧ .respond (.ok (.removed true)) ∈ labels ∧
      (labels.map Label.inserted).sum =
        p.shared.hashTable.perfData .recordsCount +
          p.shared.hashTable.perfData .evictedRecordsCount + (labels.map Label.removed).sum := by
  intro _ config
  let record : Record := ⟨⟨[1], by decide⟩, ⟨[2], by decide⟩⟩
  let idle : Thread {} := ⟨[], .idle⟩
  let t : Table config := (initial config ⟨0, []⟩ 2).shared
  have hsound : Sound config.setting.cacheRecordSerializer (CacheRecord config.setting)
      t.hashTable := Cache.sound_create _ _ _
  have hlock (i : Setting.BucketIndex {}) : Unlocked [idle] i := by
    simp [Unlocked, Phase.lock, idle]
  have hroom : numBytesToFree ⟨1000, 100, false⟩ (Cache.totalDataSize t.hashTable.perfData)
      record = 0 := by decide +kernel
  obtain ⟨added, t', s, r, hadd, hcallAdd, ht', hload⟩ :=
    run_add [] [idle] hsound.consistent (by decide) rfl hroom (by decide) (by decide) hlock
  obtain ⟨removed, hashTable, hremove, hcallRemove, hmem, -⟩ :=
    run_remove (t := t') [idle] [] ht' hload hlock
  have hfits (l : Label {}) (hl : l ∈ added ++ removed) : l.Fits := by
    cases l with
    | call c =>
      rcases List.mem_append.mp hl with hl | hl
      · obtain rfl := hcallAdd c hl
        exact show 1 + 4 < 2 ^ 32 by decide
      · obtain rfl := hcallRemove c hl
        trivial
    | _ => trivial
  have hrun := (hadd.append hremove).guarded hfits
  have hquiescent : Quiescent ⟨t'.setHashTable hashTable, [idle, idle]⟩ := by simp [Quiescent, idle]
  exact ⟨_, _, hrun, hquiescent, List.mem_append_right _ hmem,
    (exact_of_quiescent {} _ ⟨0, []⟩ 2 _ _ hrun hquiescent).2⟩

end Cache

end L4.TableThreads
