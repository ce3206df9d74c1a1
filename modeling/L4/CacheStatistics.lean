import L4.TableThreadCounters

namespace L4.TableThreads
set_option autoImplicit true
open ReadWrite (perfUpdatesForRemoved updatePerfDataForAdd)
variable {config : HashTableConfig}

/-- The counters of the results of `Get`. -/
def Statistic (counter : HashTablePerfCounter) : Prop :=
  counter = .cacheHitCount ∨ counter = .cacheMissCount

/-- The counter that counts a result of `Get`. -/
def resultCounter : Option Value → HashTablePerfCounter
  | some _ => .cacheHitCount
  | none => .cacheMissCount

/-- The thread is about to return a result that the counter counts. -/
def Thread.answering (counter : HashTablePerfCounter) (th : Thread setting) : Int :=
  match th.phase with
  | .got value => if resultCounter value = counter then 1 else 0
  | _ => 0

/-- A result of `Get` that the counter counts. -/
def Label.answered (counter : HashTablePerfCounter) : Label setting → Int
  | .respond (.ok (.got value)) => if resultCounter value = counter then 1 else 0
  | _ => 0

section Step
variable [Platform] {others : List (Thread config.setting)} {t t' : Table config}
  {th th' : Thread config.setting} {label : Label config.setting} {counter : HashTablePerfCounter}

omit [Platform] in
theorem updatePerfDataForAdd_statistic (rs : RecordSerializer) (stat : ReadWrite.Stat)
    (hc : Statistic counter) :
    (∀ u ∈ updatePerfDataForAdd rs stat, u.Adds counter) ∧
      ((updatePerfDataForAdd rs stat).map (PerfUpdate.delta counter)).sum = 0 := by
  simp only [updatePerfDataForAdd]
  rcases hc with rfl | rfl <;> split_ifs <;>
    simp [PerfUpdate.Adds, PerfUpdate.increment, PerfUpdate.delta]

omit [Platform] in
theorem perfUpdatesForRemoved_statistic (rs : RecordSerializer) (record : RecordBuffer)
    (hc : Statistic counter) :
    ((perfUpdatesForRemoved rs record).map (PerfUpdate.delta counter)).sum = 0 := by
  rw [ReadWrite.perfUpdatesForRemoved_delta]
  rcases hc with rfl | rfl <;> rfl

theorem Act.adds (h : Act config others t th label t' th') (hc : Statistic counter)
    (hth : th.Adds counter) : th'.Adds counter := by
  cases h with
  | update u tasks => exact fun u' hu' => hth u' (List.mem_cons_of_mem _ hu')
  | release record tasks => exact fun u' hu' => hth u' (List.mem_cons_of_mem _ hu')
  | visitRemoves hcache hload hvisit =>
    refine adds_updates (ReadWrite.perfUpdatesForRemoved_adds _ counter _) fun u hu => ?_
    simp only [List.mem_cons, reduceCtorEq, Task.update.injEq, List.not_mem_nil, or_false,
      false_or] at hu
    rw [hu]
    trivial
  | add hinfo hlock hslot hpublish =>
    refine adds_updates (updatePerfDataForAdd_statistic _ _ hc).1 fun u hu => ?_
    obtain ⟨record, -, hrecord⟩ := List.mem_map.mp hu
    cases hrecord
  | remove hinfo hlock hfind =>
    refine adds_updates (ReadWrite.perfUpdatesForRemoved_adds _ counter _) fun u hu => ?_
    cases List.mem_singleton.mp hu
  | touch s r =>
    intro u hu
    obtain rfl := Task.update.inj (List.mem_singleton.mp hu)
    trivial
  | getMisses =>
    intro u hu
    split_ifs at hu
    · obtain rfl := Task.update.inj (List.mem_singleton.mp hu)
      trivial
    · cases hu
  | _ => exact adds_nil _ counter

omit [Platform] in
theorem owed_result {value : Option Value} {result : HashTablePerfCounter}
    (hresult : resultCounter value = result) (counter : HashTablePerfCounter) :
    (⟨[.update (.increment result)], .got value⟩ : Thread setting).owed counter =
      (⟨[.update (.increment result)], .got value⟩ : Thread setting).answering counter := by
  simp only [Thread.owed, Thread.answering, hresult, List.map_cons, List.map_nil, List.sum_cons,
    List.sum_nil, Task.delta, PerfUpdate.increment, PerfUpdate.delta, Int.add_zero]

omit [Platform] in
theorem statistic_of_frame {tasks tasks' : List Task} {phase phase' : Phase config.setting}
    (hperf : t'.hashTable.perfData = t.hashTable.perfData)
    (howed : (⟨tasks', phase'⟩ : Thread config.setting).owed counter =
      (⟨tasks, phase⟩ : Thread config.setting).owed counter)
    (hth : (⟨tasks', phase'⟩ : Thread config.setting).answering counter =
      (⟨tasks, phase⟩ : Thread config.setting).answering counter)
    (hlabel : label.answered counter = 0) :
    t'.hashTable.perfData counter + ((⟨tasks', phase'⟩ : Thread config.setting).owed counter -
        (⟨tasks', phase'⟩ : Thread config.setting).answering counter) =
      t.hashTable.perfData counter + ((⟨tasks, phase⟩ : Thread config.setting).owed counter -
        (⟨tasks, phase⟩ : Thread config.setting).answering counter) + label.answered counter := by
  rw [hperf, howed, hth, hlabel, Int.add_zero]

/-- A result of `Get` is counted when its thread has made all its updates. -/
theorem Act.statistic (h : Act config others t th label t' th') (hcache : config.cache.isSome)
    (hc : Statistic counter) (hth : th.Adds counter) :
    t'.hashTable.perfData counter + (th'.owed counter - th'.answering counter) =
      t.hashTable.perfData counter + (th.owed counter - th.answering counter) +
        label.answered counter := by
  cases h with
  | update u tasks =>
    have hperf : u.apply t.hashTable.perfData counter = _ :=
      PerfUpdate.apply_of_adds (hth u List.mem_cons_self)
    change u.apply t.hashTable.perfData counter + _ = _
    simp only [hperf, Thread.owed, List.map_cons, List.sum_cons, Task.delta, Thread.answering,
      Label.answered]
    ring
  | release record tasks => exact statistic_of_frame rfl (Int.zero_add _).symm rfl rfl
  | callAdd record =>
    refine statistic_of_frame rfl rfl ?_ rfl
    simp only [startAdd]
    split
    · rfl
    · split <;> rfl
  | endSweep record sweep => cases sweep <;> exact statistic_of_frame rfl rfl rfl rfl
  | calculate hcache' curEpochTime =>
    refine statistic_of_frame rfl rfl ?_ rfl
    simp only [afterCalculate]
    split_ifs <;> rfl
  | visitRemoves hcache' hload hvisit =>
    refine statistic_of_frame rfl ?_ rfl rfl
    rw [owed_updates, perfUpdatesForRemoved_statistic _ _ hc]
    rcases hc with rfl | rfl <;> rfl
  | createRecordBuffer curEpochTime hcreate =>
    obtain ⟨allocator, rfl, -⟩ := createRecordBuffer_allocates hcreate
    exact statistic_of_frame rfl rfl rfl rfl
  | createRecordBufferThrows curEpochTime hcreate =>
    obtain ⟨allocator, rfl, -⟩ := createRecordBuffer_allocates hcreate
    exact statistic_of_frame rfl rfl rfl rfl
  | add hinfo hlock hslot hpublish =>
    refine statistic_of_frame (congrArg (·.2.2.perfData) hpublish).symm ?_ rfl rfl
    rw [owed_updates, (updatePerfDataForAdd_statistic _ _ hc).2, owed_releases]
    rfl
  | remove hinfo hlock hfind =>
    refine statistic_of_frame rfl ?_ rfl rfl
    rw [owed_updates, perfUpdatesForRemoved_statistic _ _ hc]
    rfl
  | getReads hnone => simp [hnone] at hcache
  | touch s r =>
    have hperf := congrFun (touch_perfData t.hashTable config.recordSerializer s r.address) counter
    change (TableThreads.touch t.hashTable config.recordSerializer s r.address).perfData counter +
      _ = _
    have hresult : resultCounter
        (some (Cache.withoutMetadata (config.recordSerializer.valueOf r))) = .cacheHitCount := rfl
    rw [hperf, owed_result hresult counter, Int.sub_self]
    exact (Int.add_zero _).symm
  | getMisses =>
    have hresult : resultCounter none = .cacheMissCount := rfl
    rw [if_pos hcache, owed_result hresult counter, Int.sub_self]
    exact (Int.add_zero _).symm
  | returnGet =>
    simp only [Thread.owed, Thread.answering, Label.answered]
    ring
  | _ => exact statistic_of_frame rfl rfl rfl rfl

end Step

section Results
variable [Platform]

/-- What holds of a cache and its threads at any moment. -/
structure Statistics (p : System config) : Prop where
  adds : ∀ counter, Statistic counter → ∀ th ∈ p.threads, th.Adds counter

theorem Statistics.step {p p' : System config} (h : Statistics p)
    (hstep : Step config p label p') : Statistics p' where
  adds counter hc := hstep.forall (I := fun _ th => th.Adds counter)
    (fun _ _ _ _ hact hth => hact.adds hc hth) (fun _ _ _ _ _ _ _ _ hx => hx) (h.adds counter hc)

theorem Statistics.balance {p p' : System config} (h : Statistics p)
    (hcache : config.cache.isSome) (hc : Statistic counter) (hstep : Step config p label p') :
    p'.shared.hashTable.perfData counter +
        (p'.threads.map fun th => th.owed counter - th.answering counter).sum =
      p.shared.hashTable.perfData counter +
        (p.threads.map fun th => th.owed counter - th.answering counter).sum +
          label.answered counter :=
  ThreadPool.Step.balance (g := fun (t : Table config) => t.hashTable.perfData counter) hstep
    fun _ _ _ th hth hact => hact.statistic hcache hc (h.adds counter hc th hth)

/-- The hits and the misses of a cache are the results of its `Get`s: between the operations of any
number of threads exactly, and at any moment up to the threads that know their result and those
that have not counted it. -/
theorem statistics_of_run (config : HashTableConfig) (hcache : config.cache.isSome)
    (allocator : Allocator) (numThreads : Nat) (labels : List (Label config.setting))
    (p : System config) (hrun : Transition.Run (Step config)
      (initial config allocator numThreads) labels p)
    (counter : HashTablePerfCounter) (hc : Statistic counter) :
    p.shared.hashTable.perfData counter + (p.threads.map (Thread.owed counter)).sum =
        (labels.map (Label.answered counter)).sum + (p.threads.map (Thread.answering counter)).sum ∧
      (Quiescent p → p.shared.hashTable.perfData counter =
        (labels.map (Label.answered counter)).sum) := by
  have hquiescent := quiescent_initial config allocator numThreads
  have hinitial : Statistics (initial config allocator numThreads) := ⟨fun counter _ th hth => by
    rw [hquiescent th hth]
    exact adds_nil _ counter⟩
  have hbalance := hrun.balance (fun _ _ _ => Statistics.step)
    (fun _ _ _ h hstep => h.balance hcache hc hstep) hinitial
  have hzero : (initial config allocator numThreads).shared.hashTable.perfData counter = 0 := by
    rcases hc with rfl | rfl <;> rfl
  have hsum : (p.threads.map (Thread.owed counter)).sum =
      (p.threads.map fun th => th.owed counter - th.answering counter).sum +
        (p.threads.map (Thread.answering counter)).sum := by
    rw [← List.sum_map_add]
    simp
  rw [hzero, hquiescent.sum_eq_zero rfl, Int.zero_add, Int.zero_add] at hbalance
  change _ = (labels.map (Label.answered counter)).sum at hbalance
  refine ⟨by omega, fun hp => ?_⟩
  rw [hp.sum_eq_zero rfl, Int.add_zero] at hbalance
  exact hbalance

omit [Platform] in
/-- One thread looks a key up before and after it adds a record. -/
theorem statistics_of_run_get :
    let _ : Platform := ⟨fun _ => (7, 0), 8, 64⟩
    let config := CacheConfig {} ⟨1000, 100, false⟩
    ∃ labels t value, Transition.Run (Step config) (initial config ⟨0, []⟩ 1) labels
        ⟨t, [⟨[], .idle⟩]⟩ ∧
      .respond (.ok (.got none)) ∈ labels ∧ .respond (.ok (.got (some value))) ∈ labels ∧
      t.hashTable.perfData .cacheMissCount = 1 ∧ t.hashTable.perfData .cacheHitCount = 1 := by
  intro _ config
  let rs := config.setting.cacheRecordSerializer
  let record : Record := ⟨⟨[1], by decide⟩, ⟨[2], by decide⟩⟩
  let t₀ : Table config := (initial config ⟨0, []⟩ 1).shared
  let t : Table config := t₀.setHashTable
    (t₀.hashTable.updatePerfData [.increment .cacheMissCount])
  have hmiss : Transition.Run (Step config) ⟨t₀, [⟨[], .idle⟩]⟩
      [.call (.get record.key), .silent, .silent, .respond (.ok (.got none))]
      ⟨t, [⟨[], .idle⟩]⟩ :=
    .cons (.intro [] [] (.callGet record.key)) (.cons (.intro [] [] .getMisses)
      (.cons (.intro [] [] (.update _ [])) (.single (.intro [] [] .returnGet))))
  have ht : t.hashTable.Consistent rs :=
    (SharedHashTable.consistent_create rs ⟨0, []⟩).congr rfl rfl
  have hroom : numBytesToFree ⟨1000, 100, false⟩ (Cache.totalDataSize t.hashTable.perfData)
      record = 0 := by decide +kernel
  obtain ⟨r, allocator, s, stat, old, hashTable, hcached, hp, hpublish⟩ :=
    run_publish [] [] ht (by decide) rfl hroom (by decide) (by decide) (by simp [Unlocked])
  have hload : hashTable.load s = some r := by
    rw [hp.stored.load, Function.update_self]
  have hfresh : Cache.Metadata.isExpired (Cache.metadataOf rs r) 0 100 = false := by
    rw [Cache.Metadata.isExpired, hcached.getEpochTime_eq]
    decide
  obtain ⟨t', value, hget⟩ := run_get (t := (t.setHashTable hashTable).setHashTable
      (hashTable.updatePerfData (ReadWrite.updatePerfDataForAdd rs stat))) [] [] hload hfresh
  have hrun := hmiss.append ((hpublish.append (run_count _ _ _ _ _)).append hget)
  have hidle : ∀ th ∈ [(⟨[], .idle⟩ : Thread {})], th = ⟨[], .idle⟩ :=
    fun th hth => List.mem_singleton.mp hth
  have hcount (counter : HashTablePerfCounter) (hc : Statistic counter) :=
    (statistics_of_run config rfl ⟨0, []⟩ 1 _ _ hrun counter hc).2 hidle
  refine ⟨_, t', value, hrun, by simp, by simp, ?_, ?_⟩
  · rw [hcount _ (.inr rfl)]
    simp [Label.answered, resultCounter, Function.comp_def]
  · rw [hcount _ (.inl rfl)]
    simp [Label.answered, resultCounter, Function.comp_def]

end Results

end L4.TableThreads
